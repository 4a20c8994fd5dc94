import NpuCompiler.Bitc.Algorithms

namespace NpuCompiler.Bitc

namespace Encoder

structure BestAlgorithm where
  minEncoderBits : ℕ
  minParam : AlgorithmParam
  dualMinEncoderBits : ℕ
  dualMinParam : AlgorithmParam
  deriving DecidableEq, Repr

def emptyParam : AlgorithmParam := ⟨.minprdct, .addproc, [], 0, 0, 0, 0, 0, 0⟩

def keepBest (best : BestAlgorithm) (param : AlgorithmParam) : BestAlgorithm :=
  let best := if param.encodingBits < best.minEncoderBits then
    { best with minEncoderBits := param.encodingBits, minParam := param } else best
  if param.dualEncodingBits < best.dualMinEncoderBits then
    { best with dualMinEncoderBits := param.dualEncodingBits, dualMinParam := param } else best

def getBestAlgorithm (config : BitCompactorConfig) (blk : ℕ) (data prevBlk : List UInt8) : BestAlgorithm :=
  (((algorithms config).filter (isAlgoValid · blk)).map (blockParam config data prevBlk)).foldl keepBest
    ⟨2 ^ 32 - 1, emptyParam, 2 ^ 32 - 1, emptyParam⟩

def isCompressionBetterThanUncompressed (config : BitCompactorConfig) (best : BestAlgorithm) : Bool :=
  decide (best.minEncoderBits < maxBlockCompressionBits config) ||
    decide (best.dualMinEncoderBits < maxBlockCompressionBits config)

def usingDualEncoder (best : BestAlgorithm) : Bool := decide (best.dualMinEncoderBits < best.minEncoderBits)

def getDualEncodeLen (config : BitCompactorConfig) (param : AlgorithmParam) : ℕ :=
  if config.archType = .npu27 then param.dualEncodingBits - algorithmOverheadBits param.encoderIndex - 74
  else (List.range blockSize).foldl
    (fun encodeLen i => encodeLen + if param.dualBitmap.testBit i then 8 else param.bitLength) 0

def headerBits (type : CompressionType) (algo bitLength dualEncode dualEncodeLength : ℕ) : ℕ :=
  type.code + 2 ^ 2 * (algo % 2 ^ 3 + 2 ^ 3 * (bitLength % 2 ^ 3 + 2 ^ 3 * (dualEncode % 2 ^ 2 + 2 ^ 2 *
    (dualEncodeLength % 2 ^ 10))))

def createCompressionHeader (config : BitCompactorConfig) (type : CompressionType) (param : AlgorithmParam)
    (dualEncode : Bool) : ℕ :=
  if dualEncode then headerBits type param.decoder.code param.bitLength 1 (getDualEncodeLen config param)
  else headerBits type param.decoder.code param.bitLength 0 0

def writePad (config : BitCompactorConfig) (stream : BitStream) (bits : ℕ) : Option BitStream :=
  if config.archType ≠ .npu27 then stream.write 0 bits else some stream

def writeSymbols (bitLength : ℕ) : List UInt8 → ℕ → BitStream → ℕ → ℕ → ℕ → Option (BitStream × ℕ × ℕ × ℕ)
  | [], _, stream, bits, bitCount, totalBitCount => some (stream, bits, bitCount, totalBitCount)
  | symbol :: residual, dualBitmap, stream, bits, bitCount, totalBitCount =>
    let length := if dualBitmap % 2 = 1 then 8 else bitLength
    if bitCount + length > 64 then do
      let stream ← stream.write bits bitCount
      writeSymbols bitLength residual (dualBitmap / 2) stream (symbol.toNat % 2 ^ length) length (totalBitCount + length)
    else
      writeSymbols bitLength residual (dualBitmap / 2) stream (bits ||| (symbol.toNat % 2 ^ length) <<< bitCount)
        (bitCount + length) (totalBitCount + length)

def writeResidual (config : BitCompactorConfig) (stream : BitStream) (residual : List UInt8)
    (bitLength dualBitmap : ℕ) : Option BitStream := do
  let (stream, bits, bitCount, totalBitCount) ← writeSymbols bitLength residual dualBitmap stream 0 0 0
  let stream ← if bitCount ≠ 0 then stream.write bits bitCount else some stream
  writePad config stream (byteAlign totalBitCount - totalBitCount)

def writeDualEncodeHeader (config : BitCompactorConfig) (best : BestAlgorithm) :
    Option (BitStream × AlgorithmParam) := do
  let param := { best.dualMinParam with bitLength := best.dualMinParam.dualBitLength }
  let stream := BitStream.default.allocateBits param.dualEncodingBits
  let stream ← stream.write (createCompressionHeader config .cmprsd param true) 20
  let stream ← writePad config stream 4
  return (stream, param)

def writeCompressedHeader (config : BitCompactorConfig) (best : BestAlgorithm) :
    Option (BitStream × AlgorithmParam) := do
  let param := { best.minParam with dualBitmap := 0 }
  let stream := BitStream.default.allocateBits param.encodingBits
  let stream ← stream.write (createCompressionHeader config .cmprsd param false) 10
  let stream ← writePad config stream 6
  return (stream, param)

def hasMinimum (decoder : DecoderAlgorithm) : Bool := decoder = .addproc || decoder = .signshftaddproc

def writeCompressedBlk (config : BitCompactorConfig) (best : BestAlgorithm) : Option BitStream := do
  let (stream, param) ← if usingDualEncoder best then writeDualEncodeHeader config best
    else writeCompressedHeader config best
  let stream ← if hasMinimum param.decoder then stream.write param.minimum.toNat 8 else some stream
  let stream ← if usingDualEncoder best then stream.write param.dualBitmap 64 else some stream
  writeResidual config stream param.residual param.bitLength param.dualBitmap

def writeUncompressedBlk (config : BitCompactorConfig) (data : List UInt8) : Option BitStream := do
  let stream := BitStream.default.allocateBits (maxBlockCompressionBits config)
  let stream ← stream.write (headerBits .uncmprsd 0 0 0 0) 2
  let stream ← writePad config stream 6
  writeResidual config stream data 8 0

def writeLastBlk (data : List UInt8) : Option BitStream := do
  let stream := BitStream.default.allocateBits ((data.length + 1) * 8)
  let stream ← stream.write (CompressionType.lastblk.code + 2 ^ 2 * (data.length % 2 ^ 6)) 8
  data.foldlM (fun stream byte => stream.write byte.toNat 8) stream

def outputByteAlignment : ℕ := 32

def writeToOutput (blockStream : List BitStream) : Option (List UInt8) := do
  let totalBitCount := blockStream.foldl (fun total stream => u32 (total + stream.bitPosition)) 0
  let stream := BitStream.default.allocateBits totalBitCount
  let stream ← blockStream.foldlM BitStream.append stream
  let stream ← stream.write 0 2
  stream.readBytes outputByteAlignment

/-- `fp16enprdct` on two blocks: the shifted low bytes, then the shifted high bytes, each with the sign bit of
the other. -/
def interleave (src : List UInt8) : List UInt8 :=
  let pairs := (List.range (src.length / 2)).map (fun i => (src.getD (2 * i) 0, src.getD (2 * i + 1) 0))
  pairs.map (fun (lower, upper) => lower <<< 1 ||| (upper &&& 0x80) >>> 7) ++
    pairs.map (fun (lower, upper) => upper <<< 1 ||| (lower &&& 0x80) >>> 7)

def fp16enprdct : ℕ → List UInt8 → List UInt8
  | 0, src => src
  | chunks + 1, src =>
    if 2 * blockSize ≤ src.length then
      interleave (src.take (2 * blockSize)) ++ fp16enprdct chunks (src.drop (2 * blockSize))
    else src

def fp16Preprocess (stream : BitStream) : Option BitStream := do
  let src ← stream.bytesAt 0 stream.sourceByteCount
  BitStream.ofBytes (fp16enprdct src.length src)

def encodeBlk (config : BitCompactorConfig) (stream : BitStream) (blk : ℕ) : Option BitStream := do
  let data ← stream.bytesAt (blk * blockSize) blockSize
  -- the first block has no previous one, and no algorithm that reads it
  let prevBlk ← if blk = 0 then some [] else stream.bytesAt (blk * blockSize - blockSize) blockSize
  let best := getBestAlgorithm config blk data prevBlk
  if isCompressionBetterThanUncompressed config best then writeCompressedBlk config best
  else writeUncompressedBlk config data

def encodeBlocks (config : BitCompactorConfig) (stream : BitStream) : Option (List BitStream) := do
  let inputBytes := stream.sourceByteCount
  let inputBlocks := inputBytes / 64
  let lastBlockElements := inputBytes - inputBlocks * 64
  let stream ← if config.modeFp16Enable then fp16Preprocess stream else some stream
  let blockStream ← (List.range inputBlocks).mapM (encodeBlk config stream)
  if lastBlockElements > 0 then
    let data ← stream.bytesAt (inputBlocks * blockSize) lastBlockElements
    let last ← writeLastBlk data
    return blockStream ++ [last]
  else return blockStream

def bounds {α : Type} (access : Option α) : Except Failure α :=
  match access with
  | some value => .ok value
  | none => .error .outOfBounds

structure SparsePacking where
  dst : List UInt8
  srcIdx : ℕ
  bitCnt : ℕ
  btmBlockStart : ℕ
  datablockStart : ℕ
  deriving DecidableEq, Repr

def popcount (byte : UInt8) : ℕ := ((List.range 8).map (fun bitPos => byte.toNat / 2 ^ bitPos % 2)).sum

def packBitmapByte (config : BitCompactorConfig) (stream : BitStream) (p : SparsePacking) (bitmapByte : UInt8) :
    Except Failure SparsePacking := do
  let typeBytes := if config.modeFp16Enable then 2 else 1
  let bitmapBlockSize := config.sparseBlockSize / (8 * typeBytes)
  let push := fun (dst bytes : List UInt8) =>
    bounds (if dst.length + bytes.length ≤ stream.sourceByteCount then some (dst ++ bytes) else none)
  let bitCnt := p.bitCnt + popcount bitmapByte
  let srcIdx := p.srcIdx + 8 * typeBytes
  if srcIdx % config.sparseBlockSize = 0 then
    let block := (config.bitmap.drop p.btmBlockStart).take bitmapBlockSize
    let block ← bounds (if block.length = bitmapBlockSize then some block else none)
    let dst ← push p.dst block
    let header := if bitCnt < 128 then [UInt8.ofNat (bitCnt * 2)]
      else [UInt8.ofNat (bitCnt * 4 ||| 1), UInt8.ofNat ((bitCnt * 4 ||| 1) / 2 ^ 8)]
    let dst ← push dst header
    let data ← bounds (stream.bytesAt p.datablockStart (bitCnt * typeBytes))
    let dst ← push dst data
    return ⟨dst, srcIdx, 0, p.btmBlockStart + bitmapBlockSize, srcIdx⟩
  else return { p with srcIdx, bitCnt }

def packSparseData (config : BitCompactorConfig) (stream : BitStream) : Except Failure BitStream := do
  if config.sparseBlockSize = 0 ∨ config.sparseBlockSize % 16 ≠ 0 then
    throw (.error "(pack_sparse_data): Sparse block size invalid")
  if config.bitmap.length = 0 then throw (.error "(pack_sparse_data): Bitmap size 0")
  if stream.sourceByteCount % config.sparseBlockSize ≠ 0 then
    throw (.error "(pack_sparse_data): Invalid configuration")
  let p ← config.bitmap.foldlM (packBitmapByte config stream) ⟨[], 0, 0, 0, 0⟩
  bounds (BitStream.ofBytes p.dst)

def encode (config : BitCompactorConfig) (input : List UInt8) : Except Failure (List UInt8) := do
  let stream ← bounds (BitStream.ofBytes input)
  verifyConfig config
  let stream ← if config.sparseModeEnable then packSparseData config stream else pure stream
  if config.bypassCompression then bounds (stream.bytesAt 0 stream.sourceByteCount)
  else
    let blockStream ← bounds (encodeBlocks config stream)
    bounds (writeToOutput blockStream)

end Encoder

end NpuCompiler.Bitc

namespace NpuCompiler.Bitc

namespace Decoder

structure State where
  streamBitOffset : ℕ
  bitLength : ℕ
  blockSize : ℕ
  dualBitmap : ℕ
  blockOffset : UInt8
  outputStream : List UInt8
  signedResidual : Bool
  prevBlock : Bool
  deriving DecidableEq, Repr

def init : State := ⟨0, 0, 0, 0, 0, [], false, false⟩

structure Header where
  compressionType : ℕ
  algo : ℕ
  bitLength : ℕ
  dualEncode : ℕ
  deriving DecidableEq, Repr

def Header.ofBits (bits : ℕ) : Header :=
  ⟨bits % 2 ^ 2, bits / 2 ^ 2 % 2 ^ 3, bits / 2 ^ 5 % 2 ^ 3, bits / 2 ^ 8 % 2 ^ 2⟩

def lastBlockLength (bits : ℕ) : ℕ := bits / 2 ^ 2 % 2 ^ 6

def signedResidual (residual : UInt8) : UInt8 :=
  if residual &&& 1 = 1 then UInt8.ofInt ((-(residual.toNat : ℤ) - 1) / 2) ||| 0x80 else residual >>> 1

/-- The loop of `read_residual`, with the 64 bits read last, how many of them are left and the offset behind them. -/
def readSymbols (stream : BitStream) (bitLength : ℕ) : ℕ → ℕ → ℕ → ℕ → ℕ → Option (List UInt8 × ℕ × ℕ)
  | 0, _, _, bitCount, offset => some ([], bitCount, offset)
  | left + 1, symbolBitmap, bits, bitCount, offset => do
    let bitlen := if symbolBitmap % 2 = 1 then 8 else bitLength
    let (bits, bitCount, offset) ← if bitlen > bitCount then do
        let bits ← stream.readBits (offset - bitCount)
        pure (bits, 64, offset - bitCount + 64)
      else some (bits, bitCount, offset)
    let (symbols, bitCount, offset) ←
      readSymbols stream bitLength left (symbolBitmap / 2) (bits / 2 ^ bitlen) (bitCount - bitlen) offset
    return (UInt8.ofNat (bits % 2 ^ bitlen) :: symbols, bitCount, offset)

def readResidual (config : BitCompactorConfig) (stream : BitStream) (d : State) : Option State := do
  let bits ← stream.readBits d.streamBitOffset
  let (symbols, bitCount, offset) ←
    readSymbols stream d.bitLength d.blockSize d.dualBitmap bits 64 (d.streamBitOffset + 64)
  let offset := offset - bitCount
  let offset := if config.archType ≠ .npu27 then byteAlign offset else offset
  let residual := symbols ++ List.replicate (blockSize - symbols.length) 0
  let residual := if d.signedResidual then residual.map Decoder.signedResidual else residual
  let residual ← if d.prevBlock then
      if blockSize ≤ d.outputStream.length then
        some (List.zipWith (· + ·) residual (d.outputStream.drop (d.outputStream.length - blockSize)))
      else none
    else some residual
  return { d with streamBitOffset := offset, outputStream := d.outputStream ++ residual.map (· + d.blockOffset) }

def eofrHp (d : State) : State := { d with blockSize := 0 }

def lastblkHp (config : BitCompactorConfig) (stream : BitStream) (bits : ℕ) (d : State) : Option State :=
  readResidual config stream
    { d with
      blockSize := lastBlockLength bits
      signedResidual := false
      prevBlock := false
      bitLength := 8
      dualBitmap := 0
      streamBitOffset := d.streamBitOffset + 8 }

def uncmprsdHp (config : BitCompactorConfig) (stream : BitStream) (d : State) : Option State :=
  readResidual config stream
    { d with
      dualBitmap := 0
      signedResidual := false
      prevBlock := false
      bitLength := 8
      blockOffset := 0
      blockSize := Bitc.blockSize
      streamBitOffset := d.streamBitOffset + 2 + if config.archType ≠ .npu27 then 6 else 0 }

def decodeAddproc (stream : BitStream) (d : State) : Option State := do
  let bits ← stream.readBits d.streamBitOffset
  return { d with blockOffset := UInt8.ofNat bits, streamBitOffset := d.streamBitOffset + 8 }

def algorithmDecoder (stream : BitStream) (algo : ℕ) (d : State) : Option State :=
  match algo with
  | 1 => some { d with signedResidual := true }
  | 2 => decodeAddproc stream { d with signedResidual := true }
  | 3 => decodeAddproc stream d
  | 4 => some { d with signedResidual := true, prevBlock := true }
  | _ => some d

def cmprsdHp (config : BitCompactorConfig) (stream : BitStream) (header : Header) (d : State) : Option State := do
  let dual := header.dualEncode ≠ 0
  let pad := if config.archType ≠ .npu27 then if dual then 4 else 6 else 0
  let d := { d with
    bitLength := if header.bitLength = 0 then 8 else header.bitLength
    blockSize := Bitc.blockSize
    dualBitmap := 0
    signedResidual := false
    prevBlock := false
    streamBitOffset := d.streamBitOffset + 10 + (if dual then 10 else 0) + pad }
  let d ← algorithmDecoder stream header.algo d
  if dual then
    let bitmap ← stream.readBits d.streamBitOffset
    readResidual config stream { d with dualBitmap := bitmap, streamBitOffset := d.streamBitOffset + Bitc.blockSize }
  else readResidual config stream d

def decodeBlocks (config : BitCompactorConfig) (stream : BitStream) : ℕ → State → ℕ → Option (State × ℕ)
  | 0, _, _ => none
  | fuel + 1, d, decompressionLength => do
    let d := { d with blockOffset := 0 }
    let bits ← stream.readBits d.streamBitOffset
    let header := Header.ofBits bits
    if header.compressionType = CompressionType.eofr.code then
      return (eofrHp d, decompressionLength)
    else
      let d ← if header.compressionType = CompressionType.cmprsd.code then cmprsdHp config stream header d
        else if header.compressionType = CompressionType.lastblk.code then lastblkHp config stream bits d
        else uncmprsdHp config stream d
      decodeBlocks config stream fuel d (u32 (decompressionLength + d.blockSize))

def deinterleave (src : List UInt8) : List UInt8 :=
  (List.range Bitc.blockSize).flatMap (fun i =>
    let lower := src.getD i 0
    let upper := src.getD (Bitc.blockSize + i) 0
    [lower >>> 1 ||| (upper &&& 1) <<< 7, upper >>> 1 ||| (lower &&& 1) <<< 7])

def fp16Loop : ℕ → ℕ → List UInt8 → Option (List UInt8)
  | 0, _, _ => none
  | fuel + 1, i, output =>
    if i ≤ (2 ^ 64 + output.length - 2 * Bitc.blockSize) % 2 ^ 64 then
      if i + 2 * Bitc.blockSize ≤ output.length then
        fp16Loop fuel (i + 2 * Bitc.blockSize) (output.take i ++
          deinterleave ((output.drop i).take (2 * Bitc.blockSize)) ++ output.drop (i + 2 * Bitc.blockSize))
      else none
    else some output

def decode (config : BitCompactorConfig) (fuel : ℕ) (encoded : List UInt8) : Except Failure (List UInt8) := do
  let stream ← Encoder.bounds (BitStream.ofBytes encoded)
  verifyConfig config
  if config.bypassCompression then Encoder.bounds (stream.bytesAt 0 stream.sourceByteCount)
  else
    let (d, decompressionLength) ← Encoder.bounds (decodeBlocks config stream fuel init 0)
    let output := d.outputStream.take decompressionLength ++
      List.replicate (decompressionLength - d.outputStream.length) 0
    if config.modeFp16Enable then Encoder.bounds (fp16Loop (output.length + 1) 0 output) else return output

end Decoder

end NpuCompiler.Bitc
