import Mathlib.Data.List.Sort
import NpuCompiler.Bitc.BitStream

namespace NpuCompiler.Bitc

inductive ArchType
  | npu27
  | npu4
  | npu5
  deriving DecidableEq, Repr

structure BitCompactorConfig where
  archType : ArchType
  sparseModeEnable : Bool
  weightCompressEnable : Bool
  bypassCompression : Bool
  modeFp16Enable : Bool
  bitmap : List UInt8
  sparseBlockSize : ℕ
  deriving DecidableEq, Repr

inductive Failure
  | error (message : String)
  | outOfBounds
  deriving DecidableEq, Repr

def verifyConfig (config : BitCompactorConfig) : Except Failure Unit := do
  if config.archType = .npu27 then
    if config.modeFp16Enable then throw (.error "FP16 is not supported when using NPU27")
    if config.sparseModeEnable then throw (.error "NPU27 doesn't support sparse mode")
    if !config.weightCompressEnable then throw (.error "NPU27 doesn't support activation compression")
  if config.archType = .npu4 then
    if config.sparseModeEnable then throw (.error "NPU4 doesn't suport sparse mode")

def blockSize : ℕ := 64

inductive CompressionType
  | eofr
  | lastblk
  | uncmprsd
  | cmprsd
  deriving DecidableEq, Repr

def CompressionType.code : CompressionType → ℕ
  | .eofr => 0
  | .lastblk => 1
  | .uncmprsd => 2
  | .cmprsd => 3

inductive DecoderAlgorithm
  | noproc
  | signshftproc
  | signshftaddproc
  | addproc
  | signshftaddblk
  | lftshftproc
  | binexpproc
  | btexpproc
  deriving DecidableEq, Repr

def DecoderAlgorithm.code : DecoderAlgorithm → ℕ
  | .noproc => 0
  | .signshftproc => 1
  | .signshftaddproc => 2
  | .addproc => 3
  | .signshftaddblk => 4
  | .lftshftproc => 5
  | .binexpproc => 6
  | .btexpproc => 7

inductive EncoderAlgorithm
  | minprdct
  | minsprdct
  | muprdct
  | noprdct
  | nosprdct
  | medprdct
  | prevblkprdct
  | bincmpct
  | btmap
  deriving DecidableEq, Repr

def encoderAlgorithms : List EncoderAlgorithm :=
  [.minprdct, .minsprdct, .muprdct, .noprdct, .nosprdct, .medprdct, .prevblkprdct, .bincmpct, .btmap]

def encoderToDecoderMapping : EncoderAlgorithm → DecoderAlgorithm
  | .minprdct => .addproc
  | .minsprdct => .signshftaddproc
  | .muprdct => .signshftaddproc
  | .noprdct => .noproc
  | .nosprdct => .signshftproc
  | .medprdct => .signshftaddproc
  | .prevblkprdct => .signshftaddblk
  | .bincmpct => .binexpproc
  | .btmap => .btexpproc

def algorithmOverheadBits : EncoderAlgorithm → ℕ
  | .minprdct => 18
  | .minsprdct => 18
  | .muprdct => 18
  | .noprdct => 10
  | .nosprdct => 10
  | .medprdct => 18
  | .prevblkprdct => 10
  | .bincmpct => 14
  | .btmap => 90

def algorithms (config : BitCompactorConfig) : List EncoderAlgorithm :=
  encoderAlgorithms.take (encoderAlgorithms.length - if config.archType = .npu27 then 3 else 2)

def maxBlockCompressionBits (config : BitCompactorConfig) : ℕ :=
  blockSize * 8 + if config.archType = .npu27 then 2 else 8

structure AlgorithmParam where
  encoderIndex : EncoderAlgorithm
  decoder : DecoderAlgorithm
  residual : List UInt8
  minimum : UInt8
  bitLength : ℕ
  encodingBits : ℕ
  dualBitLength : ℕ
  dualEncodingBits : ℕ
  dualBitmap : ℕ
  deriving DecidableEq, Repr

def fillLut : ℕ → ℕ → ℕ → List ℕ
  | 0, _, _ => []
  | left + 1, lbyte, bits =>
    let bits := if lbyte > 2 ^ (bits + 1) - 1 then bits + 1 else bits
    (bits + 1) :: fillLut left (lbyte + 1) bits

def log2Lut : List ℕ := fillLut 256 0 2

def dualLog2Lut (config : BitCompactorConfig) : List ℕ := fillLut 256 0 (if config.archType = .npu27 then 0 else 1)

def lookUp (lut : List ℕ) (byte : UInt8) : ℕ := lut.getD byte.toNat 0

def maxBits (residual : List UInt8) : ℕ :=
  residual.foldl (fun bitLength byte => if lookUp log2Lut byte > bitLength then lookUp log2Lut byte else bitLength) 1

def signed (byte : UInt8) : ℤ := if byte < 128 then byte.toNat else (byte.toNat : ℤ) - 256

def toUnsigned (byte : UInt8) : UInt8 := if signed byte < 0 then (~~~byte <<< 1) ||| 1 else byte <<< 1

structure Prediction where
  residual : List UInt8
  bitLength : ℕ
  minimum : UInt8
  deriving DecidableEq, Repr

def noprdct (data : List UInt8) : Prediction := ⟨data, maxBits data, 0⟩

def nosprdct (data : List UInt8) : Prediction := ⟨data.map toUnsigned, maxBits (data.map toUnsigned), 0⟩

def signedPrdct (data : List UInt8) (minimum : UInt8) : Prediction :=
  let residual := data.map (fun byte => toUnsigned (byte - minimum))
  ⟨residual, maxBits residual, minimum⟩

def medprdct (data : List UInt8) : Prediction :=
  signedPrdct data ((data.mergeSort (fun a b => decide (a ≤ b))).getD (blockSize / 2 - 1) 0)

def minsprdct (data : List UInt8) : Prediction :=
  signedPrdct data (data.foldl (fun minimum byte => if signed byte < signed minimum then byte else minimum) 127)

def roundDiv (n : ℤ) (d : ℕ) : ℤ := n.sign * ((2 * n.natAbs + d) / (2 * d) : ℕ)

def muprdct (data : List UInt8) : Prediction :=
  let mean := roundDiv (data.map signed).sum blockSize
  signedPrdct data (UInt8.ofInt mean)

def minprdct (data : List UInt8) : Prediction :=
  let minimum := data.foldl (fun minimum byte => if byte < minimum then byte else minimum) 255
  let residual := data.map (· - minimum)
  ⟨residual, maxBits residual, minimum⟩

def dummyprdct (data : List UInt8) : Prediction := ⟨data, 8, 0⟩

def prevblkprdct (data prevBlk : List UInt8) : Prediction :=
  let residual := List.zipWith (fun byte prev => toUnsigned (byte - prev)) data prevBlk
  ⟨residual, maxBits residual, 0⟩

def algorithmEncoder (config : BitCompactorConfig) (algo : EncoderAlgorithm) (data prevBlk : List UInt8) : Prediction :=
  match algo with
  | .minprdct => minprdct data
  | .minsprdct => if config.weightCompressEnable then minsprdct data else dummyprdct data
  | .muprdct => muprdct data
  | .noprdct => noprdct data
  | .nosprdct => nosprdct data
  | .medprdct => medprdct data
  | .prevblkprdct => prevblkprdct data prevBlk
  | .bincmpct => dummyprdct data
  | .btmap => dummyprdct data

structure DualEncoding where
  bitLength : ℕ
  encodingBits : ℕ
  bitmap : ℕ
  deriving DecidableEq, Repr

def cSize (symbolBits : List ℕ) (i : ℕ) : ℕ :=
  let bitsHistogram := fun j => symbolBits.count j
  let cumSumL := ((List.range' 1 i).map bitsHistogram).sum
  let cumSumH := ((List.range' (i + 1) (8 - i)).map bitsHistogram).sum
  cumSumL * i + cumSumH * 8

def dualEncode (config : BitCompactorConfig) (residual : List UInt8) : DualEncoding :=
  let symbolBits := residual.map (lookUp (dualLog2Lut config))
  let best := (List.range' 2 7).foldl
    (fun best i => if cSize symbolBits i < best.2 then (i, cSize symbolBits i) else best) (1, cSize symbolBits 1)
  let use8bits := symbolBits.map (fun bits => decide (bits > best.1))
  let bitmap := use8bits.zipIdx.foldl (fun bitmap use => bitmap ||| use.1.toNat <<< use.2) 0
  if use8bits.any id then ⟨best.1, best.2, bitmap⟩ else ⟨best.1, best.2 + (8 - best.1), bitmap ||| 1⟩

def isAlgoDualEncodeCompatible (config : BitCompactorConfig) (algo : EncoderAlgorithm) : Bool :=
  config.archType ≠ .npu27 || algo ≠ .minsprdct

def isAlgoValid (algo : EncoderAlgorithm) (blk : ℕ) : Bool := !(algo = .prevblkprdct && blk = 0)

def cmprsPad : ℕ := 6

def dualCmprsPad : ℕ := 4

def byteAlign (x : ℕ) : ℕ := (x + 7) / 8 * 8

def addOverheadAndPadding (config : BitCompactorConfig) (param : AlgorithmParam) : AlgorithmParam :=
  let encodingBits := param.encodingBits + algorithmOverheadBits param.encoderIndex
  let dualEncodingBits := param.dualEncodingBits + algorithmOverheadBits param.encoderIndex + 74
  if config.archType ≠ .npu27 then
    { param with encodingBits := encodingBits + cmprsPad, dualEncodingBits := byteAlign (dualEncodingBits + dualCmprsPad) }
  else { param with encodingBits, dualEncodingBits }

def blockParam (config : BitCompactorConfig) (data prevBlk : List UInt8) (algo : EncoderAlgorithm) : AlgorithmParam :=
  let prediction := algorithmEncoder config algo data prevBlk
  let dual := if isAlgoDualEncodeCompatible config algo then dualEncode config prediction.residual
    else ⟨0, maxBlockCompressionBits config, 0⟩
  addOverheadAndPadding config
    { encoderIndex := algo
      decoder := encoderToDecoderMapping algo
      residual := prediction.residual
      minimum := prediction.minimum
      bitLength := prediction.bitLength
      encodingBits := prediction.bitLength * blockSize
      dualBitLength := dual.bitLength
      dualEncodingBits := dual.encodingBits
      dualBitmap := dual.bitmap }

end NpuCompiler.Bitc
