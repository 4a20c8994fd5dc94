import NpuCompiler.Library.BitFields

namespace NpuCompiler.Bitc

def u32 (x : ℕ) : ℕ := x % 2 ^ 32

structure BitStream where
  bitArray : List ℕ
  bitPosition : ℕ
  sourceByteCount : ℕ
  deriving DecidableEq, Repr

namespace BitStream

def default : BitStream := ⟨[], 0, 0⟩

def ofLittleEndian (bytes : List UInt8) : ℕ := bytes.foldr (fun byte rest => byte.toNat + 2 ^ 8 * rest) 0

def toWords : ℕ → List UInt8 → List ℕ
  | 0, _ => []
  | words + 1, bytes => ofLittleEndian (bytes.take 8) :: toWords words (bytes.drop 8)

def ofBytes (bits : List UInt8) : Option BitStream :=
  let sourceByteCount := u32 bits.length
  let size := u32 (sourceByteCount + 7) / 8
  if bits.length ≤ 8 * (size + 1) then some ⟨toWords (size + 1) bits, 0, sourceByteCount⟩ else none

def allocateBits (s : BitStream) (bits : ℕ) : BitStream :=
  let size := (bits + 63) / 64
  { s with bitArray := s.bitArray.take (size + 1) ++ List.replicate (size + 1 - s.bitArray.length) 0 }

def readBits (s : BitStream) (bitStart : ℕ) : Option ℕ :=
  let bitStartWord := bitStart / 64
  if bitStartWord ≥ s.bitArray.length then some 0
  else do
    let bs := bitStart % 64
    let low ← s.bitArray[bitStartWord]?
    if bs = 0 then return low
    else
      let high ← s.bitArray[bitStartWord + 1]?
      return low / 2 ^ bs ||| high * 2 ^ (64 - bs) % 2 ^ 64

def write (s : BitStream) (bits bitCount : ℕ) : Option BitStream := do
  let bitStartWord := s.bitPosition / 64
  let insertBitCount := if bitCount > 64 then 64 else bitCount
  let bitsSel := bits % 2 ^ insertBitCount
  let bs := s.bitPosition % 64
  let word ← s.bitArray[bitStartWord]?
  let array := s.bitArray.set bitStartWord (word ||| bitsSel * 2 ^ bs % 2 ^ 64)
  let position := u32 (s.bitPosition + insertBitCount)
  if bs = 0 then return { s with bitArray := array, bitPosition := position }
  else
    let next ← array[bitStartWord + 1]?
    let array := array.set (bitStartWord + 1) (next ||| bitsSel / 2 ^ (64 - bs) % 2 ^ bs)
    return { s with bitArray := array, bitPosition := position }

def appendFrom (stream : BitStream) : ℕ → BitStream → ℕ → ℕ → Option BitStream
  | 0, s, _, _ => some s
  | fuel + 1, s, bits, bitStart =>
    if bits > 0 then do
      let addBits := if bits ≥ 64 then 64 else bits
      let streamBits ← stream.readBits bitStart
      let s ← s.write streamBits addBits
      appendFrom stream fuel s (bits - addBits) (bitStart + addBits)
    else some s

def append (s stream : BitStream) : Option BitStream :=
  appendFrom stream stream.bitPosition s stream.bitPosition 0

def byteAt (s : BitStream) (byteIndex : ℕ) : Option UInt8 :=
  s.bitArray[byteIndex / 8]?.map (fun word => UInt8.ofNat (word / 2 ^ (8 * (byteIndex % 8))))

def bytesAt (s : BitStream) (byteIndex count : ℕ) : Option (List UInt8) :=
  (List.range count).mapM (fun i => s.byteAt (byteIndex + i))

def readBytes (s : BitStream) (byteAlignment : ℕ) : Option (List UInt8) := do
  let alignmentBits := byteAlignment * 8
  let size := u32 (s.bitPosition + alignmentBits - 1) / alignmentBits * alignmentBits / 8
  let copyBytes := u32 (s.bitPosition + 7) / 8
  let copied ← s.bytesAt 0 copyBytes
  if copyBytes ≤ size then return copied ++ List.replicate (size - copyBytes) 0 else none

end BitStream

end NpuCompiler.Bitc
