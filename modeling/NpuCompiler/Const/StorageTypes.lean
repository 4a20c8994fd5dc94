import Mathlib.Data.Nat.Log
import Mathlib.Tactic.Linarith
import NpuCompiler.Library.MaskedStream

namespace NpuCompiler.Const

namespace F32

def isNaN (x : BitVec 32) : Bool := 0x7F800000#32 < (x &&& 0x7FFFFFFF#32)

def isZero (x : BitVec 32) : Bool := x &&& 0x7FFFFFFF#32 == 0#32

def eq (x y : BitVec 32) : Bool := !isNaN x && !isNaN y && (x == y || isZero x && isZero y)

def roundShift (n k : ℕ) : ℕ :=
  if 2 ^ k < 2 * (n % 2 ^ k) ∨ 2 ^ k = 2 * (n % 2 ^ k) ∧ n / 2 ^ k % 2 = 1 then n / 2 ^ k + 1 else n / 2 ^ k

def ofNat (n : ℕ) : BitVec 32 :=
  if n = 0 then 0
  else
    let exponent := n.log2
    let fraction := if exponent ≤ 23 then n * 2 ^ (23 - exponent) else roundShift n (exponent - 23)
    BitVec.ofNat 32 ((exponent + 126) * 2 ^ 23 + fraction)

def ofInt (value : ℤ) : BitVec 32 :=
  if value < 0 then 0x80000000#32 ||| ofNat value.natAbs else ofNat value.natAbs

def exact (value : ℤ) : Bool := value.natAbs.log2 ≤ 23 || value.natAbs % 2 ^ (value.natAbs.log2 - 23) == 0

end F32

namespace Float16

def isZero (x : BitVec 16) : Bool := x &&& 0x7FFF#16 == 0#16

def roundsUp (frac : BitVec 32) : Bool := frac &&& 0x0001FFFF#32 == 0x00018000#32 || frac &&& 0x00007FFF#32 != 0#32

def ofFloat (iv : BitVec 32) : BitVec 16 :=
  let sign := iv &&& 0x80000000#32
  let exp := iv &&& 0x7F800000#32
  let frac := (iv &&& 0x007FFFFF#32) <<< 3
  if exp = 0x7F800000#32 then
    let nan := if frac &&& 0x03FF0000#32 = 0#32 then 0x00010000#32 else frac &&& 0x03FF0000#32
    let frac := if frac ≠ 0#32 then nan else 0#32
    ((sign ||| 0x7C000000#32 ||| frac) >>> 16).setWidth 16
  else if exp = 0#32 then (sign >>> 16).setWidth 16
  else
    let biasedExp : ℤ := ((exp >>> 23).toNat : ℤ) - 127 + 15
    let rounded := if roundsUp frac then frac + 0x00008000#32 else frac
    let carry := roundsUp frac && rounded &&& 0x7C000000#32 != 0#32
    let biasedExp := if carry then biasedExp + 1 else biasedExp
    let rounded := (if carry then rounded &&& 0x7C000000#32 else rounded) &&& 0x03FF0000#32
    if 30 < biasedExp then ((sign ||| 0x7C000000#32) >>> 16).setWidth 16
    else if 0 < biasedExp then ((sign ||| BitVec.ofInt 32 (biasedExp * 2 ^ 26) ||| rounded) >>> 16).setWidth 16
    else
      let frac := 0x04000000#32 ||| frac
      let shift := if biasedExp < -30 then 0#32 else 1#32 <<< (1 - biasedExp).toNat
      let sticky := if frac &&& (shift - 1) ≠ 0#32 then 1#32 else 0#32
      let frac := (if 31 < 1 - biasedExp then 0#32 else frac >>> (1 - biasedExp).toNat) ||| sticky
      let frac := if roundsUp frac then frac + 0x00008000#32 else frac
      ((sign ||| frac) >>> 16).setWidth 16

/-- The loop that shifts the fraction of a subnormal number up to the hidden one. It takes at most ten steps. -/
def normalize : ℕ → BitVec 32 → BitVec 32 → BitVec 32 × BitVec 32
  | 0, fexp, frac => (fexp, frac)
  | steps + 1, fexp, frac =>
    if frac &&& 0x0400#32 = 0#32 then normalize steps (fexp - 1) (frac <<< 1) else (fexp, frac)

def toFloat (value : BitVec 16) : BitVec 32 :=
  let exp := (value >>> 10 &&& 0x1F#16).setWidth 32
  let frac := (value &&& 0x03FF#16).setWidth 32
  let fields :=
    if exp = 0#32 then
      if frac = 0#32 then (0#32, frac)
      else
        let (fexp, frac) := normalize 10 (exp + 127#32 - 15#32 + 1#32) frac
        (fexp, frac &&& 0x03FF#32)
    else if exp = 0x1F#32 then (0xFF#32, frac)
    else (exp + 127#32 - 15#32, frac)
  ((value &&& 0x8000#16).setWidth 32) <<< 16 ||| fields.1 <<< 23 ||| fields.2 <<< 13

def eq (x y : BitVec 16) : Bool :=
  if isZero x && isZero y then true
  else if x &&& 0x7C00#16 == 0x7C00#16 && y &&& 0x7C00#16 == 0x7C00#16 then
    if (x &&& 0x03FF#16).toNat + (y &&& 0x03FF#16).toNat = 0 then x &&& 0x8000#16 == y &&& 0x8000#16 else false
  else x == y

theorem eq_zero {x z : BitVec 16} (hz : isZero z) : eq x z = isZero x := by
  unfold eq
  by_cases hx : isZero x
  · rw [if_pos (by simp [hx, hz]), hx]
  have hexp : (z &&& 0x7C00#16 == 0x7C00#16) = false := by
    have h : z &&& 0x7FFF#16 = 0#16 := by simpa [isZero] using hz
    have hmask : z &&& 0x7C00#16 = z &&& 0x7FFF#16 &&& 0x7C00#16 := by
      rw [BitVec.and_assoc]
      rfl
    rw [hmask, h]
    rfl
  have hne : (x == z) = false := by
    apply beq_false_of_ne
    intro h
    subst h
    exact hx hz
  simp [hx, hexp, hne]

theorem eq_or_isZero (x z : BitVec 16) : (if isZero z then isZero x else eq x z) = eq x z := by
  by_cases hz : isZero z
  · rw [if_pos hz, eq_zero hz]
  · rw [if_neg hz]

end Float16

namespace BFloat16

def ofFloat (x : BitVec 32) : BitVec 16 := ((x + (x &&& 0x00010000#32) >>> 1) >>> 16).setWidth 16

def toFloat (value : BitVec 16) : BitVec 32 := value.setWidth 32 <<< 16

end BFloat16

namespace Float8E5M2

def emulateOnFp16 (value : BitVec 16) : BitVec 16 :=
  let canRound := value &&& 0x7F00#16 < 0x7B00#16
  let isNaNInf := value &&& 0x7C00#16 = 0x7C00#16
  let up := 0x0080#16 < value &&& 0x00FF#16 ∨ value &&& 0x0180#16 = 0x0180#16
  (if ¬ isNaNInf ∧ canRound ∧ up then value + 0x0100#16 else value) &&& 0xFF00#16

def ofFloat (value : BitVec 32) : BitVec 8 := (emulateOnFp16 (Float16.ofFloat value) >>> 8).setWidth 8

def toFloat (value : BitVec 8) : BitVec 32 := Float16.toFloat (value.setWidth 16 <<< 8)

end Float8E5M2

namespace Float8E4M3

def roundsUp (fractional : BitVec 16) : Bool :=
  fractional &&& 0x01FF#16 == 0x0180#16 || fractional &&& 0x007F#16 != 0#16

def ofFloat16 (input : BitVec 16) : BitVec 8 :=
  let sign := ((input &&& 0x8000#16) >>> 8).setWidth 8
  let exp := input &&& 0x7C00#16
  if exp = 0x7C00#16 then sign ||| 0x7F#8
  else if exp = 0#16 then sign
  else
    let biasedExp : ℤ := ((exp >>> 10).toNat : ℤ) - 8
    let fractional := (input &&& 0x03FF#16) <<< 1
    let rounded := if roundsUp fractional then fractional + 0x0080#16 else fractional
    let carry := roundsUp fractional && rounded &&& 0x7800#16 != 0#16
    let normal : ℤ × BitVec 16 :=
      if 0 ≤ biasedExp then
        (if carry then biasedExp + 1 else biasedExp,
          (if carry then rounded &&& 0x7800#16 else rounded) &&& 0x0700#16)
      else (biasedExp, fractional)
    if 15 < normal.1 then sign ||| 0x7F#8
    else if 0 < normal.1 then sign ||| BitVec.ofInt 8 (normal.1 * 2 ^ 3) ||| (normal.2 >>> 8).setWidth 8
    else
      let fractional := 0x0800#16 ||| fractional
      let f8Exp := normal.1 - 7
      let stickyMask := if f8Exp < -10 then 0#16 else 1#16 <<< (1 - f8Exp).toNat - 1#16
      let sticky := fractional &&& stickyMask != 0#16
      let fractional := if f8Exp < -10 then 0#16 else fractional >>> (1 - normal.1).toNat
      let up := fractional &&& 0x01FF#16 == 0x0180#16 && !sticky || fractional &&& 0x007F#16 != 0#16 || sticky
      let fractional := if up then fractional + 0x0080#16 else fractional
      sign ||| (fractional >>> 8).setWidth 8

def f8ToFloatLut : List (BitVec 32) :=
  [0x00000000, 0x3B000000, 0x3B800000, 0x3BC00000, 0x3C000000, 0x3C200000, 0x3C400000, 0x3C600000,
   0x3C800000, 0x3C900000, 0x3CA00000, 0x3CB00000, 0x3CC00000, 0x3CD00000, 0x3CE00000, 0x3CF00000,
   0x3D000000, 0x3D100000, 0x3D200000, 0x3D300000, 0x3D400000, 0x3D500000, 0x3D600000, 0x3D700000,
   0x3D800000, 0x3D900000, 0x3DA00000, 0x3DB00000, 0x3DC00000, 0x3DD00000, 0x3DE00000, 0x3DF00000,
   0x3E000000, 0x3E100000, 0x3E200000, 0x3E300000, 0x3E400000, 0x3E500000, 0x3E600000, 0x3E700000,
   0x3E800000, 0x3E900000, 0x3EA00000, 0x3EB00000, 0x3EC00000, 0x3ED00000, 0x3EE00000, 0x3EF00000,
   0x3F000000, 0x3F100000, 0x3F200000, 0x3F300000, 0x3F400000, 0x3F500000, 0x3F600000, 0x3F700000,
   0x3F800000, 0x3F900000, 0x3FA00000, 0x3FB00000, 0x3FC00000, 0x3FD00000, 0x3FE00000, 0x3FF00000,
   0x40000000, 0x40100000, 0x40200000, 0x40300000, 0x40400000, 0x40500000, 0x40600000, 0x40700000,
   0x40800000, 0x40900000, 0x40A00000, 0x40B00000, 0x40C00000, 0x40D00000, 0x40E00000, 0x40F00000,
   0x41000000, 0x41100000, 0x41200000, 0x41300000, 0x41400000, 0x41500000, 0x41600000, 0x41700000,
   0x41800000, 0x41900000, 0x41A00000, 0x41B00000, 0x41C00000, 0x41D00000, 0x41E00000, 0x41F00000,
   0x42000000, 0x42100000, 0x42200000, 0x42300000, 0x42400000, 0x42500000, 0x42600000, 0x42700000,
   0x42800000, 0x42900000, 0x42A00000, 0x42B00000, 0x42C00000, 0x42D00000, 0x42E00000, 0x42F00000,
   0x43000000, 0x43100000, 0x43200000, 0x43300000, 0x43400000, 0x43500000, 0x43600000, 0x43700000,
   0x43800000, 0x43900000, 0x43A00000, 0x43B00000, 0x43C00000, 0x43D00000, 0x43E00000, 0x7FC00000]

def ofFloat (value : BitVec 32) : BitVec 8 := ofFloat16 (Float16.ofFloat value)

def toFloat (value : BitVec 8) : BitVec 32 :=
  f8ToFloatLut.getD (value &&& 0x7F#8).toNat 0#32 ||| (value &&& 0x80#8).setWidth 32 <<< 24

end Float8E4M3

/-- The element types of sparse weights. -/
inductive StorageType
  | si8 | ui8 | f16 | bf16 | f32 | f8E5M2 | f8E4M3
  deriving DecidableEq, Repr

namespace StorageType

def byteSize : StorageType → ℕ
  | .si8 | .ui8 | .f8E5M2 | .f8E4M3 => 1
  | .f16 | .bf16 => 2
  | .f32 => 4

abbrev Value (t : StorageType) : Type := BitVec (8 * t.byteSize)

def eq : (t : StorageType) → t.Value → t.Value → Bool
  | .si8, x, y => x == y
  | .ui8, x, y => x == y
  | .f16, x, y => Float16.eq x y
  | .bf16, x, y => F32.eq (BFloat16.toFloat x) (BFloat16.toFloat y)
  | .f32, x, y => F32.eq x y
  | .f8E5M2, x, y => F32.eq (Float8E5M2.toFloat x) (Float8E5M2.toFloat y)
  | .f8E4M3, x, y => F32.eq (Float8E4M3.toFloat x) (Float8E4M3.toFloat y)

def ofInt : (t : StorageType) → ℤ → t.Value
  | .si8, value => BitVec.ofInt 8 value
  | .ui8, value => BitVec.ofInt 8 value
  | .f16, value => Float16.ofFloat (F32.ofInt value)
  | .bf16, value => BFloat16.ofFloat (F32.ofInt value)
  | .f32, value => F32.ofInt value
  | .f8E5M2, value => Float8E5M2.ofFloat (F32.ofInt value)
  | .f8E4M3, value => Float8E4M3.ofFloat (F32.ofInt value)

def checkedCastFloat (value : ℤ) : Option (BitVec 32) :=
  if F32.exact value then some (F32.ofInt value) else none

def checkedCast : (t : StorageType) → ℤ → Option t.Value
  | .si8, value => if -128 ≤ value ∧ value ≤ 127 then some (BitVec.ofInt 8 value) else none
  | .ui8, value => if 0 ≤ value ∧ value ≤ 255 then some (BitVec.ofInt 8 value) else none
  | .f16, value => (checkedCastFloat value).map Float16.ofFloat
  | .bf16, value => (checkedCastFloat value).map BFloat16.ofFloat
  | .f32, value => checkedCastFloat value
  | .f8E5M2, value => (checkedCastFloat value).map Float8E5M2.ofFloat
  | .f8E4M3, value => (checkedCastFloat value).map Float8E4M3.ofFloat

def SameValue (t : StorageType) (x y : t.Value) : Prop := x = y ∨ t.eq x y = true

variable {t : StorageType} {value : ℤ} {v : t.Value}

theorem byteSize_dvd : t.byteSize ∣ 16 := by
  cases t <;> decide

theorem byteSize_pos : 0 < t.byteSize := by
  cases t <;> decide

theorem checkedCastFloat_cases (value : ℤ) :
    checkedCastFloat value = none ∨ checkedCastFloat value = some (F32.ofInt value) := by
  by_cases h : F32.exact value
  · exact .inr (if_pos h)
  · exact .inl (if_neg h)

theorem ofInt_of_checkedCast (h : t.checkedCast value = some v) : t.ofInt value = v := by
  have hfloat (f : BitVec 32 → t.Value) (hf : (checkedCastFloat value).map f = some v) :
      f (F32.ofInt value) = v := by
    rcases checkedCastFloat_cases value with hc | hc
    · rw [hc] at hf
      cases hf
    · rw [hc] at hf
      exact Option.some.inj hf
  have hint (p : Prop) [Decidable p] (x : t.Value) (hx : (if p then some x else none) = some v) : x = v := by
    by_cases hp : p
    · rw [if_pos hp] at hx
      exact Option.some.inj hx
    · rw [if_neg hp] at hx
      cases hx
  cases t with
  | si8 => exact hint _ _ h
  | ui8 => exact hint _ _ h
  | f16 => exact hfloat Float16.ofFloat h
  | bf16 => exact hfloat BFloat16.ofFloat h
  | f32 => exact hint _ _ h
  | f8E5M2 => exact hfloat Float8E5M2.ofFloat h
  | f8E4M3 => exact hfloat Float8E4M3.ofFloat h

end StorageType

end NpuCompiler.Const

namespace NpuCompiler.Const

open MaskedStream

def alignValUp (val align : ℕ) : ℕ := (val + (align - 1)) / align * align

structure WeightsContent (t : StorageType) where
  OC : ℕ
  IC : ℕ
  KY : ℕ
  KX : ℕ
  values : List t.Value
  OC_pos : 0 < OC
  length_values : values.length = OC * (IC * KY * KX)

inductive Quantization
  | none
  | perTensor (zeroPoint : ℤ)
  | perAxis (zeroPoints : List ℤ)

def getSparsifyValues : Quantization → List ℤ
  | .none => [0]
  | .perTensor zeroPoint => [zeroPoint]
  | .perAxis zeroPoints => zeroPoints

variable {t : StorageType}

namespace WeightsContent

def workloadSize (content : WeightsContent t) : ℕ := content.IC * content.KY * content.KX

def foldChannel {σ : Type} (content : WeightsContent t) (oc : ℕ) (f : σ → t.Value → Option σ) (s : σ) : Option σ :=
  (List.range' (oc * content.workloadSize) content.workloadSize).foldlM (fun s i => content.values[i]? >>= f s) s

end WeightsContent

def countChannel (content : WeightsContent t) (oc : ℕ) (skip : t.Value → Bool) : Option ℕ :=
  content.foldChannel oc (fun count v => some (if skip v then count else count + 1)) 0

def intValueAt (sparsifyValue : List ℤ) (oc : ℕ) : Option ℤ :=
  if 1 < sparsifyValue.length then sparsifyValue[oc]? else sparsifyValue.head?

def countValue (sparsifyValue : List ℤ) (content : WeightsContent t) : Option (List ℕ) :=
  (List.range content.OC).mapM fun oc => do
    let intValue ← intValueAt sparsifyValue oc
    let castedSparsifyValue ← t.checkedCast intValue
    countChannel content oc fun v => t.eq v castedSparsifyValue

def countValueFloat16 (sparsifyValue : List ℤ) (content : WeightsContent .f16) : Option (List ℕ) :=
  (List.range content.OC).mapM fun oc => do
    let intValue ← intValueAt sparsifyValue oc
    let castedSparsifyValue := StorageType.ofInt .f16 intValue
    let castedSparsifyValueZero := Float16.isZero castedSparsifyValue
    countChannel content oc fun v =>
      if castedSparsifyValueZero then Float16.isZero v else StorageType.eq .f16 v castedSparsifyValue

def countNonSparseElementsPerOC (quantization : Quantization) :
    {t : StorageType} → WeightsContent t → Option (List ℕ)
  | .f16, content => countValueFloat16 (getSparsifyValues quantization) content
  | .si8, content => countValue (getSparsifyValues quantization) content
  | .ui8, content => countValue (getSparsifyValues quantization) content
  | .bf16, content => countValue (getSparsifyValues quantization) content
  | .f32, content => countValue (getSparsifyValues quantization) content
  | .f8E4M3, content => countValue (getSparsifyValues quantization) content
  | .f8E5M2, content => countValue (getSparsifyValues quantization) content

def compressType (t : StorageType) (numElemsPerOC : List ℕ) : ℕ :=
  (numElemsPerOC.map fun num => alignValUp (num * t.byteSize) 16).sum

structure Sparsified (t : StorageType) where
  outBlob : List t.Value
  outputIndex : ℕ
  castedSparsifyValue : t.Value

def alignOutputIndex (byteSize outputIndex : ℕ) : ℕ :=
  if outputIndex * byteSize % 16 ≠ 0 then alignValUp (outputIndex * byteSize) 16 / byteSize else outputIndex

def castedValueAt (sparsifyValue : List ℤ) (castedSparsifyValue : t.Value) (oc : ℕ) : Option t.Value :=
  if 1 < sparsifyValue.length then sparsifyValue[oc]? >>= t.checkedCast else some castedSparsifyValue

def sparsifyChannel (sparsifyValue : List ℤ) (content : WeightsContent t) (s : Sparsified t) (oc : ℕ) :
    Option (Sparsified t) := do
  let castedSparsifyValue ← castedValueAt sparsifyValue s.castedSparsifyValue oc
  let out ← content.foldChannel oc
    (fun out v => if t.eq v castedSparsifyValue then some out else push out v) (s.outBlob, s.outputIndex)
  return ⟨out.1, alignOutputIndex t.byteSize out.2, castedSparsifyValue⟩

/-- The output buffer has room for `totalByteSize` bytes: a write behind it is `none`, as an exception is. -/
def sparsify (sparsifyValue : List ℤ) (content : WeightsContent t) (totalByteSize : ℕ) : Option (List t.Value) := do
  let castedSparsifyValue ← sparsifyValue.head? >>= t.checkedCast
  let s ← (List.range content.OC).foldlM (sparsifyChannel sparsifyValue content)
    ⟨List.replicate (totalByteSize / t.byteSize) 0, 0, castedSparsifyValue⟩
  return s.outBlob

def sparsifyTransform (numActualElements : Option (List ℕ)) (quantization : Quantization) (content : WeightsContent t) :
    Option (List t.Value) := do
  let numElemsPerOC ← numActualElements.orElse fun _ => countNonSparseElementsPerOC quantization content
  sparsify (getSparsifyValues quantization) content (compressType t numElemsPerOC)

def sparsityMapByte (content : WeightsContent t) (sparsifyVal : t.Value) (byteStart : ℕ) : Option (BitVec 8) :=
  (List.range 8).foldlM
    (fun byteValue bitShift => content.values[byteStart + bitShift]? >>= fun v =>
      some (if !t.eq v sparsifyVal then byteValue ||| 1#8 <<< bitShift else byteValue)) 0#8

def sparsifyValAt (sparsifyValue : List ℤ) (oc : ℕ) : Option ℤ :=
  if sparsifyValue.length = 1 then sparsifyValue.head? else sparsifyValue[oc]?

def sparsityMapChannel (sparsifyValue : List ℤ) (content : WeightsContent t) (outputWorkloadSize : ℕ)
    (outputBuffer : List (BitVec 8)) (oc : ℕ) : Option (List (BitVec 8)) := do
  let out ← (List.range ((content.workloadSize + 7) / 8)).foldlM
    (fun out j => do
      let sparsifyVal ← sparsifyValAt sparsifyValue oc
      let byteValue ← sparsityMapByte content (t.ofInt sparsifyVal) (oc * content.workloadSize + j * 8)
      push out byteValue) (outputBuffer, oc * outputWorkloadSize / 8)
  return out.1

def sparsityMapWorkload (content : WeightsContent t) : ℕ := alignValUp content.workloadSize 128

def generateSparsityMap (sparsifyValue : List ℤ) (content : WeightsContent t) : Option (List (BitVec 8)) :=
  (List.range content.OC).foldlM (sparsityMapChannel sparsifyValue content (sparsityMapWorkload content))
    (List.replicate (content.OC * sparsityMapWorkload content / 8) 0)

def getSparsityMapTransform (quantization : Quantization) (content : WeightsContent t) : Option (List (BitVec 8)) :=
  generateSparsityMap (getSparsifyValues quantization) content

end NpuCompiler.Const
