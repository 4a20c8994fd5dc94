import NpuCompiler.Library.FoldRules
import NpuCompiler.Library.BitFields

namespace NpuCompiler.Const

open SubBytes List

/-- The C++ types of the stored elements that a sub-byte content can have. -/
inductive SubByteStorage where
  | uint8 | int8 | i1 | float8E4M3 | float8E5M2 | float8E8M0 | float4E2M1
  deriving DecidableEq

namespace SubByteStorage

/-- The float `num / den` as an integer: it is cut off towards zero. -/
def castToInt8 (negative : Bool) (num den : ℕ) : Option (BitVec 8) :=
  if num > (if negative then 128 else 127) * den then none
  else some (if negative then -BitVec.ofNat 8 (num / den) else BitVec.ofNat 8 (num / den))

def floatToInt8 (exponentBits mantissaBits bias : ℕ) (value : BitVec 8) : Option (BitVec 8) :=
  let mantissa := value.toNat % 2 ^ mantissaBits
  let exponent := value.toNat / 2 ^ mantissaBits % 2 ^ exponentBits
  -- a subnormal number has no hidden bit
  let significand := if exponent = 0 then mantissa else 2 ^ mantissaBits + mantissa
  castToInt8 (value.getLsbD (exponentBits + mantissaBits)) (significand * 2 ^ max exponent 1) (2 ^ (bias + mantissaBits))

/-- Not-a-number and infinity compare as out of range; the table of the 4-bit floats has no entry for a larger byte. -/
def toInt8 : SubByteStorage → BitVec 8 → Option (BitVec 8)
  | .uint8, value => if value.toNat ≤ 127 then some value else none
  | .int8, value => some value
  | .i1, _ => none
  | .float8E4M3, value => if value.toNat % 128 = 127 then none else floatToInt8 4 3 7 value
  | .float8E5M2, value => if value.toNat / 4 % 32 = 31 then none else floatToInt8 5 2 15 value
  | .float8E8M0, value => if value = 255#8 then none else castToInt8 false (2 ^ value.toNat) (2 ^ 127)
  | .float4E2M1, value => if value.toNat < 16 then floatToInt8 2 1 1 value else none

end SubByteStorage

structure SubByteContent where
  bits : ℕ
  numElements : ℕ
  storageElemType : SubByteStorage
  isSplat : Bool
  data : List (BitVec 8)

def isPowerOfTwo (val : ℕ) : Bool := 0 < val && val &&& (val - 1) == 0

namespace SubByteContent

def getValues (content : SubByteContent) : Option (List (BitVec 8)) := content.data.mapM content.storageElemType.toInt8

def copySplat (content : SubByteContent) (targetData : List (BitVec 8)) : Option (List (BitVec 8)) := do
  let numShifts := 8 / content.bits
  let subByteValue ← if content.storageElemType = .i1 then some (content.data.headD 0 &&& 1#8)
    else (content.storageElemType.toInt8 (content.data.headD 0)).map (· &&& maskOf content.bits)
  some (List.replicate targetData.length (repeatByte content.bits subByteValue numShifts))

/-- The elements are packed when the target is smaller than the source, as many to a byte as the sizes say. -/
def copySubByteContent (content : SubByteContent) (targetData : List (BitVec 8)) : Option (List (BitVec 8)) :=
  if content.isSplat then content.copySplat targetData
  else if targetData.length < content.data.length then
    if content.data.length % targetData.length ≠ 0 then none
    else
      let elemPerByte := content.numElements / targetData.length
      if ¬ (elemPerByte ≤ 8 ∧ isPowerOfTwo elemPerByte) then none
      else do
        let sourceValues ← content.getValues
        let bits := 8 / elemPerByte
        some ((List.range (content.numElements / elemPerByte)).foldl (fun target idx =>
          target.set idx (packByte bits ((sourceValues.drop (idx * elemPerByte)).take elemPerByte))) targetData)
  else some (content.data ++ targetData.drop content.data.length)

end SubByteContent

def SubByteContent.ofBytes (bits : ℕ) (storageElemType : SubByteStorage) (data : List (BitVec 8)) : SubByteContent :=
  { bits, numElements := data.length, storageElemType, isSplat := false, data }

def SubByteContent.ofSplat (bits numElements : ℕ) (storageElemType : SubByteStorage) (value : BitVec 8) : SubByteContent :=
  { bits, numElements, storageElemType, isSplat := true, data := [value] }

def packedSize (bits numElements : ℕ) : ℕ := (numElements * bits + 7) / 8

def PlacesElements (bits : ℕ) (data result : List (BitVec 8)) : Prop :=
  ∀ p < data.length * bits, bitAt result p = (data.getD (p / bits) 0).getLsbD (p % bits)

def PartOfByte (bits numElements : ℕ) : Prop := (numElements = 2 ∨ numElements = 4) ∧ numElements * bits < 8

instance (bits numElements : ℕ) : Decidable (PartOfByte bits numElements) := inferInstanceAs (Decidable (_ ∧ _))

/-- The elements that share a part of a byte get the whole of it. -/
def spreadWidth (bits numElements : ℕ) : ℕ := if PartOfByte bits numElements then 8 / numElements else bits

/-- One element, elements that fill their bytes, or elements that share a part of a byte. -/
def FitsPacking (bits numElements : ℕ) : Prop := numElements = 1 ∨ numElements * bits % 8 = 0 ∨ PartOfByte bits numElements

/-- The elements as they are read have the bits that they are stored with. -/
def ReadAlike (bits : ℕ) (storage : SubByteStorage) (data : List (BitVec 8)) : Prop :=
  ∀ values, data.mapM storage.toInt8 = some values → ∀ p < data.length * bits,
    (values.getD (p / spreadWidth bits data.length) 0).getLsbD (p % spreadWidth bits data.length) =
      (data.getD (p / bits) 0).getLsbD (p % bits)

/-- A splat content of the same elements: of the same storage, or of a stored boolean. -/
def EquivalentSplat (bits : ℕ) (storage : SubByteStorage) (data : List (BitVec 8)) (splatStorage : SubByteStorage) (value : BitVec 8) :
    Prop :=
  splatStorage = storage ∧ data = List.replicate data.length value ∨
    splatStorage = .i1 ∧ bits = 1 ∧ ∀ element ∈ data, element.getLsbD 0 = value.getLsbD 0

section
variable {bits n : ℕ} {storage : SubByteStorage} {data target result values : List (BitVec 8)} {value : BitVec 8}

theorem toInt8_eq {converted : BitVec 8} (hinteger : storage = .uint8 ∨ storage = .int8) (h : storage.toInt8 value = some converted) :
    converted = value := by
  unfold SubByteStorage.toInt8 at h
  rcases hinteger with rfl | rfl
  · dsimp only at h
    split_ifs at h
    exact (Option.some.inj h).symm
  · exact (Option.some.inj h).symm

theorem foldl_set {α : Type} {f : ℕ → α} {m : ℕ} {l : List α} {i : ℕ} (hm : m ≤ l.length) :
    ((List.range m).foldl (fun l idx => l.set idx (f idx)) l).length = l.length ∧
      (i < m → ((List.range m).foldl (fun l idx => l.set idx (f idx)) l)[i]? = some (f i)) := by
  induction m with
  | zero => exact ⟨rfl, fun h => absurd h (Nat.not_lt_zero _)⟩
  | succ m ih =>
    obtain ⟨hlen, hget⟩ := ih (by omega)
    rw [range_succ, foldl_append, foldl_cons, foldl_nil]
    refine ⟨by rw [length_set, hlen], ?_⟩
    intro hi
    rw [getElem?_set, hlen]
    by_cases him : m = i
    · subst him
      rw [if_pos rfl, if_pos (by omega)]
    · rw [if_neg him]
      exact hget (by omega)

theorem elemPerByte_eq (hbits : bits = 1 ∨ bits = 2 ∨ bits = 4) (hsmaller : packedSize bits n < n) (hdvd : n % packedSize bits n = 0)
    (hle : n / packedSize bits n ≤ 8) (hpow : isPowerOfTwo (n / packedSize bits n) = true) :
    n / packedSize bits n * bits = 8 ∨ PartOfByte bits n ∧ packedSize bits n = 1 := by
  have hcases : ∀ q < 9, isPowerOfTwo q = true → q = 1 ∨ q = 2 ∨ q = 4 ∨ q = 8 := by decide
  have hmul := Nat.div_mul_cancel (Nat.dvd_of_mod_eq_zero hdvd)
  have hq := hcases _ (Nat.lt_succ_of_le hle) hpow
  unfold PartOfByte
  generalize n / packedSize bits n = q at *
  unfold packedSize at *
  rcases hbits with rfl | rfl | rfl <;> rcases hq with rfl | rfl | rfl | rfl <;> omega

theorem bitAt_packed {q w p : ℕ} (hq : q * w = 8) (hdata : data.length = q * target.length) (hp : p / 8 < target.length) :
    bitAt ((List.range (data.length / q)).foldl (fun target idx =>
      target.set idx (packByte w ((data.drop (idx * q)).take q))) target) p =
      (data.getD (p / 8 * q + p % 8 / w) 0).getLsbD (p % 8 % w) := by
  have hw : 0 < w := Nat.pos_of_ne_zero (by rintro rfl; omega)
  have hqpos : 0 < q := Nat.pos_of_ne_zero (by rintro rfl; omega)
  have hsize : data.length / q = target.length := by rw [hdata, Nat.mul_div_cancel_left _ hqpos]
  have hget := (@foldl_set (BitVec 8) (fun idx => packByte w ((data.drop (idx * q)).take q)) (data.length / q) target (p / 8)
    (by omega)).2 (by omega)
  have hpart : p % 8 / w < q := by
    apply Nat.div_lt_of_lt_mul
    rw [Nat.mul_comm, hq]
    omega
  unfold bitAt
  rw [getD_eq_getElem?_getD, hget, Option.getD_some, getLsbD_packByte hw (Nat.mod_lt _ (by decide)), getD_eq_getElem?_getD,
    getElem?_take_of_lt hpart, getElem?_drop, ← getD_eq_getElem?_getD]

theorem bits_le_spreadWidth : bits ≤ spreadWidth bits n := by
  unfold spreadWidth
  split_ifs with hpart
  · obtain ⟨hn | hn, hlt⟩ := hpart
    · rw [hn] at hlt ⊢
      omega
    · rw [hn] at hlt ⊢
      omega
  · exact Nat.le_refl _

/-- A copy that returns has taken one element as it is, or packed the elements that it read. -/
theorem copy_cases (hbits : bits = 1 ∨ bits = 2 ∨ bits = 4) (htarget : target.length = packedSize bits data.length)
    (h : (SubByteContent.ofBytes bits storage data).copySubByteContent target = some result) :
    data.length ≤ 1 ∧ PlacesElements bits data result ∨
      FitsPacking bits data.length ∧ ∃ values, data.mapM storage.toInt8 = some values ∧ ∀ p < data.length * bits,
        bitAt result p = (values.getD (p / spreadWidth bits data.length) 0).getLsbD (p % spreadWidth bits data.length) := by
  unfold SubByteContent.copySubByteContent SubByteContent.ofBytes at h
  dsimp only at h
  rw [if_neg Bool.false_ne_true] at h
  split_ifs at h with hsmaller hdvd hinvalid
  · right
    rw [htarget] at hsmaller hdvd hinvalid
    obtain ⟨hle, hpow⟩ := hinvalid
    obtain ⟨values, hread, hresult⟩ := Option.bind_eq_some_iff.mp h
    cases hresult
    replace hread : data.mapM storage.toInt8 = some values := hread
    have hlen := (mapM_some_inv hread).1
    have heven := elemPerByte_eq hbits hsmaller (not_not.mp hdvd) hle hpow
    have hlength := Nat.div_mul_cancel (Nat.dvd_of_mod_eq_zero (not_not.mp hdvd))
    rw [← htarget] at heven hlength
    generalize data.length / target.length = q at *
    rw [← hlen] at hlength heven ⊢
    by_cases hpart : PartOfByte bits values.length
    · refine ⟨.inr (.inr hpart), values, hread, fun p hp => ?_⟩
      have hone : target.length = 1 := by
        rcases heven with hq | ⟨-, hone⟩
        · obtain ⟨hn, hlt⟩ := hpart
          rw [← hlength, Nat.mul_right_comm, hq] at hlt
          have : target.length = 0 := by omega
          rw [this] at hlength
          omega
        · exact hone
      rw [hone, Nat.mul_one] at hlength
      have hwidth : q * (8 / q) = 8 := by
        rcases hpart.1 with hn | hn <;> rw [hlength, hn]
      have hsmall : p < 8 := hp.trans hpart.2
      unfold spreadWidth
      rw [if_pos hpart, bitAt_packed hwidth (by rw [hone, hlength, Nat.mul_one]) (by omega), Nat.div_eq_of_lt hsmall,
        Nat.mod_eq_of_lt hsmall, Nat.zero_mul, Nat.zero_add, hlength]
    · have hq : q * bits = 8 := heven.resolve_right (fun h => hpart h.1)
      have htotal : values.length * bits = 8 * target.length := by rw [← hlength, Nat.mul_right_comm, hq]
      refine ⟨.inr (.inl (by rw [htotal, Nat.mul_mod_right])), values, hread, fun p hp => ?_⟩
      have hqpos : 0 < q := Nat.pos_of_ne_zero (by rintro rfl; omega)
      have hwidth : 8 / q = bits := Nat.div_eq_of_eq_mul_right hqpos hq.symm
      have hindex : p / 8 * q + p % 8 / bits = p / bits := by
        conv_rhs => rw [← Nat.div_add_mod p 8, ← hq, Nat.mul_assoc, Nat.mul_left_comm, Nat.mul_add_div (by omega)]
        rw [Nat.mul_comm, hq]
      unfold spreadWidth
      rw [if_neg hpart, hwidth, bitAt_packed hq hlength.symm (by omega), hindex, Nat.mod_mod_of_dvd p ⟨q, by rw [Nat.mul_comm, hq]⟩]
  · left
    have hfew : data.length ≤ 1 := by
      rw [htarget] at hsmaller
      unfold packedSize at hsmaller
      rcases hbits with rfl | rfl | rfl <;> omega
    cases h
    refine ⟨hfew, fun p hp => ?_⟩
    have hsmall : p < 4 ∧ p < bits ∧ data.length = 1 := by
      rcases Nat.le_one_iff_eq_zero_or_eq_one.mp hfew with hzero | hone
      · rw [hzero, Nat.zero_mul] at hp
        exact absurd hp (Nat.not_lt_zero _)
      · rw [hone, Nat.one_mul] at hp
        exact ⟨by omega, hp, hone⟩
    unfold bitAt
    rw [Nat.div_eq_of_lt (by omega), Nat.mod_eq_of_lt (by omega), Nat.div_eq_of_lt hsmall.2.1, Nat.mod_eq_of_lt hsmall.2.1,
      getD_append _ _ _ _ (by omega)]

theorem packs_of_fits (hbits : bits = 1 ∨ bits = 2 ∨ bits = 4) (hfits : FitsPacking bits n) (hn : 1 < n) :
    packedSize bits n < n ∧ n % packedSize bits n = 0 ∧ (n / packedSize bits n ≤ 8 ∧ isPowerOfTwo (n / packedSize bits n) = true) := by
  rcases hfits with hone | hfull | ⟨hn, hlt⟩
  · omega
  · obtain ⟨q, hq, hsize, hpow⟩ : ∃ q, 2 ≤ q ∧ n = q * packedSize bits n ∧ (q ≤ 8 ∧ isPowerOfTwo q = true) := by
      unfold packedSize
      rcases hbits with rfl | rfl | rfl
      · exact ⟨8, by decide, by omega, by decide⟩
      · exact ⟨4, by decide, by omega, by decide⟩
      · exact ⟨2, by decide, by omega, by decide⟩
    generalize packedSize bits n = m at *
    subst hsize
    have hm : 0 < m := Nat.pos_of_ne_zero (by rintro rfl; omega)
    have hless : m < q * m := Nat.lt_of_lt_of_le (by omega) (Nat.mul_le_mul_right m hq)
    rw [Nat.mul_div_cancel _ hm]
    exact ⟨hless, Nat.mul_mod_left _ _, hpow⟩
  · have hone : packedSize bits n = 1 := by
      unfold packedSize
      rcases hn with rfl | rfl <;> omega
    rw [hone, Nat.div_one]
    rcases hn with rfl | rfl
    · decide
    · decide

theorem copy_runs (hbits : bits = 1 ∨ bits = 2 ∨ bits = 4) (hfits : FitsPacking bits data.length) (hread : data.mapM storage.toInt8 = some values)
    (htarget : target.length = packedSize bits data.length) : ∃ result,
      (SubByteContent.ofBytes bits storage data).copySubByteContent target = some result := by
  unfold SubByteContent.copySubByteContent SubByteContent.getValues SubByteContent.ofBytes
  dsimp only
  rw [if_neg Bool.false_ne_true, htarget]
  by_cases hn : 1 < data.length
  · obtain ⟨hsmaller, hdvd, hvalid⟩ := packs_of_fits hbits hfits hn
    rw [if_pos hsmaller, if_neg (not_not.mpr hdvd), if_neg (not_not_intro hvalid), hread]
    exact ⟨_, rfl⟩
  · have hsize : ¬ packedSize bits data.length < data.length := by
      unfold packedSize
      rcases hbits with rfl | rfl | rfl <;> omega
    rw [if_neg hsize]
    exact ⟨_, rfl⟩

end

section
variable {bits n : ℕ} {storage : SubByteStorage} {target result packed stored : List (BitVec 8)} {value : BitVec 8} {isSplat : Bool}

theorem getLsbD_splatByte {i : ℕ} (hbits : bits = 1 ∨ bits = 2 ∨ bits = 4) (hi : i < 8) :
    (repeatByte bits (value &&& maskOf bits) (8 / bits)).getLsbD i = value.getLsbD (i % bits) := by
  have hpos : 0 < bits := by omega
  have hall : 8 / bits * bits = 8 := by
    rcases hbits with rfl | rfl | rfl <;> rfl
  have hmod : i % bits < bits := Nat.mod_lt _ hpos
  rw [getLsbD_repeatByte hpos _ hi, hall, decide_eq_true hi, BitVec.getLsbD_and, getLsbD_maskOf (by omega), decide_eq_true hmod,
    Bool.and_true, Bool.true_and]
  intro j hj
  rw [BitVec.getLsbD_and]
  by_cases hj8 : j < 8
  · rw [getLsbD_maskOf hj8, decide_eq_false (Nat.not_lt.mpr hj), Bool.and_false]
  · rw [BitVec.getLsbD_of_ge _ _ (Nat.le_of_not_lt hj8), Bool.false_and]

theorem copySplat_eq (hstorage : storage = .i1 → bits = 1)
    (h : (SubByteContent.ofSplat bits n storage value).copySubByteContent target = some result) :
    ∃ converted, (storage = .i1 ∧ converted = value ∨ storage.toInt8 value = some converted) ∧
      result = List.replicate target.length (repeatByte bits (converted &&& maskOf bits) (8 / bits)) := by
  unfold SubByteContent.copySubByteContent SubByteContent.copySplat SubByteContent.ofSplat at h
  dsimp only [headD_cons] at h
  rw [if_pos rfl] at h
  by_cases hone : storage = .i1
  · rw [if_pos hone] at h
    have hmask : (1#8 : BitVec 8) = maskOf bits := by
      rw [hstorage hone]
      rfl
    rw [hmask] at h
    exact ⟨value, .inl ⟨hone, rfl⟩, (Option.some.inj h).symm⟩
  · rw [if_neg hone] at h
    obtain ⟨subByteValue, hvalue, hresult⟩ := Option.bind_eq_some_iff.mp h
    obtain ⟨converted, hconverted, rfl⟩ := Option.map_eq_some_iff.mp hvalue
    exact ⟨converted, .inr hconverted, (Option.some.inj hresult).symm⟩

theorem copySplat_places (hbits : bits = 1 ∨ bits = 2 ∨ bits = 4) (hstorage : storage = .i1 → bits = 1)
    (htarget : target.length = packedSize bits n)
    (h : (SubByteContent.ofSplat bits n storage value).copySubByteContent target = some result) :
    ∃ converted, (storage = .i1 ∧ converted = value ∨ storage.toInt8 value = some converted) ∧
      ∀ p < n * bits, bitAt result p = converted.getLsbD (p % bits) := by
  obtain ⟨converted, hconverted, rfl⟩ := copySplat_eq hstorage h
  refine ⟨converted, hconverted, fun p hp => ?_⟩
  have hin : p / 8 < target.length := by
    rw [htarget]
    unfold packedSize
    omega
  have hdvd : bits ∣ 8 := by
    rcases hbits with rfl | rfl | rfl <;> decide
  unfold bitAt
  rw [getD_replicate _ hin, getLsbD_splatByte hbits (Nat.mod_lt _ (by decide)), Nat.mod_mod_of_dvd _ hdvd]

def isSubByte (bitWidth : ℕ) : Bool := bitWidth < 8

def elemIsSplat (data : List (BitVec 8)) (offset : ℕ) : Bool :=
  (List.range ((data.length - 1) / offset)).all fun i => (data.drop ((i + 1) * offset)).take offset = data.take offset

def detectSplatElementWise (data : List (BitVec 8)) (bitWidth : ℕ) : Option (List (BitVec 8) × Bool) :=
  if isSubByte bitWidth then
    let firstByte := data.headD 0
    let elemPerByte := 8 / bitWidth
    if ¬ isPowerOfTwo elemPerByte then none
    else if (List.range (elemPerByte - 1)).any (fun i =>
        (firstByte >>> (i * bitWidth)) &&& maskOf bitWidth ≠ (firstByte >>> ((i + 1) * bitWidth)) &&& maskOf bitWidth) then
      some (data, false)
    else if ¬ elemIsSplat data 1 then some (data, false)
    else some (data.take 1, true)
  else
    let elementSizeBytes := bitWidth / 8
    if data.length < elementSizeBytes then none
    else if data.length % elementSizeBytes ≠ 0 then none
    else if data.length = elementSizeBytes then some (data, true)
    else if ¬ elemIsSplat data elementSizeBytes then some (data, false)
    else some (data.take elementSizeBytes, true)

def detectSplatManually (data : List (BitVec 8)) (bitWidth : ℕ) : Option (List (BitVec 8) × Bool) :=
  if data = [] then some (data, false) else detectSplatElementWise data bitWidth

theorem elemIsSplat_one (h : elemIsSplat packed 1 = true) : packed = List.replicate packed.length (packed.headD 0) := by
  cases packed with
  | nil => rfl
  | cons first rest =>
    unfold elemIsSplat at h
    rw [all_eq_true] at h
    apply ext_getElem (by simp)
    intro i hi _
    rw [getElem_replicate]
    cases i with
    | zero => rfl
    | succ i =>
      have hrest : i < rest.length := by simpa using hi
      have heq := of_decide_eq_true (h i (mem_range.mpr (by simpa using hrest)))
      have hget := congrArg (fun l : List (BitVec 8) => l[0]?) heq
      rw [Nat.mul_one, drop_succ_cons] at hget
      simpa [hrest] using hget

theorem getLsbD_of_equal {first : BitVec 8} {r j : ℕ} (hr : r < 8 / bits) (hj : j < bits) (hj8 : j < 8)
    (h : ∀ i < 8 / bits - 1, (first >>> (i * bits)) &&& maskOf bits = (first >>> ((i + 1) * bits)) &&& maskOf bits) :
    first.getLsbD (r * bits + j) = first.getLsbD j := by
  induction r with
  | zero => rw [Nat.zero_mul, Nat.zero_add]
  | succ r ih =>
    rw [← ih (by omega)]
    have hbit := congrArg (fun b : BitVec 8 => b.getLsbD j) (h r (by omega))
    simp only [BitVec.getLsbD_and, BitVec.getLsbD_ushiftRight, getLsbD_maskOf hj8, decide_eq_true hj, Bool.and_true] at hbit
    exact hbit.symm

theorem detectSplat_copy (hbits : bits = 1 ∨ bits = 2 ∨ bits = 4)
    (hstorage : (storage = .uint8 ∨ storage = .int8) ∨ storage = .i1 ∧ bits = 1)
    (hdetect : detectSplatManually packed bits = some (stored, isSplat)) (htarget : target.length = packed.length)
    (h : ({ bits, numElements := n, storageElemType := storage, isSplat, data := stored } : SubByteContent).copySubByteContent
      target = some result) : result = packed := by
  -- data that is not a splat has the size of the target
  have hplain : isSplat = false → stored = packed → result = packed := by
    rintro rfl rfl
    unfold SubByteContent.copySubByteContent at h
    dsimp only at h
    rw [if_neg Bool.false_ne_true, htarget, if_neg (Nat.lt_irrefl _), drop_eq_nil_of_le htarget.le, append_nil] at h
    exact (Option.some.inj h).symm
  have hsub : isSubByte bits = true := by
    rcases hbits with rfl | rfl | rfl <;> rfl
  unfold detectSplatManually detectSplatElementWise at hdetect
  rw [if_pos hsub] at hdetect
  dsimp only at hdetect
  split_ifs at hdetect with hnil hpow hfirst hdata
  · cases hdetect
    exact hplain rfl rfl
  · cases hdetect
    exact hplain rfl rfl
  · cases hdetect
    have hpacked := elemIsSplat_one hdata
    cases packed with
    | nil => exact absurd rfl hnil
    | cons first rest =>
      rw [headD_cons] at hfirst hpacked
      have hequal : ∀ i < 8 / bits - 1, (first >>> (i * bits)) &&& maskOf bits = (first >>> ((i + 1) * bits)) &&& maskOf bits := by
        intro i hi
        by_contra hne
        exact hfirst (any_eq_true.mpr ⟨i, mem_range.mpr hi, decide_eq_true hne⟩)
      have hbyte : repeatByte bits (first &&& maskOf bits) (8 / bits) = first := by
        apply BitVec.eq_of_getLsbD_eq
        intro i hi
        have hpos : 0 < bits := by omega
        have hr : i / bits < 8 / bits := by
          rcases hbits with rfl | rfl | rfl <;> omega
        have hj : i % bits < bits := Nat.mod_lt _ hpos
        rw [getLsbD_splatByte hbits hi, ← getLsbD_of_equal hr hj (by omega) hequal, Nat.mul_comm, Nat.div_add_mod]
      have hone : storage = .i1 → bits = 1 := by
        rintro rfl
        exact (hstorage.resolve_left (by decide)).2
      obtain ⟨converted, hconverted, hresult⟩ := copySplat_eq hone h
      have hkept : converted = first := by
        rcases hconverted with ⟨-, heq⟩ | hread
        · exact heq
        · refine toInt8_eq (hstorage.resolve_right ?_) hread
          rintro ⟨rfl, -⟩
          cases hread
      rw [hresult, hkept, hbyte, htarget]
      exact hpacked.symm
  · cases hdetect
    exact hplain rfl rfl

end

section
variable {bits : ℕ} {storage : SubByteStorage} {data target : List (BitVec 8)} (hbits : bits = 1 ∨ bits = 2 ∨ bits = 4)
  (htarget : target.length = packedSize bits data.length)
include hbits htarget

theorem copy_places (hcond : FitsPacking bits data.length → ReadAlike bits storage data) (result : List (BitVec 8))
    (hresult : (SubByteContent.ofBytes bits storage data).copySubByteContent target = some result) : PlacesElements bits data result := by
  rcases copy_cases hbits htarget hresult with ⟨-, hplaces⟩ | ⟨hfits, values, hread, hpacked⟩
  · exact hplaces
  · intro p hp
    rw [hpacked p hp]
    exact hcond hfits values hread p hp

theorem copy_agrees (hcond : FitsPacking bits data.length → ReadAlike bits storage data) {splatStorage : SubByteStorage} {value : BitVec 8}
    (hsplat : EquivalentSplat bits storage data splatStorage value) (hstorage : storage ≠ .i1) (result splatResult : List (BitVec 8))
    (hresult : (SubByteContent.ofBytes bits storage data).copySubByteContent target = some result)
    (hsplatResult : (SubByteContent.ofSplat bits data.length splatStorage value).copySubByteContent target = some splatResult) :
    ∀ p < data.length * bits, bitAt splatResult p = bitAt result p := by
  intro p hp
  have hmod : p % bits < bits := Nat.mod_lt _ (by omega)
  rw [copy_places hbits htarget hcond result hresult p hp]
  rcases hsplat with ⟨rfl, hdata⟩ | ⟨rfl, rfl, hdata⟩
  · obtain ⟨converted, hconverted, hbitsAt⟩ := copySplat_places hbits (fun h => absurd h hstorage) htarget hsplatResult
    have hread : data.mapM splatStorage.toInt8 = some (data.map fun _ => converted) := mapM_eq_some (fun element helement => by
      rw [hdata] at helement
      rw [eq_of_mem_replicate helement]
      exact hconverted.resolve_left (fun h => hstorage h.1))
    have hlen : 0 < data.length := Nat.pos_of_mul_pos_right (Nat.zero_lt_of_lt hp)
    have hfits : FitsPacking bits data.length := by
      rcases copy_cases hbits htarget hresult with ⟨hfew, -⟩ | ⟨hfits, -⟩
      · left
        omega
      · exact hfits
    have hwidth : p % bits < spreadWidth bits data.length := hmod.trans_le bits_le_spreadWidth
    -- the first element stands for each of them
    have hfirst := hcond hfits _ hread (p % bits) (hmod.trans_le (Nat.le_mul_of_pos_left _ hlen))
    rw [Nat.div_eq_of_lt hwidth, Nat.mod_eq_of_lt hwidth, Nat.div_eq_of_lt hmod, Nat.mod_mod, hdata, map_replicate,
      getD_replicate _ hlen, getD_replicate _ hlen] at hfirst
    rw [hbitsAt p hp, hfirst, hdata, getD_replicate _ (Nat.div_lt_of_lt_mul (by rwa [Nat.mul_comm]))]
  · obtain ⟨converted, hconverted, hbitsAt⟩ := copySplat_places hbits (fun _ => rfl) htarget hsplatResult
    have hvalue : converted = value := hconverted.elim And.right (fun hread => by cases hread)
    rw [Nat.mul_one] at hp
    rw [hbitsAt p (by rwa [Nat.mul_one]), hvalue, Nat.mod_one, Nat.div_one, getD_eq_getElem _ _ hp]
    exact (hdata _ (getElem_mem hp)).symm

/-- Packing places each element, and a splat content agrees with the content of equal elements, exactly when the sizes do not fit or the
elements are read with the bits that they are stored with, the byte divided evenly among those that share a part of it. Packed integers
that are detected to be a splat or not are always copied back. -/
theorem copySubByteContent_exact_iff (hstorage : storage ≠ .i1) :
    ((∀ result, (SubByteContent.ofBytes bits storage data).copySubByteContent target = some result → PlacesElements bits data result) ∧
        (∀ splatStorage value, EquivalentSplat bits storage data splatStorage value → ∀ result splatResult,
          (SubByteContent.ofBytes bits storage data).copySubByteContent target = some result →
          (SubByteContent.ofSplat bits data.length splatStorage value).copySubByteContent target = some splatResult →
          ∀ p < data.length * bits, bitAt splatResult p = bitAt result p) ↔
      (FitsPacking bits data.length → ReadAlike bits storage data)) ∧
    ∀ (packedStorage : SubByteStorage) (packed stored buffer result : List (BitVec 8)) (numElements : ℕ) (isSplat : Bool),
      (packedStorage = .uint8 ∨ packedStorage = .int8) ∨ packedStorage = .i1 ∧ bits = 1 →
      detectSplatManually packed bits = some (stored, isSplat) → buffer.length = packed.length →
      ({ bits, numElements, storageElemType := packedStorage, isSplat, data := stored } : SubByteContent).copySubByteContent buffer =
        some result → result = packed := by
  refine ⟨⟨?_, fun hcond => ⟨copy_places hbits htarget hcond,
    fun _ _ hsplat => copy_agrees hbits htarget hcond hsplat hstorage⟩⟩, ?_⟩
  · rintro ⟨hplaces, hagrees⟩ hfits values hread p hp
    obtain ⟨result, hresult⟩ := copy_runs hbits hfits hread htarget
    rcases copy_cases hbits htarget hresult with ⟨hfew, -⟩ | ⟨-, values', hread', hpacked⟩
    · -- one element is copied as it is, but read when it is a splat
      have hlen : 0 < data.length := Nat.pos_of_mul_pos_right (Nat.zero_lt_of_lt hp)
      obtain ⟨value, rfl⟩ := length_eq_one_iff.mp (show data.length = 1 by omega)
      rw [length_singleton, Nat.one_mul] at hp
      have hwidth : spreadWidth bits 1 = bits := if_neg (fun hpart : PartOfByte bits 1 => by simp [PartOfByte] at hpart)
      obtain ⟨converted, hconverted, hvalues⟩ : ∃ converted, storage.toInt8 value = some converted ∧ values = [converted] := by
        obtain ⟨hlen, hget⟩ := mapM_some_inv hread
        obtain ⟨converted, rfl⟩ := length_eq_one_iff.mp hlen
        exact ⟨converted, hget 0 (by simp) (by simp), rfl⟩
      have hsplatRuns : ∃ splatResult, (SubByteContent.ofSplat bits 1 storage value).copySubByteContent target = some splatResult := by
        unfold SubByteContent.copySubByteContent SubByteContent.copySplat SubByteContent.ofSplat
        dsimp only [headD_cons]
        rw [if_pos rfl, if_neg hstorage, hconverted]
        exact ⟨_, rfl⟩
      obtain ⟨splatResult, hsplatResult⟩ := hsplatRuns
      obtain ⟨converted', hconverted', hbitsAt⟩ := copySplat_places hbits (fun h => absurd h hstorage) htarget hsplatResult
      have hsame : converted' = converted := by
        have := hconverted'.resolve_left (fun h => hstorage h.1)
        rw [hconverted] at this
        exact (Option.some.inj this).symm
      have hbit := hagrees storage value (.inl ⟨rfl, rfl⟩) result splatResult hresult hsplatResult p (by simpa using hp)
      rw [hbitsAt p (by simpa using hp), hplaces result hresult p (by simpa using hp), hsame] at hbit
      rw [length_singleton, hwidth, hvalues, ← hbit, Nat.div_eq_of_lt hp, getD_cons_zero]
    · rw [hread, Option.some.injEq] at hread'
      rw [hread', ← hpacked p hp]
      exact hplaces result hresult p hp
  · intro packedStorage packed stored buffer result numElements isSplat hinteger hdetect hbuffer h
    exact detectSplat_copy hbits hinteger hdetect hbuffer h

end

section

theorem copySubByteContent_exact_iff_nibbles : ∃ result, (SubByteContent.ofBytes 4 .uint8 [1#8, 2#8, 3#8, 4#8]).copySubByteContent
    [0#8, 0#8] = some result ∧ PlacesElements 4 [1#8, 2#8, 3#8, 4#8] result := by
  have h := @copySubByteContent_exact_iff 4 .uint8 [1#8, 2#8, 3#8, 4#8] [0#8, 0#8] (by decide) (by decide) (by decide)
  refine ⟨[0x21#8, 0x43#8], by decide, (h.1.mpr fun _ values hread => ?_).1 _ (by decide)⟩
  rw [show values = [1#8, 2#8, 3#8, 4#8] from (Option.some.inj hread).symm]
  decide

/-- Two elements of one bit are put half a byte apart. -/
theorem copySubByteContent_spreadsBits : ∃ result,
    (SubByteContent.ofBytes 1 .uint8 [1#8, 1#8]).copySubByteContent [0#8] = some result ∧ ¬ PlacesElements 1 [1#8, 1#8] result := by
  refine ⟨[0x11#8], by decide, ?_⟩
  intro hplaces
  exact absurd (hplaces 1 (by decide)) (by decide)

end

end NpuCompiler.Const
