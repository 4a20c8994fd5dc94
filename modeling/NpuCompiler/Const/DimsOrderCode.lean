import Mathlib.Data.List.TakeWhile
import NpuCompiler.Const.DimsOrder
import NpuCompiler.Library.FoldRules
import NpuCompiler.Library.PackedDigits

namespace NpuCompiler.Const

open PackedDigits List DimsOrder

def BITS_PER_DIM : ℕ := 4

def MAX_DIM_IND : ℕ := 2 ^ BITS_PER_DIM - 1

/-- The order as it is stored: a 64-bit code with a digit for each dimension, the minor one lowest, and the digits turned round. -/
structure DimsOrderCode where
  code : ℕ
  invertedCode : ℕ
  deriving DecidableEq

namespace DimsOrderCode

def codeDigits (code : ℕ) : List ℕ := read BITS_PER_DIM MAX_NUM_DIMS code

section

def useDim (code : ℕ) (dimUsed : List Bool) (digit : ℕ) : Except String (List Bool) :=
  if dimUsed.getD (digit - 1) false then .error s!"Dimension {digit - 1} was used twice in DimsOrder code {code}"
  else .ok (dimUsed.set (digit - 1) true)

def checkRange (code numDims : ℕ) (dimUsed : List Bool) : List ℕ → Except String Unit
  | [] => .ok ()
  | dimInd :: dims =>
    if dimUsed.getD dimInd false = false then .ok ()
    else if dimInd < numDims then checkRange code numDims dimUsed dims
    else .error s!"Dimension {dimInd} in DimsOrder code {code} is out of range [0, {numDims})"

def checkContiguous (code : ℕ) : List ℕ → Except String Unit
  | [] => .ok ()
  | i :: positions =>
    if (code >>> (BITS_PER_DIM * i)) &&& (2 ^ BITS_PER_DIM - 1) = 0 then checkContiguous code positions
    else .error s!"DimsOrder code {code} is not contiguous"

def validateCode (code : ℕ) : Except String Unit := do
  let dimUsed ← (codeDigits code).foldlM (useDim code) (List.replicate MAX_NUM_DIMS false)
  let numDims := (codeDigits code).length
  checkRange code numDims dimUsed (List.range MAX_NUM_DIMS)
  checkContiguous code (List.range' numDims (MAX_NUM_DIMS - numDims))

def ofCode (code : ℕ) : DimsOrderCode := ⟨code, (codeDigits code).foldl (push BITS_PER_DIM 64) 0⟩

def fromCode (code : ℕ) : Except String DimsOrderCode := do
  validateCode code
  return ofCode code

def validateDim (perm : List ℕ) (dimUsed : List Bool) (d : ℕ) : Except String (List Bool) :=
  if ¬ d ≤ MAX_DIM_IND then
    .error s!"Dim {d} is too large to be used in DimsOrder permutation {perm}, supported only up to {MAX_DIM_IND}"
  else if ¬ d < perm.length then .error s!"Dim {d} is out of DimsOrder permutation range {perm}"
  else if dimUsed.getD d false then .error s!"Dim {d} was used twice in DimsOrder permutation {perm}"
  else .ok (dimUsed.set d true)

def validatePermutation (perm : List ℕ) : Except String Unit := do
  let _ ← perm.foldlM (validateDim perm) (List.replicate MAX_NUM_DIMS false)

def getCodeFromPermutation (perm : List ℕ) : Except String ℕ := do
  validatePermutation perm
  return perm.foldl (fun code d => push BITS_PER_DIM 64 code (d + 1)) 0

def fromPermutation (perm : List ℕ) : Except String DimsOrderCode := do
  let code ← getCodeFromPermutation perm
  return ofCode code

variable (order : DimsOrderCode)

def numDims : ℕ := (codeDigits order.code).length

def toPermutation : List ℕ := (codeDigits order.invertedCode).map (· - 1)

def dimPos (d : ℕ) : Except String ℕ :=
  match (codeDigits order.invertedCode).findIdx? (· = d + 1) with
  | some i => .ok i
  | none => .error s!"Dim {d} is not available in layout {order.toPermutation}"

def dimAt (pos : ℕ) : Except String ℕ :=
  let curDigit := (order.invertedCode >>> (BITS_PER_DIM * pos)) &&& (2 ^ BITS_PER_DIM - 1)
  if curDigit > 0 then .ok (curDigit - 1) else .error s!"DimsOrder {order.toPermutation} doesn't have Dim at pos {pos}"

variable {α : Type} [Inhabited α]

def toMemoryOrder (values : List α) : Except String (List α) :=
  if values.length = order.numDims then .ok (order.toPermutation.map (values.getD · default))
  else .error s!"DimValues are not compatible with DimsOrder {order.toPermutation}"

def toLogicalOrder (values : List α) : Except String (List α) :=
  if values.length = order.numDims then
    (List.range values.length).mapM (fun dimInd => (order.dimPos dimInd).map (values.getD · default))
  else .error s!"DimValues are not compatible with DimsOrder {order.toPermutation}"

end

section
variable {f : List Bool → ℕ → Except String (List Bool)} {index : ℕ → ℕ} {l : List ℕ} {used used' : List Bool}

structure Marks (f : List Bool → ℕ → Except String (List Bool)) (index : ℕ → ℕ) (l : List ℕ) : Prop where
  fresh : ∀ used, ∀ d ∈ l, used.getD (index d) false = false → f used d = .ok (used.set (index d) true)
  again : ∀ used, ∀ d ∈ l, used.getD (index d) false = true → ∃ e, f used d = .error e

theorem getD_set_mark {i j : ℕ} (hi : i < used.length) :
    (used.set i true).getD j false = true ↔ j = i ∨ used.getD j false = true := by
  by_cases hij : i = j
  · subst hij
    rw [getD_eq_getElem?_getD, getElem?_set_self hi]
    exact iff_of_true rfl (.inl rfl)
  · rw [getD_eq_getElem?_getD, getElem?_set_ne hij, ← getD_eq_getElem?_getD]
    exact (or_iff_right (Ne.symm hij)).symm

theorem foldlM_marks (hf : Marks f index l) (hlen : ∀ d ∈ l, index d < used.length) :
    ((∃ used', l.foldlM f used = .ok used') ↔ (l.map index).Nodup ∧ ∀ d ∈ l, used.getD (index d) false = false) ∧
      ∀ used', l.foldlM f used = .ok used' → ∀ i, used'.getD i false = true ↔ used.getD i false = true ∨ i ∈ l.map index := by
  induction l generalizing used with
  | nil =>
    constructor
    · exact iff_of_true ⟨used, rfl⟩ ⟨nodup_nil, fun d hd => absurd hd not_mem_nil⟩
    · intro used' hrun i
      cases hrun
      exact (or_iff_left not_mem_nil).symm
  | cons d l ih =>
    have hf' : Marks f index l := ⟨fun used e he => hf.fresh used e (mem_cons_of_mem _ he),
      fun used e he => hf.again used e (mem_cons_of_mem _ he)⟩
    have hd := hlen d mem_cons_self
    cases hmark : used.getD (index d) false with
    | true =>
      obtain ⟨e, herror⟩ := hf.again used d mem_cons_self hmark
      have hrun : (d :: l).foldlM f used = .error e := by
        rw [foldlM_cons, herror]
        rfl
      constructor
      · apply iff_of_false
        · rintro ⟨used', hok⟩
          rw [hrun] at hok
          cases hok
        · rintro ⟨-, hfree⟩
          rw [hfree d mem_cons_self] at hmark
          cases hmark
      · intro used' hok
        rw [hrun] at hok
        cases hok
    | false =>
      have hrun : (d :: l).foldlM f used = l.foldlM f (used.set (index d) true) := by
        rw [foldlM_cons, hf.fresh used d mem_cons_self hmark]
        rfl
      obtain ⟨hiff, hmarks⟩ := @ih (used.set (index d) true) hf'
        (fun e he => by rw [length_set]; exact hlen e (mem_cons_of_mem _ he))
      rw [hrun]
      constructor
      · rw [hiff, map_cons, nodup_cons]
        constructor
        · rintro ⟨hnd, hfree⟩
          have hkept (e : ℕ) (he : e ∈ l) : index e ≠ index d ∧ used.getD (index e) false = false := by
            have := Bool.eq_false_iff.mp (hfree e he)
            rw [ne_eq, getD_set_mark hd, not_or] at this
            exact ⟨this.1, Bool.eq_false_iff.mpr this.2⟩
          refine ⟨⟨?_, hnd⟩, ?_⟩
          · intro hmem
            obtain ⟨e, he, heq⟩ := mem_map.mp hmem
            exact (hkept e he).1 heq
          · intro e he
            rcases mem_cons.mp he with rfl | he
            · exact hmark
            · exact (hkept e he).2
        · rintro ⟨⟨hnot, hnd⟩, hfree⟩
          refine ⟨hnd, fun e he => Bool.eq_false_iff.mpr ?_⟩
          rw [ne_eq, getD_set_mark hd, not_or]
          refine ⟨fun heq => hnot (mem_map.mpr ⟨e, he, heq⟩), ?_⟩
          exact Bool.eq_false_iff.mp (hfree e (mem_cons_of_mem _ he))
      · intro used' hok i
        rw [hmarks used' hok i, getD_set_mark hd, map_cons, mem_cons]
        tauto

variable {code : ℕ}

theorem codeDigits_eq : codeDigits code = ((Nat.digits 16 code).take 15).takeWhile (· ≠ 0) := read_eq (by decide)

theorem codeDigits_bounds {d : ℕ} (hd : d ∈ codeDigits code) : 0 < d ∧ d < 16 := by
  rw [codeDigits_eq] at hd
  have hmem := mem_of_mem_take ((takeWhile_sublist _).mem hd)
  have hne := mem_takeWhile_imp hd
  exact ⟨Nat.pos_of_ne_zero (of_decide_eq_true hne), Nat.digits_lt_base (by decide) hmem⟩

theorem useDim_marks : Marks (useDim code) (· - 1) (codeDigits code) where
  fresh used d _ hfree := by
    unfold useDim
    rw [hfree]
    rfl
  again used d _ hmark := by
    unfold useDim
    rw [hmark]
    exact ⟨_, rfl⟩

theorem nodup_pred {digits : List ℕ} (hpos : ∀ d ∈ digits, 0 < d) : (digits.map (· - 1)).Nodup ↔ digits.Nodup := by
  constructor
  · exact fun h => h.of_map _
  · intro h
    apply h.map_on
    intro a ha b hb heq
    have := hpos a ha
    have := hpos b hb
    omega

theorem checkRange_ok {i : ℕ} {dimUsed : List Bool} {digits : List ℕ}
    (hused : ∀ j, dimUsed.getD j false = true → j + 1 ∈ digits) (hbefore : ∀ j < i, dimUsed.getD j false = true) (n : ℕ) :
    checkRange code digits.length dimUsed (List.range' i n) = .ok () := by
  induction n generalizing i with
  | zero => rfl
  | succ n ih =>
    rw [range'_succ]
    unfold checkRange
    split_ifs with hfree hlt
    · rfl
    · apply ih
      intro j hj
      rcases Nat.lt_succ_iff_lt_or_eq.mp hj with hj | rfl
      · exact hbefore j hj
      · exact Bool.eq_true_of_not_eq_false hfree
    · exfalso
      apply hlt
      have hsub : List.range' 1 (i + 1) ⊆ digits := by
        intro d hd
        obtain ⟨h1, hle⟩ := mem_range'_1.mp hd
        obtain ⟨j, rfl⟩ := Nat.exists_eq_add_of_le' h1
        rcases Nat.lt_or_ge j i with hj | hj
        · exact hused j (hbefore j hj)
        · have : j = i := by omega
          exact hused j (this ▸ Bool.eq_true_of_not_eq_false hfree)
      have := (subperm_of_subset nodup_range' hsub).length_le
      rw [length_range'] at this
      omega

theorem checkContiguous_iff {positions : List ℕ} :
    checkContiguous code positions = .ok () ↔ ∀ i ∈ positions, (Nat.digits 16 code).getD i 0 = 0 := by
  induction positions with
  | nil => exact iff_of_true rfl (fun i hi => absurd hi not_mem_nil)
  | cons i positions ih =>
    have hdigit : (code >>> (BITS_PER_DIM * i)) &&& (2 ^ BITS_PER_DIM - 1) = (Nat.digits 16 code).getD i 0 := digit_eq (by decide)
    unfold checkContiguous
    rw [hdigit, forall_mem_cons, ← ih]
    split_ifs with hzero
    · exact (and_iff_right hzero).symm
    · exact iff_of_false (fun h => by cases h) (fun h => hzero h.1)

/-- The digits up to the first zero are different, and no other digit follows, except for the highest one. -/
def Accepted (code : ℕ) : Prop :=
  (codeDigits code).Nodup ∧ ∀ i, (codeDigits code).length ≤ i → i < MAX_NUM_DIMS → (Nat.digits 16 code).getD i 0 = 0

theorem validateCode_iff : validateCode code = .ok () ↔ Accepted code := by
  have hbounds (d : ℕ) (hd : d ∈ codeDigits code) : d - 1 < (List.replicate MAX_NUM_DIMS false).length := by
    have := codeDigits_bounds hd
    rw [length_replicate]
    change _ < 15
    omega
  obtain ⟨hiff, hmarks⟩ := foldlM_marks useDim_marks hbounds
  have hpred := nodup_pred (fun d hd => (@codeDigits_bounds code d hd).1)
  have hfree (i : ℕ) : (List.replicate MAX_NUM_DIMS false).getD i false = false := by
    rw [getD_eq_getElem?_getD, getElem?_replicate]
    split_ifs
    · rfl
    · rfl
  rw [hpred, and_iff_left (fun d _ => hfree (d - 1))] at hiff
  have hpositions : checkContiguous code (List.range' (codeDigits code).length (MAX_NUM_DIMS - (codeDigits code).length)) = .ok () ↔
      ∀ i, (codeDigits code).length ≤ i → i < MAX_NUM_DIMS → (Nat.digits 16 code).getD i 0 = 0 := by
    rw [checkContiguous_iff]
    refine forall_congr' fun i => ?_
    rw [mem_range'_1, and_imp]
    refine imp_congr_right fun hi => imp_congr_left ?_
    omega
  unfold validateCode Accepted
  rw [← hiff, ← hpositions]
  constructor
  · intro h
    obtain ⟨dimUsed, hfold, h⟩ := bind_eq_ok.mp h
    obtain ⟨-, -, h⟩ := bind_eq_ok.mp h
    exact ⟨⟨dimUsed, hfold⟩, h⟩
  · rintro ⟨⟨dimUsed, hfold⟩, h⟩
    have hrange : checkRange code (codeDigits code).length dimUsed (List.range MAX_NUM_DIMS) = .ok () := by
      rw [range_eq_range']
      apply checkRange_ok
      · intro i hi
        rcases (hmarks dimUsed hfold i).mp hi with hused | hmem
        · rw [hfree] at hused
          cases hused
        · obtain ⟨d, hd, rfl⟩ := mem_map.mp hmem
          rwa [Nat.sub_add_cancel (codeDigits_bounds hd).1]
      · exact fun j hj => absurd hj (Nat.not_lt_zero j)
    rw [hfold]
    change Except.bind (checkRange code _ dimUsed _) _ = _
    rw [hrange]
    exact h

def IsPermutationCode (code : ℕ) : Prop :=
  let digits := (Nat.digits 16 code).takeWhile (· ≠ 0)
  digits.Perm (List.range' 1 digits.length) ∧ ∀ d ∈ (Nat.digits 16 code).drop digits.length, d = 0

/-- The codes that are accepted although a digit is larger than their number, or stands in the highest place. -/
def AcceptedAmiss (code : ℕ) : Prop :=
  Accepted code ∧ ((∃ d ∈ codeDigits code, (codeDigits code).length < d) ∨ (Nat.digits 16 code).getD MAX_NUM_DIMS 0 ≠ 0)

theorem getD_eq_zero_of_drop {L : List ℕ} {n i : ℕ} (hdrop : ∀ d ∈ L.drop n, d = 0) (hi : n ≤ i) : L.getD i 0 = 0 := by
  rcases Nat.lt_or_ge i L.length with hlt | hge
  · obtain ⟨k, rfl⟩ := Nat.exists_eq_add_of_le hi
    have hmem := getElem_mem (l := L.drop n) (n := k) (by rw [length_drop]; omega)
    rw [getElem_drop] at hmem
    rw [getD_eq_getElem _ _ hlt]
    exact hdrop _ hmem
  · rw [getD_eq_default _ _ hge]

theorem isPermutationCode_iff (hcode : code < 2 ^ 64) : IsPermutationCode code ↔
    Accepted code ∧ ¬ ((∃ d ∈ codeDigits code, (codeDigits code).length < d) ∨ (Nat.digits 16 code).getD MAX_NUM_DIMS 0 ≠ 0) := by
  have hlength : (Nat.digits 16 code).length ≤ 16 := (Nat.digits_length_le_iff (by decide) code).mpr hcode
  have hprefix := takeWhile_prefix (fun d : ℕ => decide (d ≠ 0)) (l := Nat.digits 16 code)
  have hlow : codeDigits code = ((Nat.digits 16 code).takeWhile (· ≠ 0)).take 15 := by
    rw [codeDigits_eq, take_takeWhile]
  have hnonzero : ∀ d ∈ (Nat.digits 16 code).takeWhile (· ≠ 0), d ≠ 0 := by
    intro d hd
    have hne := mem_takeWhile_imp hd
    exact of_decide_eq_true hne
  unfold IsPermutationCode Accepted
  dsimp only
  generalize hdigits : (Nat.digits 16 code).takeWhile (· ≠ 0) = low at *
  constructor
  · rintro ⟨hperm, hzeros⟩
    have hmem (d : ℕ) : d ∈ low ↔ 1 ≤ d ∧ d < 1 + low.length := by rw [hperm.mem_iff, mem_range'_1]
    have hshort : low.length ≤ 15 := by
      rcases Nat.eq_zero_or_pos low.length with hzero | hpos
      · omega
      · have := hprefix.subset ((hmem low.length).mpr ⟨hpos, by omega⟩)
        have := Nat.digits_lt_base (by decide) this
        omega
    rw [take_of_length_le hshort] at hlow
    rw [hlow]
    refine ⟨⟨hperm.nodup_iff.mpr nodup_range', fun i hi _ => getD_eq_zero_of_drop hzeros hi⟩, ?_⟩
    rw [not_or, not_not]
    refine ⟨?_, getD_eq_zero_of_drop hzeros hshort⟩
    rintro ⟨d, hd, hlt⟩
    have := (hmem d).mp hd
    omega
  · rintro ⟨⟨hnd, hzeros⟩, hfits⟩
    rw [not_or, not_not] at hfits
    obtain ⟨hsmall, hhighest⟩ := hfits
    have hshort : low.length ≤ 15 := by
      by_contra hlong
      have hget := hprefix.getElem (i := 15) (by omega)
      have hmem := getElem_mem (l := low) (n := 15) (by omega)
      rw [hget] at hmem
      rw [getD_eq_getElem _ _ (by have := hprefix.length_le; change 15 < _; omega)] at hhighest
      exact hnonzero _ hmem hhighest
    rw [take_of_length_le hshort] at hlow
    rw [hlow] at hnd hzeros hsmall
    constructor
    · apply (subperm_of_subset hnd ?_).perm_of_length_le
      · rw [length_range']
      · intro d hd
        apply mem_range'_1.mpr
        have hpos := (codeDigits_bounds (hlow ▸ hd)).1
        have hle : ¬ low.length < d := fun hlt => hsmall ⟨d, hd, hlt⟩
        omega
    · intro d hd
      obtain ⟨k, hk, rfl⟩ := mem_iff_getElem.mp hd
      rw [length_drop] at hk
      rw [getElem_drop, ← getD_eq_getElem _ 0]
      rcases Nat.lt_or_ge (low.length + k) 15 with hlt | hge
      · exact hzeros _ (Nat.le_add_right _ _) hlt
      · have : low.length + k = 15 := by omega
        rw [this]
        exact hhighest

variable {perm : List ℕ}

theorem validatePermutation_ok (hperm : perm.Perm (List.range perm.length)) (hlen : perm.length ≤ MAX_NUM_DIMS) :
    validatePermutation perm = .ok () := by
  have hlt (d : ℕ) (hd : d ∈ perm) : d < perm.length := mem_range.mp (hperm.mem_iff.mp hd)
  have hle (d : ℕ) (hd : d ∈ perm) : d ≤ MAX_DIM_IND := Nat.le_trans (Nat.le_of_lt (hlt d hd)) hlen
  have hmarks : Marks (validateDim perm) id perm := by
    constructor
    · intro used d hd hfree
      unfold validateDim
      rw [if_neg (not_not.mpr (hle d hd)), if_neg (not_not.mpr (hlt d hd))]
      exact if_neg (by rw [show used.getD d false = false from hfree]; exact Bool.false_ne_true)
    · intro used d hd hmark
      unfold validateDim
      rw [if_neg (not_not.mpr (hle d hd)), if_neg (not_not.mpr (hlt d hd)), if_pos (show used.getD d false = true from hmark)]
      exact ⟨_, rfl⟩
  obtain ⟨hiff, -⟩ := @foldlM_marks _ _ _ (List.replicate MAX_NUM_DIMS false) hmarks
    (fun d hd => by rw [length_replicate]; exact Nat.lt_of_lt_of_le (hlt d hd) hlen)
  obtain ⟨used, hrun⟩ := hiff.mpr ⟨by rw [map_id]; exact hperm.nodup_iff.mpr nodup_range, fun d _ => by
    rw [getD_eq_getElem?_getD, getElem?_replicate]
    split_ifs
    · rfl
    · rfl⟩
  unfold validatePermutation
  rw [hrun]
  rfl

theorem digits_of_perm (hperm : perm.Perm (List.range perm.length)) (hlen : perm.length ≤ MAX_NUM_DIMS) :
    ∀ d ∈ perm.map (· + 1), 0 < d ∧ d < 2 ^ BITS_PER_DIM := by
  intro d hd
  obtain ⟨e, he, rfl⟩ := mem_map.mp hd
  have hlt : e < perm.length := mem_range.mp (hperm.mem_iff.mp he)
  exact ⟨Nat.succ_pos e, Nat.succ_lt_succ (Nat.lt_of_lt_of_le hlt hlen)⟩

def packed (order : DimsOrder) : DimsOrderCode :=
  ⟨Nat.ofDigits (2 ^ BITS_PER_DIM) (order.perm.map (· + 1)).reverse, Nat.ofDigits (2 ^ BITS_PER_DIM) (order.perm.map (· + 1))⟩

variable {order : DimsOrder} {d pos : ℕ}

section
variable (hlen : order.numDims ≤ MAX_NUM_DIMS)
include hlen

theorem packed_inverted : codeDigits (packed order).invertedCode = order.perm.map (· + 1) :=
  read_ofDigits (digits_of_perm order.isPermutation hlen) (by rwa [length_map])

theorem packed_digits : codeDigits (packed order).code = (order.perm.map (· + 1)).reverse := by
  apply read_ofDigits
  · exact fun d hd => digits_of_perm order.isPermutation hlen d (mem_reverse.mp hd)
  · rwa [length_reverse, length_map]

theorem ofCode_packed : ofCode (packed order).code = packed order := by
  have hbits : BITS_PER_DIM * (order.perm.map (· + 1)).reverse.length ≤ 64 := by
    rw [length_reverse, length_map]
    change 4 * order.perm.length ≤ 64
    change order.perm.length ≤ 15 at hlen
    omega
  have hinverted : (codeDigits (packed order).code).foldl (push BITS_PER_DIM 64) 0 = (packed order).invertedCode := by
    rw [packed_digits hlen, foldl_push (fun d hd => (digits_of_perm order.isPermutation hlen d (mem_reverse.mp hd)).2) hbits,
      reverse_reverse]
    rfl
  unfold ofCode
  rw [hinverted]

theorem fromPermutation_packed : fromPermutation order.perm = .ok (packed order) := by
  have hbits : BITS_PER_DIM * (order.perm.map (· + 1)).length ≤ 64 := by
    rw [length_map]
    change 4 * order.perm.length ≤ 64
    change order.perm.length ≤ 15 at hlen
    omega
  have hcode : order.perm.foldl (fun code d => push BITS_PER_DIM 64 code (d + 1)) 0 = (packed order).code := by
    change _ = Nat.ofDigits _ _
    rw [← foldl_push (fun d hd => (digits_of_perm order.isPermutation hlen d hd).2) hbits, foldl_map]
  unfold fromPermutation getCodeFromPermutation
  rw [validatePermutation_ok order.isPermutation hlen]
  change Except.ok (ofCode _) = _
  rw [hcode, ofCode_packed hlen]

theorem fromCode_packed : fromCode (packed order).code = .ok (packed order) := by
  have haccepted : Accepted (packed order).code := by
    constructor
    · rw [packed_digits hlen, nodup_reverse]
      exact order.nodup.map (fun a b heq => Nat.succ.inj heq)
    · intro i hi _
      rw [packed_digits hlen] at hi
      have hdigit := @digit_ofDigits BITS_PER_DIM i _
        (fun d hd => (digits_of_perm order.isPermutation hlen d (mem_reverse.mp hd)).2)
      rw [digit_eq (by decide)] at hdigit
      exact hdigit.trans (getD_eq_default _ _ hi)
  unfold fromCode
  rw [validateCode_iff.mpr haccepted]
  change Except.ok (ofCode _) = _
  rw [ofCode_packed hlen]

theorem packed_numDims : (packed order).numDims = order.numDims := by
  unfold numDims
  rw [packed_digits hlen, length_reverse, length_map]
  rfl

theorem packed_toPermutation : (packed order).toPermutation = order.perm := by
  unfold toPermutation
  rw [packed_inverted hlen, map_map]
  exact map_id _

theorem packed_dimAt (hpos : pos < order.numDims) :
    (packed order).dimAt pos = .ok (order.dimAt pos) := by
  have hdigit : ((packed order).invertedCode >>> (BITS_PER_DIM * pos)) &&& (2 ^ BITS_PER_DIM - 1) = order.dimAt pos + 1 := by
    have hpos' : pos < order.perm.length := hpos
    refine (digit_ofDigits fun d hd => (digits_of_perm order.isPermutation hlen d hd).2).trans ?_
    unfold DimsOrder.dimAt
    rw [getD_eq_getElem _ _ (by rwa [length_map]), getElem_map, getD_eq_getElem _ _ hpos']
  unfold dimAt
  dsimp only
  rw [hdigit, if_pos (Nat.succ_pos _)]
  rfl

theorem packed_dimPos (hd : d < order.numDims) :
    (packed order).dimPos d = .ok (order.dimPos d) := by
  have hpos : order.dimPos d < order.perm.length := dimPos_lt hd
  have hat : order.perm[order.dimPos d] = d := getElem_idxOf hpos
  have hfind : (codeDigits (packed order).invertedCode).findIdx? (· = d + 1) = some (order.dimPos d) := by
    rw [packed_inverted hlen, findIdx?_eq_some_iff_getElem]
    refine ⟨by rwa [length_map], ?_, ?_⟩
    · rw [getElem_map, hat]
      exact decide_eq_true rfl
    · intro j hj
      rw [getElem_map, decide_eq_true_eq, Nat.succ_inj]
      intro heq
      have := order.nodup.getElem_inj_iff.mp (heq.trans hat.symm)
      omega
  unfold dimPos
  rw [hfind]

end

theorem mapM_ok {ε α β : Type} {f : α → Except ε β} {g : α → β} {l : List α} (h : ∀ a ∈ l, f a = .ok (g a)) :
    l.mapM f = .ok (l.map g) := by
  induction l with
  | nil => rfl
  | cons a l ih =>
    rw [mapM_cons, h a mem_cons_self, ih (fun b hb => h b (mem_cons_of_mem _ hb))]
    rfl

theorem packed_toLogicalOrder {α : Type} [Inhabited α] {values : List α} (hlen : order.numDims ≤ MAX_NUM_DIMS)
    (hvalues : values.length = order.numDims) :
    (packed order).toMemoryOrder values = .ok (order.perm.map (values.getD · default)) ∧
      (packed order).toLogicalOrder (order.perm.map (values.getD · default)) = .ok values := by
  have hmemory : (order.perm.map (values.getD · default)).length = order.numDims := length_map _
  constructor
  · unfold toMemoryOrder
    rw [if_pos (hvalues.trans (packed_numDims hlen).symm), packed_toPermutation hlen]
  · unfold toLogicalOrder
    rw [if_pos (hmemory.trans (packed_numDims hlen).symm), hmemory]
    rw [mapM_ok (g := fun d => (order.perm.map (values.getD · default)).getD (order.dimPos d) default) (fun d hd => by
      rw [packed_dimPos hlen (mem_range.mp hd)]
      rfl)]
    congr 1
    apply ext_getElem (by rw [length_map, length_range, hvalues])
    intro d hd hd'
    rw [length_map, length_range] at hd
    have hpos : order.dimPos d < order.perm.length := dimPos_lt hd
    rw [getElem_map, getElem_range, getD_eq_getElem _ _ (by rwa [length_map]), getElem_map,
      show order.perm[order.dimPos d] = d from getElem_idxOf hpos, getD_eq_getElem _ _ hd']

def RoundTrips (perm : List ℕ) : Prop :=
  ∃ order, fromPermutation perm = .ok order ∧ fromCode order.code = .ok order ∧ order.toPermutation = perm ∧
    (∀ d < perm.length, ∃ pos < perm.length, order.dimPos d = .ok pos ∧ order.dimAt pos = .ok d) ∧
    (∀ pos < perm.length, ∃ d < perm.length, order.dimAt pos = .ok d ∧ order.dimPos d = .ok pos) ∧
    ∀ (α : Type) [Inhabited α] (values : List α), values.length = perm.length →
      ∃ memory, order.toMemoryOrder values = .ok memory ∧ order.toLogicalOrder memory = .ok values

theorem roundTrips (hperm : perm.Perm (List.range perm.length)) (hlen : perm.length ≤ MAX_NUM_DIMS) : RoundTrips perm := by
  let order : DimsOrder := ⟨perm, hperm⟩
  refine ⟨packed order, @fromPermutation_packed order hlen, @fromCode_packed order hlen, @packed_toPermutation order hlen, ?_, ?_, ?_⟩
  · intro d hd
    have hpos := @dimPos_lt order d hd
    refine ⟨order.dimPos d, hpos, packed_dimPos hlen hd, ?_⟩
    rw [@packed_dimAt order _ hlen hpos, dimAt_dimPos hd]
  · intro pos hpos
    have hd := @dimAt_lt order pos hpos
    refine ⟨order.dimAt pos, hd, packed_dimAt hlen hpos, ?_⟩
    rw [@packed_dimPos order _ hlen hd, dimPos_dimAt hpos]
  · intro α _ values hvalues
    exact ⟨_, @packed_toLogicalOrder order α _ values hlen hvalues⟩

/-- The check of the range of the used dimensions ends at the first unused one, and the last check does not look at the highest
digit. -/
theorem fromCode_exact_iff {code : ℕ} (hcode : code < 2 ^ 64) :
    (((∃ order, fromCode code = .ok order) ↔ IsPermutationCode code) ∧
        ∀ perm : List ℕ, perm.Perm (List.range perm.length) → perm.length ≤ MAX_NUM_DIMS → RoundTrips perm) ↔
      ¬ AcceptedAmiss code := by
  have haccepts : (∃ order, fromCode code = .ok order) ↔ Accepted code := by
    rw [← validateCode_iff]
    unfold fromCode
    constructor
    · rintro ⟨order, hrun⟩
      obtain ⟨_, hvalid, -⟩ := bind_eq_ok.mp hrun
      exact hvalid
    · intro hvalid
      rw [hvalid]
      exact ⟨_, rfl⟩
  rw [and_iff_left fun perm hperm hlen => roundTrips hperm hlen, haccepts, isPermutationCode_iff hcode]
  constructor
  · rintro h ⟨haccepted, hamiss⟩
    exact (h.mp haccepted).2 hamiss
  · intro h
    exact ⟨fun haccepted => ⟨haccepted, fun hamiss => h ⟨haccepted, hamiss⟩⟩, And.left⟩

theorem fromCode_exact_iff_nhwc : ((∃ order, fromCode 0x1342 = .ok order) ↔ IsPermutationCode 0x1342) ∧
      ∀ perm : List ℕ, perm.Perm (List.range perm.length) → perm.length ≤ MAX_NUM_DIMS → RoundTrips perm := by
  apply (fromCode_exact_iff (by decide)).mpr
  rintro ⟨-, hlarge | hhighest⟩
  · revert hlarge
    decide
  · revert hhighest
    decide

/-- The second dimension alone is taken for an order of one dimension. -/
theorem fromCode_skipsDimension : (∃ order, fromCode 0x2 = .ok order) ∧ ¬ IsPermutationCode 0x2 := by
  refine ⟨⟨_, rfl⟩, ?_⟩
  rw [isPermutationCode_iff (by decide)]
  rintro ⟨-, hfits⟩
  exact hfits (.inl (by decide))

end

end DimsOrderCode

end NpuCompiler.Const
