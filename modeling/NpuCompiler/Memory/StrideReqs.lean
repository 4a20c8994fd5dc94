import NpuCompiler.Const.SubByteContent
import NpuCompiler.Library.BackwardChain
import NpuCompiler.Tiling.OutputPartition

namespace NpuCompiler.Memory.Strides

open BackwardChain MixedRadix List

inductive StrideReqKind where
  | compact
  | aligned
  | fixed
  deriving DecidableEq

def verifyAttrs (kind : StrideReqKind) (extraValue : ℤ) : Bool :=
  match kind with
  | .compact => extraValue = 0
  | .aligned => 0 < extraValue ∧ Const.isPowerOfTwo extraValue.toNat
  | .fixed => 0 < extraValue

structure DimStrideReq where
  memDim : ℕ
  kind : StrideReqKind
  extraValue : ℤ
  verified : verifyAttrs kind extraValue = true
  deriving DecidableEq

abbrev StrideReqs := List DimStrideReq

def applyStrideReq (baseStride : ℤ) (req : DimStrideReq) : ℤ :=
  match req.kind with
  | .compact => baseStride
  | .aligned => Tiling.alignValUp baseStride req.extraValue
  | .fixed => req.extraValue

namespace StrideReqs

def reqFor (reqs : StrideReqs) (memDim : ℕ) : Option DimStrideReq := reqs.find? fun req => req.memDim = memDim

def hasReqFor (reqs : StrideReqs) (memDim : ℕ) : Bool := (reqs.reqFor memDim).isSome

def add (reqs : StrideReqs) (req : DimStrideReq) : StrideReqs := reqs ++ [req]

def required (reqs : StrideReqs) (memDim : ℕ) (baseStride : ℤ) : ℤ :=
  match reqs.reqFor memDim with
  | none => baseStride
  | some req => applyStrideReq baseStride req

def calcStrides (reqs : StrideReqs) (elemSize : ℤ) (memShape : List ℤ) : List ℤ :=
  buildBack (fun memDim => reqs.required memDim elemSize)
    (fun memDim prevStride prevSize => reqs.required memDim (prevStride * prevSize)) 0 memShape

def checkStride (reqs : StrideReqs) (memStrides : List ℤ) (elemSize : ℤ) (memShape : List ℤ) (ind : ℕ) : Bool :=
  let strideVal := entry memStrides ind
  let prevStride := entry memStrides (ind + 1)
  let prevSize := entry memShape (ind + 1)
  let isLast := ind + 1 = memShape.length
  if isLast ∧ strideVal < elemSize then false
  -- a stride of the slices of a strided slice leaves room for the last element only
  else if ¬isLast ∧ strideVal ≠ 0 ∧ strideVal < prevStride * (prevSize - 1) + elemSize then false
  else if ¬isLast ∧ strideVal = 0 ∧ strideVal < prevStride * prevSize then false
  else match reqs.reqFor ind with
    | none => true
    | some req =>
      match req.kind with
      | .fixed => strideVal = req.extraValue
      | .aligned => strideVal.tmod req.extraValue = 0
      | .compact => if isLast then strideVal = elemSize else strideVal = prevStride * prevSize

def checkStrides (reqs : StrideReqs) (memStrides : List ℤ) (elemSize : ℤ) (memShape : List ℤ) : Bool :=
  (List.range memShape.length).all (reqs.checkStride memStrides elemSize memShape)

def mergeReq (merged : StrideReqs) (curReq otherReq : DimStrideReq) : Option StrideReqs :=
  if curReq.kind = .fixed ∧ otherReq.kind = .fixed ∧ curReq.extraValue ≠ otherReq.extraValue then none
  else if otherReq.kind = .fixed then some (merged.add otherReq)
  else some (merged.add curReq)

def joinCur (other : StrideReqs) (merged : StrideReqs) (curReq : DimStrideReq) : Option StrideReqs :=
  match other.reqFor curReq.memDim with
  | some otherReq => mergeReq merged curReq otherReq
  | none => some (merged.add curReq)

def joinOther (reqs : StrideReqs) (merged : StrideReqs) (otherReq : DimStrideReq) : Option StrideReqs :=
  match reqs.reqFor otherReq.memDim with
  | some curReq => mergeReq merged curReq otherReq
  | none => some (merged.add otherReq)

def join (reqs other : StrideReqs) (elemSize : ℤ) (memShape : List ℤ) : Option StrideReqs := do
  let merged ← reqs.foldlM (joinCur other) []
  let merged ← other.foldlM (joinOther reqs) merged
  let mergedStrides := merged.calcStrides elemSize memShape
  if ¬reqs.checkStrides mergedStrides elemSize memShape then none
  else if ¬other.checkStrides mergedStrides elemSize memShape then none
  else some merged

end StrideReqs

variable {reqs other merged : StrideReqs} {memShape t : List ℤ} {elemSize base stride : ℤ} {d k : ℕ}

def NoFixed (reqs : StrideReqs) : Prop := ∀ req ∈ reqs, req.kind ≠ .fixed

def OnePerDim (reqs : StrideReqs) : Prop := (reqs.map DimStrideReq.memDim).Nodup

def Meets (reqs : StrideReqs) (d : ℕ) (base stride : ℤ) : Prop :=
  ∀ req, reqs.reqFor d = some req →
    (req.kind = .compact → stride = base) ∧ (req.kind = .aligned → req.extraValue ∣ stride) ∧
      (req.kind = .fixed → stride = req.extraValue)

def compactStride (t : List ℤ) (elemSize : ℤ) (memShape : List ℤ) (d : ℕ) : ℤ :=
  if d + 1 = memShape.length then elemSize else entry t (d + 1) * entry memShape (d + 1)

def room (t : List ℤ) (elemSize : ℤ) (memShape : List ℤ) (d : ℕ) : ℤ :=
  if d + 1 = memShape.length then elemSize else entry t (d + 1) * (entry memShape (d + 1) - 1) + elemSize

structure Accepted (reqs : StrideReqs) (t : List ℤ) (elemSize : ℤ) (memShape : List ℤ) : Prop where
  room : ∀ d < memShape.length, room t elemSize memShape d ≤ entry t d
  meets : ∀ d < memShape.length, Meets reqs d (compactStride t elemSize memShape d) (entry t d)

section

theorem meets_iff : Meets reqs d base stride ↔
    (match reqs.reqFor d with
      | none => true
      | some req =>
        match req.kind with
        | .fixed => decide (stride = req.extraValue)
        | .aligned => decide (stride.tmod req.extraValue = 0)
        | .compact => decide (stride = base)) = true := by
  unfold Meets
  cases reqs.reqFor d with
  | none => simp
  | some req => cases hkind : req.kind <;> simp [hkind, Int.dvd_iff_tmod_eq_zero]

theorem size_pos (hshape : ∀ s ∈ memShape, 0 < s) (hd : d < memShape.length) : 0 < entry memShape d :=
  hshape _ (entry_mem hd)

section
variable (helem : 0 < elemSize) (hshape : ∀ s ∈ memShape, 0 < s)
include helem hshape

theorem checkStride_iff (hd : d < memShape.length) :
    reqs.checkStride t elemSize memShape d = true ↔
      (room t elemSize memShape d ≤ entry t d ∨
        d + 1 < memShape.length ∧ entry t d = 0 ∧ entry t (d + 1) * entry memShape (d + 1) ≤ 0) ∧
      Meets reqs d (compactStride t elemSize memShape d) (entry t d) := by
  rw [meets_iff]
  unfold StrideReqs.checkStride room compactStride
  by_cases hlast : d + 1 = memShape.length
  · simp only [hlast, true_and, not_true_eq_false, false_and, ↓reduceIte, lt_irrefl, or_false]
    by_cases hlt : entry t d < elemSize
    · simp [hlt]
    · rw [if_neg hlt]
      simp [le_of_not_gt hlt]
  · have hnext : d + 1 < memShape.length := by omega
    have hsize := size_pos hshape hnext
    simp only [hlast, false_and, not_false_eq_true, true_and, ↓reduceIte, hnext]
    by_cases hzero : entry t d = 0
    · by_cases hprod : entry t d < entry t (d + 1) * entry memShape (d + 1)
      · have hpos : 0 < entry t (d + 1) := pos_of_mul_pos_left (hzero ▸ hprod) hsize.le
        have hroom := mul_nonneg hpos.le (show 0 ≤ entry memShape (d + 1) - 1 by omega)
        rw [if_neg (fun h => h.1 hzero), if_pos ⟨hzero, hprod⟩]
        simp only [Bool.false_eq_true, false_iff, not_and]
        intro h
        omega
      · rw [if_neg (fun h => h.1 hzero), if_neg (fun h => hprod h.2)]
        have hor : entry t (d + 1) * (entry memShape (d + 1) - 1) + elemSize ≤ entry t d ∨
            entry t d = 0 ∧ entry t (d + 1) * entry memShape (d + 1) ≤ 0 := .inr ⟨hzero, by omega⟩
        simp only [hor, true_and]
    · rw [if_neg (fun h : entry t d = 0 ∧ _ => hzero h.1)]
      by_cases hlt : entry t d < entry t (d + 1) * (entry memShape (d + 1) - 1) + elemSize
      · simp [hlt, hzero]
      · simp [hlt, hzero, le_of_not_gt hlt]

theorem zero_chain (h : ∀ d < memShape.length, room t elemSize memShape d ≤ entry t d ∨
      d + 1 < memShape.length ∧ entry t d = 0 ∧ entry t (d + 1) * entry memShape (d + 1) ≤ 0)
    (hd : d < memShape.length) : 0 < entry t d ∧ room t elemSize memShape d ≤ entry t d := by
  obtain ⟨n, hn⟩ : ∃ n, memShape.length = n + 1 := ⟨memShape.length - 1, by omega⟩
  have hd' : d ≤ n := by omega
  induction hd' using Nat.decreasingInduction with
  | self =>
    have hat := h n (by omega)
    rw [room, if_pos hn.symm] at hat ⊢
    omega
  | of_succ k hk ih =>
    obtain ⟨hpos, -⟩ := ih (by omega)
    have hsize := size_pos hshape (show k + 1 < memShape.length by omega)
    have hat := h k (by omega)
    have hprod := mul_pos hpos hsize
    have hroom := mul_nonneg hpos.le (show 0 ≤ entry memShape (k + 1) - 1 by omega)
    rw [room, if_neg (by omega)] at hat ⊢
    omega

theorem checkStrides_iff : reqs.checkStrides t elemSize memShape = true ↔ Accepted reqs t elemSize memShape := by
  unfold StrideReqs.checkStrides
  rw [all_eq_true]
  constructor
  · intro h
    have hall := fun d hd => (checkStride_iff helem hshape hd).mp (h d (mem_range.mpr hd))
    exact ⟨fun d hd => (zero_chain helem hshape (fun d hd => (hall d hd).1) hd).2, fun d hd => (hall d hd).2⟩
  · intro h d hd
    have hlt := mem_range.mp hd
    exact (checkStride_iff helem hshape hlt).mpr ⟨.inl (h.room d hlt), h.meets d hlt⟩

end

theorem verified_pos {req : DimStrideReq} (hkind : req.kind = .aligned) : 0 < req.extraValue := by
  have hv := req.verified
  simp only [verifyAttrs, hkind, Bool.decide_and, Bool.and_eq_true, decide_eq_true_eq] at hv
  exact hv.1

theorem alignValUp_le {a : ℤ} (hbase : 0 < base) (ha : 0 < a) (hd : a ∣ stride) (hle : base ≤ stride) :
    Tiling.alignValUp base a ≤ stride := by
  obtain ⟨q, rfl⟩ := hd
  unfold Tiling.alignValUp
  rw [if_pos hbase.le]
  dsimp only
  rw [one_mul, Int.tdiv_eq_ediv_of_nonneg (by omega), mul_comm]
  apply mul_le_mul_of_nonneg_left _ ha.le
  apply Int.le_of_lt_add_one
  apply Int.ediv_lt_of_lt_mul ha
  rw [Int.add_mul, mul_comm q a]
  omega

theorem mem_of_reqFor {req : DimStrideReq} (h : reqs.reqFor d = some req) : req ∈ reqs ∧ req.memDim = d := by
  exact ⟨mem_of_find?_eq_some h, by simpa using find?_some h⟩

theorem le_required (hfixed : NoFixed reqs) (hbase : 0 < base) : base ≤ reqs.required d base := by
  unfold StrideReqs.required
  cases hreq : reqs.reqFor d with
  | none => exact le_rfl
  | some req =>
    dsimp only
    unfold applyStrideReq
    cases hkind : req.kind with
    | compact => exact le_rfl
    | aligned => exact (Tiling.alignValUp_spec hbase (verified_pos hkind)).2
    | fixed => exact absurd hkind (hfixed req (mem_of_reqFor hreq).1)

theorem meets_required (hfixed : NoFixed reqs) (hbase : 0 < base) : Meets reqs d base (reqs.required d base) := by
  intro req hreq
  have hat : reqs.required d base = applyStrideReq base req := by
    unfold StrideReqs.required
    rw [hreq]
  rw [hat]
  unfold applyStrideReq
  cases hkind : req.kind with
  | compact => simp
  | aligned => simpa using (Tiling.alignValUp_spec hbase (verified_pos hkind)).1
  | fixed => exact absurd hkind (hfixed req (mem_of_reqFor hreq).1)

theorem required_le {compact : ℤ} (hfixed : NoFixed reqs) (hbase : 0 < base) (hle : base ≤ stride)
    (hmeets : Meets reqs d compact stride) : reqs.required d base ≤ stride := by
  unfold StrideReqs.required
  cases hreq : reqs.reqFor d with
  | none => exact hle
  | some req =>
    dsimp only
    unfold applyStrideReq
    cases hkind : req.kind with
    | compact => exact hle
    | aligned => exact alignValUp_le hbase (verified_pos hkind) ((hmeets req hreq).2.1 hkind) hle
    | fixed => exact absurd hkind (hfixed req (mem_of_reqFor hreq).1)

structure MadeFrom (reqs : StrideReqs) (t : List ℤ) (elemSize : ℤ) (memShape : List ℤ) (base : ℕ → ℤ) : Prop where
  required : ∀ d < memShape.length, entry t d = reqs.required d (base d)
  last : ∀ d < memShape.length, d + 1 = memShape.length → base d = elemSize
  roomy : ∀ d < memShape.length, elemSize ≤ entry t (d + 1) → room t elemSize memShape d ≤ base d
  compact : ∀ d < memShape.length, ∀ req, reqs.reqFor d = some req → req.kind = .compact →
    base d = compactStride t elemSize memShape d

theorem MadeFrom.elemSize_le {base : ℕ → ℤ} (h : MadeFrom reqs t elemSize memShape base) (hfixed : NoFixed reqs)
    (helem : 0 < elemSize) (hshape : ∀ s ∈ memShape, 0 < s) (hd : d < memShape.length) :
    elemSize ≤ base d ∧ elemSize ≤ entry t d := by
  obtain ⟨n, hn⟩ : ∃ n, memShape.length = n + 1 := ⟨memShape.length - 1, by omega⟩
  have hd' : d ≤ n := by omega
  induction hd' using Nat.decreasingInduction with
  | self =>
    have hlast := h.last n (by omega) hn.symm
    have hle := @le_required reqs (base n) n hfixed (by omega)
    rw [h.required n (by omega)]
    omega
  | of_succ k hk ih =>
    obtain ⟨-, hnext⟩ := ih (by omega)
    have hroom := h.roomy k (by omega) hnext
    have hsize := size_pos hshape (show k + 1 < memShape.length by omega)
    have hprod := mul_nonneg (show 0 ≤ entry t (k + 1) by omega) (show 0 ≤ entry memShape (k + 1) - 1 by omega)
    rw [room, if_neg (by omega)] at hroom
    have hle := @le_required reqs (base k) k hfixed (by omega)
    rw [h.required k (by omega)]
    omega

theorem MadeFrom.accepted {base : ℕ → ℤ} (h : MadeFrom reqs t elemSize memShape base) (hfixed : NoFixed reqs)
    (helem : 0 < elemSize) (hshape : ∀ s ∈ memShape, 0 < s) : Accepted reqs t elemSize memShape := by
  have hle := fun d hd => @MadeFrom.elemSize_le _ _ _ _ d base h hfixed helem hshape hd
  constructor
  · intro d hd
    have hpos := (hle d hd).1
    have hbase : room t elemSize memShape d ≤ base d := by
      by_cases hlast : d + 1 = memShape.length
      · rw [room, if_pos hlast, h.last d hd hlast]
      · exact h.roomy d hd (hle (d + 1) (by omega)).2
    rw [h.required d hd]
    exact hbase.trans (le_required hfixed (by omega))
  · intro d hd req hreq
    have hmeets := @meets_required reqs (base d) d hfixed (by have := (hle d hd).1; omega) req hreq
    rw [h.required d hd]
    refine ⟨fun hkind => ?_, hmeets.2⟩
    rw [hmeets.1 hkind, h.compact d hd req hreq hkind]

theorem MadeFrom.le {base : ℕ → ℤ} {u : List ℤ} (h : MadeFrom reqs t elemSize memShape base) (hfixed : NoFixed reqs)
    (helem : 0 < elemSize) (hshape : ∀ s ∈ memShape, 0 < s) (hu : Accepted reqs u elemSize memShape)
    (hbase : ∀ d, d + 1 < memShape.length → entry t (d + 1) ≤ entry u (d + 1) → base d ≤ entry u d)
    (hd : d < memShape.length) : entry t d ≤ entry u d := by
  have hpos := fun d hd => (@MadeFrom.elemSize_le _ _ _ _ d base h hfixed helem hshape hd).1
  obtain ⟨n, hn⟩ : ∃ n, memShape.length = n + 1 := ⟨memShape.length - 1, by omega⟩
  have hd' : d ≤ n := by omega
  induction hd' using Nat.decreasingInduction with
  | self =>
    have hroom := hu.room n (by omega)
    rw [room, if_pos hn.symm, ← h.last n (by omega) hn.symm] at hroom
    rw [h.required n (by omega)]
    exact required_le hfixed (by have := hpos n (by omega); omega) hroom (hu.meets n (by omega))
  | of_succ k hk ih =>
    rw [h.required k (by omega)]
    exact required_le hfixed (by have := hpos k (by omega); omega) (hbase k (by omega) (ih (by omega)))
      (hu.meets k (by omega))

theorem entry_buildBack_last {first : ℕ → ℤ} {step : ℕ → ℤ → ℤ → ℤ} (hd : d + 1 = memShape.length) :
    entry (buildBack first step 0 memShape) d = first d := by
  have h := @getD_buildBack_last ℤ ℤ first step memShape 0 d 0 hd
  rwa [Nat.zero_add] at h

theorem entry_buildBack {first : ℕ → ℤ} {step : ℕ → ℤ → ℤ → ℤ} (hd : d + 1 < memShape.length) :
    entry (buildBack first step 0 memShape) d =
      step d (entry (buildBack first step 0 memShape) (d + 1)) (entry memShape (d + 1)) := by
  have h := @getD_buildBack ℤ ℤ first step memShape 0 d 0 0 hd
  rwa [Nat.zero_add] at h

theorem calcStrides_madeFrom : MadeFrom reqs (reqs.calcStrides elemSize memShape) elemSize memShape
      (compactStride (reqs.calcStrides elemSize memShape) elemSize memShape) := by
  constructor
  · intro d hd
    unfold compactStride
    split
    · next hlast => exact entry_buildBack_last hlast
    · exact entry_buildBack (by omega)
  · exact fun d _ hlast => if_pos hlast
  · intro d hd hle
    unfold room compactStride
    split
    · exact le_rfl
    · rw [Int.mul_sub, Int.mul_one]
      omega
  · exact fun d _ req _ _ => rfl

def leastBase (reqs : StrideReqs) (d : ℕ) (elemSize prevStride prevSize : ℤ) : ℤ :=
  if ∃ req ∈ reqs.reqFor d, req.kind = .compact then prevStride * prevSize else prevStride * (prevSize - 1) + elemSize

def leastStrides (reqs : StrideReqs) (elemSize : ℤ) (memShape : List ℤ) : List ℤ :=
  buildBack (fun memDim => reqs.required memDim elemSize)
    (fun memDim prevStride prevSize => reqs.required memDim (leastBase reqs memDim elemSize prevStride prevSize)) 0 memShape

theorem leastStrides_madeFrom : MadeFrom reqs (leastStrides reqs elemSize memShape) elemSize memShape fun d =>
    if d + 1 = memShape.length then elemSize
    else leastBase reqs d elemSize (entry (leastStrides reqs elemSize memShape) (d + 1)) (entry memShape (d + 1)) := by
  constructor
  · intro d hd
    split
    · next hlast => exact entry_buildBack_last hlast
    · exact entry_buildBack (by omega)
  · exact fun d _ hlast => if_pos hlast
  · intro d hd hle
    unfold room leastBase
    split
    · exact le_rfl
    · split
      · rw [Int.mul_sub, Int.mul_one]
        omega
      · exact le_rfl
  · intro d hd req hreq hkind
    unfold compactStride
    split
    · rfl
    · exact if_pos ⟨req, hreq, hkind⟩

def Covering (t memShape : List ℤ) : Prop :=
  ∀ d, d + 1 < memShape.length → entry t (d + 1) * entry memShape (d + 1) ≤ entry t d

theorem calcStrides_le (hfixed : NoFixed reqs) (helem : 0 < elemSize) (hshape : ∀ s ∈ memShape, 0 < s)
    (ht : Accepted reqs t elemSize memShape) (hcover : Covering t memShape) (hd : d < memShape.length) :
    entry (reqs.calcStrides elemSize memShape) d ≤ entry t d := by
  apply calcStrides_madeFrom.le hfixed helem hshape ht _ hd
  intro k hk hle
  rw [compactStride, if_neg (by omega)]
  exact (mul_le_mul_of_nonneg_right hle (size_pos hshape hk).le).trans (hcover k hk)

theorem leastStrides_le (hfixed : NoFixed reqs) (helem : 0 < elemSize) (hshape : ∀ s ∈ memShape, 0 < s)
    (ht : Accepted reqs t elemSize memShape) (hd : d < memShape.length) :
    entry (leastStrides reqs elemSize memShape) d ≤ entry t d := by
  apply leastStrides_madeFrom.le hfixed helem hshape ht _ hd
  intro k hk hle
  have hsize := size_pos hshape hk
  rw [if_neg (by omega), leastBase]
  split
  · next hcompact =>
    obtain ⟨req, hreq, hkind⟩ := hcompact
    have hmeets := (ht.meets k (by omega) req hreq).1 hkind
    rw [compactStride, if_neg (by omega)] at hmeets
    rw [hmeets]
    exact mul_le_mul_of_nonneg_right hle hsize.le
  · have hroom := ht.room k (by omega)
    rw [room, if_neg (by omega)] at hroom
    have hmul := mul_le_mul_of_nonneg_right hle (show 0 ≤ entry memShape (k + 1) - 1 by omega)
    omega

theorem joinCur_eq {curReq : DimStrideReq} (hcur : curReq.kind ≠ .fixed) (hother : NoFixed other) :
    StrideReqs.joinCur other merged curReq = some (merged ++ [curReq]) := by
  unfold StrideReqs.joinCur
  cases hreq : other.reqFor curReq.memDim with
  | none => rfl
  | some otherReq =>
    dsimp only
    rw [StrideReqs.mergeReq, if_neg (fun h => hcur h.1), if_neg (hother otherReq (mem_of_reqFor hreq).1)]
    rfl

def preferred (reqs : StrideReqs) (otherReq : DimStrideReq) : DimStrideReq :=
  (reqs.reqFor otherReq.memDim).getD otherReq

theorem joinOther_eq {otherReq : DimStrideReq} (hother : otherReq.kind ≠ .fixed) :
    StrideReqs.joinOther reqs merged otherReq = some (merged ++ [preferred reqs otherReq]) := by
  unfold StrideReqs.joinOther preferred
  cases hreq : reqs.reqFor otherReq.memDim with
  | none => rfl
  | some curReq =>
    dsimp only
    rw [StrideReqs.mergeReq, if_neg (fun h => hother h.2.1), if_neg hother]
    rfl

theorem foldlM_append {α β : Type} {f : List β → α → Option (List β)} {g : α → β} {l : List α} {done : List β}
    (h : ∀ a ∈ l, ∀ s, f s a = some (s ++ [g a])) : l.foldlM f done = some (done ++ l.map g) := by
  induction l generalizing done with
  | nil => simp
  | cons a l ih =>
    rw [foldlM_cons, h a mem_cons_self]
    change l.foldlM f (done ++ [g a]) = _
    rw [ih fun b hb => h b (mem_cons_of_mem a hb), append_assoc]
    rfl

/-- The lists one after another, with the requirements of the first list in place of those of the second. -/
def merge (reqs other : StrideReqs) : StrideReqs := reqs ++ other.map (preferred reqs)

theorem join_eq_some_iff (hfixed : NoFixed reqs) (hother : NoFixed other) :
    reqs.join other elemSize memShape = some merged ↔ merge reqs other = merged ∧
      reqs.checkStrides (merged.calcStrides elemSize memShape) elemSize memShape = true ∧
      other.checkStrides (merged.calcStrides elemSize memShape) elemSize memShape = true := by
  have hcur : reqs.foldlM (StrideReqs.joinCur other) [] = some reqs := by
    have h := @foldlM_append _ _ (StrideReqs.joinCur other) id reqs [] fun req hreq s => joinCur_eq (hfixed req hreq) hother
    simpa using h
  have hrest : other.foldlM (StrideReqs.joinOther reqs) reqs = some (merge reqs other) :=
    foldlM_append fun req hreq s => joinOther_eq (hother req hreq)
  unfold StrideReqs.join
  rw [hcur]
  change (other.foldlM (StrideReqs.joinOther reqs) reqs).bind _ = _ ↔ _
  rw [hrest, Option.bind_some]
  dsimp only
  split
  · next hno =>
    simp only [reduceCtorEq, false_iff]
    rintro ⟨rfl, hyes, -⟩
    exact hno hyes
  · next hyes =>
    split
    · next hno =>
      simp only [reduceCtorEq, false_iff]
      rintro ⟨rfl, -, hyes'⟩
      exact hno hyes'
    · next hyes' =>
      simp only [not_not] at hyes hyes'
      constructor
      · intro h
        cases h
        exact ⟨rfl, hyes, hyes'⟩
      · rintro ⟨rfl, -⟩
        rfl

def completed (reqs other : StrideReqs) : StrideReqs := reqs ++ other.filter fun req => !reqs.hasReqFor req.memDim

theorem reqFor_append {l : StrideReqs} : StrideReqs.reqFor (reqs ++ l) d = (reqs.reqFor d).or (l.reqFor d) :=
  find?_append

theorem memDim_preferred {req : DimStrideReq} : (preferred reqs req).memDim = req.memDim := by
  unfold preferred
  cases hreq : reqs.reqFor req.memDim with
  | none => rfl
  | some curReq => exact (mem_of_reqFor hreq).2

theorem reqFor_cons {req : DimStrideReq} {l : StrideReqs} :
    StrideReqs.reqFor (req :: l) d = if req.memDim = d then some req else l.reqFor d := by
  unfold StrideReqs.reqFor
  rw [find?_cons]
  split <;> simp_all

theorem reqFor_map_preferred (hnone : reqs.reqFor d = none) :
    StrideReqs.reqFor (other.map (preferred reqs)) d = other.reqFor d := by
  induction other with
  | nil => rfl
  | cons req other ih =>
    rw [map_cons, reqFor_cons, reqFor_cons, memDim_preferred, ih]
    split
    · next he => rw [preferred, he, hnone, Option.getD_none]
    · rfl

theorem reqFor_filter (hnone : reqs.reqFor d = none) :
    StrideReqs.reqFor (other.filter fun req => !reqs.hasReqFor req.memDim) d = other.reqFor d := by
  induction other with
  | nil => rfl
  | cons req other ih =>
    rw [filter_cons]
    split
    · rw [reqFor_cons, reqFor_cons, ih]
    · next hhas =>
      have hne : req.memDim ≠ d := by
        rintro rfl
        simp [StrideReqs.hasReqFor, hnone] at hhas
      rw [ih, reqFor_cons, if_neg hne]

theorem reqFor_merge : (merge reqs other).reqFor d = (completed reqs other).reqFor d := by
  rw [merge, completed, reqFor_append, reqFor_append]
  cases hcur : reqs.reqFor d with
  | some req => rfl
  | none => rw [reqFor_map_preferred hcur, reqFor_filter hcur]

theorem Accepted.of_reqFor (h : Accepted merged t elemSize memShape)
    (hkept : ∀ d req, reqs.reqFor d = some req → merged.reqFor d = some req) : Accepted reqs t elemSize memShape := by
  exact ⟨h.room, fun d hd req hreq => h.meets d hd req (hkept d req hreq)⟩

theorem calcStrides_congr (h : ∀ d, reqs.reqFor d = other.reqFor d) :
    reqs.calcStrides elemSize memShape = other.calcStrides elemSize memShape := by
  unfold StrideReqs.calcStrides StrideReqs.required
  simp only [h]

theorem join_isSome_iff (hfixed : NoFixed reqs) (hother : NoFixed other) (helem : 0 < elemSize)
    (hshape : ∀ s ∈ memShape, 0 < s) : (reqs.join other elemSize memShape).isSome ↔
      other.checkStrides ((completed reqs other).calcStrides elemSize memShape) elemSize memShape = true := by
  have hmerged : NoFixed (merge reqs other) := by
    intro req hreq
    rcases mem_append.mp hreq with hreq | hreq
    · exact hfixed req hreq
    · obtain ⟨otherReq, hmem, rfl⟩ := mem_map.mp hreq
      unfold preferred
      cases hcur : reqs.reqFor otherReq.memDim with
      | none => exact hother otherReq hmem
      | some curReq => exact hfixed curReq (mem_of_reqFor hcur).1
  have haccepted := calcStrides_madeFrom.accepted hmerged helem hshape
  rw [calcStrides_congr fun d => (@reqFor_merge reqs other d).symm, Option.isSome_iff_exists]
  simp only [join_eq_some_iff hfixed hother, exists_eq_left', checkStrides_iff helem hshape, and_iff_right_iff_imp]
  intro _
  apply haccepted.of_reqFor
  intro d req hreq
  rw [merge, reqFor_append, hreq, Option.some_or]

theorem join_apart (hfixed : NoFixed reqs) (hother : NoFixed other) (helem : 0 < elemSize)
    (hshape : ∀ s ∈ memShape, 0 < s) (hreqs : OnePerDim reqs) (hothers : OnePerDim other)
    (hapart : ∀ req ∈ reqs, ∀ otherReq ∈ other, req.memDim ≠ otherReq.memDim) :
    reqs.join other elemSize memShape = some (reqs ++ other) ∧ OnePerDim (reqs ++ other) := by
  have hnone : ∀ otherReq ∈ other, reqs.reqFor otherReq.memDim = none := by
    intro otherReq hmem
    apply find?_eq_none.mpr
    intro req hreq
    simpa using hapart req hreq otherReq hmem
  have hmerge : merge reqs other = reqs ++ other := by
    rw [merge, map_congr_left (g := id), map_id]
    intro otherReq hmem
    rw [preferred, hnone otherReq hmem]
    rfl
  have hall : NoFixed (reqs ++ other) := fun req hreq => (mem_append.mp hreq).elim (hfixed req) (hother req)
  have haccepted := calcStrides_madeFrom.accepted hall helem hshape
  constructor
  · apply (join_eq_some_iff hfixed hother).mpr
    refine ⟨hmerge, (checkStrides_iff helem hshape).mpr (haccepted.of_reqFor fun d req hreq => ?_),
      (checkStrides_iff helem hshape).mpr (haccepted.of_reqFor fun d req hreq => ?_)⟩
    · rw [reqFor_append, hreq, Option.some_or]
    · obtain ⟨hmem, rfl⟩ := mem_of_reqFor hreq
      rw [reqFor_append, hnone req hmem, Option.none_or, hreq]
  · unfold OnePerDim
    rw [map_append, nodup_append]
    refine ⟨hreqs, hothers, ?_⟩
    intro a ha b hb
    obtain ⟨req, hreq, rfl⟩ := mem_map.mp ha
    obtain ⟨otherReq, hmem, rfl⟩ := mem_map.mp hb
    exact hapart req hreq otherReq hmem

end

/-- Calculated strides are accepted, and they are the least of those that span the whole inner dimensions; strides that
leave room for the last element only can be smaller. The join of two lists has strides that satisfy both. -/
theorem strideReqs_spec (hfixed : NoFixed reqs) (hother : NoFixed other) (hreqs : OnePerDim reqs)
    (hothers : OnePerDim other) (helem : 0 < elemSize) (hshape : ∀ s ∈ memShape, 0 < s) :
    reqs.checkStrides (reqs.calcStrides elemSize memShape) elemSize memShape = true ∧
    reqs.checkStrides (leastStrides reqs elemSize memShape) elemSize memShape = true ∧
    (∀ t, reqs.checkStrides t elemSize memShape = true → ∀ d < memShape.length,
      entry (leastStrides reqs elemSize memShape) d ≤ entry t d ∧
        (Covering t memShape → entry (reqs.calcStrides elemSize memShape) d ≤ entry t d)) ∧
    (∀ merged, reqs.join other elemSize memShape = some merged →
      reqs.checkStrides (merged.calcStrides elemSize memShape) elemSize memShape = true ∧
      other.checkStrides (merged.calcStrides elemSize memShape) elemSize memShape = true) ∧
    ((∀ req ∈ reqs, ∀ otherReq ∈ other, req.memDim ≠ otherReq.memDim) →
      reqs.join other elemSize memShape = some (reqs ++ other) ∧ OnePerDim (reqs ++ other)) ∧
    ((reqs.join other elemSize memShape).isSome ↔
      other.checkStrides ((completed reqs other).calcStrides elemSize memShape) elemSize memShape = true) := by
  refine ⟨?_, ?_, ?_, ?_, ?_, ?_⟩
  · exact (checkStrides_iff helem hshape).mpr (calcStrides_madeFrom.accepted hfixed helem hshape)
  · exact (checkStrides_iff helem hshape).mpr (leastStrides_madeFrom.accepted hfixed helem hshape)
  · intro t ht d hd
    have haccepted := (checkStrides_iff helem hshape).mp ht
    exact ⟨leastStrides_le hfixed helem hshape haccepted hd, fun hcover => calcStrides_le hfixed helem hshape haccepted hcover hd⟩
  · exact fun merged h => ((join_eq_some_iff hfixed hother).mp h).2
  · exact join_apart hfixed hother helem hshape hreqs hothers
  · exact join_isSome_iff hfixed hother helem hshape

def alignedReq (memDim : ℕ) : DimStrideReq := ⟨memDim, .aligned, 16, by decide⟩

theorem strideReqs_spec_aligned :
    StrideReqs.checkStrides [alignedReq 1] (StrideReqs.calcStrides [alignedReq 1] 8 [2, 3]) 8 [2, 3] = true ∧
    StrideReqs.join [alignedReq 1] [alignedReq 0] 8 [2, 3] = some [alignedReq 1, alignedReq 0] := by
  have h := @strideReqs_spec [alignedReq 1] [alignedReq 0] [2, 3] 8 (by simp [NoFixed, alignedReq])
    (by simp [NoFixed, alignedReq]) (by simp [OnePerDim]) (by simp [OnePerDim]) (by decide) (by decide)
  exact ⟨h.1, (h.2.2.2.2.1 (by decide)).1⟩

/-- Rows of three aligned elements can overlap the padding of the row before, and a compact requirement of the first list
is not aligned by way of the inner dimension. -/
theorem strideReqs_smaller : (StrideReqs.calcStrides [alignedReq 1] 8 [2, 3] = [48, 16] ∧
      StrideReqs.checkStrides [alignedReq 1] [40, 16] 8 [2, 3] = true) ∧
    StrideReqs.join [⟨0, .compact, 0, by decide⟩] [alignedReq 0] 8 [2, 3] = none ∧
      StrideReqs.checkStrides [⟨0, .compact, 0, by decide⟩] [48, 16] 8 [2, 3] = true ∧
      StrideReqs.checkStrides [alignedReq 0] [48, 16] 8 [2, 3] = true := by
  decide

end NpuCompiler.Memory.Strides
