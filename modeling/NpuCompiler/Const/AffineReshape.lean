import NpuCompiler.Const.TensorTypes
import NpuCompiler.Library.DimBlocks
import NpuCompiler.Library.FoldRules

namespace NpuCompiler.Const

open MixedRadix

section

def pushOutputDims (prevInd : Option ℕ) (ind : ℕ) : List ℕ → List ℕ → Option (List ℕ)
  | perm, [] => some perm
  | perm, outDim :: outputDims =>
    if perm.getLast? = some outDim then
      match prevInd with
      | none => none
      | some prev => if ind < prev then none else pushOutputDims prevInd ind perm outputDims
    else pushOutputDims prevInd ind (perm ++ [outDim]) outputDims

def collectOutputDims (dimMapping : List (List ℕ)) : Option ℕ → List ℕ → List ℕ → Option (List ℕ)
  | _, perm, [] => some perm
  | prevInd, perm, ind :: inPerm => do
    let perm ← pushOutputDims prevInd ind perm (dimMapping.getD ind [])
    collectOutputDims dimMapping (some ind) perm inPerm

def fromPermutation (perm : List ℕ) : Option DimsOrder :=
  if h : perm.Perm (List.range perm.length) then some ⟨perm, h⟩ else none

def inferAffineReshapeOutputLayout (inPerm : List ℕ) (dimMapping : List (List ℕ)) : Option DimsOrder := do
  let perm ← collectOutputDims dimMapping none [] inPerm
  if perm.Nodup then fromPermutation perm else none

def inferElemTypeAffineReshape (withoutQuantiles : String → String) (inputShape : List ℤ) (inputElementType : ElemType)
    (dimMapping : List (List ℕ)) (shapeValue : List ℤ) : Option ElemType :=
  match inputElementType with
  | .uniformQuantizedPerAxis name inputQAxis params =>
    let outputDims := dimMapping.getD inputQAxis []
    let inputQAxisSize := entry inputShape inputQAxis
    if inputQAxisSize = 1 then params.head?.map (.uniformQuantized (withoutQuantiles name))
    else
      match outputDims.find? fun dim => inputQAxisSize = entry shapeValue dim with
      | none => none
      | some dim =>
        if outputDims.any fun elem => entry shapeValue elem ≠ 1 ∧ entry shapeValue elem ≠ inputQAxisSize then none
        else some (.uniformQuantizedPerAxis name dim params)
  | _ => some inputElementType

def collectInNonOneIndices (inShape : List ℤ) (outAxis : ℕ) (dimMapping : List (List ℕ)) (shapeValue : List ℤ) (inNonOneIndices : List ℕ)
    (inIdx : ℕ) : Option (List ℕ) :=
  let inDimVal := entry inShape inIdx
  if inDimVal = 1 then some inNonOneIndices
  else if outAxis ∈ dimMapping.getD inIdx [] then
    let mappedShape := (dimMapping.getD inIdx []).map (entry shapeValue)
    if mappedShape.prod ≠ inDimVal then none
    else if inDimVal ∉ mappedShape then none
    else some (inNonOneIndices ++ [inIdx])
  else some inNonOneIndices

def backInferElemTypeAffineReshape (inShape : List ℤ) (outputElemType : ElemType) (dimMapping : List (List ℕ)) (shapeValue : List ℤ) :
    Option ElemType :=
  match outputElemType with
  | .uniformQuantizedPerAxis name outAxis params =>
    if entry shapeValue outAxis = 1 then none
    else do
      let inNonOneIndices ← (List.range inShape.length).foldlM (collectInNonOneIndices inShape outAxis dimMapping shapeValue) []
      match inNonOneIndices with
      | [qInAxis] => some (.uniformQuantizedPerAxis name qInAxis params)
      | _ => none
  | _ => some outputElemType

def outputDimsOf (dimMapping : List (List ℕ)) (q : ℕ) : List ℕ := dimMapping.getD q []

def firstDim (dimMapping : List (List ℕ)) (q : ℕ) : ℕ := (outputDimsOf dimMapping q).headD 0

def lastDim (dimMapping : List (List ℕ)) (q : ℕ) : ℕ := (outputDimsOf dimMapping q).getLastD 0

/-- The mapping splits and merges neighbouring logical dimensions: each input dimension goes to the output dimensions
whose digits of the row-major position it shares. -/
structure Regroups (inShape outShape : List ℤ) (dimMapping : List (List ℕ)) : Prop where
  volume : inShape.prod = outShape.prod
  consecutive : ∀ q < inShape.length, firstDim dimMapping q ≤ lastDim dimMapping q ∧
    outputDimsOf dimMapping q = List.range' (firstDim dimMapping q) (lastDim dimMapping q + 1 - firstDim dimMapping q)
  starts : 0 < inShape.length → firstDim dimMapping 0 = 0
  steps : ∀ q, q + 1 < inShape.length → firstDim dimMapping (q + 1) = lastDim dimMapping q ∨
    firstDim dimMapping (q + 1) = lastDim dimMapping q + 1
  inside : ∀ q < inShape.length, lastDim dimMapping q < outShape.length
  all : ∀ o < outShape.length, ∃ q < inShape.length, o ∈ outputDimsOf dimMapping q
  covers : ∀ q < inShape.length,
    weight inShape q * entry inShape q ≤ weight outShape (firstDim dimMapping q) * entry outShape (firstDim dimMapping q) ∧
      weight outShape (lastDim dimMapping q) ≤ weight inShape q
  overlaps : ∀ q < inShape.length, ∀ o ∈ outputDimsOf dimMapping q, entry inShape q ≠ 1 → entry outShape o ≠ 1 →
    weight inShape q < weight outShape o * entry outShape o ∧ weight outShape o < weight inShape q * entry inShape q

def ReshapesLogically (inOrder : DimsOrder) (inShape outShape : List ℤ) (dimMapping : List (List ℕ)) : Prop :=
  ∀ order, inferAffineReshapeOutputLayout inOrder.perm dimMapping = some order → order.numDims = outShape.length ∧
    ∀ x, 0 ≤ x → x < inShape.prod →
      encode (order.toMemoryOrder outShape) (order.toMemoryOrder (decode outShape x)) =
        encode (inOrder.toMemoryOrder inShape) (inOrder.toMemoryOrder (decode inShape x))

def paramAt (shape : List ℤ) (x : ℤ) : ElemType → Option QuantParam
  | .uniformQuantizedPerAxis _ quantizedDimension params =>
    params[(x / weight shape quantizedDimension % entry shape quantizedDimension).toNat]?
  | .uniformQuantized _ param => some param
  | _ => none

def KeepsParams (inShape outShape : List ℤ) (inElemType outElemType : ElemType) : Prop :=
  ∀ x, 0 ≤ x → x < inShape.prod → paramAt outShape x outElemType = paramAt inShape x inElemType

def InfersParams (withoutQuantiles : String → String) (inShape outShape : List ℤ) (dimMapping : List (List ℕ)) (axis : ℕ) : Prop :=
  ∀ name params outElemType, (ElemType.uniformQuantizedPerAxis name axis params).validateQuantElemType inShape →
    inferElemTypeAffineReshape withoutQuantiles inShape (.uniformQuantizedPerAxis name axis params) dimMapping outShape =
      some outElemType →
    KeepsParams inShape outShape (.uniformQuantizedPerAxis name axis params) outElemType

def BackInfersParams (inShape outShape : List ℤ) (dimMapping : List (List ℕ)) : Prop :=
  ∀ name axis params inElemType, (ElemType.uniformQuantizedPerAxis name axis params).validateQuantElemType outShape →
    backInferElemTypeAffineReshape inShape (.uniformQuantizedPerAxis name axis params) dimMapping outShape = some inElemType →
    KeepsParams inShape outShape inElemType (.uniformQuantizedPerAxis name axis params)

/-- Of the output dimensions mapped from the axis at most one has its size, unless another size tells that it is divided. -/
def UniqueOutputDim (inShape outShape : List ℤ) (dimMapping : List (List ℕ)) (axis : ℕ) : Prop :=
  entry inShape axis = 1 ∨
    (∃ o ∈ outputDimsOf dimMapping axis, entry outShape o ≠ 1 ∧ entry outShape o ≠ entry inShape axis) ∨
    ∀ o ∈ outputDimsOf dimMapping axis, ∀ o' ∈ outputDimsOf dimMapping axis,
      entry outShape o = entry inShape axis → entry outShape o' = entry inShape axis → o = o'

end

end NpuCompiler.Const

namespace NpuCompiler.Const

open MixedRadix

section
variable {dimMapping : List (List ℕ)} {prevInd : Option ℕ} {prev ind a n p q : ℕ} {perm pre rest result : List ℕ}

theorem pushOutputDims_range (h : perm.getLast? ≠ some a) :
    pushOutputDims prevInd ind perm (List.range' a n) = some (perm ++ List.range' a n) := by
  induction n generalizing a perm with
  | zero => simp [pushOutputDims]
  | succ n ih =>
    rw [List.range'_succ]
    unfold pushOutputDims
    rw [if_neg h, ih (by simp), List.append_assoc]
    rfl

theorem pushOutputDims_linked (hlast : perm.getLast? = some a)
    (h : pushOutputDims (some prev) ind perm (List.range' a (n + 1)) = some result) :
    prev ≤ ind ∧ result = perm ++ List.range' (a + 1) n := by
  rw [List.range'_succ] at h
  unfold pushOutputDims at h
  rw [if_pos hlast] at h
  dsimp only at h
  split_ifs at h with hlt
  have hnext : perm.getLast? ≠ some (a + 1) := by
    rw [hlast]
    simp
  rw [pushOutputDims_range hnext] at h
  exact ⟨by omega, (Option.some.inj h).symm⟩

def Consecutive (dimMapping : List (List ℕ)) (q : ℕ) : Prop :=
  firstDim dimMapping q ≤ lastDim dimMapping q ∧
    outputDimsOf dimMapping q = List.range' (firstDim dimMapping q) (lastDim dimMapping q + 1 - firstDim dimMapping q)

theorem mem_outputDims (h : Consecutive dimMapping q) :
    a ∈ outputDimsOf dimMapping q ↔ firstDim dimMapping q ≤ a ∧ a ≤ lastDim dimMapping q := by
  have := h.1
  rw [h.2, List.mem_range'_1]
  omega

/-- The output dimensions of neighbours in memory, each mapped from the last output dimension of the one before on. -/
def span (dimMapping : List (List ℕ)) (run : List ℕ) : List ℕ :=
  List.range' (firstDim dimMapping (run.headD 0)) (lastDim dimMapping (run.getLastD 0) + 1 - firstDim dimMapping (run.headD 0))

theorem collectOutputDims_runs (hcons : ∀ q ∈ rest, Consecutive dimMapping q) (ha : a ≤ lastDim dimMapping p)
    (h : collectOutputDims dimMapping (some p) (pre ++ List.range' a (lastDim dimMapping p + 1 - a)) rest = some result) :
    ∃ (cont : List ℕ) (runs : List (List ℕ)), rest = cont ++ runs.flatten ∧ (p :: cont).IsChain (· ≤ ·) ∧
      result = pre ++ List.range' a (lastDim dimMapping ((p :: cont).getLastD 0) + 1 - a) ++ runs.flatMap (span dimMapping) ∧
        ∀ run ∈ runs, run ≠ [] ∧ run.IsChain (· ≤ ·) := by
  induction rest generalizing p pre a with
  | nil => exact ⟨[], [], rfl, List.isChain_singleton p, by simpa using (Option.some.inj h).symm, by simp⟩
  | cons q rest ih =>
    obtain ⟨hfirst, hdims⟩ := hcons q List.mem_cons_self
    have hcons' : ∀ q ∈ rest, Consecutive dimMapping q := fun q hq => hcons q (List.mem_cons_of_mem _ hq)
    have hlast : (pre ++ List.range' a (lastDim dimMapping p + 1 - a)).getLast? = some (lastDim dimMapping p) := by
      rw [show lastDim dimMapping p + 1 - a = (lastDim dimMapping p - a) + 1 by omega, List.range'_concat, ← List.append_assoc,
        List.getLast?_concat]
      congr 1
      omega
    rw [collectOutputDims] at h
    obtain ⟨perm, hpush, hrest⟩ := Option.bind_eq_some_iff.mp h
    rw [show dimMapping.getD q [] = outputDimsOf dimMapping q from rfl, hdims] at hpush
    by_cases hlink : lastDim dimMapping p = firstDim dimMapping q
    · rw [show lastDim dimMapping q + 1 - firstDim dimMapping q = (lastDim dimMapping q - firstDim dimMapping q) + 1 by omega] at hpush
      obtain ⟨hle, rfl⟩ := pushOutputDims_linked (hlast.trans (congrArg some hlink)) hpush
      have hjoin : List.range' a (lastDim dimMapping p + 1 - a) ++
          List.range' (firstDim dimMapping q + 1) (lastDim dimMapping q - firstDim dimMapping q) =
            List.range' a (lastDim dimMapping q + 1 - a) := by
        rw [show firstDim dimMapping q + 1 = a + (lastDim dimMapping p + 1 - a) by omega, List.range'_append_1]
        congr 1
        omega
      rw [List.append_assoc, hjoin] at hrest
      obtain ⟨cont, runs, hcut, hchain, hresult, hruns⟩ := ih hcons' (by omega) hrest
      refine ⟨q :: cont, runs, ?_, List.isChain_cons_cons.mpr ⟨hle, hchain⟩, ?_, hruns⟩
      · rw [hcut, List.cons_append]
      · simpa using hresult
    · have hnext : (pre ++ List.range' a (lastDim dimMapping p + 1 - a)).getLast? ≠ some (firstDim dimMapping q) := by
        rw [hlast]
        simpa using hlink
      rw [pushOutputDims_range hnext] at hpush
      obtain rfl := Option.some.inj hpush
      obtain ⟨cont, runs, hcut, hchain, hresult, hruns⟩ := ih hcons' hfirst hrest
      refine ⟨[], (q :: cont) :: runs, ?_, List.isChain_singleton p, ?_, ?_⟩
      · rw [hcut]
        rfl
      · rw [hresult, List.flatMap_cons, ← List.append_assoc]
        rfl
      · intro run hrun
        rcases List.mem_cons.mp hrun with rfl | hrun
        · exact ⟨List.cons_ne_nil _ _, hchain⟩
        · exact hruns run hrun

theorem exists_runs (hcons : ∀ q ∈ rest, Consecutive dimMapping q) (h : collectOutputDims dimMapping none [] rest = some result) :
    ∃ runs : List (List ℕ), rest = runs.flatten ∧ result = runs.flatMap (span dimMapping) ∧
      ∀ run ∈ runs, run ≠ [] ∧ run.IsChain (· ≤ ·) := by
  cases rest with
  | nil => exact ⟨[], rfl, (Option.some.inj h).symm, by simp⟩
  | cons q rest =>
    obtain ⟨hfirst, hdims⟩ := hcons q List.mem_cons_self
    rw [collectOutputDims] at h
    obtain ⟨perm, hpush, hrest⟩ := Option.bind_eq_some_iff.mp h
    rw [show dimMapping.getD q [] = outputDimsOf dimMapping q from rfl, hdims, pushOutputDims_range (by simp)] at hpush
    obtain rfl := Option.some.inj hpush
    obtain ⟨cont, runs, hcut, hchain, hresult, hruns⟩ :=
      collectOutputDims_runs (fun q hq => hcons q (List.mem_cons_of_mem _ hq)) hfirst hrest
    refine ⟨(q :: cont) :: runs, ?_, ?_, ?_⟩
    · rw [hcut]
      rfl
    · rw [hresult, List.flatMap_cons]
      rfl
    · intro run hrun
      rcases List.mem_cons.mp hrun with rfl | hrun
      · exact ⟨List.cons_ne_nil _ _, hchain⟩
      · exact hruns run hrun

end

section
variable {inShape outShape : List ℤ} {dimMapping : List (List ℕ)} {p q x o : ℕ} {cont run : List ℕ} {runs : List (List ℕ)}

theorem chain_bounds (h : (p :: cont).IsChain (· ≤ ·)) (hx : x ∈ p :: cont) : p ≤ x ∧ x ≤ cont.getLastD p := by
  induction cont generalizing p x with
  | nil =>
    rw [List.mem_singleton.mp hx]
    exact ⟨le_refl _, le_refl _⟩
  | cons q cont ih =>
    obtain ⟨hpq, hchain⟩ := List.isChain_cons_cons.mp h
    obtain ⟨-, hlast⟩ := ih hchain List.mem_cons_self
    rw [List.getLastD_cons]
    rcases List.mem_cons.mp hx with rfl | hx
    · exact ⟨le_refl _, le_trans hpq hlast⟩
    · obtain ⟨hqx, hxlast⟩ := ih hchain hx
      exact ⟨le_trans hpq hqx, hxlast⟩

namespace Regroups

section
variable (h : Regroups inShape outShape dimMapping)
include h

theorem consecutive' (hq : q < inShape.length) : Consecutive dimMapping q :=
  h.consecutive q hq

theorem first_le_last (hq : q < inShape.length) : firstDim dimMapping q ≤ lastDim dimMapping q :=
  (h.consecutive q hq).1

theorem last_le_first (hpq : p < q) (hq : q < inShape.length) :
    lastDim dimMapping p ≤ firstDim dimMapping q := by
  induction q, hpq using Nat.le_induction with
  | base =>
    have hstep := h.steps p hq
    rw [Nat.succ_eq_add_one]
    omega
  | succ q hpq ih =>
    have hlast := ih (by omega)
    have hfirst := h.first_le_last (show q < inShape.length by omega)
    rcases h.steps q hq with heq | heq
    · omega
    · omega

theorem first_le_first (hpq : p ≤ q) (hq : q < inShape.length) :
    firstDim dimMapping p ≤ firstDim dimMapping q := by
  rcases hpq.eq_or_lt with rfl | hlt
  · exact le_refl _
  · exact le_trans (h.first_le_last (by omega)) (h.last_le_first hlt hq)

theorem last_le_last (hpq : p ≤ q) (hq : q < inShape.length) :
    lastDim dimMapping p ≤ lastDim dimMapping q := by
  rcases hpq.eq_or_lt with rfl | hlt
  · exact le_refl _
  · exact le_trans (h.last_le_first hlt hq) (h.first_le_last hq)

theorem weight_bottom (hpos : ∀ d ∈ outShape, 0 < d) (hq : q < inShape.length)
    (hborder : q + 1 < inShape.length → firstDim dimMapping (q + 1) ≠ lastDim dimMapping q) :
    weight inShape q = weight outShape (lastDim dimMapping q) := by
  apply le_antisymm _ (h.covers q hq).2
  by_cases hnext : q + 1 < inShape.length
  · have hfirst : firstDim dimMapping (q + 1) = lastDim dimMapping q + 1 := (h.steps q hnext).resolve_left (hborder hnext)
    have hin : weight inShape (q + 1) * entry inShape (q + 1) = weight inShape q := (prod_drop hnext).symm
    have hinside : lastDim dimMapping q + 1 < outShape.length := by
      have := h.first_le_last hnext
      have := h.inside (q + 1) hnext
      omega
    have hout : weight outShape (lastDim dimMapping q + 1) * entry outShape (lastDim dimMapping q + 1) =
      weight outShape (lastDim dimMapping q) := (prod_drop hinside).symm
    have hcovers := (h.covers (q + 1) hnext).1
    rwa [hfirst, hin, hout] at hcovers
  · have hone : weight inShape q = 1 := by
      unfold weight
      rw [List.drop_eq_nil_of_le (by omega), List.prod_nil]
    have hw : 0 < weight outShape (lastDim dimMapping q) := drop_pos hpos
    omega

theorem weight_top (hq : q < inShape.length)
    (hborder : 0 < q → firstDim dimMapping q ≠ lastDim dimMapping (q - 1)) :
    weight inShape q * entry inShape q = weight outShape (firstDim dimMapping q) * entry outShape (firstDim dimMapping q) := by
  apply le_antisymm (h.covers q hq).1
  have hinside : firstDim dimMapping q < outShape.length := lt_of_le_of_lt (h.first_le_last hq) (h.inside q hq)
  rcases Nat.eq_zero_or_pos q with rfl | hq0
  · rw [h.starts hq] at hinside ⊢
    rw [← prod_drop hq, ← prod_drop hinside, List.drop_zero, List.drop_zero, h.volume]
  · obtain ⟨p, rfl⟩ := Nat.exists_eq_succ_of_ne_zero hq0.ne'
    have hfirst : firstDim dimMapping (p + 1) = lastDim dimMapping p + 1 := (h.steps p hq).resolve_left (hborder hq0)
    have hcovers := (h.covers p (by omega)).2
    rw [← prod_drop hq, ← prod_drop hinside, hfirst]
    exact hcovers

theorem mem_span (hchain : run.IsChain (· ≤ ·)) (hmem : ∀ q ∈ run, q < inShape.length)
    (hq : q ∈ run) (hfirst : firstDim dimMapping q ≤ o) (hlast : o ≤ lastDim dimMapping q) : o ∈ span dimMapping run := by
  obtain ⟨head, tail, rfl⟩ := List.exists_cons_of_ne_nil (List.ne_nil_of_mem hq)
  obtain ⟨hhead, htail⟩ := chain_bounds hchain hq
  have := h.first_le_first hhead (hmem q hq)
  have := h.last_le_last htail (hmem _ List.getLastD_mem_cons)
  unfold span
  rw [List.mem_range'_1, List.headD_cons, List.getLastD_cons]
  omega

theorem run_eq (hperm : runs.flatten.Perm (List.range inShape.length))
    (hnodup : (runs.flatMap (span dimMapping)).Nodup) (hruns : ∀ run ∈ runs, run ≠ [] ∧ run.IsChain (· ≤ ·)) (hrun : run ∈ runs) :
    ∃ q m, run = List.range' q (m + 1) ∧ q + m < inShape.length ∧
      span dimMapping run = List.range' (firstDim dimMapping q) (lastDim dimMapping (q + m) + 1 - firstDim dimMapping q) ∧
        (0 < q → firstDim dimMapping q ≠ lastDim dimMapping (q - 1)) ∧
          (q + m + 1 < inShape.length → firstDim dimMapping (q + m + 1) ≠ lastDim dimMapping (q + m)) := by
  have hmem {r : List ℕ} (hr : r ∈ runs) {y : ℕ} (hy : y ∈ r) : y < inShape.length :=
    List.mem_range.mp (hperm.mem_iff.mp (List.mem_flatten.mpr ⟨r, hr, hy⟩))
  have hspan {r : List ℕ} (hr : r ∈ runs) {y o : ℕ} (hy : y ∈ r) (hfirst : firstDim dimMapping y ≤ o) (hlast : o ≤ lastDim dimMapping y) :
      o ∈ span dimMapping r := h.mem_span (hruns r hr).2 (fun y hy => hmem hr hy) hy hfirst hlast
  obtain ⟨-, hdisjoint⟩ := List.nodup_flatMap.mp hnodup
  have hown {r : List ℕ} (hr : r ∈ runs) {y o : ℕ} (hy : y < inShape.length) (hfirst : firstDim dimMapping y ≤ o)
      (hlast : o ≤ lastDim dimMapping y) (ho : o ∈ span dimMapping r) : y ∈ r := by
    obtain ⟨r', hr', hyr'⟩ := List.mem_flatten.mp (hperm.mem_iff.mpr (List.mem_range.mpr hy))
    have : Std.Symm (Function.onFun List.Disjoint (span dimMapping)) := ⟨fun _ _ hab => hab.symm⟩
    by_cases heq : r' = r
    · rwa [← heq]
    · exact absurd ho ((hdisjoint.forall hr' hr heq) (hspan hr' hyr' hfirst hlast))
  obtain ⟨hne, hchain⟩ := hruns run hrun
  obtain ⟨head, tail, rfl⟩ := List.exists_cons_of_ne_nil hne
  obtain ⟨m, hm⟩ := Nat.exists_eq_add_of_le (chain_bounds hchain List.getLastD_mem_cons).1
  have hlast : head + m < inShape.length := hm ▸ hmem hrun List.getLastD_mem_cons
  have hmemRun {y : ℕ} : y ∈ head :: tail ↔ head ≤ y ∧ y ≤ head + m := by
    constructor
    · intro hy
      rw [← hm]
      exact chain_bounds hchain hy
    · rintro ⟨hhead, htail⟩
      apply hown hrun (by omega) (le_refl _) (h.first_le_last (by omega))
      have := h.first_le_first hhead (by omega)
      have := h.first_le_last (show y < inShape.length by omega)
      have := h.last_le_last htail hlast
      unfold span
      rw [List.mem_range'_1, List.headD_cons, List.getLastD_cons, hm]
      omega
  refine ⟨head, m, ?_, hlast, ?_, ?_, ?_⟩
  · have hflat : (head :: tail).Nodup := (List.nodup_flatten.mp (hperm.nodup_iff.mpr List.nodup_range)).1 _ hrun
    apply List.Perm.eq_of_pairwise (fun a b _ _ hab hba => Nat.le_antisymm hab hba) (List.isChain_iff_pairwise.mp hchain)
      (List.pairwise_le_range' 1)
    apply (List.perm_ext_iff_of_nodup hflat (List.nodup_range' 1)).mpr
    intro y
    rw [hmemRun, List.mem_range'_1]
    omega
  · unfold span
    rw [List.headD_cons, List.getLastD_cons, hm]
  · intro hpos hlink
    have hbefore : head - 1 ∈ head :: tail := by
      have hlt : head - 1 < inShape.length := by omega
      apply hown hrun hlt (h.first_le_last hlt) (le_refl _)
      rw [← hlink]
      exact hspan hrun List.mem_cons_self (le_refl _) (h.first_le_last (by omega))
    have := hmemRun.mp hbefore
    omega
  · intro hnext hlink
    have hafter : head + m + 1 ∈ head :: tail := by
      apply hown hrun hnext (le_refl _) (h.first_le_last hnext)
      have := h.first_le_last hlast
      have := h.first_le_first (show head ≤ head + m by omega) hlast
      unfold span
      rw [List.mem_range'_1, List.headD_cons, List.getLastD_cons, hm, hlink]
      omega
    have := hmemRun.mp hafter
    omega

theorem run_block (hpos : ∀ d ∈ outShape, 0 < d)
    (hperm : runs.flatten.Perm (List.range inShape.length)) (hnodup : (runs.flatMap (span dimMapping)).Nodup)
    (hruns : ∀ run ∈ runs, run ≠ [] ∧ run.IsChain (· ≤ ·)) (hrun : run ∈ runs) {l l' : List ℕ} (hrest : Blocks inShape outShape l l') :
    Blocks inShape outShape (run ++ l) (span dimMapping run ++ l') := by
  obtain ⟨q, m, hrange, hlast, hspan, hbefore, hafter⟩ := h.run_eq hperm hnodup hruns hrun
  have hfirst : firstDim dimMapping q ≤ lastDim dimMapping (q + m) :=
    le_trans (h.first_le_first (by omega) hlast) (h.first_le_last hlast)
  obtain ⟨k, hk⟩ := Nat.exists_eq_add_of_le hfirst
  rw [hspan, hrange, show lastDim dimMapping (q + m) + 1 - firstDim dimMapping q = k + 1 by omega]
  apply Blocks.cons hlast
  · rw [← hk]
    exact h.inside _ hlast
  · rw [← hk]
    exact h.weight_bottom hpos hlast hafter
  · exact h.weight_top (by omega) hbefore
  · exact hrest

theorem reshapesLogically (hpos : ∀ d ∈ inShape, 0 < d) (hpos' : ∀ d ∈ outShape, 0 < d)
    {inOrder : DimsOrder} (hnum : inOrder.numDims = inShape.length) : ReshapesLogically inOrder inShape outShape dimMapping := by
  intro order hlayout
  have hperm : inOrder.perm.Perm (List.range inShape.length) := by
    have := inOrder.isPermutation
    rwa [show inOrder.perm.length = inShape.length from hnum] at this
  have hmem {q : ℕ} (hq : q ∈ inOrder.perm) : q < inShape.length := List.mem_range.mp (hperm.mem_iff.mp hq)
  unfold inferAffineReshapeOutputLayout at hlayout
  obtain ⟨perm, hcollect, hlayout⟩ := Option.bind_eq_some_iff.mp hlayout
  split_ifs at hlayout with hnodup
  unfold fromPermutation at hlayout
  split_ifs at hlayout with hisPerm
  obtain rfl := Option.some.inj hlayout
  obtain ⟨runs, hin, hout, hruns⟩ := exists_runs (fun q hq => h.consecutive' (hmem hq)) hcollect
  have hblocks : ∀ part : List (List ℕ), (∀ run ∈ part, run ∈ runs) →
      Blocks inShape outShape part.flatten (part.flatMap (span dimMapping)) := by
    intro part hpart
    induction part with
    | nil => exact Blocks.nil
    | cons run part ih =>
      rw [List.flatten_cons, List.flatMap_cons]
      exact h.run_block hpos' (hin ▸ hperm) (hout ▸ hnodup) hruns (hpart run List.mem_cons_self)
        (ih fun r hr => hpart r (List.mem_cons_of_mem _ hr))
  have hall : Blocks inShape outShape inOrder.perm perm := by
    rw [hin, hout]
    exact hblocks runs fun _ hrun => hrun
  constructor
  · have hsame : perm.Perm (List.range outShape.length) := by
      apply (List.perm_ext_iff_of_nodup hnodup List.nodup_range).mpr
      intro o
      rw [List.mem_range]
      refine ⟨hall.lt_of_mem, fun ho => ?_⟩
      obtain ⟨q, hq, hoq⟩ := h.all o ho
      obtain ⟨hfirst, hlast⟩ := (mem_outputDims (h.consecutive' hq)).mp hoq
      obtain ⟨run, hrun, hqrun⟩ := List.mem_flatten.mp (hin ▸ hperm.mem_iff.mpr (List.mem_range.mpr hq))
      rw [hout]
      refine List.mem_flatMap.mpr ⟨run, hrun, h.mem_span (hruns run hrun).2 (fun y hy => ?_) hqrun hfirst hlast⟩
      apply hmem
      rw [hin]
      exact List.mem_flatten.mpr ⟨run, hrun, hy⟩
    rw [← List.length_range (n := outShape.length)]
    exact hsame.length_eq
  · intro x _ _
    exact (hall.encode_eq hpos hpos').1.symm

end

end Regroups

end

end NpuCompiler.Const
