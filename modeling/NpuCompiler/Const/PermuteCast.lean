import NpuCompiler.Const.LayoutTransformations

namespace NpuCompiler.Const

open MixedRadix List

section

def matchDims : List ℤ → List ℤ → Bool
  | [], _ => true
  | dim :: dims, outShape => if dim ∈ outShape then matchDims dims (outShape.erase dim) else false

def hasSameLogicShape (inMemShape outMemShape : List ℤ) : Bool :=
  inMemShape.length = outMemShape.length && matchDims inMemShape outMemShape

def addDim (inMemShape : List ℤ) (permutation : List ℕ) (outSize : ℤ) : List ℕ :=
  match (List.range inMemShape.length).find? (fun index => entry inMemShape index = outSize ∧ index ∉ permutation) with
  | some index => permutation ++ [index]
  | none => permutation

def applyPerm (memShape : List ℤ) (perm : DimsOrder) : Option (List ℤ) :=
  if memShape.length = perm.numDims then some (perm.toMemoryOrder memShape) else none

def tryToFindPermutationForPermuteCast (getPermutationMap : List ℕ → Option (List ℕ)) (inputType : NDType) (outOrder : DimsOrder)
    (outShape : List ℤ) : Option (Option (List ℕ)) :=
  if outShape.length ≠ outOrder.numDims then none
  else
    let inMemShape := inputType.getMemShape
    let outMemShape := outOrder.toMemoryOrder outShape
    if hasSameLogicShape inMemShape outMemShape = false then some none
    else
      let permutation := outMemShape.foldl (addDim inMemShape) []
      if permutation.length ≠ inMemShape.length then some none
      else do
        let permutationMap ← getPermutationMap permutation
        let perm ← DimsOrder.fromAffineMap permutationMap
        if inMemShape.length ≠ perm.numDims then none
        else if ¬ isTrivialPermute inMemShape perm then some none
        else do
          let permuted ← applyPerm inMemShape perm
          some (if permuted ≠ outMemShape then none else some permutationMap)

variable {inMemShape outMemShape dims : List ℤ} {permutation : List ℕ}

theorem matchDims_iff : matchDims dims outMemShape = true ↔ dims.Subperm outMemShape := by
  induction dims generalizing outMemShape with
  | nil => exact iff_of_true rfl nil_subperm
  | cons dim dims ih =>
    unfold matchDims
    split_ifs with hmem
    · rw [ih, (perm_cons_erase hmem).subperm_left, subperm_cons]
    · exact iff_of_false not_false (fun hsub => hmem (hsub.subset mem_cons_self))

theorem hasSameLogicShape_iff : hasSameLogicShape inMemShape outMemShape = true ↔ inMemShape.Perm outMemShape := by
  unfold hasSameLogicShape
  rw [Bool.and_eq_true, decide_eq_true_eq, matchDims_iff]
  constructor
  · rintro ⟨hlen, hsub⟩
    exact hsub.perm_of_length_le hlen.ge
  · intro hperm
    exact ⟨hperm.length_eq, hperm.subperm⟩

structure Found (inMemShape sizes : List ℤ) (permutation : List ℕ) : Prop where
  nodup : permutation.Nodup
  lt : ∀ d ∈ permutation, d < inMemShape.length
  sizes : permutation.map (entry inMemShape) = sizes

theorem Found.length (h : Found inMemShape dims permutation) : permutation.length = dims.length := by
  rw [← h.sizes, length_map]

theorem Found.exists_unused {outSize : ℤ} (h : Found inMemShape dims permutation)
    (hcount : dims.count outSize < inMemShape.count outSize) :
    ∃ d < inMemShape.length, entry inMemShape d = outSize ∧ d ∉ permutation := by
  by_contra hnone
  push Not at hnone
  have hall : (List.range inMemShape.length).filter (fun d => entry inMemShape d = outSize) ⊆
      permutation.filter (fun d => entry inMemShape d = outSize) := by
    intro d hd
    obtain ⟨hlt, hsize⟩ := mem_filter.mp hd
    exact mem_filter.mpr ⟨hnone d (mem_range.mp hlt) (of_decide_eq_true hsize), hsize⟩
  have hle := (subperm_of_subset (nodup_range.filter _) hall).length_le
  have hcountOf (l : List ℕ) : (l.map (entry inMemShape)).count outSize = (l.filter (fun d => entry inMemShape d = outSize)).length := by
    rw [count_eq_length_filter, filter_map, length_map]
    rfl
  rw [← hcountOf, ← hcountOf, range_map_entry, h.sizes] at hle
  omega

theorem Found.addDim (h : Found inMemShape dims permutation) {outSize : ℤ} (hcount : dims.count outSize < inMemShape.count outSize) :
    ∃ d, addDim inMemShape permutation outSize = permutation ++ [d] ∧ d < inMemShape.length ∧ entry inMemShape d = outSize ∧
      d ∉ permutation ∧ ∀ e < d, entry inMemShape e = outSize → e ∈ permutation := by
  obtain ⟨e, he, hesize, henot⟩ := h.exists_unused hcount
  unfold NpuCompiler.Const.addDim
  cases hfind : (List.range inMemShape.length).find? (fun index => entry inMemShape index = outSize ∧ index ∉ permutation) with
  | none => exact absurd (decide_eq_true ⟨hesize, henot⟩) (find?_eq_none.mp hfind e (mem_range.mpr he))
  | some d =>
    obtain ⟨hd, before, after, hsplit, hbefore⟩ := find?_eq_some_iff_append.mp hfind
    obtain ⟨hsize, hnot⟩ := of_decide_eq_true hd
    obtain ⟨hrange, hlt⟩ := range_eq_append hsplit
    refine ⟨d, rfl, hlt, hsize, hnot, ?_⟩
    intro e he hesize'
    by_contra hnot'
    have := hbefore e (hrange ▸ mem_range.mpr he)
    rw [Bool.not_eq_true', decide_eq_false_iff_not] at this
    exact this ⟨hesize', hnot'⟩

theorem found_foldl (hperm : inMemShape.Perm outMemShape) {before after : List ℤ} (hsplit : outMemShape = before ++ after) :
    Found inMemShape before (before.foldl (addDim inMemShape) []) := by
  induction before using List.reverseRecOn generalizing after with
  | nil => exact ⟨nodup_nil, fun d hd => absurd hd not_mem_nil, rfl⟩
  | append_singleton before outSize ih =>
    rw [append_assoc] at hsplit
    have hfound := ih hsplit
    have hcount : before.count outSize < inMemShape.count outSize := by
      rw [hperm.count_eq, hsplit, count_append, singleton_append, count_cons_self]
      omega
    obtain ⟨d, hadd, hlt, hsize, hnot, -⟩ := hfound.addDim hcount
    rw [foldl_append, foldl_cons, foldl_nil, hadd]
    refine ⟨hfound.nodup.append (nodup_singleton d) (by simpa using hnot), ?_, ?_⟩
    · intro e he
      cases mem_append.mp he with
      | inl he => exact hfound.lt e he
      | inr he => rwa [mem_singleton.mp he]
    · rw [map_append, hfound.sizes, map_singleton, hsize]

def nonUnit (inMemShape : List ℤ) : List ℕ := (List.range inMemShape.length).filter fun d => entry inMemShape d ≠ 1

theorem nonUnit_pairwise : (nonUnit inMemShape).Pairwise (· < ·) := pairwise_lt_range.filter _

theorem mem_nonUnit {d : ℕ} : d ∈ nonUnit inMemShape ↔ d < inMemShape.length ∧ entry inMemShape d ≠ 1 := by
  unfold nonUnit
  rw [mem_filter, mem_range, decide_eq_true_eq]

theorem nonUnit_sizes : (nonUnit inMemShape).map (entry inMemShape) = inMemShape.filter (· ≠ 1) := by
  have hfilter : ((List.range inMemShape.length).map (entry inMemShape)).filter (· ≠ 1) =
      ((List.range inMemShape.length).filter fun d => entry inMemShape d ≠ 1).map (entry inMemShape) := filter_map
  rw [range_map_entry] at hfilter
  exact hfilter.symm

theorem foldl_nonUnit (hperm : inMemShape.Perm outMemShape) (hsame : outMemShape.filter (· ≠ 1) = inMemShape.filter (· ≠ 1))
    {before after : List ℤ} (hsplit : outMemShape = before ++ after) :
    (before.foldl (addDim inMemShape) []).filter (fun d => entry inMemShape d ≠ 1) =
      (nonUnit inMemShape).take (before.filter (· ≠ 1)).length := by
  induction before using List.reverseRecOn generalizing after with
  | nil => rfl
  | append_singleton before outSize ih =>
    rw [append_assoc] at hsplit
    have hfound := found_foldl hperm hsplit
    have hcount : before.count outSize < inMemShape.count outSize := by
      rw [hperm.count_eq, hsplit, count_append, singleton_append, count_cons_self]
      omega
    obtain ⟨d, hadd, hlt, hsize, hnot, hfirst⟩ := hfound.addDim hcount
    rw [foldl_append, foldl_cons, foldl_nil, hadd, filter_append, filter_append, ih hsplit]
    by_cases hunit : outSize = 1
    · rw [filter_singleton, filter_singleton, hsize]
      simp [hunit]
    · have hsizes : (nonUnit inMemShape).map (entry inMemShape) = before.filter (· ≠ 1) ++ outSize :: after.filter (· ≠ 1) := by
        rw [nonUnit_sizes, ← hsame, hsplit, filter_append, singleton_append, filter_cons_of_pos (by simpa using hunit)]
      have hlength := congrArg List.length hsizes
      rw [length_map, length_append, length_cons] at hlength
      have hk : (before.filter (· ≠ 1)).length < (nonUnit inMemShape).length := by omega
      -- the next such dimension has the size that is looked for
      have hnext : entry inMemShape (nonUnit inMemShape)[(before.filter (· ≠ 1)).length] = outSize := by
        have hget := getElem_map (entry inMemShape) (l := nonUnit inMemShape) (i := (before.filter (· ≠ 1)).length)
          (h := by rwa [length_map])
        rw [← hget]
        simp only [hsizes]
        rw [getElem_append_right (Nat.le_refl _)]
        simp
      obtain ⟨k, hkLt, hkd⟩ := mem_iff_getElem.mp (mem_nonUnit.mpr ⟨hlt, hsize.symm ▸ hunit⟩)
      have hmem (e : ℕ) (he : entry inMemShape e ≠ 1) : e ∈ before.foldl (addDim inMemShape) [] ↔
          e ∈ (nonUnit inMemShape).take (before.filter (· ≠ 1)).length := by
        rw [← ih hsplit, mem_filter, and_iff_left (decide_eq_true he)]
      have hkEq : k = (before.filter (· ≠ 1)).length := by
        rcases Nat.lt_trichotomy k (before.filter (· ≠ 1)).length with hlow | heq | hhigh
        · have htaken : d ∈ (nonUnit inMemShape).take (before.filter (· ≠ 1)).length :=
            mem_take_iff_getElem.mpr ⟨k, by omega, hkd⟩
          exact absurd ((hmem d (hsize.symm ▸ hunit)).mpr htaken) hnot
        · exact heq
        · have hearlier := pairwise_iff_getElem.mp (@nonUnit_pairwise inMemShape) _ k hk hkLt hhigh
          have hused := hfirst _ (hkd ▸ hearlier) hnext
          obtain ⟨i, hi, hik⟩ := mem_take_iff_getElem.mp ((hmem _ (hnext.symm ▸ hunit)).mp hused)
          have hnodup : (nonUnit inMemShape).Nodup := nodup_range.filter _
          have := hnodup.getElem_inj_iff.mp hik
          omega
      subst hkEq
      rw [filter_cons_of_pos (by simpa [hsize] using hunit), filter_nil, filter_cons_of_pos (by simpa using hunit),
        filter_nil, length_append, length_singleton, take_succ_eq_append_getElem hk, hkd]

theorem Found.perm_range (h : Found inMemShape dims permutation) (hlen : dims.length = inMemShape.length) :
    permutation.Perm (List.range permutation.length) := by
  have hsub : permutation ⊆ List.range permutation.length := by
    intro d hd
    apply mem_range.mpr
    rw [h.length, hlen]
    exact h.lt d hd
  apply (subperm_of_subset h.nodup hsub).perm_of_length_le
  rw [length_range]

variable {perm : DimsOrder}

theorem isTrivialPermute_iff_nonUnit (hm : inMemShape.length = perm.numDims) :
    isTrivialPermute inMemShape perm ↔ perm.perm.filter (fun d => entry inMemShape d ≠ 1) = nonUnit inMemShape := by
  have hperm : (perm.perm.filter (fun d => entry inMemShape d ≠ 1)).Perm (nonUnit inMemShape) := by
    unfold nonUnit
    rw [hm]
    exact perm.isPermutation.filter _
  constructor
  · intro htriv
    have hsorted : (perm.perm.filter (fun d => entry inMemShape d ≠ 1)).Pairwise (· ≤ ·) := isChain_iff_pairwise.mp htriv
    exact hperm.eq_of_pairwise (fun a b _ _ hab hba => Nat.le_antisymm hab hba) hsorted (nonUnit_pairwise.imp Nat.le_of_lt)
  · intro heq
    apply isChain_iff_pairwise.mpr
    rw [heq]
    exact nonUnit_pairwise.imp Nat.le_of_lt

theorem toMemoryOrder_nonUnit (hm : inMemShape.length = perm.numDims) (htriv : isTrivialPermute inMemShape perm) :
    (perm.toMemoryOrder inMemShape).filter (· ≠ 1) = inMemShape.filter (· ≠ 1) := by
  have hfilter : (perm.perm.map (entry inMemShape)).filter (· ≠ 1) =
      (perm.perm.filter fun d => entry inMemShape d ≠ 1).map (entry inMemShape) := filter_map
  rw [(isTrivialPermute_iff_nonUnit hm).mp htriv, nonUnit_sizes] at hfilter
  exact hfilter

theorem toMemoryOrder_perm (hm : inMemShape.length = perm.numDims) : inMemShape.Perm (perm.toMemoryOrder inMemShape) := by
  have hperm := perm.isPermutation.map (entry inMemShape)
  have hlen : perm.perm.length = inMemShape.length := hm.symm
  rw [hlen, range_map_entry] at hperm
  exact hperm.symm

end

structure KeepsOrder (inMemShape outMemShape : List ℤ) (perm : DimsOrder) : Prop where
  numDims : perm.numDims = inMemShape.length
  shape : perm.toMemoryOrder inMemShape = outMemShape
  order : ∀ v, InBox inMemShape v → encode outMemShape (perm.toMemoryOrder v) = encode inMemShape v

section
variable {inMemShape outMemShape : List ℤ} {perm : DimsOrder}

theorem isTrivialPermute_iff (hpos : ∀ d ∈ inMemShape, 0 < d) (hm : inMemShape.length = perm.numDims) :
    isTrivialPermute inMemShape perm ↔
      ∀ v, InBox inMemShape v → encode (perm.toMemoryOrder inMemShape) (perm.toMemoryOrder v) = encode inMemShape v := by
  constructor
  · intro htriv v hv
    exact encode_of_trivial htriv hm hv
  · intro hkeep
    exact trivial_of_encode hpos hm hkeep

theorem keepsOrder_iff (hpos : ∀ d ∈ inMemShape, 0 < d) : KeepsOrder inMemShape outMemShape perm ↔
    perm.numDims = inMemShape.length ∧ perm.toMemoryOrder inMemShape = outMemShape ∧ isTrivialPermute inMemShape perm := by
  constructor
  · rintro ⟨hnum, rfl, horder⟩
    exact ⟨hnum, rfl, (isTrivialPermute_iff hpos hnum.symm).mpr horder⟩
  · rintro ⟨hnum, rfl, htriv⟩
    exact ⟨hnum, rfl, (isTrivialPermute_iff hpos hnum.symm).mp htriv⟩

theorem keepsOrder_found (hpos : ∀ d ∈ inMemShape, 0 < d) (hkeep : KeepsOrder inMemShape outMemShape perm) {found : DimsOrder}
    (hfound : found.perm = outMemShape.foldl (addDim inMemShape) []) : KeepsOrder inMemShape outMemShape found := by
  obtain ⟨hnum, hshape, htriv⟩ := (keepsOrder_iff hpos).mp hkeep
  have hperm : inMemShape.Perm outMemShape := hshape ▸ toMemoryOrder_perm hnum.symm
  have hsame : outMemShape.filter (· ≠ 1) = inMemShape.filter (· ≠ 1) := hshape ▸ toMemoryOrder_nonUnit hnum.symm htriv
  have hall := found_foldl hperm (append_nil outMemShape).symm
  have hdims : found.numDims = inMemShape.length := by
    unfold DimsOrder.numDims
    rw [hfound, hall.length, hperm.length_eq]
  apply (keepsOrder_iff hpos).mpr
  refine ⟨hdims, ?_, ?_⟩
  · unfold DimsOrder.toMemoryOrder
    rw [hfound]
    exact hall.sizes
  · apply (isTrivialPermute_iff_nonUnit hdims.symm).mpr
    rw [hfound, foldl_nonUnit hperm hsame (append_nil outMemShape).symm, hsame, ← nonUnit_sizes, length_map]
    exact take_length

theorem tryToFindPermutationForPermuteCast_spec {getPermutationMap : List ℕ → Option (List ℕ)} {inputType : NDType} {outOrder : DimsOrder}
    {outShape : List ℤ} (hmap : ∀ permutation, permutation ≠ [] → permutation.Perm (List.range permutation.length) →
      getPermutationMap permutation = some permutation) (hrank : inputType.shape ≠ []) (hout : outShape.length = outOrder.numDims) :
    ∃ found, tryToFindPermutationForPermuteCast getPermutationMap inputType outOrder outShape = some found ∧
      (found.isSome ↔ ∃ perm, KeepsOrder inputType.getMemShape (outOrder.toMemoryOrder outShape) perm) ∧
      ∀ permutationMap, found = some permutationMap → ∃ perm, perm.perm = permutationMap ∧
        KeepsOrder inputType.getMemShape (outOrder.toMemoryOrder outShape) perm := by
  have hpos : ∀ d ∈ inputType.getMemShape, 0 < d := NDType.memShape_pos
  unfold tryToFindPermutationForPermuteCast
  rw [if_neg (not_not_intro hout)]
  dsimp only
  split_ifs with hlogic hlen
  · refine ⟨none, rfl, iff_of_false (by simp) ?_, by simp⟩
    rintro ⟨perm, hkeep⟩
    have hperm : inputType.getMemShape.Perm (outOrder.toMemoryOrder outShape) := hkeep.shape ▸ toMemoryOrder_perm hkeep.numDims.symm
    rw [hasSameLogicShape_iff.mpr hperm] at hlogic
    exact absurd hlogic Bool.true_eq_false.mp
  · have hperm := hasSameLogicShape_iff.mp (Bool.eq_true_of_not_eq_false hlogic)
    have hfound := found_foldl hperm (append_nil _).symm
    exact absurd (hfound.length.trans hperm.length_eq.symm) hlen
  · have hperm := hasSameLogicShape_iff.mp (Bool.eq_true_of_not_eq_false hlogic)
    have hfound := found_foldl hperm (append_nil _).symm
    have hrange := hfound.perm_range hperm.length_eq.symm
    have hnonempty : (outOrder.toMemoryOrder outShape).foldl (addDim inputType.getMemShape) [] ≠ [] := by
      intro hnil
      have hlength := hfound.length
      rw [hnil, ← hperm.length_eq, NDType.memShape_length] at hlength
      exact hrank (eq_nil_of_length_eq_zero hlength.symm)
    set permutation := (outOrder.toMemoryOrder outShape).foldl (addDim inputType.getMemShape) [] with hpermutation
    let perm : DimsOrder := ⟨permutation, hrange⟩
    have hdims : inputType.getMemShape.length = perm.numDims := (not_not.mp hlen).symm
    have happly : applyPerm inputType.getMemShape perm = some (outOrder.toMemoryOrder outShape) := by
      unfold applyPerm
      rw [if_pos hdims]
      exact congrArg some hfound.sizes
    rw [hmap permutation hnonempty hrange]
    simp only [Option.bind_eq_bind, Option.bind_some, show DimsOrder.fromAffineMap permutation = some perm from fromAffineMap_perm perm]
    rw [if_neg (not_not_intro hdims)]
    by_cases htriv : isTrivialPermute inputType.getMemShape perm
    · rw [if_neg (not_not_intro htriv), happly]
      have hkeep : KeepsOrder inputType.getMemShape (outOrder.toMemoryOrder outShape) perm :=
        (keepsOrder_iff hpos).mpr ⟨hdims.symm, hfound.sizes, htriv⟩
      refine ⟨some permutation, by simp, iff_of_true rfl ⟨perm, hkeep⟩, ?_⟩
      rintro _ ⟨⟩
      exact ⟨perm, rfl, hkeep⟩
    · rw [if_pos htriv]
      refine ⟨none, rfl, iff_of_false (by simp) ?_, by simp⟩
      rintro ⟨other, hkeep⟩
      exact htriv ((keepsOrder_iff hpos).mp (keepsOrder_found hpos hkeep hpermutation)).2.2

/-- A permutation is trivial exactly when it keeps the order of the elements, and a permutation is found exactly when one that
keeps the order gives the output memory shape. -/
theorem permuteTriviality_exact (getPermutationMap : List ℕ → Option (List ℕ))
    (hmap : ∀ permutation, permutation ≠ [] → permutation.Perm (List.range permutation.length) →
      getPermutationMap permutation = some permutation) :
    (∀ inShape : List ℤ, (∀ d ∈ inShape, 0 < d) → ∀ perm : DimsOrder, inShape.length = perm.numDims →
      (isTrivialPermute inShape perm ↔
        ∀ v, InBox inShape v → encode (perm.toMemoryOrder inShape) (perm.toMemoryOrder v) = encode inShape v)) ∧
    ∀ (inputType : NDType) (outOrder : DimsOrder) (outShape : List ℤ), inputType.shape ≠ [] → outShape.length = outOrder.numDims →
      ∃ found, tryToFindPermutationForPermuteCast getPermutationMap inputType outOrder outShape = some found ∧
        (found.isSome ↔ ∃ perm, KeepsOrder inputType.getMemShape (outOrder.toMemoryOrder outShape) perm) ∧
        ∀ permutationMap, found = some permutationMap → ∃ perm, perm.perm = permutationMap ∧
          KeepsOrder inputType.getMemShape (outOrder.toMemoryOrder outShape) perm := by
  constructor
  · intro inShape hpos perm hm
    exact isTrivialPermute_iff hpos hm
  · intro inputType outOrder outShape hrank hout
    exact tryToFindPermutationForPermuteCast_spec hmap hrank hout

theorem permuteTriviality_exact_some : (isTrivialPermute [1, 2, 3] ⟨[1, 0, 2], by decide⟩ ↔ ∀ v, InBox [1, 2, 3] v →
      encode ((⟨[1, 0, 2], by decide⟩ : DimsOrder).toMemoryOrder [1, 2, 3])
        ((⟨[1, 0, 2], by decide⟩ : DimsOrder).toMemoryOrder v) = encode [1, 2, 3] v) ∧
    ∃ found, tryToFindPermutationForPermuteCast some
        { shape := [2, 1, 2], dimsOrder := DimsOrder.fromNumDims 3, numDims_eq := by decide, shape_pos := by decide }
        (DimsOrder.fromNumDims 3) [1, 2, 2] = some found ∧ found.isSome := by
  obtain ⟨htriv, hfind⟩ := permuteTriviality_exact some (fun _ _ _ => rfl)
  refine ⟨htriv [1, 2, 3] (by decide) _ (by decide), ?_⟩
  obtain ⟨found, hfound, -, -⟩ := hfind
    { shape := [2, 1, 2], dimsOrder := DimsOrder.fromNumDims 3, numDims_eq := by decide, shape_pos := by decide }
    (DimsOrder.fromNumDims 3) [1, 2, 2] (by decide) (by decide)
  refine ⟨found, hfound, ?_⟩
  have hvalue : tryToFindPermutationForPermuteCast some
      { shape := [2, 1, 2], dimsOrder := DimsOrder.fromNumDims 3, numDims_eq := by decide, shape_pos := by decide }
      (DimsOrder.fromNumDims 3) [1, 2, 2] = some (some [1, 0, 2]) := by decide +kernel
  rw [hvalue] at hfound
  cases hfound
  rfl

end

end NpuCompiler.Const
