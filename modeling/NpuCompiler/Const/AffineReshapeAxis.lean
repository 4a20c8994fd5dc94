import NpuCompiler.Const.AffineReshape

namespace NpuCompiler.Const

open MixedRadix List

section
variable {inShape outShape : List ℤ} {dimMapping : List (List ℕ)} {a b q o o' : ℕ}

theorem prod_drop_eq (hab : a ≤ b) (hb : b ≤ outShape.length) (hone : ∀ o, a ≤ o → o < b → entry outShape o = 1) :
    (outShape.drop a).prod = (outShape.drop b).prod := by
  induction b, hab using Nat.le_induction with
  | base => rfl
  | succ b hab ih =>
    rw [ih (by omega) fun o ha ho => hone o ha (by omega), prod_drop (by omega), hone b hab (by omega), mul_one]
    rfl

theorem mul_weight_le (hpos : ∀ d ∈ outShape, 0 < d) (ho : o < o') (ho' : o' < outShape.length) :
    weight outShape o' * entry outShape o' ≤ weight outShape o := by
  rw [← prod_drop ho']
  exact prod_drop_le hpos ho

namespace Regroups

theorem weight_eq (h : Regroups inShape outShape dimMapping) (hpos : ∀ d ∈ outShape, 0 < d) (hq : q < inShape.length)
    (ho : o ∈ outputDimsOf dimMapping q) (hsize : entry outShape o = entry inShape q)
    (hone : ∀ o' ∈ outputDimsOf dimMapping q, entry outShape o' = 1 ∨ o' = o) : weight inShape q = weight outShape o := by
  obtain ⟨hfirst, hlast⟩ := (mem_outputDims (h.consecutive' hq)).mp ho
  have hinside := h.inside q hq
  have hone' {o' : ℕ} (hfirst' : firstDim dimMapping q ≤ o') (hlast' : o' ≤ lastDim dimMapping q) (hne : o' ≠ o) : entry outShape o' = 1 :=
    (hone o' ((mem_outputDims (h.consecutive' hq)).mpr ⟨hfirst', hlast'⟩)).resolve_right hne
  obtain ⟨htop, hbottom⟩ := h.covers q hq
  have htopEq : (outShape.drop (firstDim dimMapping q)).prod = (outShape.drop o).prod :=
    prod_drop_eq hfirst (by omega) fun o' hfirst' hlt => hone' hfirst' (by omega) (by omega)
  have hbottomEq : weight outShape o = weight outShape (lastDim dimMapping q) :=
    prod_drop_eq (by omega) (by omega) fun o' hlt hlast' => hone' (by omega) (by omega) (by omega)
  rw [← @prod_drop outShape (firstDim dimMapping q) (by omega), htopEq, @prod_drop outShape o (by omega), hsize] at htop
  have hs : 0 < entry inShape q := by
    rw [← hsize]
    exact hpos _ (entry_mem (by omega))
  apply le_antisymm
  · exact le_of_mul_le_mul_right htop hs
  · rw [hbottomEq]
    exact hbottom

theorem weight_ne (h : Regroups inShape outShape dimMapping) (hpos : ∀ d ∈ outShape, 0 < d) (hq : q < inShape.length)
    (hs : entry inShape q ≠ 1) (ho : o ∈ outputDimsOf dimMapping q) (hsize : entry outShape o = entry inShape q)
    (ho' : o' ∈ outputDimsOf dimMapping q) (hsize' : entry outShape o' = entry inShape q) (hne : o' ≠ o) :
    weight inShape q ≠ weight outShape o := by
  have hinside {d : ℕ} (hd : d ∈ outputDimsOf dimMapping q) : d < outShape.length :=
    lt_of_le_of_lt ((mem_outputDims (h.consecutive' hq)).mp hd).2 (h.inside q hq)
  obtain ⟨hlow, hhigh⟩ := h.overlaps q hq o' ho' hs (by rwa [hsize'])
  intro heq
  rcases Nat.lt_or_gt_of_ne hne with hlt | hlt
  · have hle := mul_weight_le hpos hlt (hinside ho)
    rw [hsize, ← heq] at hle
    omega
  · have hle := mul_weight_le hpos hlt (hinside ho')
    rw [← heq] at hle
    omega

end Regroups

end

section
variable {withoutQuantiles : String → String} {inShape outShape : List ℤ} {dimMapping : List (List ℕ)} {axis outAxis q o : ℕ}
  {name : String} {params : List QuantParam} {outElemType inElemType : ElemType}

theorem inferElemType_unit (hone : entry inShape axis = 1) :
    inferElemTypeAffineReshape withoutQuantiles inShape (.uniformQuantizedPerAxis name axis params) dimMapping outShape =
      params.head?.map (.uniformQuantized (withoutQuantiles name)) := by
  unfold inferElemTypeAffineReshape
  dsimp only
  rw [if_pos hone]

theorem inferElemType_eq_some (hone : entry inShape axis ≠ 1)
    (h : inferElemTypeAffineReshape withoutQuantiles inShape (.uniformQuantizedPerAxis name axis params) dimMapping outShape =
      some outElemType) :
    ∃ o ∈ outputDimsOf dimMapping axis, entry outShape o = entry inShape axis ∧
      (∀ o' ∈ outputDimsOf dimMapping axis, entry outShape o' = 1 ∨ entry outShape o' = entry inShape axis) ∧
        outElemType = .uniformQuantizedPerAxis name o params := by
  unfold inferElemTypeAffineReshape at h
  dsimp only at h
  rw [if_neg hone] at h
  split at h
  · cases h
  · rename_i o hfind
    split_ifs at h with hany
    have hsize := find?_some hfind
    refine ⟨o, mem_of_find?_eq_some hfind, (of_decide_eq_true hsize).symm, ?_, (Option.some.inj h).symm⟩
    intro o' ho'
    by_contra hne
    push Not at hne
    exact hany (any_eq_true.mpr ⟨o', ho', decide_eq_true hne⟩)

theorem exists_inferElemType (hone : entry inShape axis ≠ 1) (ho : o ∈ outputDimsOf dimMapping axis)
    (hsize : entry outShape o = entry inShape axis)
    (hall : ∀ o' ∈ outputDimsOf dimMapping axis, entry outShape o' = 1 ∨ entry outShape o' = entry inShape axis) :
    ∃ outElemType, inferElemTypeAffineReshape withoutQuantiles inShape (.uniformQuantizedPerAxis name axis params) dimMapping
      outShape = some outElemType := by
  unfold inferElemTypeAffineReshape
  dsimp only
  rw [if_neg hone]
  split
  · rename_i hfind
    exact absurd (decide_eq_true hsize.symm) (find?_eq_none.mp hfind o ho)
  · rw [if_neg]
    · exact ⟨_, rfl⟩
    · intro hany
      obtain ⟨o', ho', hne⟩ := any_eq_true.mp hany
      have hne := of_decide_eq_true hne
      rcases hall o' ho' with heq | heq
      · exact hne.1 heq
      · exact hne.2 heq

theorem keepsParams_of_weight (hsize : entry outShape o = entry inShape q) (hweight : weight inShape q = weight outShape o) :
    KeepsParams inShape outShape (.uniformQuantizedPerAxis name q params) (.uniformQuantizedPerAxis name o params) := by
  intro x _ _
  unfold paramAt
  dsimp only
  rw [hsize, hweight]

theorem validateQuantElemType_numbered (hpos : ∀ d ∈ inShape, 0 < d) (haxis : axis < inShape.length) :
    (ElemType.uniformQuantizedPerAxis name axis (numberedParams (entry inShape axis).toNat)).validateQuantElemType inShape := by
  refine ⟨haxis, ?_⟩
  unfold numberedParams
  rw [length_map, length_range, Int.toNat_of_nonneg (hpos _ (entry_mem haxis)).le]

theorem keepsParams_numbered (hpos : ∀ d ∈ inShape, 0 < d) (hpos' : ∀ d ∈ outShape, 0 < d) (hvolume : inShape.prod = outShape.prod)
    (hq : q < inShape.length) (ho : o < outShape.length) (hsize : entry outShape o = entry inShape q) (hone : entry inShape q ≠ 1)
    (h : KeepsParams inShape outShape (.uniformQuantizedPerAxis name q (numberedParams (entry inShape q).toNat))
      (.uniformQuantizedPerAxis name o (numberedParams (entry inShape q).toNat))) : weight inShape q = weight outShape o := by
  have hs : 0 < entry inShape q := hpos _ (entry_mem hq)
  have hw : 0 < weight inShape q := drop_pos hpos
  have hw' : 0 < weight outShape o := drop_pos hpos'
  have hbound : entry inShape q * weight inShape q ≤ inShape.prod := by
    have := @prod_drop_le inShape 0 q hpos (Nat.zero_le _)
    rwa [prod_drop hq, mul_comm, drop_zero] at this
  have hbound' : entry inShape q * weight outShape o ≤ inShape.prod := by
    have := @prod_drop_le outShape 0 o hpos' (Nat.zero_le _)
    rwa [prod_drop ho, mul_comm, drop_zero, hsize, ← hvolume] at this
  refine (stride_eq_of_index hs hw hw' hbound hbound' fun x h0 hx => ?_).resolve_left hone
  have hmod {y : ℤ} : 0 ≤ y % entry inShape q ∧ y % entry inShape q < entry inShape q :=
    ⟨Int.emod_nonneg _ hs.ne', Int.emod_lt_of_pos _ hs⟩
  have hparam := h x h0 hx
  unfold paramAt at hparam
  dsimp only at hparam
  rw [hsize] at hparam
  exact (numberedParams_inj hmod hmod hparam).symm

theorem Regroups.infersParams_iff (h : Regroups inShape outShape dimMapping) (hpos : ∀ d ∈ inShape, 0 < d)
    (hpos' : ∀ d ∈ outShape, 0 < d) (haxis : axis < inShape.length) :
    InfersParams withoutQuantiles inShape outShape dimMapping axis ↔ UniqueOutputDim inShape outShape dimMapping axis := by
  have hinside {o : ℕ} (ho : o ∈ outputDimsOf dimMapping axis) : o < outShape.length :=
    lt_of_le_of_lt ((mem_outputDims (h.consecutive' haxis)).mp ho).2 (h.inside axis haxis)
  constructor
  · intro hinfers
    by_contra hnot
    unfold UniqueOutputDim at hnot
    push Not at hnot
    obtain ⟨hone, hsizes, o₁, ho₁, o₂, ho₂, hsize₁, hsize₂, hne⟩ := hnot
    have hall : ∀ o' ∈ outputDimsOf dimMapping axis, entry outShape o' = 1 ∨ entry outShape o' = entry inShape axis := by
      intro o' ho'
      by_cases hunit : entry outShape o' = 1
      · exact .inl hunit
      · exact .inr (hsizes o' ho' hunit)
    obtain ⟨outElemType, hinfer⟩ := @exists_inferElemType withoutQuantiles _ _ _ _ _ "" (numberedParams (entry inShape axis).toNat) hone
      ho₁ hsize₁ hall
    have hkeeps := hinfers _ _ _ (validateQuantElemType_numbered hpos haxis) hinfer
    obtain ⟨o, ho, hsize, -, rfl⟩ := inferElemType_eq_some hone hinfer
    have hweight := keepsParams_numbered hpos hpos' h.volume haxis (hinside ho) hsize hone hkeeps
    by_cases hfirst : o₁ = o
    · exact h.weight_ne hpos' haxis hone ho hsize ho₂ hsize₂ (fun heq => hne (hfirst.trans heq.symm)) hweight
    · exact h.weight_ne hpos' haxis hone ho hsize ho₁ hsize₁ hfirst hweight
  · intro hunique name params outElemType hvalid hinfer
    by_cases hone : entry inShape axis = 1
    · rw [inferElemType_unit hone] at hinfer
      obtain ⟨param, hhead, rfl⟩ := Option.map_eq_some_iff.mp hinfer
      intro x _ _
      unfold paramAt
      dsimp only
      rw [hone, Int.emod_one, ← hhead, head?_eq_getElem?]
      rfl
    · obtain ⟨o, ho, hsize, hall, rfl⟩ := inferElemType_eq_some hone hinfer
      have hunique' : ∀ o' ∈ outputDimsOf dimMapping axis, entry outShape o' = 1 ∨ o' = o := by
        intro o' ho'
        rcases hall o' ho' with hunit | hsize'
        · exact .inl hunit
        · rcases hunique with hone' | ⟨d, hd, hunit, hother⟩ | hunique
          · exact absurd hone' hone
          · exact ((hall d hd).elim hunit hother).elim
          · exact .inr (hunique o' ho' o ho hsize' hsize)
      exact keepsParams_of_weight hsize (h.weight_eq hpos' haxis ho hsize hunique')

variable {s : ℕ} {inIdxs acc result : List ℕ}

structure MapsAxisAlone (inShape outShape : List ℤ) (dimMapping : List (List ℕ)) (outAxis q : ℕ) : Prop where
  notUnit : entry inShape q ≠ 1
  mapped : outAxis ∈ outputDimsOf dimMapping q
  sizes : ((outputDimsOf dimMapping q).map (entry outShape)).prod = entry inShape q
  found : entry inShape q ∈ (outputDimsOf dimMapping q).map (entry outShape)

theorem collectInNonOneIndices_spec (h : collectInNonOneIndices inShape outAxis dimMapping outShape acc q = some result) :
    result = acc ∨ result = acc ++ [q] ∧ MapsAxisAlone inShape outShape dimMapping outAxis q := by
  unfold collectInNonOneIndices at h
  dsimp only at h
  split_ifs at h with hone hmem hprod hfound
  · exact .inl (Option.some.inj h).symm
  · exact .inr ⟨(Option.some.inj h).symm, hone, hmem, not_not.mp hprod, hfound⟩
  · exact .inl (Option.some.inj h).symm

theorem foldlM_collect (h : inIdxs.foldlM (collectInNonOneIndices inShape outAxis dimMapping outShape) acc = some result)
    (hq : q ∈ result) : q ∈ acc ∨ q ∈ inIdxs ∧ MapsAxisAlone inShape outShape dimMapping outAxis q := by
  induction inIdxs generalizing acc with
  | nil =>
    rw [← Option.some.inj h] at hq
    exact .inl hq
  | cons p inIdxs ih =>
    rw [foldlM_cons] at h
    obtain ⟨next, hstep, hrest⟩ := Option.bind_eq_some_iff.mp h
    rcases ih hrest with hnext | ⟨hmem, halone⟩
    · rcases collectInNonOneIndices_spec hstep with rfl | ⟨rfl, halone⟩
      · exact .inl hnext
      · rcases mem_append.mp hnext with hacc | hlast
        · exact .inl hacc
        · rw [mem_singleton.mp hlast]
          exact .inr ⟨mem_cons_self, halone⟩
    · exact .inr ⟨mem_cons_of_mem _ hmem, halone⟩

theorem eq_one_of_prod_eq {l l' : List ℤ} {s d : ℤ} (hs : 0 < s) (hpos : ∀ d ∈ l ++ l', 0 < d) (hprod : (l ++ s :: l').prod = s)
    (hd : d ∈ l ++ l') : d = 1 := by
  have hrest : (l ++ l').prod = 1 := by
    apply mul_left_cancel₀ hs.ne'
    rw [mul_one]
    conv_rhs => rw [← hprod]
    rw [prod_append, prod_append, prod_cons]
    ring
  exact Int.eq_one_of_dvd_one (hpos d hd).le (hrest ▸ dvd_prod hd)

theorem Regroups.alone (h : Regroups inShape outShape dimMapping) (hpos : ∀ d ∈ outShape, 0 < d) (hq : q < inShape.length)
    (halone : MapsAxisAlone inShape outShape dimMapping outAxis q) (hunit : entry outShape outAxis ≠ 1) :
    entry outShape outAxis = entry inShape q ∧ ∀ o ∈ outputDimsOf dimMapping q, entry outShape o = 1 ∨ o = outAxis := by
  have hsizePos : ∀ o ∈ outputDimsOf dimMapping q, 0 < entry outShape o := by
    intro o ho
    apply hpos
    apply entry_mem
    exact lt_of_le_of_lt ((mem_outputDims (h.consecutive' hq)).mp ho).2 (h.inside q hq)
  obtain ⟨d, hd, hsize⟩ := mem_map.mp halone.found
  obtain ⟨before, after, hcut⟩ := append_of_mem hd
  have hone : ∀ o ∈ before ++ after, entry outShape o = 1 := by
    intro o ho
    have hprod := halone.sizes
    rw [hcut, map_append, map_cons, hsize] at hprod
    apply eq_one_of_prod_eq (hsize ▸ hsizePos d hd) _ hprod
    · rw [← map_append]
      exact mem_map_of_mem ho
    · rw [← map_append]
      intro e he
      obtain ⟨o, ho, rfl⟩ := mem_map.mp he
      apply hsizePos
      rw [hcut]
      simp only [mem_append, mem_cons] at ho ⊢
      tauto
  have hcases {o : ℕ} (ho : o ∈ outputDimsOf dimMapping q) : entry outShape o = 1 ∨ o = d := by
    rw [hcut] at ho
    simp only [mem_append, mem_cons] at ho
    rcases ho with ho | rfl | ho
    · exact .inl (hone o (mem_append_left _ ho))
    · exact .inr rfl
    · exact .inl (hone o (mem_append_right _ ho))
  obtain rfl := (hcases halone.mapped).resolve_left hunit
  exact ⟨hsize, fun o ho => hcases ho⟩

theorem Regroups.backInfersParams (h : Regroups inShape outShape dimMapping) (hpos : ∀ d ∈ outShape, 0 < d) :
    BackInfersParams inShape outShape dimMapping := by
  intro name outAxis params inElemType _ hinfer
  unfold backInferElemTypeAffineReshape at hinfer
  dsimp only at hinfer
  split_ifs at hinfer with hunit
  obtain ⟨inNonOneIndices, hfold, hinfer⟩ := Option.bind_eq_some_iff.mp hinfer
  split at hinfer
  · rename_i q
    obtain rfl := Option.some.inj hinfer
    rcases foldlM_collect hfold mem_cons_self with hnil | ⟨hrange, halone⟩
    · exact absurd hnil not_mem_nil
    · have hq := mem_range.mp hrange
      obtain ⟨hsize, hothers⟩ := h.alone hpos hq halone hunit
      exact keepsParams_of_weight hsize (h.weight_eq hpos hq halone.mapped hsize hothers)
  · cases hinfer

theorem regroups_twoOutputDims : Regroups [2, 4, 2] [4, 4] [[0], [0, 1], [1]] where
  volume := by decide
  consecutive := by decide
  starts := by decide
  steps := by
    intro q hq
    have hlt : q < 2 := Nat.lt_of_succ_lt_succ hq
    match q, hlt with
    | 0, _ => decide
    | 1, _ => decide
  inside := by decide
  all := by decide
  covers := by decide
  overlaps := by decide

theorem regroups_dividedRows : Regroups [2, 6, 4] [2, 2, 3, 4] [[0], [1, 2], [3]] where
  volume := by decide
  consecutive := by decide
  starts := by decide
  steps := by
    intro q hq
    have hlt : q < 2 := Nat.lt_of_succ_lt_succ hq
    match q, hlt with
    | 0, _ => decide
    | 1, _ => decide
  inside := by decide
  all := by decide
  covers := by decide
  overlaps := by decide

end

end NpuCompiler.Const
