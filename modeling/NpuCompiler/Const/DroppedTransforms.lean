import NpuCompiler.Const.FusedShapes

namespace NpuCompiler.Const

open MixedRadix TensorType TransformAttrInterface List Option DimsOrder

section
variable {α β : Type} {elemSizeBytes : ℕ}

def StoredContent.map (f : α → β) (content : StoredContent α) : StoredContent β :=
  ⟨content.type, content.isSplat, content.storage.map (Option.map f)⟩

theorem getElem?_map_join (f : α → β) (l : List (Option α)) (i : ℕ) :
    ((l.map (Option.map f))[i]?).join = ((l[i]?).join).map f := by
  rw [getElem?_map]
  cases l[i]? with
  | none => rfl
  | some value => rfl

theorem copyElements_map (f : α → β) (src dst : List (Option α)) (inds : List (ℤ × ℤ)) :
    copyElements (src.map (Option.map f)) (dst.map (Option.map f)) inds =
      (copyElements src dst inds).map (List.map (Option.map f)) := by
  induction inds generalizing dst with
  | nil => rfl
  | cons ind inds ih =>
    have hcheck : ∀ (l : List (Option α)) (x : ℤ), checkedIndex (l.map (Option.map f)) x = checkedIndex l x := by
      intro l x
      unfold checkedIndex
      rw [length_map]
    unfold copyElements at ih ⊢
    rw [foldlM_cons, foldlM_cons, hcheck, hcheck]
    cases hin : checkedIndex src ind.2 with
    | none => rfl
    | some inInd =>
      cases hout : checkedIndex dst ind.1 with
      | none => rfl
      | some outInd =>
        simp only [bind_eq_bind, bind_some]
        rw [getElem?_map_join, ← map_set]
        exact ih _

theorem memPermuteTransformation_map (f : α → β) (content : StoredContent α) (outType : NDType) (memPerm : List ℕ) :
    memPermuteTransformation elemSizeBytes (content.map f) outType memPerm =
      (memPermuteTransformation elemSizeBytes content outType memPerm).map (StoredContent.map f) := by
  have hcopy : ∀ inds, copyElements (content.storage.map (Option.map f))
      (List.replicate outType.shape.prod.toNat none) inds =
        (copyElements content.storage (List.replicate outType.shape.prod.toNat none) inds).map
          (List.map (Option.map f)) := by
    intro inds
    rw [← copyElements_map, map_replicate]
    rfl
  unfold memPermuteTransformation memPermuteTransformationOptimized
  cases DimsOrder.fromAffineMap memPerm with
  | none => rfl
  | some permOrder =>
    simp only [StoredContent.map, length_map, length_replicate, hcopy, bind_eq_bind, bind_some]
    split
    · rfl
    · split
      · rfl
      · split
        · rfl
        · split
          · split
            · cases copyElements content.storage _ (blobCopy4d content.type outType) with
              | none => rfl
              | some storage => rfl
            · split
              · cases copyElements content.storage _ (blobCopy5d content.type outType) with
                | none => rfl
                | some storage => rfl
              · rfl
          · cases memPermuteIndices content.type.getMemShape outType.getMemShape permOrder with
            | none => rfl
            | some inds =>
              rw [bind_some, bind_some]
              cases copyElements content.storage _ inds with
              | none => rfl
              | some storage => rfl

theorem transformLayout_map (f : α → β) (attr : TransformAttr) (content : StoredContent α) :
    attr.transformLayout elemSizeBytes (content.map f) =
      (attr.transformLayout elemSizeBytes content).map (StoredContent.map f) := by
  have htype : (content.map f).type = content.type := rfl
  unfold TransformAttr.transformLayout
  rw [htype]
  cases attr.inferOutputType content.type with
  | none => rfl
  | some outType =>
    cases attr with
    | reorder order | memPermute dstOrder memPerm | transpose order => exact memPermuteTransformation_map f _ _ _
    | reshape shape | changeShapeAndElemType shape | padWithZero padBefore padAfter | subView offset shape => rfl

variable {R : Type} {input output : TensorType} {attr : TransformAttrInterface R} {content : ConstContent R}
  {order dstOrder memPerm : DimsOrder} {src : List ℤ → Option (List ℤ)}

theorem Copies.refl (hsize : content.WellSized) : Copies some content content :=
  ⟨rfl, rfl, hsize, fun _ => rfl, fun _ coord hcoord => ⟨coord, rfl, hcoord, rfl⟩⟩

theorem transpose_infer_iff : (transpose order : TransformAttrInterface R).inferOutputType input = some output ↔
    order.numDims = input.getRank ∧ output.shape = order.toMemoryOrder input.shape ∧
      output.dimsOrder = input.dimsOrder ∧ output.elemType = input.elemType.changeAxis fun inQuantizeDim =>
        order.dimPos (input.dimsOrder.dimAt inQuantizeDim) := by
  constructor
  · intro h
    obtain ⟨type, htype, h⟩ := bind_eq_some_iff.mp h
    obtain ⟨hnd, helem⟩ := withElemType_eq_some.mp h
    rw [TransformAttr.inferOutputType] at htype
    split at htype
    · next hrank =>
      obtain ⟨hs, ho⟩ := changeShape_same_rank (by rw [length_toMemoryOrder, hrank, input.numDims_eq]; rfl)
        htype
      rw [← hnd] at hs ho
      exact ⟨hrank, hs, ho, helem⟩
    · cases htype
  · rintro ⟨hrank, hs, ho, helem⟩
    have htype : (TransformAttr.transpose order).inferOutputType input.toNDType = some output.toNDType := by
      rw [TransformAttr.inferOutputType, if_pos hrank]
      apply changeShape_eq_some.mpr
      refine ⟨?_, hs⟩
      rw [length_toMemoryOrder, hrank, ho]
      have hself := inferNewDimsOrder_self input.dimsOrder
      rw [input.numDims_eq] at hself
      exact hself
    apply bind_eq_some_iff.mpr
    exact ⟨_, htype, withElemType_eq_some.mpr ⟨rfl, helem⟩⟩

variable [CommRing R]

theorem sameFold_nil (hout : attr.inferOutputType input = some input) (hcopies : CopiesAll attr input input src)
    (hsrc : ∀ coord, InBox input.shape coord → src coord = some coord) : SameFold [attr] [] input := by
  constructor
  · unfold inferFinalType
    simp [hout]
  · intro base hbase hsize
    obtain ⟨result, hresult, htype, hcopies⟩ := hcopies base hbase hsize
    rw [foldContent_one, hresult]
    congr 1
    apply hcopies.unique (Copies.refl hsize) (htype.trans hbase.symm)
    rw [htype]
    exact hsrc

theorem toLogicalOrder_of_isIdentity (h : order.isIdentity) {v : List ℤ} (hv : v.length = order.numDims) :
    order.toLogicalOrder v = v := by
  have hmem : order.toMemoryOrder v = v := by
    rw [h]
    exact toMemoryOrder_fromNumDims hv
  have hback := toLogicalOrder_toMemoryOrder hv
  rw [hmem] at hback
  exact hback

theorem memPermute_dropped (hid : memPerm.isIdentity)
    (hout : (memPermute dstOrder memPerm : TransformAttrInterface R).inferOutputType input = some input) :
    SameFold [(memPermute dstOrder memPerm : TransformAttrInterface R)] [] input := by
  obtain ⟨⟨hrank, hrank'⟩, -, ho, -⟩ := memPermute_infer_iff.mp hout
  apply sameFold_nil hout (copiesAll_memPermute hout)
  intro coord hcoord
  have hlen : coord.length = input.dimsOrder.numDims := hcoord.length.trans input.numDims_eq.symm
  unfold memPermuteSource
  rw [toLogicalOrder_of_isIdentity hid, ho, toLogicalOrder_toMemoryOrder (ho ▸ hlen)]
  rw [length_toMemoryOrder, hrank, hrank']

theorem copiesAll_transpose (hout : (transpose order : TransformAttrInterface R).inferOutputType input = some output)
    (hkeeps : KeepsLayout input.toNDType (.transpose order)) :
    CopiesAll (transpose order : TransformAttrInterface R) input output
      (fun coord => some (order.toLogicalOrder coord)) := by
  intro content htype hsize
  subst htype
  have hnd := infer_layoutAttr rfl hout
  obtain ⟨-, hn, hf⟩ := transpose_follows hnd
  obtain ⟨result, hresult, htype, hcopies⟩ := transformLayout_copies (respectsLogical_transpose hnd hkeeps) hnd
    (Or.inr (Or.inr ⟨_, rfl⟩)) ⟨_, hf⟩ hsize
  refine ⟨result, ?_, htype, hcopies⟩
  unfold transform
  rw [hout]
  exact hresult

def numberedContent (R : Type) [CommRing R] (input : TensorType) : ConstContent R :=
  ⟨input, false, sizeOfFloat, ((numbered input.toNDType).map (Nat.cast : ℕ → R)).storage⟩

theorem numberedContent_wellSized : (numberedContent R input).WellSized := by
  unfold ConstContent.WellSized ConstContent.tempBufSize numberedContent numbered StoredContent.map
  simp

variable [CharZero R]

theorem transpose_dropped_iff (hid : order.isIdentity)
    (hout : (transpose order : TransformAttrInterface R).inferOutputType input = some input) :
    SameFold [(transpose order : TransformAttrInterface R)] [] input ↔
      KeepsLayout input.toNDType (.transpose order) := by
  have hsrc : ∀ coord, InBox input.shape coord → order.toLogicalOrder coord = coord := by
    intro coord hcoord
    apply toLogicalOrder_of_isIdentity hid
    rw [hcoord.length, (transpose_infer_iff.mp hout).1]
    rfl
  constructor
  · rintro ⟨-, hsame⟩
    have hnd := infer_layoutAttr rfl hout
    obtain ⟨-, hn, hf⟩ := transpose_follows hnd
    have hfold := hsame (numberedContent R input) rfl numberedContent_wellSized
    have hrun : transformLayout (.transpose order) input (numberedContent R input) = some (numberedContent R input) := by
      rw [foldContent_one] at hfold
      unfold transform at hfold
      dsimp only [numberedContent] at hfold ⊢
      rw [hout] at hfold
      exact hfold
    obtain ⟨result, hresult, hrun⟩ := bind_eq_some_iff.mp hrun
    have hstorage := congrArg ConstContent.storage (Option.some.inj hrun)
    dsimp only [numberedContent] at hresult hstorage
    have hresult' : (TransformAttr.transpose order).transformLayout sizeOfFloat
        ((numbered input.toNDType).map (Nat.cast : ℕ → R)) = some result := hresult
    rw [transformLayout_map] at hresult'
    obtain ⟨own, hown, hcast⟩ := map_eq_some_iff.mp hresult'
    have hown' : own = ⟨input.toNDType, false, (numbered input.toNDType).storage⟩ := by
      unfold numbered at hown
      rw [transformLayout_transpose hn hnd] at hown
      obtain ⟨htype, hsplat, -⟩ := memPermuteTransformation_shape hown
      obtain ⟨type, isSplat, storage⟩ := own
      dsimp only at htype hsplat
      subst htype hsplat
      congr 1
      rw [← hcast] at hstorage
      exact map_injective_iff.mpr (map_injective Nat.cast_injective) hstorage
    subst hown'
    apply keeps_of_transpose hnd hown
    intro coord hcoord
    exact ⟨coord, congrArg some (hsrc coord hcoord), hcoord, rfl⟩
  · intro hkeeps
    apply sameFold_nil hout (copiesAll_transpose hout hkeeps)
    intro coord hcoord
    exact congrArg some (hsrc coord hcoord)

end

end NpuCompiler.Const
