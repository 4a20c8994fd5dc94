import NpuCompiler.Const.ContentTransforms

namespace NpuCompiler.Const

open MixedRadix TensorType TransformAttrInterface Option DimsOrder

variable {R : Type}

section
variable {α : Type} {src dst out : List (Option α)} {inds : List (ℤ × ℤ)} {elemSizeBytes : ℕ}

theorem length_copyElements (h : copyElements src dst inds = some out) : out.length = dst.length := by
  induction inds generalizing dst with
  | nil =>
    cases h
    rfl
  | cons ind inds ih =>
    unfold copyElements at h
    rw [List.foldlM_cons] at h
    obtain ⟨next, hnext, h⟩ := bind_eq_some_iff.mp h
    obtain ⟨inInd, -, hnext⟩ := bind_eq_some_iff.mp hnext
    obtain ⟨outInd, -, hnext⟩ := bind_eq_some_iff.mp hnext
    cases hnext
    rw [ih h, List.length_set]

theorem memPermuteTransformation_shape {input result : StoredContent α} {outType : NDType} {memPerm : List ℕ}
    (h : memPermuteTransformation elemSizeBytes input outType memPerm = some result) :
    result.type = outType ∧ result.isSplat = input.isSplat ∧
      (result.storage = input.storage ∨ input.isSplat = false ∧ result.storage.length = outType.shape.prod.toNat) := by
  unfold memPermuteTransformation at h
  obtain ⟨permOrder, -, h⟩ := bind_eq_some_iff.mp h
  dsimp only at h
  split at h
  · cases h
  · split at h
    · cases h
      exact ⟨rfl, rfl, Or.inl rfl⟩
    · next hkeep =>
      rw [not_or, Bool.not_eq_true] at hkeep
      split at h
      · cases h
      · split at h
        · obtain ⟨storage, hstorage, h⟩ := bind_eq_some_iff.mp h
          cases h
          refine ⟨rfl, rfl, Or.inr ⟨hkeep.1, ?_⟩⟩
          unfold memPermuteTransformationOptimized at hstorage
          split at hstorage
          · rw [length_copyElements hstorage, List.length_replicate]
          · split at hstorage
            · rw [length_copyElements hstorage, List.length_replicate]
            · cases hstorage
        · obtain ⟨inds, -, h⟩ := bind_eq_some_iff.mp h
          obtain ⟨storage, hstorage, h⟩ := bind_eq_some_iff.mp h
          cases h
          refine ⟨rfl, rfl, Or.inr ⟨hkeep.1, ?_⟩⟩
          rw [length_copyElements hstorage, List.length_replicate]

variable {attr : TransformAttr} {output : TensorType} {content result : ConstContent R}

theorem Follows.prod_eq {input output : NDType} {permOrder : DimsOrder} (h : Follows attr input output permOrder) :
    output.shape.prod = input.shape.prod := by
  rw [← NDType.memShape_prod, h.memShape, prod_toMemoryOrder, NDType.memShape_prod]
  rw [h.rank]
  exact length_toMemoryOrder

theorem transformLayout_shape (h : transformLayout attr output content = some result) :
    result.type = output ∧ result.isSplat = content.isSplat ∧
      result.storageElemSize = content.storageElemSize ∧
      ∃ outType, attr.inferOutputType content.type.toNDType = some outType ∧
        (result.storage = content.storage ∨
          content.isSplat = false ∧ result.storage.length = outType.shape.prod.toNat) := by
  obtain ⟨stored, hstored, h⟩ := bind_eq_some_iff.mp h
  cases h
  obtain ⟨outType, hout, hrun⟩ := bind_eq_some_iff.mp hstored
  refine ⟨rfl, ?_⟩
  cases attr with
  | reorder order | memPermute dstOrder memPerm | transpose order =>
    obtain ⟨-, hsplat, hstorage⟩ := memPermuteTransformation_shape hrun
    exact ⟨hsplat, rfl, outType, hout, hstorage⟩
  | reshape shape | changeShapeAndElemType shape | padWithZero padBefore padAfter | subView offset shape => cases hrun

theorem transformLayout_wellSized {permOrder : DimsOrder}
    (hf : Follows attr content.type.toNDType output.toNDType permOrder)
    (hout : attr.inferOutputType content.type.toNDType = some output.toNDType)
    (h : transformLayout attr output content = some result) (hsize : content.WellSized) : result.WellSized := by
  obtain ⟨htype, hsplat, -, outType, hout', hstorage⟩ := transformLayout_shape h
  cases hout.symm.trans hout'
  unfold ConstContent.WellSized ConstContent.tempBufSize at hsize ⊢
  rw [hsplat, htype]
  cases hstorage with
  | inl hkeep => rw [hkeep, hsize, hf.prod_eq]
  | inr hcopy => rw [hcopy.2, hcopy.1, if_neg Bool.false_ne_true]

end

section
variable {attr : TransformAttrInterface R} {input output : TensorType} {layout : TransformAttr}

def layoutAttr : TransformAttrInterface R → Option TransformAttr
  | subView offset shape => some (.subView offset shape)
  | reshape shape => some (.reshape shape)
  | reorder order => some (.reorder order)
  | memPermute dstOrder memPerm => some (.memPermute dstOrder memPerm)
  | transpose order => some (.transpose order)
  | _ => none

theorem infer_layoutAttr (hl : layoutAttr attr = some layout) (h : attr.inferOutputType input = some output) :
    layout.inferOutputType input.toNDType = some output.toNDType := by
  cases attr with
  | subView offset shape =>
    cases hl
    obtain ⟨type, htype, h⟩ := bind_eq_some_iff.mp h
    obtain ⟨elemType, -, h⟩ := bind_eq_some_iff.mp h
    rw [htype, (withElemType_eq_some.mp h).1]
  | reshape shape | reorder order | memPermute dstOrder memPerm | transpose order =>
    cases hl
    obtain ⟨type, htype, h⟩ := bind_eq_some_iff.mp h
    rw [htype, (withElemType_eq_some.mp h).1]
  | add bias | rescale scale | castElemType elemType | other methods => cases hl

theorem exists_follows (hcopy : ∀ offset shape, layout ≠ .subView offset shape)
    (hreshape : ∀ shape, layout ≠ .reshape shape) (hl : layoutAttr attr = some layout)
    (h : attr.inferOutputType input = some output) :
    ∃ permOrder, Follows layout input.toNDType output.toNDType permOrder := by
  have hout := infer_layoutAttr hl h
  cases attr with
  | subView offset shape =>
    cases hl
    exact absurd rfl (hcopy offset shape)
  | reshape shape =>
    cases hl
    exact absurd rfl (hreshape shape)
  | reorder order =>
    cases hl
    obtain ⟨permOrder, -, hf⟩ := reorder_follows hout
    exact ⟨permOrder, hf⟩
  | memPermute dstOrder memPerm =>
    cases hl
    exact ⟨memPerm, memPermute_follows hout⟩
  | transpose order =>
    cases hl
    obtain ⟨-, hn, hf⟩ := transpose_follows hout
    exact ⟨_, hf⟩
  | add bias | rescale scale | castElemType elemType | other methods => cases hl

end

section
variable [CommRing R] {attr : TransformAttrInterface R} {content result : ConstContent R} {output : TensorType}

theorem rescaleContent_shape {scale : RescaleScale R} (h : rescaleContent output content scale = some result) :
    result.type = output := by
  cases scale with
  | splat value =>
    cases h
    rfl
  | values scales =>
    rw [rescaleContent] at h
    split at h
    · cases h
    · split at h
      · cases h
        rfl
      · split at h
        · cases h
        · cases h
          rfl

theorem rescaleContent_wellSized {scale : RescaleScale R} (h : rescaleContent content.type content scale = some result)
    (hsize : content.WellSized) : result.WellSized := by
  unfold ConstContent.WellSized at hsize ⊢
  cases scale with
  | splat value =>
    cases h
    exact (List.length_map _).trans hsize
  | values scales =>
    rw [rescaleContent] at h
    split at h
    · cases h
    · next hscales =>
      rw [not_not] at hscales
      split at h
      · cases h
        exact (List.length_map _).trans hscales
      · split at h
        · cases h
        · next hlength =>
          cases h
          rw [List.length_zipWith, ← not_not.mp hlength, Nat.min_self]
          exact hscales

theorem transform_type (h : attr.transform content = some result) :
    attr.inferOutputType content.type = some result.type := by
  obtain ⟨output, hout, h⟩ := bind_eq_some_iff.mp h
  rw [hout]
  congr 1
  cases attr with
  | subView offset shape =>
    dsimp only at h
    split at h
    · cases h
      rfl
    · obtain ⟨storage, -, h⟩ := bind_eq_some_iff.mp h
      cases h
      rfl
  | add bias | reshape shape | castElemType elemType =>
    cases h
    rfl
  | rescale scale => exact (rescaleContent_shape h).symm
  | reorder order | memPermute dstOrder memPerm | transpose order => exact (transformLayout_shape h).1.symm
  | other methods => exact Option.some.inj (hout.symm.trans (methods.infers _ _ h))

theorem length_subViewStorage {α : Type} {storage out : List (Option α)} {inds : List ℤ}
    (h : subViewStorage storage inds = some out) : out.length = inds.length :=
  (mapM_some_inv h).1

theorem transform_wellSized (hrange : attr.InRange content.type) (h : attr.transform content = some result)
    (hsize : content.WellSized) : result.WellSized := by
  have htype := transform_type h
  obtain ⟨output, hout, h⟩ := bind_eq_some_iff.mp h
  cases attr with
  | subView offset shape =>
    dsimp only at h
    split at h
    · next hsplat =>
      cases h
      unfold ConstContent.WellSized ConstContent.tempBufSize at hsize ⊢
      rw [if_pos hsplat] at hsize
      exact hsize.trans (if_pos hsplat).symm
    · obtain ⟨storage, hstorage, h⟩ := bind_eq_some_iff.mp h
      cases h
      unfold ConstContent.WellSized ConstContent.tempBufSize
      rw [length_subViewStorage hstorage]
      simp [subViewIndices, natRange]
  | add bias =>
    cases hout
    cases h
    unfold ConstContent.WellSized at hsize ⊢
    rw [← hsize]
    cases bias with
    | bias value => exact List.length_map _
    | biasArray values => exact List.length_mapIdx
  | reshape shape =>
    cases h
    have hchange : content.type.changeShape shape = some output.toNDType :=
      infer_layoutAttr (show layoutAttr (reshape shape : TransformAttrInterface R) = some (.reshape shape) from rfl) hout
    have hshape := (changeShape_eq_some.mp hchange).2
    unfold ConstContent.WellSized ConstContent.tempBufSize at hsize ⊢
    rw [InRange] at hrange
    rw [ConstContent.moveBuffer, hshape, hrange]
    exact hsize
  | castElemType elemType =>
    cases h
    have hshape := congrArg NDType.shape (withElemType_eq_some.mp hout).1
    unfold ConstContent.WellSized ConstContent.tempBufSize at hsize ⊢
    rw [ConstContent.moveBuffer, hshape]
    exact hsize
  | rescale scale =>
    cases hout
    exact rescaleContent_wellSized h hsize
  | reorder order | memPermute dstOrder memPerm | transpose order =>
    obtain ⟨permOrder, hf⟩ := exists_follows (by simp) (by simp) rfl hout
    exact transformLayout_wellSized hf (infer_layoutAttr rfl hout) h hsize
  | other methods => exact methods.wellSized _ _ h hsize

end

section
variable [CommRing R] {before after chain other : List (TransformAttrInterface R)} {baseType input : TensorType}
  {attr prev curr : TransformAttrInterface R} {content result : ConstContent R}

theorem Reaches.infer (h : Reaches baseType before input) : inferFinalType baseType before = some input := by
  induction h with
  | nil => rfl
  | cons hrange hinfer h ih =>
    unfold inferFinalType at ih ⊢
    rw [List.foldlM_cons, hinfer]
    exact ih

theorem Reaches.fold (h : Reaches content.type before input) (hsize : content.WellSized)
    (hfold : foldContent before content = some result) : result.type = input ∧ result.WellSized := by
  generalize hbase : content.type = baseType at h
  induction h generalizing content with
  | nil =>
    cases hfold
    exact ⟨hbase, hsize⟩
  | cons hrange hinfer h ih =>
    unfold foldContent at hfold ih
    rw [List.foldlM_cons] at hfold
    obtain ⟨next, hnext, hfold⟩ := bind_eq_some_iff.mp hfold
    have htype := transform_type hnext
    subst hbase
    cases htype.symm.trans hinfer
    exact ih (transform_wellSized hrange hnext hsize) hfold rfl

theorem SameFold.congr (h : Reaches baseType before input) (hsame : SameFold chain other input) :
    SameFold (before ++ (chain ++ after)) (before ++ (other ++ after)) baseType := by
  constructor
  · have hinfer := h.infer
    have htypes := hsame.1
    unfold inferFinalType at hinfer htypes ⊢
    simp only [List.foldlM_append, hinfer, bind_eq_bind, bind_some, htypes]
  · intro base hbase hsize
    subst hbase
    unfold foldContent
    simp only [List.foldlM_append, bind_eq_bind]
    cases hfold : List.foldlM (fun content attr => attr.transform content) base before with
    | none => rfl
    | some content =>
      obtain ⟨htype, hsize⟩ := h.fold hsize hfold
      have hcontents := hsame.2 content htype hsize
      unfold foldContent at hcontents
      simp only [bind_some, hcontents]

theorem foldContent_one : foldContent [attr] content = attr.transform content := by
  unfold foldContent
  rw [List.foldlM_cons]
  cases attr.transform content with
  | none => rfl
  | some next => rfl

theorem foldContent_two : foldContent [prev, curr] content = (prev.transform content).bind curr.transform := by
  unfold foldContent
  rw [List.foldlM_cons]
  cases prev.transform content with
  | none => rfl
  | some next => exact foldContent_one

end

section
variable {a b c : ConstContent R} {src src' : List ℤ → Option (List ℤ)}

namespace ConstContent

def stored (content : ConstContent R) : StoredContent R := ⟨content.type.toNDType, content.isSplat, content.storage⟩

def element (content : ConstContent R) (coord : List ℤ) : Option R := content.stored.element coord

end ConstContent

structure Copies (src : List ℤ → Option (List ℤ)) (content result : ConstContent R) : Prop where
  isSplat : result.isSplat = content.isSplat
  storageElemSize : result.storageElemSize = content.storageElemSize
  wellSized : result.WellSized
  splat : content.isSplat = true → result.storage = content.storage
  elements : content.isSplat = false → ∀ coord, InBox result.type.shape coord →
    ∃ origin, src coord = some origin ∧ InBox content.type.shape origin ∧ result.element coord = content.element origin

theorem storage_ext {α : Type} {type : NDType} {storage storage' : List (Option α)}
    (hlen : (storage.length : ℤ) = type.shape.prod) (hlen' : (storage'.length : ℤ) = type.shape.prod)
    (h : ∀ coord, InBox type.shape coord →
      StoredContent.element ⟨type, false, storage⟩ coord = StoredContent.element ⟨type, false, storage'⟩ coord) :
    storage = storage' := by
  apply List.ext_getElem (by omega)
  intro i hi hi'
  have hpos := type.memShape_pos
  let v := decode type.getMemShape i
  have hv : InBox type.getMemShape v := inBox_decode hpos
  have hback : encode type.getMemShape v = i := by
    apply encode_decode hpos (by omega)
    rw [NDType.memShape_prod]
    omega
  have hlogical : type.dimsOrder.toLogicalOrder type.getMemShape = type.shape :=
    toLogicalOrder_toMemoryOrder type.numDims_eq.symm
  have hml : type.getMemShape.length = type.dimsOrder.numDims := length_toMemoryOrder
  have hbox : InBox type.shape (type.dimsOrder.toLogicalOrder v) := by
    rw [← hlogical]
    exact DimsOrder.InBox_toLogicalOrder hml hv
  have hposition : positionOf type (type.dimsOrder.toLogicalOrder v) = i := by
    unfold positionOf
    rw [toMemoryOrder_toLogicalOrder (hv.length.trans hml), hback]
  have he := h _ hbox
  rw [element_eq, element_eq, hposition] at he
  simpa [hi, hi'] using he

theorem Copies.trans (h : Copies src a b) (h' : Copies src' b c) :
    Copies (fun coord => (src' coord).bind src) a c := by
  refine ⟨h'.isSplat.trans h.isSplat, h'.storageElemSize.trans h.storageElemSize, h'.wellSized, ?_, ?_⟩
  · intro hsplat
    rw [h'.splat (h.isSplat.trans hsplat), h.splat hsplat]
  · intro hsplat coord hcoord
    obtain ⟨middle, hmiddle, hin, he⟩ := h'.elements (h.isSplat.trans hsplat) coord hcoord
    obtain ⟨origin, horigin, hin', he'⟩ := h.elements hsplat middle hin
    refine ⟨origin, ?_, hin', he.trans he'⟩
    rw [hmiddle]
    exact horigin

theorem Copies.unique (h : Copies src a b) (h' : Copies src' a c) (htype : b.type = c.type)
    (hsrc : ∀ coord, InBox b.type.shape coord → src coord = src' coord) : b = c := by
  have hstorage : b.storage = c.storage := by
    cases hsplat : a.isSplat with
    | true => rw [h.splat hsplat, h'.splat hsplat]
    | false =>
      have hb := h.isSplat.trans hsplat
      have hc := h'.isSplat.trans hsplat
      have hbl := h.wellSized
      have hcl := h'.wellSized
      have hpos := prod_pos b.type.shape_pos
      unfold ConstContent.WellSized ConstContent.tempBufSize at hbl hcl
      rw [hb, if_neg Bool.false_ne_true] at hbl
      rw [hc, if_neg Bool.false_ne_true, ← htype] at hcl
      apply @storage_ext R b.type.toNDType
      · omega
      · omega
      · intro coord hcoord
        obtain ⟨origin, horigin, -, he⟩ := h.elements hsplat coord hcoord
        obtain ⟨origin', horigin', -, he'⟩ := h'.elements hsplat coord (htype ▸ hcoord)
        have ho : origin = origin' := Option.some.inj (horigin.symm.trans ((hsrc coord hcoord).trans horigin'))
        unfold ConstContent.element ConstContent.stored at he he'
        rw [hb] at he
        rw [hc, ← htype, ← ho] at he'
        exact he.trans he'.symm
  obtain ⟨type, isSplat, size, storage⟩ := b
  obtain ⟨type', isSplat', size', storage'⟩ := c
  have hs : isSplat = isSplat' := h.isSplat.trans h'.isSplat.symm
  have he : size = size' := h.storageElemSize.trans h'.storageElemSize.symm
  dsimp only at htype hstorage
  subst htype hs he hstorage
  rfl

theorem transformLayout_copies {attr : TransformAttr} {content : ConstContent R} {output : TensorType}
    (hrespects : RespectsLogical content.storageElemSize attr content.type.toNDType output.toNDType)
    (hout : attr.inferOutputType content.type.toNDType = some output.toNDType)
    (hlayout : (∃ order, attr = .reorder order) ∨ (∃ dstOrder memPerm, attr = .memPermute dstOrder memPerm) ∨
      ∃ order, attr = .transpose order)
    (hf : ∃ permOrder, Follows attr content.type.toNDType output.toNDType permOrder) (hsize : content.WellSized) :
    ∃ result, transformLayout attr output content = some result ∧ result.type = output ∧
      Copies (attr.source content.type.toNDType output.toNDType) content result := by
  obtain ⟨permOrder, hf⟩ := hf
  obtain ⟨type, isSplat, storageElemSize, storage⟩ := content
  cases isSplat with
  | true =>
    have hrun : transformLayout attr output ⟨type, true, storageElemSize, storage⟩ =
        some ⟨output, true, storageElemSize, storage⟩ := by
      unfold transformLayout
      dsimp only
      rw [transformLayout_splat hout hlayout]
      rfl
    exact ⟨_, hrun, rfl, rfl, rfl, transformLayout_wellSized hf hout hrun hsize, fun _ => rfl, nofun⟩
  | false =>
    have hlen : (storage.length : ℤ) = type.shape.prod := by
      have hpos := prod_pos type.shape_pos
      unfold ConstContent.WellSized ConstContent.tempBufSize at hsize
      rw [if_neg Bool.false_ne_true] at hsize
      dsimp only at hsize
      omega
    obtain ⟨result, hresult, hall⟩ := hrespects R storage hlen
    have hrun : transformLayout attr output ⟨type, false, storageElemSize, storage⟩ =
        some ⟨output, false, storageElemSize, result⟩ := by
      unfold transformLayout
      dsimp only at hresult ⊢
      rw [hresult]
      rfl
    exact ⟨_, hrun, rfl, rfl, rfl, transformLayout_wellSized hf hout hrun hsize, nofun, fun _ => hall⟩

end

end NpuCompiler.Const
