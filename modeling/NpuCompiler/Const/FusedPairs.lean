import NpuCompiler.Const.FusedTransforms

namespace NpuCompiler.Const

open MixedRadix TensorType TransformAttrInterface List DimsOrder

variable {R : Type} {input mid output : TensorType}

section
variable {order dstOrder memPerm : DimsOrder}

theorem reorder_infer_iff : (reorder order : TransformAttrInterface R).inferOutputType input = some output ↔
    order.numDims = input.getRank ∧ output.shape = input.shape ∧ output.dimsOrder = order ∧
      output.elemType = input.elemType := by
  constructor
  · intro h
    obtain ⟨type, htype, h⟩ := Option.bind_eq_some_iff.mp h
    obtain ⟨hnd, helem⟩ := withElemType_eq_some.mp h
    rw [TransformAttr.inferOutputType] at htype
    split at htype
    · next hrank =>
      obtain ⟨hs, ho⟩ := NDType.getTensorType_eq_some.mp htype
      rw [← hnd] at hs ho
      exact ⟨hrank, hs, ho, helem⟩
    · cases htype
  · rintro ⟨hrank, hs, ho, helem⟩
    have htype : (TransformAttr.reorder order).inferOutputType input.toNDType = some output.toNDType := by
      rw [TransformAttr.inferOutputType, if_pos hrank]
      exact NDType.getTensorType_eq_some.mpr ⟨hs, ho⟩
    apply Option.bind_eq_some_iff.mpr
    exact ⟨_, htype, withElemType_eq_some.mpr ⟨rfl, helem⟩⟩

theorem memPermute_infer_iff : (memPermute dstOrder memPerm : TransformAttrInterface R).inferOutputType input = some output ↔
      (dstOrder.numDims = input.getRank ∧ memPerm.numDims = input.getRank) ∧
        output.shape = dstOrder.toLogicalOrder (memPerm.toMemoryOrder input.getMemShape) ∧
        output.dimsOrder = dstOrder ∧ output.elemType = input.elemType.changeAxis fun origAxis =>
          dstOrder.dimAt (memPerm.dimPos (input.dimsOrder.dimPos origAxis)) := by
  constructor
  · intro h
    obtain ⟨type, htype, h⟩ := Option.bind_eq_some_iff.mp h
    obtain ⟨hnd, helem⟩ := withElemType_eq_some.mp h
    rw [TransformAttr.inferOutputType] at htype
    split at htype
    · cases htype
    · next hrank =>
      push Not at hrank
      obtain ⟨reordered, hreordered, hchange⟩ := Option.bind_eq_some_iff.mp htype
      obtain ⟨-, horder⟩ := NDType.getTensorType_eq_some.mp hreordered
      obtain ⟨hs, ho⟩ := changeShape_same_rank (by rw [length_toLogicalOrder, horder]) hchange
      rw [← hnd] at hs ho
      exact ⟨hrank, hs, ho.trans horder, helem⟩
  · rintro ⟨hrank, hs, ho, helem⟩
    have hnot : ¬(dstOrder.numDims ≠ input.getRank ∨ memPerm.numDims ≠ input.getRank) := by
      push Not
      exact hrank
    have htype : (TransformAttr.memPermute dstOrder memPerm).inferOutputType input.toNDType = some output.toNDType := by
      rw [TransformAttr.inferOutputType, if_neg hnot]
      apply Option.bind_eq_some_iff.mpr
      refine ⟨⟨input.shape, dstOrder, hrank.1, input.shape_pos⟩, ?_, ?_⟩
      · exact NDType.getTensorType_eq_some.mpr ⟨rfl, rfl⟩
      · apply changeShape_eq_some.mpr
        refine ⟨?_, hs⟩
        rw [length_toLogicalOrder, ho]
        exact inferNewDimsOrder_self _
    apply Option.bind_eq_some_iff.mpr
    exact ⟨_, htype, withElemType_eq_some.mpr ⟨rfl, helem⟩⟩

variable [CommRing R]

def CopiesAll (attr : TransformAttrInterface R) (input output : TensorType) (src : List ℤ → Option (List ℤ)) : Prop :=
  ∀ content : ConstContent R, content.type = input → content.WellSized →
    ∃ result, attr.transform content = some result ∧ result.type = output ∧ Copies src content result

theorem copiesAll_reorder (hout : (reorder order : TransformAttrInterface R).inferOutputType input = some output) :
    CopiesAll (reorder order : TransformAttrInterface R) input output some := by
  intro content htype hsize
  subst htype
  have hnd := infer_layoutAttr rfl hout
  obtain ⟨permOrder, -, hf⟩ := reorder_follows hnd
  obtain ⟨result, hresult, htype, hcopies⟩ := transformLayout_copies (respectsLogical_reorder hnd) hnd
    (Or.inl ⟨_, rfl⟩) ⟨_, hf⟩ hsize
  refine ⟨result, ?_, htype, hcopies⟩
  unfold transform
  rw [hout]
  exact hresult

def memPermuteSource (inOrder dstOrder memPerm : DimsOrder) (coord : List ℤ) : Option (List ℤ) :=
  some (inOrder.toLogicalOrder (memPerm.toLogicalOrder (dstOrder.toMemoryOrder coord)))

theorem copiesAll_memPermute
    (hout : (memPermute dstOrder memPerm : TransformAttrInterface R).inferOutputType input = some output) :
    CopiesAll (memPermute dstOrder memPerm : TransformAttrInterface R) input output
      (memPermuteSource input.dimsOrder dstOrder memPerm) := by
  intro content htype hsize
  subst htype
  have hnd := infer_layoutAttr rfl hout
  obtain ⟨result, hresult, htype, hcopies⟩ := transformLayout_copies (respectsLogical_memPermute hnd) hnd
    (Or.inr (Or.inl ⟨_, _, rfl⟩)) ⟨_, memPermute_follows hnd⟩ hsize
  refine ⟨result, ?_, htype, hcopies⟩
  unfold transform
  rw [hout]
  exact hresult

variable {prev curr new : TransformAttrInterface R} {src src' fusedSrc : List ℤ → Option (List ℤ)}

theorem sameFold_pair (hprev : prev.inferOutputType input = some mid) (hcurr : curr.inferOutputType mid = some output)
    (hnew : new.inferOutputType input = some output)
    (h : ∀ content : ConstContent R, content.type = input → content.WellSized →
      (prev.transform content).bind curr.transform = new.transform content) : SameFold [prev, curr] [new] input := by
  constructor
  · unfold inferFinalType
    simp [hprev, hcurr, hnew]
  · intro base hbase hsize
    rw [foldContent_two, foldContent_one]
    exact h base hbase hsize

theorem sameFold_copies (hprev : prev.inferOutputType input = some mid)
    (hcurr : curr.inferOutputType mid = some output) (hnew : new.inferOutputType input = some output)
    (hfirst : CopiesAll prev input mid src) (hsecond : CopiesAll curr mid output src')
    (hfused : CopiesAll new input output fusedSrc)
    (hsrc : ∀ coord, InBox output.shape coord → (src' coord).bind src = fusedSrc coord) :
    SameFold [prev, curr] [new] input := by
  apply sameFold_pair hprev hcurr hnew
  intro content htype hsize
  obtain ⟨first, hfirst, htype₁, hcopies₁⟩ := hfirst content htype hsize
  obtain ⟨second, hsecond, htype₂, hcopies₂⟩ := hsecond first htype₁ hcopies₁.wellSized
  obtain ⟨fused, hfused, htype₃, hcopies₃⟩ := hfused content htype hsize
  rw [hfirst, hfused, Option.bind_some, hsecond]
  congr 1
  apply (hcopies₁.trans hcopies₂).unique hcopies₃ (htype₂.trans htype₃.symm)
  rw [htype₂]
  exact hsrc

theorem reorder_reorder {first second : DimsOrder}
    (hprev : (reorder first : TransformAttrInterface R).inferOutputType input = some mid)
    (hcurr : (reorder second : TransformAttrInterface R).inferOutputType mid = some output) :
    SameFold [reorder first, reorder second] [(reorder second : TransformAttrInterface R)] input := by
  have hnew : (reorder second : TransformAttrInterface R).inferOutputType input = some output := by
    obtain ⟨hrank₁, hs₁, ho₁, he₁⟩ := reorder_infer_iff.mp hprev
    obtain ⟨hrank₂, hs₂, ho₂, he₂⟩ := reorder_infer_iff.mp hcurr
    apply reorder_infer_iff.mpr
    refine ⟨?_, hs₂.trans hs₁, ho₂, he₂.trans he₁⟩
    rw [hrank₂]
    exact congrArg List.length hs₁
  apply sameFold_copies hprev hcurr hnew (copiesAll_reorder hprev) (copiesAll_reorder hcurr) (copiesAll_reorder hnew)
  intro coord _
  rfl

theorem ElemType.changeAxis_changeAxis {f g : ℕ → ℕ} {elemType : ElemType} :
    (elemType.changeAxis f).changeAxis g = elemType.changeAxis (g ∘ f) := by
  cases elemType with
  | number name | quantileFloat name | uniformQuantized name param | uniformQuantizedPerAxis name axis params => rfl

theorem changeAxis_congr {f g : ℕ → ℕ} (h : ∀ axis < input.shape.length, f axis = g axis) :
    input.elemType.changeAxis f = input.elemType.changeAxis g := by
  have hvalid := input.valid
  cases helem : input.elemType with
  | uniformQuantizedPerAxis name axis params =>
    rw [helem] at hvalid
    exact congrArg (fun a => ElemType.uniformQuantizedPerAxis name a params) (h axis hvalid.1)
  | number name | quantileFloat name | uniformQuantized name param => rfl

theorem memPermute_reorder {dstOrder memPerm order newMemPerm : DimsOrder} (hdst : mid.dimsOrder.numDims = order.numDims)
    (hmem : (DimsOrder.between mid.dimsOrder order hdst).numDims = memPerm.numDims)
    (hperm : newMemPerm = (DimsOrder.between mid.dimsOrder order hdst).comp memPerm hmem)
    (hprev : (memPermute dstOrder memPerm : TransformAttrInterface R).inferOutputType input = some mid)
    (hcurr : (reorder order : TransformAttrInterface R).inferOutputType mid = some output) :
    SameFold [memPermute dstOrder memPerm, reorder order]
      [(memPermute order newMemPerm : TransformAttrInterface R)] input := by
  obtain ⟨⟨hrank, hrank'⟩, hs₁, ho₁, he₁⟩ := memPermute_infer_iff.mp hprev
  obtain ⟨-, hs₂, ho₂, he₂⟩ := reorder_infer_iff.mp hcurr
  have hin : input.dimsOrder.numDims = memPerm.numDims := input.numDims_eq.trans hrank'.symm
  have hnum : memPerm.numDims = mid.dimsOrder.numDims := by rw [hrank', ← hrank, ho₁]
  have hmid : mid.shape.length = mid.dimsOrder.numDims := mid.numDims_eq.symm
  have hmemory : memPerm.toMemoryOrder input.getMemShape = mid.dimsOrder.toMemoryOrder mid.shape := by
    rw [hs₁, ho₁, toMemoryOrder_toLogicalOrder (by rw [length_toMemoryOrder, hnum, ho₁])]
  have hnew : (memPermute order newMemPerm : TransformAttrInterface R).inferOutputType input = some output := by
    apply memPermute_infer_iff.mpr
    refine ⟨⟨?_, ?_⟩, ?_, ho₂, ?_⟩
    · rw [← hdst, ← hnum, hrank']
    · rw [hperm, numDims_comp, hmem, hrank']
    · rw [hperm, toMemoryOrder_comp, hmemory, between_toMemoryOrder,
        toLogicalOrder_toMemoryOrder (hmid.trans hdst), hs₂]
    · rw [he₂, he₁]
      apply changeAxis_congr
      intro axis haxis
      have hpos : input.dimsOrder.dimPos axis < memPerm.numDims :=
        hin ▸ dimPos_lt (input.numDims_eq ▸ haxis)
      have hmp : memPerm.dimPos (input.dimsOrder.dimPos axis) < mid.dimsOrder.numDims :=
        hnum ▸ dimPos_lt hpos
      have hd := dimAt_lt hmp
      rw [hperm, dimPos_comp hmem hpos]
      have hback := dimPos_between hdst hd
      rw [dimPos_dimAt hmp] at hback
      rw [hback, dimAt_dimPos (hdst ▸ hd), ho₁]
  apply sameFold_copies hprev hcurr hnew (copiesAll_memPermute hprev) (copiesAll_reorder hcurr)
    (copiesAll_memPermute hnew)
  intro coord hcoord
  have hlen : coord.length = mid.dimsOrder.numDims := by rw [hcoord.length, hs₂, hmid]
  unfold memPermuteSource
  rw [hperm, toLogicalOrder_comp, ← between_toMemoryOrder hdst,
    toLogicalOrder_toMemoryOrder, Option.bind_some, ho₁]
  rw [length_toMemoryOrder, numDims_between, hdst]

theorem reorder_memPermute {order dstOrder memPerm newMemPerm : DimsOrder}
    (hin : input.dimsOrder.numDims = order.numDims)
    (hmem : memPerm.numDims = (DimsOrder.between input.dimsOrder order hin).numDims)
    (hperm : newMemPerm = memPerm.comp (DimsOrder.between input.dimsOrder order hin) hmem)
    (hprev : (reorder order : TransformAttrInterface R).inferOutputType input = some mid)
    (hcurr : (memPermute dstOrder memPerm : TransformAttrInterface R).inferOutputType mid = some output) :
    SameFold [reorder order, memPermute dstOrder memPerm]
      [(memPermute dstOrder newMemPerm : TransformAttrInterface R)] input := by
  obtain ⟨-, hs₁, ho₁, he₁⟩ := reorder_infer_iff.mp hprev
  obtain ⟨⟨hrank, hrank'⟩, hs₂, ho₂, he₂⟩ := memPermute_infer_iff.mp hcurr
  have hnum : mid.getRank = input.getRank := congrArg List.length hs₁
  have hnew : (memPermute dstOrder newMemPerm : TransformAttrInterface R).inferOutputType input = some output := by
    apply memPermute_infer_iff.mpr
    refine ⟨⟨hrank.trans hnum, ?_⟩, ?_, ho₂, ?_⟩
    · rw [hperm, numDims_comp, hrank', hnum]
    · rw [hperm, toMemoryOrder_comp]
      unfold NDType.getMemShape at hs₂ ⊢
      rw [between_toMemoryOrder, hs₂, ho₁, hs₁]
    · rw [he₂, he₁]
      apply changeAxis_congr
      intro axis haxis
      have ha : axis < input.dimsOrder.numDims := input.numDims_eq ▸ haxis
      have hpos : input.dimsOrder.dimPos axis < (DimsOrder.between input.dimsOrder order hin).numDims := by
        rw [numDims_between, ← hin]
        exact dimPos_lt ha
      rw [hperm, dimPos_comp hmem hpos, dimPos_between hin ha, ho₁]
  apply sameFold_copies hprev hcurr hnew (copiesAll_reorder hprev) (copiesAll_memPermute hcurr)
    (copiesAll_memPermute hnew)
  intro coord _
  have hlen : (memPerm.toLogicalOrder (dstOrder.toMemoryOrder coord)).length = order.numDims := by
    rw [length_toLogicalOrder, hmem, numDims_between]
  have hback := between_toMemoryOrder hin
    (order.toLogicalOrder (memPerm.toLogicalOrder (dstOrder.toMemoryOrder coord)))
  rw [toMemoryOrder_toLogicalOrder hlen] at hback
  unfold memPermuteSource
  rw [Option.bind_some, hperm, toLogicalOrder_comp, ← hback, toLogicalOrder_toMemoryOrder,
    toLogicalOrder_toMemoryOrder, hback, ho₁]
  · rw [length_toLogicalOrder, hin]
  · rw [length_toMemoryOrder, numDims_between, hin]

section
variable {content : ConstContent R}

theorem transform_add {bias : AddBias R} : (add bias).transform content =
    some ⟨content.type, content.isSplat, sizeOfFloat, addBias content.storage bias⟩ := rfl

theorem add_add {first second : R} :
    SameFold [add (.bias first), add (.bias second)] [add (.bias (first + second))] input := by
  apply @sameFold_pair R input input input _ _ _ _ rfl rfl rfl
  intro content _ _
  rw [transform_add, transform_add, Option.bind_some, transform_add]
  simp only [addBias, map_map]
  congr 2
  apply map_congr_left
  intro value _
  simp only [Function.comp_apply, Option.map_map]
  congr 1
  funext x
  exact add_assoc x first second

theorem transform_rescale {scale : R} : (rescale (.splat scale)).transform content =
    some ⟨content.type, content.isSplat, sizeOfFloat, multiplyTensorByScalar content.storage scale⟩ := rfl

theorem rescale_rescale {first second : R} :
    SameFold [rescale (.splat first), rescale (.splat second)] [rescale (.splat (first * second))] input := by
  apply @sameFold_pair R input input input _ _ _ _ rfl rfl rfl
  intro content _ _
  rw [transform_rescale, transform_rescale, Option.bind_some, transform_rescale]
  simp only [multiplyTensorByScalar, map_map]
  congr 2
  apply map_congr_left
  intro value _
  simp only [Function.comp_apply, Option.map_map]
  congr 1
  funext x
  exact mul_assoc x first second

theorem cast_cast {first second : ElemType}
    (hprev : (castElemType first : TransformAttrInterface R).inferOutputType input = some mid)
    (hcurr : (castElemType second : TransformAttrInterface R).inferOutputType mid = some output) :
    SameFold [castElemType first, castElemType second] [(castElemType second : TransformAttrInterface R)] input := by
  have hnew : (castElemType second : TransformAttrInterface R).inferOutputType input = some output := by
    obtain ⟨hn₁, -⟩ := withElemType_eq_some.mp hprev
    obtain ⟨hn₂, he₂⟩ := withElemType_eq_some.mp hcurr
    exact withElemType_eq_some.mpr ⟨hn₂.trans hn₁, he₂⟩
  apply sameFold_pair hprev hcurr hnew
  intro content htype _
  subst htype
  unfold transform
  simp only [hprev, hnew, Option.bind_eq_bind, Option.bind_some, ConstContent.moveBuffer, hcurr]

end

end

end NpuCompiler.Const
