import NpuCompiler.Const.ElementwiseTransforms
import NpuCompiler.Const.FusedShapes
import NpuCompiler.Library.DimBlocks

namespace NpuCompiler.Const

open MixedRadix TensorType DimsOrder

section
variable {size inputLowerDimsSize acc : ℤ} {inputShape outputShape : List ℤ} {dim newDim n : ℕ}

theorem seekQuantizationDim_spec (hn : n ≤ outputShape.length) (hacc : acc = (outputShape.drop n).prod)
    (h : seekQuantizationDim size inputLowerDimsSize outputShape n acc = some newDim) :
    newDim < n ∧ entry outputShape newDim = size ∧ (outputShape.drop newDim).prod = inputLowerDimsSize := by
  induction n generalizing acc with
  | zero => exact absurd h (by simp [seekQuantizationDim])
  | succ n ih =>
    have hstep : acc * entry outputShape n = (outputShape.drop n).prod := by
      rw [prod_drop (by omega), hacc]
      rfl
    unfold seekQuantizationDim at h
    dsimp only at h
    rw [hstep] at h
    by_cases hreached : inputLowerDimsSize ≤ (outputShape.drop n).prod
    · rw [if_pos hreached] at h
      split_ifs at h with hfound
      obtain rfl := Option.some.inj h
      exact ⟨Nat.lt_succ_self n, hfound.2, hfound.1⟩
    · rw [if_neg hreached] at h
      obtain ⟨hlt, hrest⟩ := ih (by omega) rfl h
      exact ⟨by omega, hrest⟩

theorem getNewQuantizationDim_spec (h : getNewQuantizationDim dim inputShape outputShape = some newDim) :
    newDim < outputShape.length ∧ entry outputShape newDim = entry inputShape dim ∧
      (outputShape.drop newDim).prod = (inputShape.drop dim).prod := by
  apply seekQuantizationDim_spec (Nat.le_refl _) _ h
  rw [List.drop_length, List.prod_nil]

end

section
variable {R : Type} {types : ElementTypes R} {output : TensorType} {content : ConstContent R} {name : String} {dim : ℕ}
  {params : List QuantParam}

def dequantizedAt (types : ElementTypes R) (content : ConstContent R) (name : String) (params : List QuantParam)
    (stride size idx : ℤ) : Option R := do
  let param ← params[(idx / stride % size).toNat]?
  let qVal ← ConstTransformAttr.getValue content idx
  some (types.dequantize name param qVal)

theorem exists_outerSize {type : NDType} (hdim : dim < type.shape.length) :
    0 < strideOf type dim ∧ ∃ outerSize, 0 < outerSize ∧
      type.shape.prod = outerSize * (entry type.shape dim * strideOf type dim) := by
  have hpos := type.memShape_pos
  have hlt : type.dimsOrder.dimPos dim < type.getMemShape.length := by
    rw [type.memShape_length, ← type.numDims_eq]
    exact dimPos_lt (by rwa [type.numDims_eq])
  have hentry : entry type.getMemShape (type.dimsOrder.dimPos dim) = entry type.shape dim := by
    have hnum : dim < type.dimsOrder.numDims := by rwa [type.numDims_eq]
    unfold NDType.getMemShape
    rw [entry_toMemoryOrder (dimPos_lt hnum), dimAt_dimPos hnum]
  refine ⟨drop_pos hpos, (type.getMemShape.take (type.dimsOrder.dimPos dim)).prod, ?_, ?_⟩
  · exact prod_pos fun d hd => hpos d (List.mem_of_mem_take hd)
  · rw [← type.memShape_prod, ← hentry, mul_comm (entry _ _)]
    unfold strideOf
    rw [← prod_drop hlt, List.prod_take_mul_prod_drop]

theorem dequantizePerAxis_eq (helem : content.type.elemType = .uniformQuantizedPerAxis name dim params) :
    ConstTransformAttr.dequantizePerAxis types output content name dim params = some ⟨output, false, TransformAttrInterface.sizeOfFloat,
      (natRange content.type.shape.prod).map (dequantizedAt types content name params (strideOf content.type.toNDType dim)
        (entry content.type.shape dim))⟩ := by
  obtain ⟨hdim, hsize⟩ : dim < content.type.shape.length ∧ entry content.type.shape dim = params.length := by
    have hvalid := content.type.valid
    rw [helem] at hvalid
    exact hvalid
  have hnum : dim < content.type.dimsOrder.numDims := by rwa [content.type.numDims_eq]
  have hentry : entry content.type.getMemShape (content.type.dimsOrder.dimPos dim) = entry content.type.shape dim := by
    unfold NDType.getMemShape
    rw [entry_toMemoryOrder (dimPos_lt hnum), dimAt_dimPos hnum]
  obtain ⟨hstride, outerSize, houter, hprod⟩ := exists_outerSize hdim
  have haxis : 0 < entry content.type.shape dim := content.type.shape_pos _ (entry_mem hdim)
  have hinner : (content.type.getMemShape.drop (content.type.dimsOrder.dimPos dim + 1)).prod = strideOf content.type.toNDType dim := rfl
  have htotal := mul_pos haxis hstride
  have hquot : content.type.getMemShape.prod / (entry content.type.shape dim * strideOf content.type.toNDType dim) = outerSize := by
    rw [content.type.memShape_prod, hprod, Int.mul_ediv_cancel _ htotal.ne']
  unfold ConstTransformAttr.dequantizePerAxis
  dsimp only
  rw [hentry, hinner, hquot, if_neg (by omega), if_neg (by omega)]
  congr 2
  rw [hprod, natRange_mul houter.le htotal.le, natRange_mul haxis.le hstride.le, List.map_flatMap]
  apply List.flatMap_congr; intro outerInd _
  rw [List.map_map, List.map_flatMap]
  apply List.flatMap_congr; intro quantAxisInd hquant
  rw [List.map_map]
  apply List.map_congr_left; intro innerInd hind
  obtain ⟨hquant0, hquantlt⟩ := mem_natRange.mp hquant
  obtain ⟨hind0, hindlt⟩ := mem_natRange.mp hind
  have haxisInd : (outerInd * (entry content.type.shape dim * strideOf content.type.toNDType dim) +
      (quantAxisInd * strideOf content.type.toNDType dim + innerInd)) / strideOf content.type.toNDType dim %
        entry content.type.shape dim = quantAxisInd := by
    rw [← mul_assoc, ← add_assoc, ← add_mul, add_comm, Int.add_mul_ediv_right _ _ hstride.ne', Int.ediv_eq_zero_of_lt hind0 hindlt,
      zero_add, add_comm, Int.add_mul_emod_self_right, Int.emod_eq_of_lt hquant0 hquantlt]
  unfold dequantizedAt
  rw [Function.comp_apply, Function.comp_apply, haxisInd, add_assoc]

end
section
variable {R : Type} {types : ElementTypes R} {input mid mid' final : TensorType} {elemType : ElemType} {shape : List ℤ}
  {t : ConstTransformAttr R}

theorem valid_of_noAxis (h : elemType.quantizedAxis = none) : elemType.validateQuantElemType shape := by
  cases elemType with
  | uniformQuantizedPerAxis name dim params => exact absurd h (by simp [ElemType.quantizedAxis])
  | _ => trivial

theorem changeAxis_of_noAxis (h : elemType.quantizedAxis = none) (newAxis : ℕ → ℕ) : elemType.changeAxis newAxis = elemType := by
  cases elemType with
  | uniformQuantizedPerAxis name dim params => exact absurd h (by simp [ElemType.quantizedAxis])
  | _ => rfl

theorem noAxis_of_notQuantized (h : elemType.isQuantizedType = false) : elemType.quantizedAxis = none := by
  cases elemType with
  | uniformQuantizedPerAxis name dim params => exact absurd h (by simp [ElemType.isQuantizedType])
  | _ => rfl

theorem reshape_infer (h : (TransformAttrInterface.reshape shape : TransformAttrInterface R).inferOutputType input = some final) :
    input.changeShape shape = some final.toNDType ∧
      final.elemType = input.elemType.changeAxis (ElemType.reshapedAxis input.shape shape) := by
  obtain ⟨hnd, helem⟩ := reshape_infer_iff.mp h
  exact ⟨changeShape_eq_some.mpr hnd, helem⟩

theorem reshape_infer_of (hnd : input.changeShape shape = some final.toNDType)
    (helem : final.elemType = input.elemType.changeAxis (ElemType.reshapedAxis input.shape shape)) :
    (TransformAttrInterface.reshape shape : TransformAttrInterface R).inferOutputType input = some final :=
  reshape_infer_iff.mpr ⟨changeShape_eq_some.mp hnd, helem⟩

theorem inferFinalType_pair {a b : ConstTransformAttr R} (ha : a.inferOutputType types input = some mid)
    (hb : b.inferOutputType types mid = some final) : ConstTransformAttr.inferFinalType types input [a, b] = some final := by
  unfold ConstTransformAttr.inferFinalType
  rw [List.foldlM_cons, ha]
  change (b.inferOutputType types mid).bind _ = _
  rw [hb]
  rfl

theorem elementOps_pair {a b : ConstTransformAttr R} (ha : a.inferOutputType types input = some mid)
    (hb : b.inferOutputType types mid = some final) (idx : ℤ) : elementOps types idx [a, b] input =
      some ((elementOp input idx a).toList ++ (elementOp mid idx b).toList) := by
  unfold elementOps
  rw [ha]
  change (elementOps types idx [b] mid).bind _ = _
  unfold elementOps
  rw [hb]
  change some (_ ++ (_ ++ [])) = _
  rw [List.append_nil]

theorem exists_reshaped (hnone : input.elemType.quantizedAxis = none) (hnone' : elemType.quantizedAxis = none)
    (hmid : input.changeElemType elemType = some mid)
    (hreshape : (TransformAttrInterface.reshape shape : TransformAttrInterface R).inferOutputType mid = some final) :
    ∃ mid', (TransformAttrInterface.reshape shape : TransformAttrInterface R).inferOutputType input = some mid' ∧
      mid'.elemType = input.elemType ∧ mid'.changeElemType elemType = some final := by
  obtain ⟨hmidND, hmidElem⟩ := withElemType_eq_some.mp hmid
  obtain ⟨hfinalND, hfinalElem⟩ := reshape_infer hreshape
  rw [hmidND] at hfinalND
  rw [hmidElem, changeAxis_of_noAxis hnone'] at hfinalElem
  refine ⟨⟨final.toNDType, input.elemType, valid_of_noAxis hnone⟩, ?_, rfl, ?_⟩
  · exact reshape_infer_of hfinalND (changeAxis_of_noAxis hnone _).symm
  · exact withElemType_eq_some.mpr ⟨rfl, hfinalElem⟩

variable [CommRing R]

theorem foldContent_pair {a b : ConstTransformAttr R} {content : ConstContent R} :
    ConstTransformAttr.foldContent types [a, b] content = (a.transform types content).bind (b.transform types) := by
  unfold ConstTransformAttr.foldContent
  rw [List.foldlM_cons]
  cases a.transform types content with
  | none => rfl
  | some next =>
    change (b.transform types next).bind some = b.transform types next
    cases b.transform types next with
    | none => rfl
    | some result => rfl

theorem reshape_transform {content : ConstContent R} (h : (TransformAttrInterface.reshape shape : TransformAttrInterface R).inferOutputType
    content.type = some final) : (ConstTransformAttr.basic (.reshape shape)).transform types content = some (content.moveBuffer final) := by
  change ((TransformAttrInterface.reshape shape).inferOutputType content.type).bind _ = _
  rw [h]
  rfl

theorem samePair_of {new : ConstTransformAttr R} (ht : t.inferOutputType types input = some mid)
    (hreshape : (TransformAttrInterface.reshape shape : TransformAttrInterface R).inferOutputType mid = some final)
    (hnew : new.inferOutputType types input = some mid') (ht' : t.inferOutputType types mid' = some final)
    (hnewOp : ∀ idx, elementOp input idx new = none)
    (hops : ∀ idx, 0 ≤ idx → idx < input.shape.prod → elementOp mid' idx t = elementOp input idx t)
    (hnewMoves : ∀ content : ConstContent R, content.type = input → new.transform types content = some (content.moveBuffer mid'))
    (htransform : ∀ content : ConstContent R, content.type = input → content.WellSized →
      t.transform types (content.moveBuffer mid') = (t.transform types content).map fun result => result.moveBuffer final)
    (htype : ∀ content result : ConstContent R, content.type = input → t.transform types content = some result → result.type = mid) :
    SamePair types input [t, .basic (.reshape shape)] [new, t] where
  finalType := by
    rw [inferFinalType_pair hnew ht', inferFinalType_pair ht (b := .basic (.reshape shape)) hreshape]
  ops := by
    intro idx h0 hlt
    rw [elementOps_pair hnew ht', elementOps_pair ht (b := .basic (.reshape shape)) hreshape, hnewOp, hops idx h0 hlt]
    change some ([] ++ _) = some (_ ++ [])
    rw [List.nil_append, List.append_nil]
  content := by
    intro content hcontent hsize
    rw [foldContent_pair, foldContent_pair, hnewMoves content hcontent]
    change t.transform types _ = _
    rw [htransform content hcontent hsize]
    cases hresult : t.transform types content with
    | none => rfl
    | some result =>
      change some _ = ConstTransformAttr.transform types (.basic (.reshape shape)) result
      rw [reshape_transform (by rw [htype content result hcontent hresult]; exact hreshape)]

theorem samePair_add {bias : AddBias R}
    (hreshape : (TransformAttrInterface.reshape shape : TransformAttrInterface R).inferOutputType input = some final) :
    SamePair types input [.basic (.add bias), .basic (.reshape shape)] [.basic (.reshape shape), .basic (.add bias)] := by
  have hadd (type : TensorType) : (ConstTransformAttr.basic (.add bias)).inferOutputType types type = some type := rfl
  have hnew : (ConstTransformAttr.basic (.reshape shape)).inferOutputType types input = some final := hreshape
  apply samePair_of (hadd input) hreshape hnew (hadd final)
  · exact fun _ => rfl
  · intro idx _ _
    cases bias with
    | bias _ => rfl
    | biasArray _ => rfl
  · intro content hcontent
    exact reshape_transform (by rw [hcontent]; exact hreshape)
  · exact fun _ _ _ => rfl
  · intro content result hcontent h
    rw [← Option.some.inj h]
    exact hcontent

theorem samePair_rescale {scale : R}
    (hreshape : (TransformAttrInterface.reshape shape : TransformAttrInterface R).inferOutputType input = some final) :
    SamePair types input [.basic (.rescale (.splat scale)), .basic (.reshape shape)]
      [.basic (.reshape shape), .basic (.rescale (.splat scale))] := by
  have hrescale (type : TensorType) : (ConstTransformAttr.basic (.rescale (.splat scale))).inferOutputType types type = some type := rfl
  have hnew : (ConstTransformAttr.basic (.reshape shape)).inferOutputType types input = some final := hreshape
  apply samePair_of (hrescale input) hreshape hnew (hrescale final)
  · exact fun _ => rfl
  · exact fun _ _ _ => rfl
  · intro content hcontent
    exact reshape_transform (by rw [hcontent]; exact hreshape)
  · exact fun _ _ _ => rfl
  · intro content result hcontent h
    rw [← Option.some.inj h]
    exact hcontent

theorem castElemType_transform {content : ConstContent R} {type : TensorType} (h : content.type.changeElemType elemType = some type) :
    (ConstTransformAttr.basic (.castElemType elemType)).transform types content = some (content.moveBuffer type) := by
  change (content.type.changeElemType elemType).bind _ = _
  rw [h]
  rfl

theorem samePair_castElemType (hnone : input.elemType.quantizedAxis = none) (hnone' : elemType.quantizedAxis = none)
    (hmid : (ConstTransformAttr.basic (.castElemType elemType)).inferOutputType types input = some mid)
    (hreshape : (TransformAttrInterface.reshape shape : TransformAttrInterface R).inferOutputType mid = some final) :
    SamePair types input [.basic (.castElemType elemType), .basic (.reshape shape)]
      [.basic (.reshape shape), .basic (.castElemType elemType)] := by
  obtain ⟨mid', hnew, -, hcast⟩ := exists_reshaped hnone hnone' hmid hreshape
  have hnew' : (ConstTransformAttr.basic (.reshape shape)).inferOutputType types input = some mid' := hnew
  have hcast' : (ConstTransformAttr.basic (.castElemType elemType)).inferOutputType types mid' = some final := hcast
  apply samePair_of hmid hreshape hnew' hcast'
  · exact fun _ => rfl
  · exact fun _ _ _ => rfl
  · intro content hcontent
    exact reshape_transform (by rw [hcontent]; exact hnew)
  · intro content hcontent _
    have hmoved : (content.moveBuffer mid').type.changeElemType elemType = some final := hcast
    rw [castElemType_transform hmoved, castElemType_transform (hcontent ▸ hmid)]
    rfl
  · intro content result hcontent h
    rw [castElemType_transform (hcontent ▸ hmid)] at h
    rw [← Option.some.inj h]
    rfl

theorem convert_transform {content : ConstContent R} {type : TensorType} (h : content.type.changeElemType elemType = some type) :
    (ConstTransformAttr.convertElemType elemType).transform types content = ConstTransformAttr.convertContent types type content := by
  change (content.type.changeElemType elemType).bind _ = _
  rw [h]
  rfl

theorem convertContent_type {content result : ConstContent R} (h : ConstTransformAttr.convertContent types mid content = some result) :
    result.type = mid := by
  unfold ConstTransformAttr.convertContent at h
  split_ifs at h
  · rw [← Option.some.inj h]
  · split at h
    · obtain ⟨convert, -, h⟩ := Option.bind_eq_some_iff.mp h
      rw [← Option.some.inj h]
    · cases h

theorem convertContent_moveBuffer {content : ConstContent R} (hin : mid'.elemType = content.type.elemType)
    (hout : final.elemType = mid.elemType) : ConstTransformAttr.convertContent types final (content.moveBuffer mid') =
      (ConstTransformAttr.convertContent types mid content).map fun result => result.moveBuffer final := by
  have hmoved : (content.moveBuffer mid').type.elemType = content.type.elemType := hin
  unfold ConstTransformAttr.convertContent
  rw [hmoved, hout]
  split_ifs with hquantized
  · rfl
  · split
    · next name outName _ _ =>
      cases types.convertElement name outName with
      | none => rfl
      | some convert => rfl
    · rfl

theorem samePair_convertElemType (hin : input.elemType.isQuantizedType = false) (hout : elemType.isQuantizedType = false)
    (hmid : (ConstTransformAttr.convertElemType elemType).inferOutputType types input = some mid)
    (hreshape : (TransformAttrInterface.reshape shape : TransformAttrInterface R).inferOutputType mid = some final) :
    SamePair types input [.convertElemType elemType, .basic (.reshape shape)]
      [.basic (.reshape shape), .convertElemType elemType] := by
  obtain ⟨mid', hnew, helem', hconvert⟩ := exists_reshaped (noAxis_of_notQuantized hin) (noAxis_of_notQuantized hout) hmid hreshape
  have hmidElem := (withElemType_eq_some.mp hmid).2
  have hfinalElem := (withElemType_eq_some.mp hconvert).2
  have hnew' : (ConstTransformAttr.basic (.reshape shape)).inferOutputType types input = some mid' := hnew
  have hconvert' : (ConstTransformAttr.convertElemType elemType).inferOutputType types mid' = some final := hconvert
  apply samePair_of hmid hreshape hnew' hconvert'
  · exact fun _ => rfl
  · intro idx _ _
    unfold elementOp
    rw [helem']
  · intro content hcontent
    exact reshape_transform (by rw [hcontent]; exact hnew)
  · intro content hcontent _
    have hmoved : (content.moveBuffer mid').type.changeElemType elemType = some final := hconvert
    rw [convert_transform hmoved, convert_transform (hcontent ▸ hmid)]
    exact convertContent_moveBuffer (helem'.trans (by rw [hcontent])) (hfinalElem.trans hmidElem.symm)
  · intro content result hcontent h
    rw [convert_transform (hcontent ▸ hmid)] at h
    exact convertContent_type h

end

section
variable {R : Type} {types : ElementTypes R} {input mid mid' final : TensorType} {shape : List ℤ} {name : String}
  {param : QuantParam} {dim newDim : ℕ} {params : List QuantParam}

theorem dequantizeContent_uniform {content : ConstContent R} {type : TensorType}
    (h : content.type.elemType = .uniformQuantized name param) : ConstTransformAttr.dequantizeContent types type content =
      some ⟨type, content.isSplat, TransformAttrInterface.sizeOfFloat,
        content.storage.map fun value => value.map (types.dequantize name param)⟩ := by
  unfold ConstTransformAttr.dequantizeContent
  rw [h]

theorem dequantizeContent_perAxis {content : ConstContent R} {type : TensorType}
    (h : content.type.elemType = .uniformQuantizedPerAxis name dim params) : ConstTransformAttr.dequantizeContent types type content =
      some ⟨type, false, TransformAttrInterface.sizeOfFloat, (natRange content.type.shape.prod).map (dequantizedAt types content name params
        (strideOf content.type.toNDType dim) (entry content.type.shape dim))⟩ := by
  unfold ConstTransformAttr.dequantizeContent
  rw [h]
  exact dequantizePerAxis_eq h

theorem dequantize_infer_uniform (h : input.elemType = .uniformQuantized name param) :
    (ConstTransformAttr.dequantize : ConstTransformAttr R).inferOutputType types input =
      input.changeElemType (.number (types.expressedType name)) := by
  unfold ConstTransformAttr.inferOutputType
  dsimp only
  rw [h]

theorem dequantize_infer_perAxis (h : input.elemType = .uniformQuantizedPerAxis name dim params) :
    (ConstTransformAttr.dequantize : ConstTransformAttr R).inferOutputType types input =
      input.changeElemType (.number (types.expressedType name)) := by
  unfold ConstTransformAttr.inferOutputType
  dsimp only
  rw [h]

theorem exists_changed (helem : input.elemType = .uniformQuantizedPerAxis name dim params)
    (hmid : (ConstTransformAttr.dequantize : ConstTransformAttr R).inferOutputType types input = some mid)
    (hreshape : (TransformAttrInterface.reshape shape : TransformAttrInterface R).inferOutputType mid = some final)
    (hnewDim : getNewQuantizationDim dim input.shape shape = some newDim) :
    ∃ mid', (ConstTransformAttr.changeShapeAndElemType shape (.uniformQuantizedPerAxis name newDim params) :
        ConstTransformAttr R).inferOutputType types input = some mid' ∧ mid'.toNDType = final.toNDType ∧
      mid'.elemType = .uniformQuantizedPerAxis name newDim params ∧
      (ConstTransformAttr.dequantize : ConstTransformAttr R).inferOutputType types mid' = some final := by
  rw [dequantize_infer_perAxis helem] at hmid
  obtain ⟨hmidND, hmidElem⟩ := withElemType_eq_some.mp hmid
  obtain ⟨hfinalND, hfinalElem⟩ := reshape_infer hreshape
  rw [hmidND] at hfinalND
  rw [hmidElem] at hfinalElem
  have hshape : final.shape = shape := (changeShape_eq_some.mp hfinalND).2
  obtain ⟨hlt, hentry, -⟩ := getNewQuantizationDim_spec hnewDim
  have hvalid := input.valid
  rw [helem] at hvalid
  have hvalid' : (ElemType.uniformQuantizedPerAxis name newDim params).validateQuantElemType final.shape := by
    rw [hshape]
    exact ⟨hlt, hentry.trans hvalid.2⟩
  refine ⟨⟨final.toNDType, .uniformQuantizedPerAxis name newDim params, hvalid'⟩, ?_, rfl, rfl, ?_⟩
  · apply Option.bind_eq_some_iff.mpr
    exact ⟨_, hfinalND, withElemType_eq_some.mpr ⟨rfl, rfl⟩⟩
  · rw [dequantize_infer_perAxis rfl]
    exact withElemType_eq_some.mpr ⟨rfl, hfinalElem⟩

variable [CommRing R]

theorem dequantize_transform {content : ConstContent R} {type : TensorType}
    (h : (ConstTransformAttr.dequantize : ConstTransformAttr R).inferOutputType types content.type = some type) :
    (ConstTransformAttr.dequantize : ConstTransformAttr R).transform types content = ConstTransformAttr.dequantizeContent types type content := by
  change ((ConstTransformAttr.dequantize : ConstTransformAttr R).inferOutputType types content.type).bind _ = _
  rw [h]
  rfl

theorem samePair_dequantize (helem : input.elemType = .uniformQuantized name param)
    (hmid : (ConstTransformAttr.dequantize : ConstTransformAttr R).inferOutputType types input = some mid)
    (hreshape : (TransformAttrInterface.reshape shape : TransformAttrInterface R).inferOutputType mid = some final) :
    SamePair types input [.dequantize, .basic (.reshape shape)] [.basic (.reshape shape), .dequantize] := by
  have hmid' := hmid
  rw [dequantize_infer_uniform helem] at hmid'
  have hnone : input.elemType.quantizedAxis = none := by rw [helem]; rfl
  obtain ⟨mid', hnew, helem', hfinal⟩ := exists_reshaped hnone rfl hmid' hreshape
  rw [helem] at helem'
  rw [← dequantize_infer_uniform helem'] at hfinal
  have hnew' : (ConstTransformAttr.basic (.reshape shape)).inferOutputType types input = some mid' := hnew
  apply samePair_of hmid hreshape hnew' hfinal
  · exact fun _ => rfl
  · intro idx _ _
    unfold elementOp
    rw [helem', helem]
  · intro content hcontent
    exact reshape_transform (by rw [hcontent]; exact hnew)
  · intro content hcontent _
    have hmoved : (ConstTransformAttr.dequantize : ConstTransformAttr R).inferOutputType types (content.moveBuffer mid').type =
        some final := hfinal
    have helemMoved : (content.moveBuffer mid').type.elemType = .uniformQuantized name param := helem'
    rw [dequantize_transform hmoved, dequantizeContent_uniform helemMoved, dequantize_transform (hcontent ▸ hmid),
      dequantizeContent_uniform (hcontent ▸ helem)]
    rfl
  · intro content result hcontent h
    rw [dequantize_transform (hcontent ▸ hmid), dequantizeContent_uniform (hcontent ▸ helem)] at h
    rw [← Option.some.inj h]

theorem changeShape_transform {content : ConstContent R} {elemType : ElemType}
    (h : (ConstTransformAttr.changeShapeAndElemType shape elemType : ConstTransformAttr R).inferOutputType types content.type = some mid) :
    (ConstTransformAttr.changeShapeAndElemType shape elemType : ConstTransformAttr R).transform types content =
      some (content.moveBuffer mid) := by
  change ((ConstTransformAttr.changeShapeAndElemType shape elemType : ConstTransformAttr R).inferOutputType types content.type).bind _ = _
  rw [h]
  rfl

def KeepsStride (input output : NDType) (dim newDim : ℕ) : Prop :=
  entry input.shape dim = 1 ∨ strideOf input dim = strideOf output newDim

theorem samePair_dequantizePerAxis (helem : input.elemType = .uniformQuantizedPerAxis name dim params)
    (hmid : (ConstTransformAttr.dequantize : ConstTransformAttr R).inferOutputType types input = some mid)
    (hreshape : (TransformAttrInterface.reshape shape : TransformAttrInterface R).inferOutputType mid = some final)
    (hprod : shape.prod = input.shape.prod) (hnewDim : getNewQuantizationDim dim input.shape shape = some newDim)
    (hkeeps : KeepsStride input.toNDType final.toNDType dim newDim) :
    SamePair types input [.dequantize, .basic (.reshape shape)]
      [.changeShapeAndElemType shape (.uniformQuantizedPerAxis name newDim params), .dequantize] := by
  obtain ⟨mid', hnew, hmidND', helem', hfinal⟩ := exists_changed helem hmid hreshape hnewDim
  have hmidND : mid.toNDType = input.toNDType := by
    have h := hmid
    rw [dequantize_infer_perAxis helem] at h
    exact (withElemType_eq_some.mp h).1
  have hshape : mid'.shape = shape := by
    rw [hmidND']
    exact (changeShape_eq_some.mp (reshape_infer hreshape).1).2
  obtain ⟨-, hentry, -⟩ := getNewQuantizationDim_spec hnewDim
  have hindex (idx : ℤ) : idx / strideOf mid'.toNDType newDim % entry mid'.shape newDim =
      idx / strideOf input.toNDType dim % entry input.shape dim := by
    rw [hshape, hentry, hmidND']
    cases hkeeps with
    | inl hone => rw [hone, Int.emod_one, Int.emod_one]
    | inr hstride => rw [hstride]
  apply samePair_of hmid hreshape hnew hfinal
  · exact fun _ => rfl
  · intro idx _ _
    unfold elementOp
    rw [helem', helem]
    dsimp only
    rw [hindex]
  · intro content hcontent
    exact changeShape_transform (hcontent ▸ hnew)
  · intro content hcontent _
    have hmoved : (ConstTransformAttr.dequantize : ConstTransformAttr R).inferOutputType types (content.moveBuffer mid').type =
        some final := hfinal
    have helemMoved : (content.moveBuffer mid').type.elemType = .uniformQuantizedPerAxis name newDim params := helem'
    rw [dequantize_transform hmoved, dequantizeContent_perAxis helemMoved, dequantize_transform (hcontent ▸ hmid),
      dequantizeContent_perAxis (hcontent ▸ helem)]
    have hsize : (content.moveBuffer mid').type.shape.prod = content.type.shape.prod := by
      change mid'.shape.prod = _
      rw [hshape, hprod, hcontent]
    change some _ = some (ConstContent.moveBuffer final _)
    unfold ConstContent.moveBuffer
    congr 2
    rw [← hsize]
    apply List.map_congr_left
    intro idx _
    unfold dequantizedAt
    change (params[(idx / strideOf mid'.toNDType newDim % entry mid'.shape newDim).toNat]?).bind _ = _
    rw [hindex, hcontent]
    rfl
  · intro content result hcontent h
    rw [dequantize_transform (hcontent ▸ hmid), dequantizeContent_perAxis (hcontent ▸ helem)] at h
    rw [← Option.some.inj h]

end
section

variable {R : Type} {types : ElementTypes R} {before after : List (ConstTransformAttr R)} {t : ConstTransformAttr R}
  {baseType input mid final : TensorType} {shape : List ℤ}

theorem moveReshapeBefore_eq (hbase : ConstTransformAttr.inferFinalType types baseType before = some input) :
    moveReshapeBefore types (before ++ t :: .basic (.reshape shape) :: after) (before.length + 1) baseType =
      if isMovedOver t then
        match reshapeBefore shape input t with
        | none => some (before ++ t :: .basic (.reshape shape) :: after, before.length + 1, false)
        | some newReshape => some (before ++ [newReshape, t] ++ after, before.length, true)
      else some (before ++ t :: .basic (.reshape shape) :: after, before.length + 1, false) := by
  have hpos : ¬(before.length + 1 = 0 ∨
      before.length + 1 = (before ++ t :: ConstTransformAttr.basic (.reshape shape) :: after).length) := by simp
  have hprev : (before ++ t :: ConstTransformAttr.basic (.reshape shape) :: after)[before.length]? = some t := by simp
  have hcurr : (before ++ t :: ConstTransformAttr.basic (.reshape shape) :: after)[before.length + 1]? =
      some (.basic (.reshape shape)) := by simp
  have htake : (before ++ t :: ConstTransformAttr.basic (.reshape shape) :: after).take before.length = before := by simp
  have hset (a b : ConstTransformAttr R) : ((before ++ t :: .basic (.reshape shape) :: after).set before.length a).set
      (before.length + 1) b = before ++ [a, b] ++ after := by simp
  unfold moveReshapeBefore
  rw [if_neg hpos]
  simp only [Nat.add_sub_cancel, hprev, hcurr, htake, hbase, hset]
  rfl

theorem infer_pair (h : ConstTransformAttr.inferFinalType types input [t, .basic (.reshape shape)] = some final) :
    ∃ mid, t.inferOutputType types input = some mid ∧
      (TransformAttrInterface.reshape shape : TransformAttrInterface R).inferOutputType mid = some final := by
  unfold ConstTransformAttr.inferFinalType at h
  rw [List.foldlM_cons] at h
  obtain ⟨mid, hmid, h⟩ := Option.bind_eq_some_iff.mp h
  rw [List.foldlM_cons] at h
  obtain ⟨last, hlast, h⟩ := Option.bind_eq_some_iff.mp h
  cases h
  exact ⟨mid, hmid, hlast⟩

def KeepsQuantizedAxis (t : ConstTransformAttr R) (input output : NDType) (axis : Option ℕ) : Prop :=
  match t with
  | .dequantize => ∀ dim newDim, axis = some dim → getNewQuantizationDim dim input.shape output.shape = some newDim →
      KeepsStride input output dim newDim
  | _ => True

theorem not_quantized {elemType : ElemType} (h : prepareTransformElemTypeSwap elemType input = true) :
    input.elemType.isQuantizedType = false ∧ elemType.isQuantizedType = false := by
  unfold prepareTransformElemTypeSwap at h
  simpa using h

theorem infer_moved (hover : isMovedOver t = true) (hmid : t.inferOutputType types input = some mid) :
    mid.toNDType = input.toNDType := by
  cases t with
  | basic attr =>
    cases attr with
    | add bias =>
      cases hmid
      rfl
    | rescale scale =>
      cases hmid
      rfl
    | castElemType elemType => exact (withElemType_eq_some.mp hmid).1
    | _ => cases hover
  | convertElemType elemType => exact (withElemType_eq_some.mp hmid).1
  | dequantize =>
    unfold ConstTransformAttr.inferOutputType at hmid
    dsimp only at hmid
    split at hmid
    · exact (withElemType_eq_some.mp hmid).1
    · exact (withElemType_eq_some.mp hmid).1
    · cases hmid
  | changeShapeAndElemType shape elemType => cases hover

variable [CommRing R]

theorem samePair_of_reshapeBefore {new : ConstTransformAttr R} (hprod : shape.prod = input.shape.prod)
    (hmoved : reshapeBefore shape input t = some new) (hmid : t.inferOutputType types input = some mid)
    (hreshape : (TransformAttrInterface.reshape shape : TransformAttrInterface R).inferOutputType mid = some final)
    (hkeeps : KeepsQuantizedAxis t input.toNDType final.toNDType input.elemType.quantizedAxis) :
    SamePair types input [t, .basic (.reshape shape)] [new, t] := by
  cases t with
  | basic attr =>
    cases attr with
    | add bias =>
      cases hmoved
      cases hmid
      exact samePair_add hreshape
    | rescale scale =>
      cases scale with
      | splat scale =>
        cases hmoved
        cases hmid
        exact samePair_rescale hreshape
      | values scales => cases hmoved
    | castElemType elemType =>
      unfold reshapeBefore at hmoved
      dsimp only at hmoved
      split_ifs at hmoved with hplain
      cases hmoved
      obtain ⟨hin, hout⟩ := not_quantized hplain
      exact samePair_castElemType (noAxis_of_notQuantized hin) (noAxis_of_notQuantized hout) hmid hreshape
    | _ => cases hmoved
  | convertElemType elemType =>
    unfold reshapeBefore at hmoved
    dsimp only at hmoved
    split_ifs at hmoved with hplain
    cases hmoved
    obtain ⟨hin, hout⟩ := not_quantized hplain
    exact samePair_convertElemType hin hout hmid hreshape
  | dequantize =>
    unfold reshapeBefore prepareDequantizeSwap at hmoved
    dsimp only at hmoved
    cases helem : input.elemType with
    | uniformQuantizedPerAxis name dim params =>
      rw [helem] at hmoved
      obtain ⟨newDim, hnewDim, hmoved⟩ := Option.bind_eq_some_iff.mp hmoved
      cases hmoved
      have hshape : final.shape = shape := (changeShape_eq_some.mp (reshape_infer hreshape).1).2
      apply samePair_dequantizePerAxis helem hmid hreshape hprod hnewDim
      apply hkeeps dim newDim
      · rw [helem]
        rfl
      · rw [hshape]
        exact hnewDim
    | uniformQuantized name param =>
      rw [helem] at hmoved
      cases hmoved
      exact samePair_dequantize helem hmid hreshape
    | number name =>
      unfold ConstTransformAttr.inferOutputType at hmid
      dsimp only at hmid
      rw [helem] at hmid
      cases hmid
    | quantileFloat name =>
      unfold ConstTransformAttr.inferOutputType at hmid
      dsimp only at hmid
      rw [helem] at hmid
      cases hmid
  | changeShapeAndElemType shape elemType => cases hmoved

theorem keepsStride_of_samePair {nd : NDType} {dim newDim : ℕ} {input : TensorType} (hnd : input.toNDType = nd) {name : String}
    (helem : input.elemType = .uniformQuantizedPerAxis name dim (numberedParams (entry nd.shape dim).toNat))
    (hmid : (ConstTransformAttr.dequantize : ConstTransformAttr R).inferOutputType types input = some mid)
    (hreshape : (TransformAttrInterface.reshape shape : TransformAttrInterface R).inferOutputType mid = some final)
    (hprod : shape.prod = nd.shape.prod) (hdim : dim < nd.shape.length) (hnewDim : getNewQuantizationDim dim nd.shape shape = some newDim)
    (hsame : SamePair types input [.dequantize, .basic (.reshape shape)]
      [.changeShapeAndElemType shape (.uniformQuantizedPerAxis name newDim (numberedParams (entry nd.shape dim).toNat)), .dequantize]) :
    KeepsStride nd final.toNDType dim newDim := by
  subst hnd
  obtain ⟨mid', hnew, hmidND', helem', hfinal⟩ := exists_changed helem hmid hreshape hnewDim
  have hshape : final.shape = shape := (changeShape_eq_some.mp (reshape_infer hreshape).1).2
  obtain ⟨hlt, hentry, -⟩ := getNewQuantizationDim_spec hnewDim
  rw [← hshape] at hlt hentry hprod
  have haxis : 0 < entry input.shape dim := input.shape_pos _ (entry_mem hdim)
  obtain ⟨hstride, outer, houter, hvolume⟩ := exists_outerSize hdim
  obtain ⟨hstride', outer', houter', hvolume'⟩ := exists_outerSize hlt
  rw [hentry] at hvolume'
  apply @stride_eq_of_index input.shape.prod _ _ _ haxis hstride hstride'
  · rw [hvolume]
    exact le_mul_of_one_le_left (mul_pos haxis hstride).le houter
  · rw [← hprod, hvolume']
    exact le_mul_of_one_le_left (mul_pos haxis hstride').le houter'
  · intro idx h0 hidx
    have hops := hsame.ops idx h0 hidx
    rw [elementOps_pair hnew hfinal, elementOps_pair hmid (b := .basic (.reshape shape)) hreshape] at hops
    unfold elementOp at hops
    rw [helem', helem, hmidND'] at hops
    dsimp only at hops
    have hparams := (ElementOp.dequantize.inj (List.cons.inj (Option.some.inj hops)).1).2
    rw [hentry] at hparams
    have hmod (x : ℤ) := And.intro (Int.emod_nonneg x haxis.ne') (Int.emod_lt_of_pos x haxis)
    apply Eq.symm
    exact numberedParams_inj (hmod _) (hmod _) hparams

/-- Whatever scales and zero points the axis has, and whatever stands around the pair: when the Reshape is moved, the pair
means the same, exactly if the axis found in the new shape has the stride in memory that the old one has. -/
theorem moveReshapeBefore_exact_iff (types : ElementTypes R) {nd output : NDType} {axis : Option ℕ} {t : ConstTransformAttr R}
    {shape : List ℤ} (hreshape : nd.changeShape shape = some output) (hprod : shape.prod = nd.shape.prod)
    (haxis : ∀ dim, axis = some dim → dim < nd.shape.length) :
    (∀ (before after : List (ConstTransformAttr R)) (baseType input final : TensorType), input.toNDType = nd →
      input.elemType.quantizedAxis = axis → ConstTransformAttr.inferFinalType types baseType before = some input →
      ConstTransformAttr.inferFinalType types input [t, .basic (.reshape shape)] = some final →
      ∀ transformations pos, moveReshapeBefore types (before ++ t :: .basic (.reshape shape) :: after) (before.length + 1) baseType =
          some (transformations, pos, true) →
        ∃ pair, transformations = before ++ pair ++ after ∧ SamePair types input [t, .basic (.reshape shape)] pair) ↔
      KeepsQuantizedAxis t nd output axis := by
  have hshape : output.shape = shape := (changeShape_eq_some.mp hreshape).2
  constructor
  · intro h
    unfold KeepsQuantizedAxis
    split
    · intro dim newDim haxisDim hnewDim
      have hdim := haxis dim haxisDim
      have hpos : 0 < entry nd.shape dim := nd.shape_pos _ (entry_mem hdim)
      have hvalid : (ElemType.uniformQuantizedPerAxis "" dim (numberedParams (entry nd.shape dim).toNat)).validateQuantElemType nd.shape := by
        refine ⟨hdim, ?_⟩
        unfold numberedParams
        rw [List.length_map, List.length_range, Int.toNat_of_nonneg hpos.le]
      let input : TensorType := ⟨nd, _, hvalid⟩
      let mid : TensorType := ⟨nd, .number (types.expressedType ""), trivial⟩
      let final : TensorType := ⟨output, .number (types.expressedType ""), trivial⟩
      have hmid : (ConstTransformAttr.dequantize : ConstTransformAttr R).inferOutputType types input = some mid :=
        (dequantize_infer_perAxis rfl).trans (withElemType_eq_some.mpr ⟨rfl, rfl⟩)
      have hfinal : (TransformAttrInterface.reshape shape : TransformAttrInterface R).inferOutputType mid = some final :=
        reshape_infer_of hreshape rfl
      rw [hshape] at hnewDim
      have hmoved := h [] [] input input final rfl haxisDim.symm rfl (inferFinalType_pair hmid (b := .basic (.reshape shape)) hfinal)
      rw [moveReshapeBefore_eq rfl] at hmoved
      have hnew : reshapeBefore shape input (ConstTransformAttr.dequantize : ConstTransformAttr R) = some (.changeShapeAndElemType shape
          (.uniformQuantizedPerAxis "" newDim (numberedParams (entry nd.shape dim).toNat))) := by
        change (getNewQuantizationDim dim nd.shape shape).bind _ = _
        rw [hnewDim]
        rfl
      rw [hnew] at hmoved
      obtain ⟨pair, hpair, hsame⟩ := hmoved _ _ rfl
      rw [List.nil_append, List.append_nil, List.nil_append, List.append_nil] at hpair
      subst hpair
      exact keepsStride_of_samePair rfl rfl hmid hfinal hprod hdim hnewDim hsame
    · trivial
  · intro hkeeps before after baseType input final hnd hinputAxis hbase hpair transformations pos hmoved
    rw [moveReshapeBefore_eq hbase] at hmoved
    split_ifs at hmoved with hover
    · cases hnew : reshapeBefore shape input t with
      | none =>
        rw [hnew] at hmoved
        simp at hmoved
      | some new =>
        rw [hnew] at hmoved
        obtain ⟨mid, hmid, hfinal⟩ := infer_pair hpair
        have hmidND : mid.toNDType = input.toNDType := infer_moved hover hmid
        have hout : final.toNDType = output := by
          have hchanged := (reshape_infer hfinal).1
          rw [hmidND, hnd, hreshape] at hchanged
          exact (Option.some.inj hchanged).symm
        refine ⟨[new, t], (Prod.mk.inj (Option.some.inj hmoved)).1.symm, ?_⟩
        apply samePair_of_reshapeBefore _ hnew hmid hfinal
        · rw [hnd, hout, hinputAxis]
          exact hkeeps
        · rw [hprod, ← hnd]
    · simp at hmoved

def integerTypes : ElementTypes ℤ where
  expressedType := id
  convertElement _ _ := none
  getValueRangeOffset _ _ := []
  dequantize _ param qVal := qVal - param.zeroPoint

theorem nhwc_perm : [0, 2, 3, 1].Perm (List.range 4) := by decide

def weightsNHWC : NDType := ⟨[1, 4, 2, 2], ⟨[0, 2, 3, 1], nhwc_perm⟩, rfl, by decide⟩

def quantizedNHWC : TensorType := ⟨weightsNHWC, .uniformQuantizedPerAxis "u8" 1 (numberedParams 4), by decide⟩

/-- Rows and columns become one dimension, and the channels stay the innermost dimension in memory. -/
theorem moveReshapeBefore_exact_iff_rows :
    moveReshapeBefore integerTypes [.dequantize, .basic (.reshape [1, 4, 4, 1])] 1 quantizedNHWC =
        some ([.changeShapeAndElemType [1, 4, 4, 1] quantizedNHWC.elemType, .dequantize], 0, true) ∧
      SamePair integerTypes quantizedNHWC [.dequantize, .basic (.reshape [1, 4, 4, 1])]
        [.changeShapeAndElemType [1, 4, 4, 1] quantizedNHWC.elemType, .dequantize] := by
  have hreshape : weightsNHWC.changeShape [1, 4, 4, 1] = some ⟨[1, 4, 4, 1], weightsNHWC.dimsOrder, rfl, by decide⟩ := rfl
  have hkeeps : KeepsQuantizedAxis (.dequantize : ConstTransformAttr ℤ) weightsNHWC
      ⟨[1, 4, 4, 1], weightsNHWC.dimsOrder, rfl, by decide⟩ (some 1) := by
    rintro dim newDim ⟨⟩ hnew
    obtain rfl : 1 = newDim := Option.some.inj hnew
    exact .inr rfl
  have hmove : moveReshapeBefore integerTypes ([] ++ .dequantize :: .basic (.reshape [1, 4, 4, 1]) :: []) 1 quantizedNHWC =
      some ([.changeShapeAndElemType [1, 4, 4, 1] quantizedNHWC.elemType, .dequantize], 0, true) := rfl
  obtain ⟨pair, hpair, hsame⟩ := (moveReshapeBefore_exact_iff integerTypes hreshape rfl (by rintro dim ⟨⟩; decide)).mpr hkeeps
    [] [] quantizedNHWC quantizedNHWC _ rfl rfl rfl rfl _ _ hmove
  rw [List.nil_append, List.append_nil] at hpair
  exact ⟨hmove, hpair ▸ hsame⟩

/-- Element 1 of the memory had zero point 1, and has zero point 0 after the rewriting. -/
theorem moveReshapeBefore_otherZeroPoint :
    ∃ rewritten, moveReshapeBefore integerTypes [.dequantize, .basic (.reshape [4, 1, 2, 2])] 1 quantizedNHWC =
        some (rewritten, 0, true) ∧
      ¬ SamePair integerTypes quantizedNHWC [.dequantize, .basic (.reshape [4, 1, 2, 2])] rewritten := by
  refine ⟨[.changeShapeAndElemType [4, 1, 2, 2] (.uniformQuantizedPerAxis "u8" 0 (numberedParams 4)), .dequantize], rfl, ?_⟩
  intro h
  have hops := h.ops 1 (by decide) (by decide)
  have hone : elementOps integerTypes 1 [.dequantize, .basic (.reshape [4, 1, 2, 2])] quantizedNHWC =
      some [.dequantize "u8" (some ⟨1, 1⟩)] := rfl
  have hzero : elementOps integerTypes 1 [.changeShapeAndElemType [4, 1, 2, 2]
      (.uniformQuantizedPerAxis "u8" 0 (numberedParams 4)), .dequantize] quantizedNHWC = some [.dequantize "u8" (some ⟨1, 0⟩)] := rfl
  rw [hone, hzero] at hops
  simp at hops

end
end NpuCompiler.Const
