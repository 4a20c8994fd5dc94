import NpuCompiler.Const.FusedPairs

namespace NpuCompiler.Const

open MixedRadix TensorType TransformAttrInterface Option DimsOrder

variable {R : Type} {input mid output : TensorType}

section
variable {offset shape newOffset newShape : List ℤ}

theorem subView_infer_iff (h : Fits input.shape offset shape) :
    (subView offset shape : TransformAttrInterface R).inferOutputType input = some output ↔
      output.toNDType = input.tile h ∧ input.elemType.tileScalesAndZP offset shape = some output.elemType := by
  constructor
  · intro hout
    have hnd := infer_layoutAttr rfl hout
    obtain ⟨type, -, hout⟩ := bind_eq_some_iff.mp hout
    obtain ⟨elemType, helem, hout⟩ := bind_eq_some_iff.mp hout
    refine ⟨Option.some.inj (hnd.symm.trans (subView_infer h)), ?_⟩
    rw [helem, (withElemType_eq_some.mp hout).2]
  · rintro ⟨hnd, helem⟩
    apply bind_eq_some_iff.mpr
    refine ⟨_, subView_infer h, bind_eq_some_iff.mpr ⟨_, helem, ?_⟩⟩
    exact withElemType_eq_some.mpr ⟨hnd, rfl⟩

def tileParams (params : List QuantParam) (offset size : ℤ) : List QuantParam :=
  (params.drop offset.toNat).take size.toNat

theorem tileScalesAndZP_perAxis {name : String} {axis : ℕ} {params : List QuantParam} {dims : List ℤ}
    (h : Fits dims offset shape) (haxis : axis < dims.length) (hparams : entry dims axis = params.length) :
    (ElemType.uniformQuantizedPerAxis name axis params).tileScalesAndZP offset shape =
      some (.uniformQuantizedPerAxis name axis (tileParams params (entry offset axis) (entry shape axis))) := by
  have hb := (fits_iff.mp h).2.2 axis haxis
  have hlen := h.length_shape
  have hthrow : ¬(offset.length ≠ shape.length ∨ shape.length < axis ∨ entry shape axis < 0 ∨ entry offset axis < 0) := by
    have ho := h.length_offset
    omega
  simp only [ElemType.tileScalesAndZP, if_neg hthrow]
  by_cases hwhole : entry offset axis = 0 ∧ entry shape axis = params.length
  · rw [if_pos hwhole, tileParams, hwhole.1, hwhole.2]
    simp
  · have hle : entry offset axis + entry shape axis ≤ params.length := by omega
    rw [if_neg hwhole, if_pos hle]
    rfl

theorem tileParams_tileParams {params : List QuantParam} {o s o' s' : ℤ} (ho : 0 ≤ o) (ho' : 0 ≤ o')
    (hle : o' + s' ≤ s) : tileParams (tileParams params o s) o' s' = tileParams params (o' + o) s' := by
  have hmin : min s'.toNat (s.toNat - o'.toNat) = s'.toNat := by omega
  have hadd : o.toNat + o'.toNat = (o' + o).toNat := by omega
  unfold tileParams
  rw [List.drop_take, List.take_take, List.drop_drop, hmin, hadd]

theorem tile_tile (h : Fits input.shape offset shape) (h' : Fits shape newOffset newShape) {elemType : ElemType}
    (hfirst : input.elemType.tileScalesAndZP offset shape = some elemType) :
    input.elemType.tileScalesAndZP (shift newOffset offset) newShape = elemType.tileScalesAndZP newOffset newShape := by
  have hvalid := input.valid
  cases helem : input.elemType with
  | uniformQuantizedPerAxis name axis params =>
    rw [helem] at hvalid hfirst
    obtain ⟨haxis, hparams⟩ := hvalid
    have hb := (fits_iff.mp h).2.2 axis haxis
    have haxis' : axis < shape.length := h.length_shape.symm ▸ haxis
    have hb' := (fits_iff.mp h').2.2 axis haxis'
    rw [tileScalesAndZP_perAxis h haxis hparams] at hfirst
    have hlength : entry shape axis = (tileParams params (entry offset axis) (entry shape axis)).length := by
      unfold tileParams
      rw [List.length_take, List.length_drop]
      omega
    have hoffset : newOffset.length = offset.length := by
      rw [h'.length_offset, h.length_shape, h.length_offset]
    rw [← Option.some.inj hfirst, tileScalesAndZP_perAxis (h.trans h') haxis hparams,
      tileScalesAndZP_perAxis h' haxis' hlength, tileParams_tileParams hb.1 hb'.1 hb'.2.2, entry_shift hoffset]
  | number name | quantileFloat name | uniformQuantized name param =>
    rw [helem] at hfirst
    cases hfirst
    rfl

theorem getElem?_natRange {n k : ℤ} (h0 : 0 ≤ k) (hn : k < n) : (natRange n)[k.toNat]? = some k := by
  have hlt : k.toNat < n.toNat := by omega
  simp [natRange, hlt, h0]

def tileStorage {α : Type} (storage : List (Option α)) (dims offset shape : List ℤ) : List (Option α) :=
  (natRange shape.prod).map fun k => (storage[(slot dims offset shape k).toNat]?).join

theorem subViewStorage_eq {α : Type} {order : DimsOrder} {dims : List ℤ} {storage : List (Option α)}
    (h : Fits dims offset shape) (hn : dims.length = order.numDims) (hlen : (storage.length : ℤ) = dims.prod) :
    subViewStorage storage (subViewIndices order dims shape offset) =
      some (tileStorage storage (order.toMemoryOrder dims) (order.toMemoryOrder offset) (order.toMemoryOrder shape)) := by
  have hfit := DimsOrder.Fits_toMemoryOrder hn h
  have hprod : (order.toMemoryOrder shape).prod = shape.prod :=
    prod_toMemoryOrder (h.length_shape.trans hn)
  have hinds : subViewIndices order dims shape offset = (natRange shape.prod).map
      (slot (order.toMemoryOrder dims) (order.toMemoryOrder offset) (order.toMemoryOrder shape)) := by
    apply List.map_congr_left
    intro k _
    have hin := hfit.inBox_shift (inBox_decode (x := k) hfit.shape_pos)
    rw [getMemIndexND_eq hfit.shape_pos, getMemIndex1D_eq hin.length]
    rfl
  unfold subViewStorage
  rw [hinds, mapM_eq_some (g := fun ind : ℤ => (storage[ind.toNat]?).join)]
  · unfold tileStorage
    rw [hprod, List.map_map]
    rfl
  · intro ind hind
    obtain ⟨k, -, rfl⟩ := List.mem_map.mp hind
    have hb := hfit.slot_bounds (k := k)
    rw [prod_toMemoryOrder hn] at hb
    rw [checkedIndex_eq (by omega)]
    rfl

theorem tileStorage_tileStorage {α : Type} {storage : List (Option α)} {dims : List ℤ} (h : Fits dims offset shape)
    (h' : Fits shape newOffset newShape) :
    tileStorage (tileStorage storage dims offset shape) shape newOffset newShape =
      tileStorage storage dims (shift newOffset offset) newShape := by
  apply List.map_congr_left
  intro k _
  have hb := h'.slot_bounds (k := k)
  unfold tileStorage
  rw [List.getElem?_map, getElem?_natRange hb.1 hb.2, map_some, join_some, h.slot_slot h']

variable [CommRing R]

theorem transform_subView {content : ConstContent R} (h : Fits content.type.shape offset shape)
    (hout : (subView offset shape : TransformAttrInterface R).inferOutputType content.type = some output)
    (hsplat : content.isSplat = false) (hsize : content.WellSized) :
    (subView offset shape).transform content = some ⟨output, false, content.storageElemSize,
      tileStorage content.storage content.type.getMemShape (content.type.dimsOrder.toMemoryOrder offset)
        (content.type.dimsOrder.toMemoryOrder shape)⟩ := by
  have hshape : output.shape = shape := congrArg NDType.shape ((subView_infer_iff h).mp hout).1
  have hlen : (content.storage.length : ℤ) = content.type.shape.prod := by
    have hpos := prod_pos content.type.shape_pos
    unfold ConstContent.WellSized ConstContent.tempBufSize at hsize
    rw [hsplat, if_neg Bool.false_ne_true] at hsize
    omega
  unfold transform
  simp only [hout, bind_eq_bind, bind_some, hsplat, Bool.false_eq_true, if_false, hshape,
    subViewStorage_eq h content.type.numDims_eq.symm hlen]
  rfl

theorem subView_subView (h : Fits input.shape offset shape) (h' : Fits shape newOffset newShape)
    (hprev : (subView offset shape : TransformAttrInterface R).inferOutputType input = some mid)
    (hcurr : (subView newOffset newShape : TransformAttrInterface R).inferOutputType mid = some output) :
    SameFold [subView offset shape, subView newOffset newShape]
      [(subView (shift newOffset offset) newShape : TransformAttrInterface R)] input := by
  obtain ⟨hn₁, he₁⟩ := (subView_infer_iff h).mp hprev
  have hshape : mid.shape = shape := congrArg NDType.shape hn₁
  have horder : mid.dimsOrder = input.dimsOrder := (NDType.ext_iff'.mp hn₁).2
  have hfit : Fits mid.shape newOffset newShape := hshape ▸ h'
  obtain ⟨hn₂, he₂⟩ := (subView_infer_iff hfit).mp hcurr
  have hnew : (subView (shift newOffset offset) newShape : TransformAttrInterface R).inferOutputType input =
      some output := by
    apply (subView_infer_iff (h.trans h')).mpr
    constructor
    · rw [hn₂]
      apply NDType.ext_iff'.mpr
      exact ⟨rfl, horder⟩
    · rw [tile_tile h h' he₁, he₂]
  apply sameFold_pair hprev hcurr hnew
  intro content htype hsize
  subst htype
  cases hsplat : content.isSplat with
  | true =>
    unfold transform
    simp only [hprev, hnew, bind_eq_bind, bind_some, hsplat, if_true, ConstContent.moveBuffer, hcurr]
  | false =>
    have hfirst := transform_subView h hprev hsplat hsize
    have hrange : (subView offset shape : TransformAttrInterface R).InRange content.type := h
    have hsize' := transform_wellSized hrange hfirst hsize
    rw [hfirst, bind_some, transform_subView hfit hcurr rfl hsize',
      transform_subView (h.trans h') hnew hsplat hsize]
    have hn := content.type.numDims_eq.symm
    have hoff : newOffset.length = content.type.dimsOrder.numDims := by
      rw [h'.length_offset, h.length_shape, hn]
    dsimp only [NDType.getMemShape]
    rw [hshape, horder, toMemoryOrder_shift hoff (h.length_offset.trans hn),
      tileStorage_tileStorage (DimsOrder.Fits_toMemoryOrder hn h)
        (DimsOrder.Fits_toMemoryOrder (h.length_shape.trans hn) h')]

end

section
variable {first second : List ℤ}

theorem DimsOrder.isIdentity_expand {order : DimsOrder} : order.expand.isIdentity ↔ order.isIdentity := by
  unfold DimsOrder.isIdentity DimsOrder.expand DimsOrder.fromNumDims DimsOrder.numDims
  rw [DimsOrder.mk.injEq]
  dsimp only
  rw [List.length_cons, List.length_map, List.range_succ_eq_map, List.cons.injEq]
  constructor
  · rintro ⟨-, h⟩
    obtain ⟨perm, hperm⟩ := order
    rw [DimsOrder.mk.injEq]
    exact List.map_injective_iff.mpr Nat.succ_injective h
  · intro h
    exact ⟨rfl, congrArg (List.map Nat.succ) (congrArg DimsOrder.perm h)⟩

theorem inferNewDimsOrder_of_isIdentity {order : DimsOrder} {n : ℕ} (h : order.isIdentity) :
    inferNewDimsOrder order n = some (DimsOrder.fromNumDims n) := if_pos h

theorem inferNewDimsOrder_cases {order newOrder : DimsOrder} {n : ℕ} (hid : ¬order.isIdentity)
    (h : inferNewDimsOrder order n = some newOrder) :
    (n = order.numDims ∧ newOrder = order) ∨ (n = order.numDims + 1 ∧ n < MAX_NUM_DIMS ∧ newOrder = order.expand) := by
  unfold inferNewDimsOrder at h
  rw [if_neg hid] at h
  split at h
  · next hn => exact Or.inl ⟨hn, (Option.some.inj h).symm⟩
  · split at h
    · cases h
    · next hn =>
      split at h
      · cases h
      · next hmax => exact Or.inr ⟨not_not.mp hn, by omega, (Option.some.inj h).symm⟩

theorem inferNewDimsOrder_expand {order : DimsOrder} (hid : ¬order.isIdentity) (hmax : order.numDims + 1 < MAX_NUM_DIMS) :
    inferNewDimsOrder order (order.numDims + 1) = some order.expand := by
  unfold inferNewDimsOrder
  rw [if_neg hid, if_neg (by omega), if_neg (by omega), if_neg (by omega)]

theorem inferNewDimsOrder_direct {order mid newOrder : DimsOrder} {n k : ℕ} (hprev : inferNewDimsOrder order n = some mid)
    (hcurr : inferNewDimsOrder mid k = some newOrder) :
    inferNewDimsOrder order k = some newOrder ↔ order.isIdentity ∨ k ≤ order.numDims + 1 := by
  by_cases hid : order.isIdentity
  · rw [inferNewDimsOrder_of_isIdentity hid] at hprev ⊢
    rw [← Option.some.inj hprev, inferNewDimsOrder_of_isIdentity (isIdentity_fromNumDims n)] at hcurr
    exact iff_of_true hcurr (Or.inl hid)
  · obtain ⟨-, rfl⟩ | ⟨-, hmax, rfl⟩ := inferNewDimsOrder_cases hid hprev
    · apply iff_of_true hcurr
      obtain ⟨hk, -⟩ | ⟨hk, -⟩ := inferNewDimsOrder_cases hid hcurr
      · exact Or.inr (by omega)
      · exact Or.inr (by omega)
    · have hid' : ¬order.expand.isIdentity := mt isIdentity_expand.mp hid
      have hnum : order.expand.numDims = order.numDims + 1 := by simp [DimsOrder.expand, DimsOrder.numDims]
      obtain ⟨hk, rfl⟩ | ⟨hk, -, rfl⟩ := inferNewDimsOrder_cases hid' hcurr
      · rw [hk, hnum]
        apply iff_of_true _ (Or.inr le_rfl)
        have hn := inferNewDimsOrder_numDims hprev
        exact inferNewDimsOrder_expand hid (by omega)
      · apply iff_of_false
        · intro h
          obtain ⟨hk', -⟩ | ⟨hk', -⟩ := inferNewDimsOrder_cases hid h
          · omega
          · omega
        · rintro (h | h)
          · exact hid h
          · omega

theorem reshape_infer_iff : (reshape first : TransformAttrInterface R).inferOutputType input = some output ↔
    (inferNewDimsOrder input.dimsOrder first.length = some output.dimsOrder ∧ output.shape = first) ∧
      output.elemType = input.elemType.changeAxis (ElemType.reshapedAxis input.shape first) := by
  constructor
  · intro h
    have hnd : input.changeShape first = some output.toNDType :=
      infer_layoutAttr (show layoutAttr (reshape first : TransformAttrInterface R) = some (.reshape first) from rfl) h
    obtain ⟨type, -, h⟩ := bind_eq_some_iff.mp h
    exact ⟨changeShape_eq_some.mp hnd, (withElemType_eq_some.mp h).2⟩
  · rintro ⟨hnd, helem⟩
    apply bind_eq_some_iff.mpr
    exact ⟨_, changeShape_eq_some.mpr hnd, withElemType_eq_some.mpr ⟨rfl, helem⟩⟩

/-- The second shape can be reached in one step: the order gains at most one dimension, and the quantized axis
moves to where the two steps move it. -/
def ReshapesDirectly (input : TensorType) (first second : List ℤ) : Prop :=
  (input.dimsOrder.isIdentity ∨ second.length ≤ input.dimsOrder.numDims + 1) ∧
    input.elemType.changeAxis (ElemType.reshapedAxis input.shape second) =
      input.elemType.changeAxis (ElemType.reshapedAxis first second ∘ ElemType.reshapedAxis input.shape first)

instance (input : TensorType) (first second : List ℤ) : Decidable (ReshapesDirectly input first second) :=
  inferInstanceAs (Decidable (_ ∧ _))

theorem reshape_direct_iff (hprev : (reshape first : TransformAttrInterface R).inferOutputType input = some mid)
    (hcurr : (reshape second : TransformAttrInterface R).inferOutputType mid = some output) :
    (reshape second : TransformAttrInterface R).inferOutputType input = some output ↔
      ReshapesDirectly input first second := by
  obtain ⟨⟨ho₁, hs₁⟩, he₁⟩ := reshape_infer_iff.mp hprev
  obtain ⟨⟨ho₂, hs₂⟩, he₂⟩ := reshape_infer_iff.mp hcurr
  have helem : output.elemType =
      input.elemType.changeAxis (ElemType.reshapedAxis first second ∘ ElemType.reshapedAxis input.shape first) := by
    rw [he₂, he₁, ElemType.changeAxis_changeAxis, hs₁]
  rw [reshape_infer_iff, inferNewDimsOrder_direct ho₁ ho₂, helem]
  unfold ReshapesDirectly
  constructor
  · rintro ⟨⟨horder, -⟩, haxis⟩
    exact ⟨horder, haxis.symm⟩
  · rintro ⟨horder, haxis⟩
    exact ⟨⟨horder, hs₂⟩, haxis.symm⟩

theorem reshape_reshape_iff [CommRing R]
    (hprev : (reshape first : TransformAttrInterface R).inferOutputType input = some mid)
    (hcurr : (reshape second : TransformAttrInterface R).inferOutputType mid = some output) :
    SameFold [reshape first, reshape second] [(reshape second : TransformAttrInterface R)] input ↔
      ReshapesDirectly input first second := by
  rw [← reshape_direct_iff hprev hcurr]
  constructor
  · rintro ⟨htypes, -⟩
    unfold inferFinalType at htypes
    simp only [List.foldlM_cons, List.foldlM_nil, hprev, hcurr, bind_eq_bind, bind_some,
      pure_def] at htypes
    rw [bind_fun_some] at htypes
    exact htypes.symm
  · intro hnew
    apply sameFold_pair hprev hcurr hnew
    intro content htype _
    subst htype
    unfold transform
    simp only [hprev, hnew, bind_eq_bind, bind_some, ConstContent.moveBuffer, hcurr]

end

end NpuCompiler.Const
