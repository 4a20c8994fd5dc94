import NpuCompiler.Const.SwappedPairs

namespace NpuCompiler.Const

open MixedRadix TransformAttr DimsOrder

variable {input mid : NDType} {offset shape newOffset newShape target coord : List ℤ} {x k : ℤ}

def coordAt (type : NDType) (x : ℤ) : List ℤ := type.dimsOrder.toLogicalOrder (getMemIndexND x type.getMemShape)

theorem coordAt_eq (type : NDType) (x : ℤ) :
    coordAt type x = type.dimsOrder.toLogicalOrder (decode type.getMemShape x) := by
  unfold coordAt
  rw [getMemIndexND_eq NDType.memShape_pos]

theorem coordAt_inBox (type : NDType) (x : ℤ) : InBox type.shape (coordAt type x) := by
  rw [coordAt_eq]
  have h := @DimsOrder.InBox_toLogicalOrder type.dimsOrder _ _ (by rw [NDType.memShape_length, type.numDims_eq])
    (inBox_decode (x := x) type.memShape_pos)
  unfold NDType.getMemShape at h
  rw [toLogicalOrder_toMemoryOrder type.numDims_eq.symm] at h
  exact h

theorem selected_mem_iff :
    Selected input.getMemShape (input.dimsOrder.toMemoryOrder offset) (input.dimsOrder.toMemoryOrder shape) x ↔
      ∀ d < input.getRank, entry offset d ≤ entry (coordAt input x) d ∧
        entry (coordAt input x) d < entry offset d + entry shape d := by
  have hrank : input.getRank = input.dimsOrder.numDims := input.numDims_eq.symm
  have hmem : input.getMemShape.length = input.dimsOrder.numDims := length_toMemoryOrder
  rw [coordAt_eq]
  constructor
  · intro h d hd
    rw [hrank] at hd
    have hp := dimPos_lt hd
    have hs := h _ (hmem ▸ hp)
    rw [entry_toMemoryOrder hp, entry_toMemoryOrder hp, dimAt_dimPos hd] at hs
    rw [entry_toLogicalOrder hd]
    exact hs
  · intro h i hi
    rw [hmem] at hi
    have hd := dimAt_lt hi
    have hs := h _ (hrank ▸ hd)
    rw [entry_toLogicalOrder hd, dimPos_dimAt hi] at hs
    rw [entry_toMemoryOrder hi, entry_toMemoryOrder hi]
    exact hs

theorem Fits_mem (hfit : Fits input.shape offset shape) : Fits input.getMemShape
    (input.dimsOrder.toMemoryOrder offset) (input.dimsOrder.toMemoryOrder shape) :=
  DimsOrder.Fits_toMemoryOrder input.numDims_eq.symm hfit

theorem moveBuffer_eq (input output : NDType) (coord : List ℤ) : moveBuffer input output coord =
    input.dimsOrder.toLogicalOrder (decode input.getMemShape
      (encode output.getMemShape (output.dimsOrder.toMemoryOrder coord))) := by
  have hl : (output.dimsOrder.toMemoryOrder coord).length = output.getMemShape.length := by
    rw [length_toMemoryOrder, NDType.memShape_length, output.numDims_eq]
  simp only [moveBuffer, getMemIndex1D_eq hl, getMemIndexND_eq input.memShape_pos]

section
variable (hfit : Fits mid.shape offset shape) (hnew : Fits input.shape newOffset newShape)

include hfit in
theorem moveBuffer_original (hc : InBox shape coord) : moveBuffer input mid (shift coord offset) =
    input.dimsOrder.toLogicalOrder (decode input.getMemShape (slot mid.getMemShape
      (mid.dimsOrder.toMemoryOrder offset) (mid.dimsOrder.toMemoryOrder shape)
        (encode (mid.dimsOrder.toMemoryOrder shape) (mid.dimsOrder.toMemoryOrder coord)))) := by
  have hshape : shape.length = mid.dimsOrder.numDims := hfit.length_shape.trans mid.numDims_eq.symm
  have hoffset : offset.length = mid.dimsOrder.numDims := hfit.length_offset.trans mid.numDims_eq.symm
  have hcl : coord.length = mid.dimsOrder.numDims := hc.length.trans hshape
  have hmc := DimsOrder.InBox_toMemoryOrder hshape hc
  unfold slot
  rw [moveBuffer_eq, decode_encode hmc, toMemoryOrder_shift hcl hoffset]

theorem moveBuffer_swapped (coord : List ℤ) :
    shift (moveBuffer (input.tile hnew) (mid.tile hfit) coord) newOffset =
      input.dimsOrder.toLogicalOrder (decode input.getMemShape (slot input.getMemShape
        (input.dimsOrder.toMemoryOrder newOffset) (input.dimsOrder.toMemoryOrder newShape)
          (encode (mid.dimsOrder.toMemoryOrder shape) (mid.dimsOrder.toMemoryOrder coord)))) := by
  have hno : newOffset.length = input.dimsOrder.numDims := hnew.length_offset.trans input.numDims_eq.symm
  have hbuf : moveBuffer (input.tile hnew) (mid.tile hfit) coord = input.dimsOrder.toLogicalOrder
      (decode (input.dimsOrder.toMemoryOrder newShape)
        (encode (mid.dimsOrder.toMemoryOrder shape) (mid.dimsOrder.toMemoryOrder coord))) := moveBuffer_eq _ _ _
  have hfm := Fits_mem hnew
  unfold slot
  rw [decode_encode (hfm.inBox_shift (inBox_decode hfm.shape_pos)), hbuf,
    toLogicalOrder_shift (by simp) (by simp), toLogicalOrder_toMemoryOrder hno]

theorem moveBuffer_agree_iff (hprod : mid.shape.prod = input.shape.prod) (hc : InBox shape coord) :
    shift (moveBuffer (input.tile hnew) (mid.tile hfit) coord) newOffset = moveBuffer input mid (shift coord offset) ↔
      slot mid.getMemShape (mid.dimsOrder.toMemoryOrder offset) (mid.dimsOrder.toMemoryOrder shape)
        (encode (mid.dimsOrder.toMemoryOrder shape) (mid.dimsOrder.toMemoryOrder coord)) =
      slot input.getMemShape (input.dimsOrder.toMemoryOrder newOffset) (input.dimsOrder.toMemoryOrder newShape)
        (encode (mid.dimsOrder.toMemoryOrder shape) (mid.dimsOrder.toMemoryOrder coord)) := by
  rw [moveBuffer_original hfit hc, moveBuffer_swapped hfit hnew coord]
  generalize encode (mid.dimsOrder.toMemoryOrder shape) (mid.dimsOrder.toMemoryOrder coord) = k
  constructor
  · intro h
    have hl : ∀ y, (decode input.getMemShape y).length = input.dimsOrder.numDims := by
      intro y
      rw [length_decode, NDType.memShape_length, input.numDims_eq]
    have h := congrArg input.dimsOrder.toMemoryOrder h
    rw [toMemoryOrder_toLogicalOrder (hl _), toMemoryOrder_toLogicalOrder (hl _)] at h
    have h := congrArg (encode input.getMemShape) h
    have hbn := (Fits_mem hnew).slot_bounds (k := k)
    have hbm := (Fits_mem hfit).slot_bounds (k := k)
    rw [NDType.memShape_prod, hprod, ← NDType.memShape_prod] at hbm
    rw [encode_decode input.memShape_pos hbn.1 hbn.2, encode_decode input.memShape_pos hbm.1 hbm.2] at h
    exact h.symm
  · intro h
    rw [h]

theorem readsSame_iff (hprod : mid.shape.prod = input.shape.prod) {t t' : TransformAttr}
    (ht : ∀ c, t.source input mid c = some (moveBuffer input mid c))
    (ht' : ∀ c, t'.source (input.tile hnew) (mid.tile hfit) c =
      some (moveBuffer (input.tile hnew) (mid.tile hfit) c)) :
    ReadsSame input mid hfit hnew t t' ↔ ∀ k, 0 ≤ k → k < shape.prod →
      slot mid.getMemShape (mid.dimsOrder.toMemoryOrder offset) (mid.dimsOrder.toMemoryOrder shape) k =
      slot input.getMemShape (input.dimsOrder.toMemoryOrder newOffset) (input.dimsOrder.toMemoryOrder newShape) k := by
  have hshape : shape.length = mid.dimsOrder.numDims := hfit.length_shape.trans mid.numDims_eq.symm
  have hpos : ∀ s ∈ mid.dimsOrder.toMemoryOrder shape, 0 < s := (Fits_mem hfit).shape_pos
  constructor
  · intro h k h0 hk
    -- the index is that of some coordinate
    have hbox := @DimsOrder.InBox_toLogicalOrder mid.dimsOrder _ _ (by simp) (inBox_decode (x := k) hpos)
    rw [toLogicalOrder_toMemoryOrder hshape] at hbox
    have hc := h _ hbox
    rw [ht, ht', Option.map_some, Option.some.injEq] at hc
    have hs := (moveBuffer_agree_iff hfit hnew hprod hbox).mp hc
    rw [toMemoryOrder_toLogicalOrder (by simp),
      encode_decode hpos h0 (by rw [prod_toMemoryOrder hshape]; exact hk)] at hs
    exact hs
  · intro h coord hc
    rw [ht, ht', Option.map_some, Option.some.injEq]
    have hb := encode_bounds (DimsOrder.InBox_toMemoryOrder hshape hc)
    rw [prod_toMemoryOrder hshape] at hb
    exact (moveBuffer_agree_iff hfit hnew hprod hc).mpr (h _ hb.1 hb.2)

end

theorem changeShape_swaps (hmid : input.changeShape target = some mid) (hfit : Fits mid.shape offset shape)
    (hnew : Fits input.shape newOffset newShape) : (input.tile hnew).changeShape shape = some (mid.tile hfit) := by
  obtain ⟨ho, hs⟩ := changeShape_eq_some.mp hmid
  apply changeShape_eq_some.mpr
  rw [hfit.length_shape, hs]
  exact ⟨ho, rfl⟩

theorem reshape_swaps (hmid : input.changeShape target = some mid) (hprod : target.prod = input.shape.prod)
    (hfit : Fits mid.shape offset shape) {newMemOffset newMemShape : List ℤ}
    (hslice : sliceInputShape input.getMemShape mid.getMemShape (mid.dimsOrder.toMemoryOrder offset)
      (mid.dimsOrder.toMemoryOrder shape) = some (newMemOffset, newMemShape)) :
    ∃ h : Swaps input mid hfit (reshape shape) (input.dimsOrder.toLogicalOrder newMemOffset)
        (input.dimsOrder.toLogicalOrder newMemShape),
      ReadsSame input mid hfit h.fits (reshape target) (reshape shape) := by
  have hp : mid.shape.prod = input.shape.prod := (changeShape_eq_some.mp hmid).2 ▸ hprod
  have hmem : mid.getMemShape.prod = input.getMemShape.prod := by
    rw [NDType.memShape_prod, NDType.memShape_prod, hp]
  have hres := sliceInputShape_spec (Fits_mem hfit) input.memShape_pos hslice
  have hfm := hres.fits (Fits_mem hfit) input.memShape_pos
  have hml : input.getMemShape.length = input.dimsOrder.numDims := length_toMemoryOrder
  have hnew : Fits input.shape (input.dimsOrder.toLogicalOrder newMemOffset)
      (input.dimsOrder.toLogicalOrder newMemShape) := by
    have h := DimsOrder.Fits_toLogicalOrder hml hfm
    unfold NDType.getMemShape at h
    rw [toLogicalOrder_toMemoryOrder input.numDims_eq.symm] at h
    exact h
  obtain ⟨hcount, hslot⟩ := (Fits_mem hfit).slot_eq hfm hmem fun x _ _ =>
    hres.selected_iff (Fits_mem hfit) input.memShape_pos x
  have hshape : shape.length = mid.dimsOrder.numDims := hfit.length_shape.trans mid.numDims_eq.symm
  rw [prod_toMemoryOrder hshape] at hcount hslot
  refine ⟨⟨hnew, ?_, changeShape_swaps hmid hfit hnew⟩, ?_⟩
  · change shape.prod = (input.dimsOrder.toLogicalOrder newMemShape).prod
    rw [prod_toLogicalOrder (hres.length_shape.trans hml), hcount]
  · apply (readsSame_iff hfit hnew hp (fun _ => rfl) (fun _ => rfl)).mpr
    rw [toMemoryOrder_toLogicalOrder (hres.length_offset.trans hml),
      toMemoryOrder_toLogicalOrder (hres.length_shape.trans hml)]
    exact hslot

/-- The positions of the buffer inside the SubView are those inside its ranges at the paired input dimensions. -/
def SlicesSamePositions (input output : NDType) (offset shape : List ℤ) : Prop :=
  ∀ x, 0 ≤ x → x < input.shape.prod →
    ((∀ d < output.getRank, entry offset d ≤ entry (coordAt output x) d ∧
        entry (coordAt output x) d < entry offset d + entry shape d) ↔
      ∀ i d, d < output.getRank → isDimSliced output.shape offset shape d → Paired input.shape output.shape i d →
        entry offset d ≤ entry (coordAt input x) i ∧ entry (coordAt input x) i < entry offset d + entry shape d)

theorem changeShape_readsSame_iff (hmid : input.changeShape target = some mid) (hprod : target.prod = input.shape.prod)
    (hfit : Fits mid.shape offset shape)
    (hslice : sliceInputShape input.shape target offset shape = some (newOffset, newShape)) :
    ∃ h : Swaps input mid hfit (changeShapeAndElemType shape) newOffset newShape,
      (ReadsSame input mid hfit h.fits (changeShapeAndElemType target) (changeShapeAndElemType shape) ↔
        SlicesSamePositions input mid offset shape) := by
  have htarget : mid.shape = target := (changeShape_eq_some.mp hmid).2
  subst htarget
  have hmem : mid.getMemShape.prod = input.getMemShape.prod := by
    rw [NDType.memShape_prod, NDType.memShape_prod, hprod]
  have hres := sliceInputShape_spec hfit input.shape_pos hslice
  have hnew := hres.fits hfit input.shape_pos
  obtain ⟨hcount, -⟩ := hfit.slot_eq hnew hprod fun x _ _ => hres.selected_iff hfit input.shape_pos x
  refine ⟨⟨hnew, hcount, changeShape_swaps hmid hfit hnew⟩, ?_⟩
  have hshape : shape.length = mid.dimsOrder.numDims := hfit.length_shape.trans mid.numDims_eq.symm
  have hns : newShape.length = input.dimsOrder.numDims := hnew.length_shape.trans input.numDims_eq.symm
  -- the ranges of the rewritten SubView are those of the paired dimensions
  have hpaired : ∀ x, (∀ i < input.getRank, entry newOffset i ≤ entry (coordAt input x) i ∧
        entry (coordAt input x) i < entry newOffset i + entry newShape i) ↔
      ∀ i d, d < mid.getRank → isDimSliced mid.shape offset shape d → Paired input.shape mid.shape i d →
        entry offset d ≤ entry (coordAt input x) i ∧
          entry (coordAt input x) i < entry offset d + entry shape d := by
    intro x
    constructor
    · intro h i d hd hs hp
      obtain ⟨ho, hsh⟩ := hres.matched i d hd hs hp
      rw [← ho, ← hsh]
      exact h i hp.1
    · intro h i hi
      by_cases hp : ∃ d, d < mid.getRank ∧ isDimSliced mid.shape offset shape d ∧ Paired input.shape mid.shape i d
      · obtain ⟨d, hd, hs, hp⟩ := hp
        obtain ⟨ho, hsh⟩ := hres.matched i d hd hs hp
        rw [ho, hsh]
        exact h i d hd hs hp
      · obtain ⟨ho, hsh⟩ := hres.full i hi fun d hd hs hpair => hp ⟨d, hd, hs, hpair⟩
        rw [ho, hsh, zero_add]
        exact (inBox_iff.mp (coordAt_inBox input x)).2 i hi
  have hiff : SlicesSamePositions input mid offset shape ↔ ∀ x, 0 ≤ x → x < mid.getMemShape.prod →
      (Selected mid.getMemShape (mid.dimsOrder.toMemoryOrder offset) (mid.dimsOrder.toMemoryOrder shape) x ↔
        Selected input.getMemShape (input.dimsOrder.toMemoryOrder newOffset)
          (input.dimsOrder.toMemoryOrder newShape) x) := by
    rw [hmem, NDType.memShape_prod]
    apply forall_congr'
    intro x
    rw [selected_mem_iff, selected_mem_iff, hpaired]
  rw [readsSame_iff hfit hnew hprod (fun _ => rfl) (fun _ => rfl), hiff]
  have hfm := Fits_mem hfit
  have hnm := Fits_mem hnew
  have hcm : (mid.dimsOrder.toMemoryOrder shape).prod = (input.dimsOrder.toMemoryOrder newShape).prod := by
    rw [prod_toMemoryOrder hshape, prod_toMemoryOrder hns, hcount]
  constructor
  · intro h x h0 hx
    rw [← prod_toMemoryOrder hshape] at h
    constructor
    · exact hfm.selected_of_slot_eq hnm h h0 hx
    · apply hnm.selected_of_slot_eq hfm _ h0 (hmem ▸ hx)
      intro k hk0 hk
      exact (h k hk0 (hcm ▸ hk)).symm
  · intro h
    rw [← prod_toMemoryOrder hshape]
    exact (hfm.slot_eq hnm hmem h).2

section
variable {output : NDType} {d : ℕ}

theorem entry_coordAt (hd : d < input.getRank) : entry (coordAt input x) d =
    x / weight input.getMemShape (input.dimsOrder.dimPos d) % entry input.shape d := by
  have hd' : d < input.dimsOrder.numDims := input.numDims_eq.symm ▸ hd
  have hpos := dimPos_lt hd'
  have hsize : entry input.getMemShape (input.dimsOrder.dimPos d) = entry input.shape d := by
    unfold NDType.getMemShape
    rw [entry_toMemoryOrder hpos, dimAt_dimPos hd']
  have hlength : input.dimsOrder.dimPos d < input.getMemShape.length := length_toMemoryOrder.symm ▸ hpos
  rw [coordAt_eq, entry_toLogicalOrder hd', entry_decode hlength, hsize]

/-- Paired dimensions have the same number of elements below them in memory. -/
def PairedInMemory (input output : NDType) (offset shape : List ℤ) : Prop :=
  ∀ i d, d < output.getRank → isDimSliced output.shape offset shape d → Paired input.shape output.shape i d →
    weight input.getMemShape (input.dimsOrder.dimPos i) = weight output.getMemShape (output.dimsOrder.dimPos d)

theorem PairedInMemory.slicesSamePositions (h : PairedInMemory input output offset shape) (hfit : Fits output.shape offset shape)
    (hpaired : ∀ d < output.getRank, isDimSliced output.shape offset shape d → ∃ i, Paired input.shape output.shape i d) :
    SlicesSamePositions input output offset shape := by
  intro x _ _
  have hsame {i d : ℕ} (hd : d < output.getRank) (hs : isDimSliced output.shape offset shape d)
      (hp : Paired input.shape output.shape i d) : entry (coordAt input x) i = entry (coordAt output x) d := by
    rw [entry_coordAt hp.1, entry_coordAt hd, h i d hd hs hp, hp.2.1]
  constructor
  · intro hin i d hd hs hp
    rw [hsame hd hs hp]
    exact hin d hd
  · intro hin d hd
    by_cases hs : isDimSliced output.shape offset shape d
    · obtain ⟨i, hp⟩ := hpaired d hd hs
      rw [← hsame hd hs hp]
      exact hin i d hd hs hp
    · -- the dimension is taken whole
      have hbox := (inBox_iff.mp (coordAt_inBox output x)).2 d hd
      have hrange := (fits_iff.mp hfit).2.2 d hd
      unfold isDimSliced at hs
      omega

theorem pairedInMemory_of_isIdentity (hid : input.dimsOrder.isIdentity) (hid' : output.dimsOrder.isIdentity) :
    PairedInMemory input output offset shape := by
  have hweight {type : NDType} (hid : type.dimsOrder.isIdentity) {d : ℕ} (hd : d < type.getRank) :
      weight type.getMemShape (type.dimsOrder.dimPos d) = weight type.shape d := by
    have hshape : type.getMemShape = type.shape := by
      unfold NDType.getMemShape
      rw [hid, toMemoryOrder_fromNumDims type.numDims_eq.symm]
    rw [hshape, dimPos_of_isIdentity hid (type.numDims_eq.symm ▸ hd)]
  intro i d hd hs hp
  rw [hweight hid hp.1, hweight hid' hd]
  exact hp.2.2

end

end NpuCompiler.Const
