import NpuCompiler.Const.SliceInputShape
import NpuCompiler.Library.FoldRules

namespace NpuCompiler.Const

open MixedRadix TransformAttr List DimsOrder

variable {input mid : NDType} {offset shape newOffset newShape coord : List ℤ} {t t' : TransformAttr}

def NDType.tile (type : NDType) (h : Fits type.shape offset shape) : NDType :=
  ⟨shape, type.dimsOrder, type.numDims_eq.trans h.length_shape.symm, h.shape_pos⟩

theorem subView_infer (h : Fits input.shape offset shape) :
    (subView offset shape).inferOutputType input = some (input.tile h) := by
  have hr : shape.length = input.getRank := h.length_shape
  rw [inferOutputType, if_pos hr]
  exact NDType.getTensorType_eq_some.mpr ⟨rfl, rfl⟩

structure Swaps (input mid : NDType) (hfit : Fits mid.shape offset shape) (t' : TransformAttr)
    (newOffset newShape : List ℤ) : Prop where
  fits : Fits input.shape newOffset newShape
  inRange : t'.InRange (input.tile fits)
  infer : t'.inferOutputType (input.tile fits) = some (mid.tile hfit)

def ReadsSame (input mid : NDType) (hfit : Fits mid.shape offset shape) (hnew : Fits input.shape newOffset newShape)
    (t t' : TransformAttr) : Prop :=
  ∀ coord, InBox shape coord → (t'.source (input.tile hnew) (mid.tile hfit) coord).map (fun c => shift c newOffset) =
    t.source input mid (shift coord offset)

theorem changeShape_eq_some {target : List ℤ} : input.changeShape target = some mid ↔
    inferNewDimsOrder input.dimsOrder target.length = some mid.dimsOrder ∧ mid.shape = target := by
  unfold NDType.changeShape
  constructor
  · intro h
    obtain ⟨order, horder, ht⟩ := Option.bind_eq_some_iff.mp h
    obtain ⟨hs, ho⟩ := NDType.getTensorType_eq_some.mp ht
    exact ⟨ho ▸ horder, hs⟩
  · rintro ⟨ho, hs⟩
    rw [ho]
    exact NDType.getTensorType_eq_some.mpr ⟨hs, rfl⟩

section

theorem reorder_swaps {order : DimsOrder} (hmid : (reorder order).inferOutputType input = some mid)
    (hfit : Fits mid.shape offset shape) : Swaps input mid hfit (reorder order) offset shape := by
  rw [inferOutputType] at hmid
  split at hmid
  · next hn =>
    obtain ⟨hs, ho⟩ := NDType.getTensorType_eq_some.mp hmid
    have hf : Fits input.shape offset shape := hs ▸ hfit
    refine ⟨hf, trivial, ?_⟩
    have hr : order.numDims = (input.tile hf).getRank := hn.trans hf.length_shape.symm
    rw [inferOutputType, if_pos hr]
    exact NDType.getTensorType_eq_some.mpr ⟨rfl, ho⟩
  · cases hmid

theorem reorder_readsSame {order : DimsOrder} (hfit : Fits mid.shape offset shape)
    (hnew : Fits input.shape offset shape) : ReadsSame input mid hfit hnew (reorder order) (reorder order) := by
  intro coord _
  rfl

theorem scatter_eq {order : DimsOrder} {values : List ℤ} (h : values.length = order.numDims) :
    (List.range order.numDims).foldl (fun new idx => new.set (order.dimAt idx) (entry values idx))
      (List.replicate values.length 0) = order.toLogicalOrder values := by
  have hrun : ∀ n ≤ order.numDims,
      ((List.range n).foldl (fun new idx => new.set (order.dimAt idx) (entry values idx))
        (List.replicate values.length 0)).length = order.numDims ∧
      ∀ d < order.numDims, order.dimPos d < n →
        entry ((List.range n).foldl (fun new idx => new.set (order.dimAt idx) (entry values idx))
          (List.replicate values.length 0)) d = entry values (order.dimPos d) := by
    intro n
    induction n with
    | zero => exact fun _ => ⟨by simp [h], fun d _ hd => absurd hd (Nat.not_lt_zero _)⟩
    | succ n ih =>
      intro hn
      obtain ⟨hl, he⟩ := ih (by omega)
      rw [range_succ, foldl_append, foldl_cons, foldl_nil]
      refine ⟨by rw [length_set, hl], fun d hd hdn => ?_⟩
      rw [entry_set _ (hl ▸ dimAt_lt hn)]
      by_cases hdim : d = order.dimAt n
      · rw [if_pos hdim, hdim, dimPos_dimAt hn]
      · rw [if_neg hdim]
        apply he d hd
        by_contra hlt
        obtain hpos : order.dimPos d = n := by omega
        apply hdim
        rw [← hpos, dimAt_dimPos hd]
  obtain ⟨hl, he⟩ := hrun order.numDims (le_refl _)
  apply ext_entry (by rw [hl, length_toLogicalOrder])
  intro d hd
  rw [hl] at hd
  rw [he d hd (dimPos_lt hd), entry_toLogicalOrder hd]

theorem prepareTransposeSwap_eq {order : DimsOrder} (ho : offset.length = order.numDims)
    (hs : shape.length = order.numDims) : prepareTransposeSwap order offset shape =
      (transpose order, subView (order.toLogicalOrder offset) (order.toLogicalOrder shape)) := by
  unfold prepareTransposeSwap
  rw [hs]
  simp only [scatter_eq ho, scatter_eq hs]

section
variable {order : DimsOrder} (hmid : (transpose order).inferOutputType input = some mid)
include hmid

theorem transpose_infer : order.numDims = input.shape.length ∧ mid.shape = order.toMemoryOrder input.shape ∧
      mid.dimsOrder = input.dimsOrder := by
  rw [inferOutputType] at hmid
  split at hmid
  · next hn =>
    obtain ⟨ho, hs⟩ := changeShape_eq_some.mp hmid
    refine ⟨hn, hs, ?_⟩
    have hlen : (order.toMemoryOrder input.shape).length = input.dimsOrder.numDims := by
      rw [length_toMemoryOrder, hn, input.numDims_eq]
      rfl
    rw [hlen, inferNewDimsOrder_self] at ho
    exact (Option.some.inj ho).symm
  · cases hmid

theorem transpose_swaps (hfit : Fits mid.shape offset shape) :
    Swaps input mid hfit (transpose order) (order.toLogicalOrder offset) (order.toLogicalOrder shape) := by
  obtain ⟨hn, hs, ho⟩ := transpose_infer hmid
  have hlen : mid.shape.length = order.numDims := by rw [hs, length_toMemoryOrder]
  have hf := DimsOrder.Fits_toLogicalOrder hlen hfit
  rw [hs, toLogicalOrder_toMemoryOrder hn.symm] at hf
  refine ⟨hf, trivial, ?_⟩
  have hshape : order.toMemoryOrder (order.toLogicalOrder shape) = shape :=
    toMemoryOrder_toLogicalOrder (hfit.length_shape.trans hlen)
  have hr : order.numDims = (input.tile hf).getRank := length_toLogicalOrder.symm
  rw [inferOutputType, if_pos hr]
  apply changeShape_eq_some.mpr
  change inferNewDimsOrder input.dimsOrder (order.toMemoryOrder (order.toLogicalOrder shape)).length =
    some mid.dimsOrder ∧ shape = order.toMemoryOrder (order.toLogicalOrder shape)
  rw [hshape, hfit.length_shape, hlen, hn, ← input.numDims_eq, inferNewDimsOrder_self, ho]
  exact ⟨rfl, rfl⟩

theorem transpose_readsSame (hfit : Fits mid.shape offset shape)
    (hnew : Fits input.shape (order.toLogicalOrder offset) (order.toLogicalOrder shape)) :
    ReadsSame input mid hfit hnew (transpose order) (transpose order) := by
  intro coord hc
  obtain ⟨hn, hs, ho⟩ := transpose_infer hmid
  have hlen : mid.shape.length = order.numDims := by rw [hs, length_toMemoryOrder]
  have hcl : coord.length = order.numDims := hc.length.trans (hfit.length_shape.trans hlen)
  simp only [source, Option.map_some, toLogicalOrder_shift hcl (hfit.length_offset.trans hlen)]

end

def permuteBack (inOrder dstOrder memPerm : DimsOrder) (values : List ℤ) : List ℤ :=
  inOrder.toLogicalOrder (memPerm.toLogicalOrder (dstOrder.toMemoryOrder values))

variable {dstOrder memPerm inOrder : DimsOrder}

theorem combined_eq {values : List ℤ} (hn : inOrder.numDims = dstOrder.numDims) (hm : memPerm.numDims = dstOrder.numDims) :
    ((List.range dstOrder.numDims).map fun idx => entry values
      ((compose (compose (inversePermutation inOrder.perm) (inversePermutation memPerm.perm)) dstOrder.perm).getD idx 0)) =
    permuteBack inOrder dstOrder memPerm values := by
  unfold permuteBack
  apply ext_entry (by simp [hn])
  intro d hd
  have hdst : d < dstOrder.numDims := by simpa using hd
  have hin : d < inOrder.numDims := hn ▸ hdst
  have hpos : inOrder.dimPos d < memPerm.numDims := hm ▸ hn ▸ dimPos_lt hin
  have hpos' : memPerm.dimPos (inOrder.dimPos d) < dstOrder.numDims := hm ▸ dimPos_lt hpos
  rw [entry_toLogicalOrder hin, entry_toLogicalOrder hpos, entry_toMemoryOrder hpos',
    entry_of_lt hd]
  have hi : d < inOrder.perm.length := hin
  have hp : List.idxOf d inOrder.perm < memPerm.perm.length := hpos
  have hp' : List.idxOf (List.idxOf d inOrder.perm) memPerm.perm < dstOrder.perm.length := hpos'
  simp [compose, inversePermutation, DimsOrder.dimAt, DimsOrder.dimPos, hi, hp]

theorem permuteBack_shift {v w : List ℤ} (hv : v.length = dstOrder.numDims) (hw : w.length = dstOrder.numDims)
    (hn : inOrder.numDims = dstOrder.numDims) (hm : memPerm.numDims = dstOrder.numDims) :
    permuteBack inOrder dstOrder memPerm (shift v w) =
      shift (permuteBack inOrder dstOrder memPerm v) (permuteBack inOrder dstOrder memPerm w) := by
  unfold permuteBack
  rw [toMemoryOrder_shift hv hw,
    toLogicalOrder_shift (by simp [hm]) (by simp [hm]),
    toLogicalOrder_shift (by simp [hm, hn]) (by simp [hm, hn])]

section
variable (hmid : (memPermute dstOrder memPerm).inferOutputType input = some mid)
include hmid

theorem memPermute_infer :
    input.dimsOrder.numDims = dstOrder.numDims ∧ memPerm.numDims = dstOrder.numDims ∧ mid.dimsOrder = dstOrder ∧
      mid.shape = dstOrder.toLogicalOrder (memPerm.toMemoryOrder input.getMemShape) := by
  rw [inferOutputType] at hmid
  split at hmid
  · cases hmid
  · next hn =>
    push Not at hn
    obtain ⟨type, htype, hmid⟩ := Option.bind_eq_some_iff.mp hmid
    obtain ⟨-, hto⟩ := NDType.getTensorType_eq_some.mp htype
    obtain ⟨ho, hs⟩ := changeShape_eq_some.mp hmid
    rw [length_toLogicalOrder, hto, inferNewDimsOrder_self] at ho
    exact ⟨input.numDims_eq.trans hn.1.symm, hn.2.trans hn.1.symm, (Option.some.inj ho).symm, hs⟩

theorem memPermute_swaps (hfit : Fits mid.shape offset shape) : Swaps input mid hfit (memPermute dstOrder memPerm)
      (permuteBack input.dimsOrder dstOrder memPerm offset) (permuteBack input.dimsOrder dstOrder memPerm shape) := by
  obtain ⟨hn, hm, ho, hs⟩ := memPermute_infer hmid
  have hlen : mid.shape.length = dstOrder.numDims := by rw [hs, length_toLogicalOrder]
  have hmem : input.getMemShape.length = memPerm.numDims := by
    rw [NDType.memShape_length, ← input.numDims_eq, hn, hm]
  have hf : Fits input.shape (permuteBack input.dimsOrder dstOrder memPerm offset)
      (permuteBack input.dimsOrder dstOrder memPerm shape) := by
    have h := DimsOrder.Fits_toMemoryOrder hlen hfit
    rw [hs, toMemoryOrder_toLogicalOrder (by simp [hm])] at h
    have h := @DimsOrder.Fits_toLogicalOrder memPerm _ _ _ (by simp) h
    rw [toLogicalOrder_toMemoryOrder hmem] at h
    have h := @DimsOrder.Fits_toLogicalOrder input.dimsOrder _ _ _ (by simp [hmem, hm, hn]) h
    unfold NDType.getMemShape at h
    rw [toLogicalOrder_toMemoryOrder input.numDims_eq.symm] at h
    exact h
  refine ⟨hf, trivial, ?_⟩
  -- the permutations of the tile undo those of the way back
  have hback : dstOrder.toLogicalOrder (memPerm.toMemoryOrder (input.tile hf).getMemShape) = shape := by
    have hsl : shape.length = dstOrder.numDims := hfit.length_shape.trans hlen
    change dstOrder.toLogicalOrder (memPerm.toMemoryOrder (input.dimsOrder.toMemoryOrder
      (permuteBack input.dimsOrder dstOrder memPerm shape))) = shape
    unfold permuteBack
    rw [toMemoryOrder_toLogicalOrder (by simp [hm, hn]), toMemoryOrder_toLogicalOrder (by simp [hm]),
      toLogicalOrder_toMemoryOrder hsl]
  have hrank : (input.tile hf).getRank = dstOrder.numDims := length_toLogicalOrder.trans hn
  rw [inferOutputType, if_neg (by rw [hrank, hm]; simp)]
  have hd : (input.tile hf).changeDimsOrder dstOrder =
      some ⟨(input.tile hf).shape, dstOrder, hrank.symm, (input.tile hf).shape_pos⟩ :=
    NDType.getTensorType_eq_some.mpr ⟨rfl, rfl⟩
  simp only [hback, hd, Option.bind_eq_bind, Option.bind_some]
  apply changeShape_eq_some.mpr
  rw [hfit.length_shape, hlen, inferNewDimsOrder_self]
  exact ⟨congrArg some ho.symm, rfl⟩

theorem memPermute_readsSame (hfit : Fits mid.shape offset shape)
    (hnew : Fits input.shape (permuteBack input.dimsOrder dstOrder memPerm offset)
      (permuteBack input.dimsOrder dstOrder memPerm shape)) :
    ReadsSame input mid hfit hnew (memPermute dstOrder memPerm) (memPermute dstOrder memPerm) := by
  intro coord hc
  obtain ⟨hn, hm, ho, hs⟩ := memPermute_infer hmid
  have hlen : mid.shape.length = dstOrder.numDims := by rw [hs, length_toLogicalOrder]
  have hcl : coord.length = dstOrder.numDims := hc.length.trans (hfit.length_shape.trans hlen)
  exact congrArg some (permuteBack_shift hcl (hfit.length_offset.trans hlen) hn hm).symm

end

end

end NpuCompiler.Const

namespace NpuCompiler.Const

open MixedRadix TransformAttr

variable {input mid : NDType} {offset shape padBefore padAfter coord : List ℤ} {d pb pa o s c : ℤ} {q : PadDim}

theorem pad_eq_some : (padWithZero padBefore padAfter).inferOutputType input = some mid ↔
    padBefore.length = input.shape.length ∧ padAfter.length = input.shape.length ∧
      mid.shape = shift (shift input.shape padBefore) padAfter ∧ mid.dimsOrder = input.dimsOrder := by
  rw [inferOutputType, NDType.pad]
  constructor
  · intro h
    split at h
    · cases h
    · next ha =>
      split at h
      · cases h
      · next hb =>
        have ha := not_not.mp ha
        have hb := not_not.mp hb
        exact ⟨hb.symm, ha.symm.trans hb.symm, NDType.getTensorType_eq_some.mp h⟩
  · rintro ⟨hb, ha, h⟩
    rw [if_neg (not_not.mpr (hb.trans ha.symm)), if_neg (not_not.mpr hb.symm)]
    exact NDType.getTensorType_eq_some.mpr h

structure PadDimSpec (d pb pa o s : ℤ) (q : PadDim) : Prop where
  padBefore_nonneg : 0 ≤ q.padBefore
  padAfter_nonneg : 0 ≤ q.padAfter
  offset_nonneg : 0 ≤ q.offset
  shape_pos : 0 < q.shape
  offset_add_le : q.offset + q.shape ≤ d
  size : q.padBefore + q.shape + q.padAfter = s
  moved : q.offset - q.padBefore = o - pb
  kept : ∀ c, 0 ≤ c → c < s → ((q.padBefore ≤ c ∧ c < q.padBefore + q.shape) ↔ (pb ≤ c + o ∧ c + o < pb + d))

theorem preparePadDim_spec (hd : 0 < d) (hs : 0 < s) (h : preparePadDim d pb pa o s = some q) : PadDimSpec d pb pa o s q := by
  unfold preparePadDim at h
  dsimp only at h
  split at h
  · cases h
  · next hpart =>
    push Not at hpart
    have hq := Option.some.inj h
    have hb : q.padBefore = if o < pb then pb - o else 0 := by rw [← hq]
    have hof : q.offset = if o < pb then 0 else o - pb := by rw [← hq]
    have ha : q.padAfter = if o + s > pb + d then pa - (pb + d + pa - (o + s)) else 0 := by rw [← hq]
    have hsh : q.shape = s - q.padBefore - q.padAfter := by rw [← hq]
    by_cases hlow : o < pb
    · rw [if_pos hlow] at hb hof
      by_cases hup : o + s > pb + d
      · rw [if_pos hup] at ha
        exact ⟨by omega, by omega, by omega, by omega, by omega, by omega, by omega, fun c h0 hc => by omega⟩
      · rw [if_neg hup] at ha
        exact ⟨by omega, by omega, by omega, by omega, by omega, by omega, by omega, fun c h0 hc => by omega⟩
    · rw [if_neg hlow] at hb hof
      by_cases hup : o + s > pb + d
      · rw [if_pos hup] at ha
        exact ⟨by omega, by omega, by omega, by omega, by omega, by omega, by omega, fun c h0 hc => by omega⟩
      · rw [if_neg hup] at ha
        exact ⟨by omega, by omega, by omega, by omega, by omega, by omega, by omega, fun c h0 hc => by omega⟩

theorem entry_map_dims {dims : List PadDim} {i : ℕ} (h : i < dims.length) (f : PadDim → ℤ) :
    entry (dims.map f) i = f dims[i] := by
  rw [entry_of_lt (by simpa using h), List.getElem_map]

section
variable (hmid : (padWithZero padBefore padAfter).inferOutputType input = some mid) (hfit : Fits mid.shape offset shape)
  {pair : SwappedPair} (h : preparePadWithZeroSwap padBefore padAfter offset shape input = some pair)
include hmid hfit h

theorem preparePadWithZeroSwap_spec : ∃ dims : List PadDim, dims.length = shape.length ∧
      pair = (padWithZero (dims.map PadDim.padBefore) (dims.map PadDim.padAfter),
        subView (dims.map PadDim.offset) (dims.map PadDim.shape)) ∧
      ∀ (i : ℕ) (hi : i < dims.length), PadDimSpec (entry input.shape i) (entry padBefore i) (entry padAfter i)
        (entry offset i) (entry shape i) dims[i] := by
  obtain ⟨hb, ha, hs, -⟩ := pad_eq_some.mp hmid
  obtain ⟨dims, hdims, he⟩ := Option.bind_eq_some_iff.mp h
  cases he
  obtain ⟨hlen, hall⟩ := mapM_some_inv hdims
  rw [List.length_range] at hlen
  refine ⟨dims, hlen, rfl, fun i hi => ?_⟩
  have hstep := hall i (by rw [List.length_range, ← hlen]; exact hi) hi
  rw [List.getElem_range] at hstep
  have hml : mid.shape.length = input.shape.length := by
    rw [hs, length_shift (by rw [length_shift hb.symm, ha]), length_shift hb.symm]
  have him : i < mid.shape.length := by rw [← hfit.length_shape, ← hlen]; exact hi
  have hii : i < input.shape.length := hml ▸ him
  have hf := (fits_iff.mp hfit).2.2 i him
  exact preparePadDim_spec (input.shape_pos _ (entry_mem hii)) hf.2.1 hstep

theorem pad_swaps :
    ∃ newBefore newAfter newOffset newShape, pair = (padWithZero newBefore newAfter, subView newOffset newShape) ∧
      ∃ h : Swaps input mid hfit (padWithZero newBefore newAfter) newOffset newShape,
        ReadsSame input mid hfit h.fits (padWithZero padBefore padAfter) (padWithZero newBefore newAfter) := by
  obtain ⟨hb, ha, hs, ho⟩ := pad_eq_some.mp hmid
  obtain ⟨dims, hlen, rfl, hspec⟩ := preparePadWithZeroSwap_spec hmid hfit h
  have hml : mid.shape.length = input.shape.length := by
    rw [hs, length_shift (by rw [length_shift hb.symm, ha]), length_shift hb.symm]
  have hin : dims.length = input.shape.length := hlen.trans (hfit.length_shape.trans hml)
  refine ⟨_, _, _, _, rfl, ?_⟩
  have hnew : Fits input.shape (dims.map PadDim.offset) (dims.map PadDim.shape) := by
    apply fits_iff.mpr
    refine ⟨by simp [hin], by simp [hin], fun i hi => ?_⟩
    have hid : i < dims.length := hin ▸ hi
    have hq := hspec i hid
    rw [entry_map_dims hid, entry_map_dims hid]
    exact ⟨hq.offset_nonneg, hq.shape_pos, hq.offset_add_le⟩
  have hinfer : (padWithZero (dims.map PadDim.padBefore) (dims.map PadDim.padAfter)).inferOutputType
      (input.tile hnew) = some (mid.tile hfit) := by
    apply pad_eq_some.mpr
    change (dims.map PadDim.padBefore).length = (dims.map PadDim.shape).length ∧
      (dims.map PadDim.padAfter).length = (dims.map PadDim.shape).length ∧
      shape = shift (shift (dims.map PadDim.shape) (dims.map PadDim.padBefore)) (dims.map PadDim.padAfter) ∧
      mid.dimsOrder = input.dimsOrder
    refine ⟨by simp, by simp, ?_, ho⟩
    apply ext_entry (by simp [hlen])
    intro i hi
    have hid : i < dims.length := hlen ▸ hi
    rw [entry_shift (by simp), entry_shift (by simp), entry_map_dims hid, entry_map_dims hid, entry_map_dims hid]
    have hsize := (hspec i hid).size
    omega
  refine ⟨⟨hnew, ⟨?_, ?_⟩, hinfer⟩, ?_⟩
  · intro p hp
    obtain ⟨q, hq, rfl⟩ := List.mem_map.mp hp
    obtain ⟨i, hi, rfl⟩ := List.mem_iff_getElem.mp hq
    exact (hspec i hi).padBefore_nonneg
  · intro p hp
    obtain ⟨q, hq, rfl⟩ := List.mem_map.mp hp
    obtain ⟨i, hi, rfl⟩ := List.mem_iff_getElem.mp hq
    exact (hspec i hi).padAfter_nonneg
  · intro coord hc
    have hcl : coord.length = dims.length := hc.length.trans hlen.symm
    have hol : offset.length = coord.length := by
      rw [hfit.length_offset, hml, ← hin, hcl]
    -- a coordinate of the tile is kept by the new padding when the old one keeps it
    have hiff : (∀ i < (input.tile hnew).getRank, entry (dims.map PadDim.padBefore) i ≤ entry coord i ∧
          entry coord i < entry (dims.map PadDim.padBefore) i + entry (input.tile hnew).shape i) ↔
        ∀ i < input.getRank, entry padBefore i ≤ entry (shift coord offset) i ∧
          entry (shift coord offset) i < entry padBefore i + entry input.shape i := by
      have hrank : (input.tile hnew).getRank = input.getRank := hnew.length_shape
      rw [hrank]
      apply forall_congr'
      intro i
      apply forall_congr'
      intro hi
      have hid : i < dims.length := by rw [hin]; exact hi
      have hbox := (inBox_iff.mp hc).2 i (by rw [← hlen]; exact hid)
      change entry (dims.map PadDim.padBefore) i ≤ entry coord i ∧
          entry coord i < entry (dims.map PadDim.padBefore) i + entry (dims.map PadDim.shape) i ↔ _
      rw [entry_map_dims hid, entry_map_dims hid, entry_shift hol.symm]
      exact (hspec i hid).kept _ hbox.1 hbox.2
    simp only [source]
    by_cases hkept : ∀ i < input.getRank, entry padBefore i ≤ entry (shift coord offset) i ∧
        entry (shift coord offset) i < entry padBefore i + entry input.shape i
    · rw [if_pos hkept, if_pos (hiff.mpr hkept), Option.map_some]
      congr 1
      apply List.ext_getElem
      · simp [shift, hcl, hol, hb, hin]
      · intro i h1 h2
        have hid : i < dims.length := by
          have := h1
          simp only [shift, List.length_zipWith, List.length_map] at this
          omega
        have hm := (hspec i hid).moved
        rw [entry_of_lt (show i < offset.length by omega), entry_of_lt (show i < padBefore.length by omega)] at hm
        simp only [shift, List.getElem_zipWith, List.getElem_map]
        omega
    · rw [if_neg hkept, if_neg (fun h => hkept (hiff.mp h)), Option.map_none]

end

end NpuCompiler.Const
