import NpuCompiler.Const.LayoutTransformations

namespace NpuCompiler.Const

open MixedRadix Option

namespace DimsOrder

def comp (f g : DimsOrder) (h : f.numDims = g.numDims) : DimsOrder where
  perm := compose f.perm g.perm
  isPermutation := by
    have hp := f.isPermutation.map fun d => g.perm.getD d 0
    have hfg : f.perm.length = g.perm.length := h
    have hl : (compose f.perm g.perm).length = g.perm.length := by simpa [compose] using hfg
    have hg : (List.range f.perm.length).map (fun d => g.perm.getD d 0) = g.perm := by
      apply List.ext_getElem
      · simpa using hfg
      · intro i hi hj
        simp [hj]
    rw [hg] at hp
    rw [hl]
    exact hp.trans g.isPermutation

def inverse (f : DimsOrder) : DimsOrder where
  perm := (List.range f.numDims).map f.dimPos
  isPermutation := by
    have hp := f.isPermutation.map f.dimPos
    have hf : f.perm.map f.dimPos = List.range f.numDims := by
      apply List.ext_getElem
      · simp [numDims]
      · intro i hi hj
        have hi' : i < f.numDims := by simpa [numDims] using hi
        have hd : f.dimAt i = f.perm.get ⟨i, hi'⟩ := List.getD_eq_getElem _ _ hi'
        rw [List.getElem_map, List.getElem_range]
        have hpos := dimPos_dimAt hi'
        rw [hd] at hpos
        exact hpos
    rw [hf] at hp
    rw [List.length_map, List.length_range]
    exact hp.symm

variable {f g : DimsOrder} {i : ℕ} {v : List ℤ}

@[simp] theorem numDims_comp (h : f.numDims = g.numDims) : (f.comp g h).numDims = f.numDims := by
  simp [comp, numDims, compose]

@[simp] theorem numDims_inverse : f.inverse.numDims = f.numDims := by simp [inverse, numDims]

theorem toMemoryOrder_comp (h : f.numDims = g.numDims) :
    (f.comp g h).toMemoryOrder v = f.toMemoryOrder (g.toMemoryOrder v) := by
  apply ext_entry (by simp)
  intro i hi
  have hi' : i < f.numDims := by simpa using hi
  have hd : (f.comp g h).dimAt i = g.dimAt (f.dimAt i) := by
    have hi'' : i < f.perm.length := hi'
    simp [comp, compose, dimAt, hi'']
  rw [entry_toMemoryOrder (by simpa using hi'), entry_toMemoryOrder hi', hd,
    entry_toMemoryOrder (h ▸ dimAt_lt hi')]

theorem toMemoryOrder_inverse : f.inverse.toMemoryOrder v = f.toLogicalOrder v := by
  apply ext_entry (by simp)
  intro i hi
  have hi' : i < f.numDims := by simpa using hi
  have hd : f.inverse.dimAt i = f.dimPos i := by simp [inverse, dimAt, hi']
  rw [entry_toMemoryOrder (by simpa using hi'), entry_toLogicalOrder hi', hd]

theorem dimAt_comp (h : f.numDims = g.numDims) (hi : i < f.numDims) : (f.comp g h).dimAt i = g.dimAt (f.dimAt i) := by
  have hi' : i < f.perm.length := hi
  simp [comp, compose, dimAt, hi']

theorem dimPos_eq_of_dimAt {d : ℕ} (hi : i < f.numDims) (h : f.dimAt i = d) : f.dimPos d = i := by
  rw [← h, dimPos_dimAt hi]

theorem dimPos_comp (h : f.numDims = g.numDims) {d : ℕ} (hd : d < g.numDims) :
    (f.comp g h).dimPos d = f.dimPos (g.dimPos d) := by
  have hg : g.dimPos d < f.numDims := h ▸ dimPos_lt hd
  have hf := dimPos_lt hg
  apply dimPos_eq_of_dimAt
  · rw [numDims_comp]
    exact hf
  · rw [dimAt_comp h hf, dimAt_dimPos hg, dimAt_dimPos hd]

theorem toLogicalOrder_comp (h : f.numDims = g.numDims) :
    (f.comp g h).toLogicalOrder v = g.toLogicalOrder (f.toLogicalOrder v) := by
  apply ext_entry (by simp [h])
  intro d hd
  have hd' : d < f.numDims := by simpa using hd
  rw [entry_toLogicalOrder (by simpa using hd'), dimPos_comp h (h ▸ hd'), entry_toLogicalOrder (h ▸ hd'),
    entry_toLogicalOrder (h ▸ dimPos_lt (h ▸ hd'))]

def between (inOrder outOrder : DimsOrder) (h : inOrder.numDims = outOrder.numDims) : DimsOrder :=
  outOrder.comp inOrder.inverse (h.symm.trans numDims_inverse.symm)

section
variable {inOrder outOrder : DimsOrder} (h : inOrder.numDims = outOrder.numDims)
include h

theorem between_perm : (between inOrder outOrder h).perm = getPermutationFromOrders inOrder outOrder := by
  apply List.map_congr_left
  intro d hd
  have hd' : d < inOrder.numDims := h ▸ mem_perm.mp hd
  simp [inverse, hd']

@[simp] theorem numDims_between : (between inOrder outOrder h).numDims = outOrder.numDims := numDims_comp _

theorem between_toMemoryOrder (v : List ℤ) :
    (between inOrder outOrder h).toMemoryOrder (inOrder.toMemoryOrder v) = outOrder.toMemoryOrder v :=
  getPermutationFromOrders_apply h (between_perm h) v

theorem dimPos_between {d : ℕ}
    (hd : d < inOrder.numDims) : (between inOrder outOrder h).dimPos (inOrder.dimPos d) = outOrder.dimPos d := by
  have hpos : outOrder.dimPos d < outOrder.numDims := dimPos_lt (h ▸ hd)
  apply dimPos_eq_of_dimAt
  · rw [numDims_between]
    exact hpos
  · unfold between
    rw [dimAt_comp _ hpos, dimAt_dimPos (h ▸ hd)]
    simp [inverse, dimAt, hd]

end

end DimsOrder

section
variable {α : Type} {elemSizeBytes : ℕ} {input output : NDType} {permOrder : DimsOrder} {coord : List ℤ}

/-- On every content of the input type the transformation computes indices inside the buffers only, and each element
of the output is the element of the input that `source` names. -/
def RespectsLogical (elemSizeBytes : ℕ) (attr : TransformAttr) (input output : NDType) : Prop :=
  ∀ (α : Type) (storage : List (Option α)), (storage.length : ℤ) = input.shape.prod →
    ∃ result, attr.transformLayout elemSizeBytes ⟨input, false, storage⟩ = some ⟨output, false, result⟩ ∧
      ∀ coord, InBox output.shape coord → ∃ origin, attr.source input output coord = some origin ∧
        InBox input.shape origin ∧
          StoredContent.element ⟨output, false, result⟩ coord = StoredContent.element ⟨input, false, storage⟩ origin

structure Follows (attr : TransformAttr) (input output : NDType) (permOrder : DimsOrder) : Prop where
  rank : permOrder.numDims = input.dimsOrder.numDims
  outRank : output.dimsOrder.numDims = input.dimsOrder.numDims
  memShape : output.getMemShape = permOrder.toMemoryOrder input.getMemShape
  source : ∀ coord, coord.length = input.dimsOrder.numDims → attr.source input output coord =
    some (input.dimsOrder.toLogicalOrder (permOrder.toLogicalOrder (output.dimsOrder.toMemoryOrder coord)))

theorem element_eq {type : NDType} {storage : List (Option α)} :
    StoredContent.element ⟨type, false, storage⟩ coord = (storage[(positionOf type coord).toNat]?).join := by
  have hl : (type.dimsOrder.toMemoryOrder coord).length = type.getMemShape.length := by
    rw [NDType.memShape_length, ← type.numDims_eq, DimsOrder.length_toMemoryOrder]
  have he : StoredContent.element ⟨type, false, storage⟩ coord =
      (storage[(getMemIndex1D (type.dimsOrder.toMemoryOrder coord) type.getMemShape).toNat]?).join := rfl
  rw [he, getMemIndex1D_eq hl]
  rfl

theorem Follows.elements_iff {attr : TransformAttr} (h : Follows attr input output permOrder)
    {storage result : List (Option α)} :
    (∀ coord, InBox output.shape coord → ∃ origin, attr.source input output coord = some origin ∧
      InBox input.shape origin ∧
        StoredContent.element ⟨output, false, result⟩ coord = StoredContent.element ⟨input, false, storage⟩ origin) ↔
      Permuted ⟨input, false, storage⟩ output permOrder result := by
  have hm : input.getMemShape.length = permOrder.numDims := by
    rw [h.rank]
    exact DimsOrder.length_toMemoryOrder
  have hlogical : input.dimsOrder.toLogicalOrder input.getMemShape = input.shape :=
    DimsOrder.toLogicalOrder_toMemoryOrder input.numDims_eq.symm
  have hin : ∀ v, InBox input.getMemShape v → InBox input.shape (input.dimsOrder.toLogicalOrder v) := by
    intro v hv
    rw [← hlogical]
    exact DimsOrder.InBox_toLogicalOrder (hm.trans h.rank) hv
  have hread : ∀ v, InBox input.getMemShape v →
      StoredContent.element ⟨input, false, storage⟩ (input.dimsOrder.toLogicalOrder v) =
        (storage[(encode input.getMemShape v).toNat]?).join := by
    intro v hv
    rw [element_eq]
    unfold positionOf
    rw [DimsOrder.toMemoryOrder_toLogicalOrder (hv.length.trans (hm.trans h.rank))]
  constructor
  · intro hall v hv
    have hvl : v.length = permOrder.numDims := hv.length.trans hm
    have hq : InBox output.getMemShape (permOrder.toMemoryOrder v) := by
      rw [h.memShape]
      exact DimsOrder.InBox_toMemoryOrder hm hv
    have hql : (permOrder.toMemoryOrder v).length = output.dimsOrder.numDims := by
      rw [DimsOrder.length_toMemoryOrder, h.rank, h.outRank]
    have hbox := @DimsOrder.InBox_toLogicalOrder output.dimsOrder _ _ DimsOrder.length_toMemoryOrder hq
    rw [DimsOrder.toLogicalOrder_toMemoryOrder output.numDims_eq.symm] at hbox
    obtain ⟨origin, horigin, -, he⟩ := hall _ hbox
    rw [h.source _ (by rw [DimsOrder.length_toLogicalOrder, h.outRank]), DimsOrder.toMemoryOrder_toLogicalOrder hql,
      DimsOrder.toLogicalOrder_toMemoryOrder hvl] at horigin
    rw [← Option.some.inj horigin, hread v hv, element_eq] at he
    unfold positionOf at he
    rw [DimsOrder.toMemoryOrder_toLogicalOrder hql] at he
    exact he
  · intro hper coord hcoord
    have hcl : coord.length = output.dimsOrder.numDims := hcoord.length.trans output.numDims_eq.symm
    have hv : InBox input.getMemShape (permOrder.toLogicalOrder (output.dimsOrder.toMemoryOrder coord)) := by
      have hb := DimsOrder.InBox_toMemoryOrder output.numDims_eq.symm hcoord
      have hb' : InBox output.getMemShape (output.dimsOrder.toMemoryOrder coord) := hb
      rw [h.memShape] at hb'
      have hl := @DimsOrder.InBox_toLogicalOrder permOrder _ _ DimsOrder.length_toMemoryOrder hb'
      rw [DimsOrder.toLogicalOrder_toMemoryOrder hm] at hl
      exact hl
    refine ⟨_, h.source coord (hcl.trans h.outRank), hin _ hv, ?_⟩
    have hp := hper _ hv
    rw [DimsOrder.toMemoryOrder_toLogicalOrder (by rw [DimsOrder.length_toMemoryOrder, h.outRank, h.rank])] at hp
    rw [hread _ hv, element_eq]
    exact hp

theorem reorder_follows {order : DimsOrder} (hout : (TransformAttr.reorder order).inferOutputType input = some output) :
    ∃ permOrder, permOrder.perm = getPermutationFromOrders input.dimsOrder output.dimsOrder ∧
      Follows (.reorder order) input output permOrder := by
  rw [TransformAttr.inferOutputType] at hout
  split at hout
  · next hrank =>
    obtain ⟨hshape, horder⟩ := NDType.getTensorType_eq_some.mp hout
    have hn : input.dimsOrder.numDims = output.dimsOrder.numDims := by
      rw [input.numDims_eq, output.numDims_eq, hshape]
    have happly := DimsOrder.between_toMemoryOrder hn
    have hlen := DimsOrder.numDims_between hn
    refine ⟨DimsOrder.between _ _ hn, DimsOrder.between_perm hn, hlen.trans hn.symm, hn.symm, ?_, ?_⟩
    · unfold NDType.getMemShape
      rw [happly, hshape]
    · intro coord hcoord
      rw [← happly coord, DimsOrder.toLogicalOrder_toMemoryOrder
        (DimsOrder.length_toMemoryOrder.trans (hn.trans hlen.symm)), DimsOrder.toLogicalOrder_toMemoryOrder hcoord]
      rfl
  · cases hout

theorem changeShape_same_rank {type : NDType} {shape : List ℤ} (hn : shape.length = type.dimsOrder.numDims)
    (h : type.changeShape shape = some output) : output.shape = shape ∧ output.dimsOrder = type.dimsOrder := by
  unfold NDType.changeShape at h
  rw [hn, inferNewDimsOrder_self] at h
  exact NDType.getTensorType_eq_some.mp h

theorem memPermute_follows {dstOrder memPerm : DimsOrder}
    (hout : (TransformAttr.memPermute dstOrder memPerm).inferOutputType input = some output) :
    Follows (.memPermute dstOrder memPerm) input output memPerm := by
  rw [TransformAttr.inferOutputType] at hout
  split at hout
  · cases hout
  · next hrank =>
    push Not at hrank
    obtain ⟨type, htype, hchange⟩ := bind_eq_some_iff.mp hout
    obtain ⟨-, horder⟩ := NDType.getTensorType_eq_some.mp htype
    obtain ⟨hshape, horder'⟩ := changeShape_same_rank (by rw [DimsOrder.length_toLogicalOrder, horder]) hchange
    have hout : output.dimsOrder = dstOrder := horder'.trans horder
    have hdst : dstOrder.numDims = input.dimsOrder.numDims := hrank.1.trans input.numDims_eq.symm
    have hmem : memPerm.numDims = input.dimsOrder.numDims := hrank.2.trans input.numDims_eq.symm
    refine ⟨hmem, hout ▸ hdst, ?_, ?_⟩
    · unfold NDType.getMemShape at hshape ⊢
      rw [hshape, hout, DimsOrder.toMemoryOrder_toLogicalOrder
        (DimsOrder.length_toMemoryOrder.trans (hmem.trans hdst.symm))]
    · intro coord _
      rw [hout]
      rfl

def transposePerm (input : NDType) (order : DimsOrder) (h : input.dimsOrder.numDims = order.numDims) : DimsOrder :=
  input.dimsOrder.comp order h

def conjugatePerm (input : NDType) (order : DimsOrder) (h : input.dimsOrder.numDims = order.numDims) : DimsOrder :=
  (input.dimsOrder.comp order h).comp input.dimsOrder.inverse (by simp)

theorem toMemoryOrder_conjugatePerm {order : DimsOrder} (h : input.dimsOrder.numDims = order.numDims) {v : List ℤ} :
    (conjugatePerm input order h).toMemoryOrder v =
      input.dimsOrder.toMemoryOrder (order.toMemoryOrder (input.dimsOrder.toLogicalOrder v)) := by
  unfold conjugatePerm
  rw [DimsOrder.toMemoryOrder_comp, DimsOrder.toMemoryOrder_comp, DimsOrder.toMemoryOrder_inverse]

theorem transpose_follows {order : DimsOrder}
    (hout : (TransformAttr.transpose order).inferOutputType input = some output) :
    output.dimsOrder = input.dimsOrder ∧ ∃ h : input.dimsOrder.numDims = order.numDims,
      Follows (.transpose order) input output (conjugatePerm input order h) := by
  rw [TransformAttr.inferOutputType] at hout
  split at hout
  · next hrank =>
    have hn : input.dimsOrder.numDims = order.numDims := input.numDims_eq.trans hrank.symm
    obtain ⟨hshape, horder⟩ := changeShape_same_rank (by rw [DimsOrder.length_toMemoryOrder, hn]) hout
    have hnum : (conjugatePerm input order hn).numDims = input.dimsOrder.numDims := by
      unfold conjugatePerm
      rw [DimsOrder.numDims_comp, DimsOrder.numDims_comp]
    refine ⟨horder, hn, hnum, by rw [horder], ?_, ?_⟩
    · rw [toMemoryOrder_conjugatePerm]
      unfold NDType.getMemShape
      rw [DimsOrder.toLogicalOrder_toMemoryOrder input.numDims_eq.symm, hshape, horder]
    · intro coord hcoord
      have hl : (order.toLogicalOrder coord).length = input.dimsOrder.numDims := by
        rw [DimsOrder.length_toLogicalOrder, hn]
      have hback : (conjugatePerm input order hn).toMemoryOrder (input.dimsOrder.toMemoryOrder (order.toLogicalOrder coord)) =
          output.dimsOrder.toMemoryOrder coord := by
        rw [toMemoryOrder_conjugatePerm, DimsOrder.toLogicalOrder_toMemoryOrder hl,
          DimsOrder.toMemoryOrder_toLogicalOrder (hcoord.trans hn), horder]
      rw [← hback, DimsOrder.toLogicalOrder_toMemoryOrder (DimsOrder.length_toMemoryOrder.trans hnum.symm),
        DimsOrder.toLogicalOrder_toMemoryOrder hl]
      rfl
  · cases hout

variable {order : DimsOrder} {v : List ℤ}

def MovesUnitDims (input : NDType) : Prop :=
  ∀ d < input.getRank, input.dimsOrder.dimAt d = d ∨ entry input.shape d = 1

/-- `Transpose` needs an input order that moves nothing, or a permutation that moves no element, conjugated or not. -/
def KeepsLayout (input : NDType) : TransformAttr → Prop
  | .transpose order => MovesUnitDims input ∨ ∃ h : input.dimsOrder.numDims = order.numDims,
      isTrivialPermute input.getMemShape (transposePerm input order h) ∧
        isTrivialPermute input.getMemShape (conjugatePerm input order h)
  | .reorder _ => True
  | .memPermute _ _ => True
  | _ => False

theorem MovesUnitDims.position (h : MovesUnitDims input) {d : ℕ} (hd : d < input.dimsOrder.numDims) :
    input.dimsOrder.dimPos d = d ∨ (entry input.shape d = 1 ∧ entry input.getMemShape d = 1) := by
  have hrank : input.dimsOrder.numDims = input.getRank := input.numDims_eq
  by_cases hfix : input.dimsOrder.dimAt d = d
  · left
    have hp := DimsOrder.dimPos_dimAt hd
    rw [hfix] at hp
    exact hp
  · right
    have hunit := (h d (hrank ▸ hd)).resolve_left hfix
    refine ⟨hunit, ?_⟩
    -- a moved dimension is moved again
    have hlt := DimsOrder.dimAt_lt hd
    have hmoved : input.dimsOrder.dimAt (input.dimsOrder.dimAt d) ≠ input.dimsOrder.dimAt d := by
      intro he
      have hp := congrArg input.dimsOrder.dimPos he
      rw [DimsOrder.dimPos_dimAt hlt, DimsOrder.dimPos_dimAt hd] at hp
      exact hfix hp
    unfold NDType.getMemShape
    rw [DimsOrder.entry_toMemoryOrder hd]
    exact (h _ (hrank ▸ hlt)).resolve_left hmoved

theorem MovesUnitDims.memShape (h : MovesUnitDims input) : input.getMemShape = input.shape := by
  apply ext_entry NDType.memShape_length
  intro d hd
  have hd' : d < input.dimsOrder.numDims := by
    rw [NDType.memShape_length, ← input.numDims_eq] at hd
    exact hd
  cases h.position hd' with
  | inl hfix =>
    unfold NDType.getMemShape
    rw [DimsOrder.entry_toMemoryOrder hd']
    have hp := DimsOrder.dimAt_dimPos hd'
    rw [hfix] at hp
    rw [hp]
  | inr hunit => rw [hunit.1, hunit.2]

theorem MovesUnitDims.toLogicalOrder (h : MovesUnitDims input) (hv : InBox input.getMemShape v) :
    input.dimsOrder.toLogicalOrder v = v := by
  have hlen : v.length = input.dimsOrder.numDims := hv.length.trans DimsOrder.length_toMemoryOrder
  apply ext_entry (by simp [hlen])
  intro d hd
  have hd' : d < input.dimsOrder.numDims := by simpa using hd
  have hbox := (inBox_iff.mp hv).2
  have hm : input.getMemShape.length = input.dimsOrder.numDims := DimsOrder.length_toMemoryOrder
  rw [DimsOrder.entry_toLogicalOrder hd']
  cases h.position hd' with
  | inl hfix => rw [hfix]
  | inr hunit =>
    have h1 := hbox d (hm ▸ hd')
    have h2 := hbox (input.dimsOrder.dimPos d) (hm ▸ DimsOrder.dimPos_lt hd')
    have he : entry input.getMemShape (input.dimsOrder.dimPos d) = entry input.shape d := by
      unfold NDType.getMemShape
      rw [DimsOrder.entry_toMemoryOrder (DimsOrder.dimPos_lt hd'), DimsOrder.dimAt_dimPos hd']
    rw [he] at h2
    omega

theorem movesUnitDims_of_toLogicalOrder
    (h : ∀ v, InBox input.getMemShape v → input.dimsOrder.toLogicalOrder v = v) : MovesUnitDims input := by
  intro d hd
  have hd' : d < input.dimsOrder.numDims := input.numDims_eq ▸ hd
  by_cases hunit : entry input.shape d = 1
  · exact Or.inr hunit
  · left
    have hp := DimsOrder.dimPos_lt hd'
    have hm : input.getMemShape.length = input.dimsOrder.numDims := DimsOrder.length_toMemoryOrder
    have he : entry input.getMemShape (input.dimsOrder.dimPos d) = entry input.shape d := by
      unfold NDType.getMemShape
      rw [DimsOrder.entry_toMemoryOrder hp, DimsOrder.dimAt_dimPos hd']
    have hv := h _ (inBox_unitVector NDType.memShape_pos (hm ▸ hp) (he ▸ hunit))
    have hentry := congrArg (fun w => entry w d) hv
    simp only [DimsOrder.entry_toLogicalOrder hd', entry_unitVector (hm ▸ hp)] at hentry
    by_cases hfix : d = input.dimsOrder.dimPos d
    · have ha := DimsOrder.dimAt_dimPos hd'
      rw [← hfix] at ha
      exact ha
    · rw [if_neg hfix] at hentry
      simp at hentry

theorem toMemoryOrder_transposePerm (h : input.dimsOrder.numDims = order.numDims) :
    (transposePerm input order h).toMemoryOrder v = input.dimsOrder.toMemoryOrder (order.toMemoryOrder v) :=
  DimsOrder.toMemoryOrder_comp h

theorem numDims_transposePerm (h : input.dimsOrder.numDims = order.numDims) :
    (transposePerm input order h).numDims = input.dimsOrder.numDims := DimsOrder.numDims_comp h

theorem movesUnitDims_of_agree (h : input.dimsOrder.numDims = order.numDims)
    (hagree : ∀ v, InBox input.getMemShape v →
      (transposePerm input order h).toMemoryOrder v = (conjugatePerm input order h).toMemoryOrder v) :
    MovesUnitDims input := by
  apply movesUnitDims_of_toLogicalOrder
  intro v hv
  have hlen : v.length = input.dimsOrder.numDims := hv.length.trans DimsOrder.length_toMemoryOrder
  have he := hagree v hv
  rw [toMemoryOrder_transposePerm, toMemoryOrder_conjugatePerm] at he
  have hinner := toMemoryOrder_injective (by rw [DimsOrder.length_toMemoryOrder, h])
    (by rw [DimsOrder.length_toMemoryOrder, h]) he
  exact (toMemoryOrder_injective (hlen.trans h) (by rw [DimsOrder.length_toLogicalOrder, h]) hinner).symm

theorem stored_injective {n i j : ℕ} (hi : i < n)
    (h : ((((List.range n).map some)[i]?).join : Option ℕ) = (((List.range n).map some)[j]?).join) : i = j := by
  rw [List.getElem?_map, List.getElem?_range hi, List.getElem?_map] at h
  by_cases hj : j < n
  · rw [List.getElem?_range hj] at h
    simpa using h
  · rw [List.getElem?_eq_none (by simpa using hj)] at h
    simp at h

theorem trivial_of_permuted {permOrder : DimsOrder} (hm : input.getMemShape.length = permOrder.numDims)
    (hshape : output.getMemShape = permOrder.toMemoryOrder input.getMemShape)
    (h : Permuted ⟨input, false, (List.range input.shape.prod.toNat).map some⟩ output permOrder
      ((List.range input.shape.prod.toNat).map some)) : isTrivialPermute input.getMemShape permOrder := by
  apply trivial_of_encode NDType.memShape_pos hm
  intro v hv
  have he := h v hv
  have hb := encode_bounds (DimsOrder.InBox_toMemoryOrder hm hv)
  have hb' := encode_bounds hv
  rw [DimsOrder.prod_toMemoryOrder hm, NDType.memShape_prod] at hb
  rw [hshape] at he
  dsimp only at he
  have hi := stored_injective (by omega) he
  omega

theorem agree_of_permuted {perm perm' : DimsOrder} (hm : input.getMemShape.length = perm'.numDims)
    (hshape : output.getMemShape = perm'.toMemoryOrder input.getMemShape) {result : List (Option ℕ)}
    (hbox : ∀ v, InBox input.getMemShape v → InBox output.getMemShape (perm.toMemoryOrder v))
    (h : Permuted ⟨input, false, (List.range input.shape.prod.toNat).map some⟩ output perm result)
    (h' : Permuted ⟨input, false, (List.range input.shape.prod.toNat).map some⟩ output perm' result)
    (hv : InBox input.getMemShape v) : perm.toMemoryOrder v = perm'.toMemoryOrder v := by
  have hw : InBox input.getMemShape (perm'.toLogicalOrder (perm.toMemoryOrder v)) := by
    have hb := hbox v hv
    rw [hshape] at hb
    have hl := @DimsOrder.InBox_toLogicalOrder perm' _ _ DimsOrder.length_toMemoryOrder hb
    rw [DimsOrder.toLogicalOrder_toMemoryOrder hm] at hl
    exact hl
  have hback : perm'.toMemoryOrder (perm'.toLogicalOrder (perm.toMemoryOrder v)) = perm.toMemoryOrder v := by
    apply DimsOrder.toMemoryOrder_toLogicalOrder
    rw [(hbox v hv).length, hshape, DimsOrder.length_toMemoryOrder]
  have he := h' _ hw
  rw [hback, h v hv] at he
  have hb := encode_bounds hv
  have hb' := encode_bounds hw
  rw [NDType.memShape_prod] at hb
  dsimp only at he
  have hi := stored_injective (by omega) he
  have heq := encode_injective hv hw (by omega)
  rw [← hback, ← heq]

theorem respectsLogical_of_permuted {attr : TransformAttr} {permOrder : DimsOrder}
    (hf : Follows attr input output permOrder)
    (h : ∀ (α : Type) (storage : List (Option α)), (storage.length : ℤ) = input.shape.prod →
      ∃ result, attr.transformLayout elemSizeBytes ⟨input, false, storage⟩ = some ⟨output, false, result⟩ ∧
        Permuted ⟨input, false, storage⟩ output permOrder result) :
    RespectsLogical elemSizeBytes attr input output := by
  intro α storage hlen
  obtain ⟨result, hresult, hper⟩ := h α storage hlen
  exact ⟨result, hresult, hf.elements_iff.mpr hper⟩

theorem respectsLogical_of_follows {attr : TransformAttr} {permOrder : DimsOrder}
    (hf : Follows attr input output permOrder)
    (hrun : ∀ (α : Type) (storage : List (Option α)), attr.transformLayout elemSizeBytes ⟨input, false, storage⟩ =
      memPermuteTransformation elemSizeBytes ⟨input, false, storage⟩ output permOrder.perm) :
    RespectsLogical elemSizeBytes attr input output := by
  apply respectsLogical_of_permuted hf
  intro α storage hlen
  rw [hrun]
  exact memPermuteTransformation_spec rfl hlen hf.outRank.symm hf.rank hf.memShape

theorem transformLayout_transpose (h : input.dimsOrder.numDims = order.numDims)
    (hout : (TransformAttr.transpose order).inferOutputType input = some output) {isSplat : Bool}
    {storage : List (Option α)} :
    (TransformAttr.transpose order).transformLayout elemSizeBytes ⟨input, isSplat, storage⟩ =
      memPermuteTransformation elemSizeBytes ⟨input, isSplat, storage⟩ output (transposePerm input order h).perm := by
  unfold TransformAttr.transformLayout
  simp only [hout, bind_eq_bind, bind_some]
  rfl

theorem transpose_of_moved (h : input.dimsOrder.numDims = order.numDims)
    (hout : (TransformAttr.transpose order).inferOutputType input = some output)
    (hf : Follows (.transpose order) input output (conjugatePerm input order h)) (hmoved : MovesUnitDims input) :
    RespectsLogical elemSizeBytes (.transpose order) input output := by
  have hagree : ∀ v, input.dimsOrder.toLogicalOrder v = v →
      (conjugatePerm input order h).toMemoryOrder v = (transposePerm input order h).toMemoryOrder v := by
    intro v hv
    rw [toMemoryOrder_conjugatePerm, toMemoryOrder_transposePerm, hv]
  have hm : input.dimsOrder.toLogicalOrder input.getMemShape = input.getMemShape := by
    have hl := DimsOrder.toLogicalOrder_toMemoryOrder input.numDims_eq.symm
    change input.dimsOrder.toLogicalOrder input.getMemShape = input.shape at hl
    rw [hl, hmoved.memShape]
  apply respectsLogical_of_permuted hf
  intro α storage hlen
  rw [transformLayout_transpose h hout]
  obtain ⟨result, hresult, hper⟩ := @memPermuteTransformation_spec α elemSizeBytes ⟨input, false, storage⟩ output
    (transposePerm input order h) rfl hlen hf.outRank.symm (numDims_transposePerm h) (by
      rw [hf.memShape]
      exact hagree _ hm)
  refine ⟨result, hresult, fun v hv => ?_⟩
  rw [hagree v (hmoved.toLogicalOrder hv)]
  exact hper v hv

theorem memPermuteTransformation_splat {perm : DimsOrder} {storage : List (Option α)}
    (hn : input.dimsOrder.numDims = output.dimsOrder.numDims) (hp : perm.numDims = input.dimsOrder.numDims) :
    memPermuteTransformation elemSizeBytes ⟨input, true, storage⟩ output perm.perm = some ⟨output, true, storage⟩ := by
  have hdims : ¬(input.dimsOrder.numDims ≠ output.dimsOrder.numDims ∨ input.dimsOrder.numDims ≠ perm.numDims) := by
    push Not
    exact ⟨hn, hp.symm⟩
  unfold memPermuteTransformation
  simp only [fromAffineMap_perm, bind_eq_bind, bind_some, if_neg hdims]
  rw [if_pos (Or.inl trivial)]

theorem transformLayout_splat {attr : TransformAttr} (hout : attr.inferOutputType input = some output)
    (hlayout : (∃ order, attr = .reorder order) ∨ (∃ dstOrder memPerm, attr = .memPermute dstOrder memPerm) ∨
      ∃ order, attr = .transpose order) {storage : List (Option α)} :
    attr.transformLayout elemSizeBytes ⟨input, true, storage⟩ = some ⟨output, true, storage⟩ := by
  obtain ⟨order, rfl⟩ | ⟨dstOrder, memPerm, rfl⟩ | ⟨order, rfl⟩ := hlayout
  · obtain ⟨permOrder, hperm, hf⟩ := reorder_follows hout
    rw [← @memPermuteTransformation_splat α elemSizeBytes _ _ permOrder storage hf.outRank.symm hf.rank]
    unfold TransformAttr.transformLayout
    simp only [hout, bind_eq_bind, bind_some, hperm]
  · have hf := memPermute_follows hout
    rw [← @memPermuteTransformation_splat α elemSizeBytes _ _ memPerm storage hf.outRank.symm hf.rank]
    unfold TransformAttr.transformLayout
    simp only [hout, bind_eq_bind, bind_some]
  · obtain ⟨-, h, hf⟩ := transpose_follows hout
    rw [transformLayout_transpose h hout]
    exact memPermuteTransformation_splat hf.outRank.symm (numDims_transposePerm h)

theorem memPermuteTransformation_trivial {perm : DimsOrder} {storage : List (Option α)}
    (hn : input.dimsOrder.numDims = output.dimsOrder.numDims) (hp : perm.numDims = input.dimsOrder.numDims)
    (htriv : isTrivialPermute input.getMemShape perm) :
    memPermuteTransformation elemSizeBytes ⟨input, false, storage⟩ output perm.perm =
      some ⟨output, false, storage⟩ := by
  have hdims : ¬(input.dimsOrder.numDims ≠ output.dimsOrder.numDims ∨ input.dimsOrder.numDims ≠ perm.numDims) := by
    push Not
    exact ⟨hn, hp.symm⟩
  unfold memPermuteTransformation
  simp only [fromAffineMap_perm, bind_eq_bind, bind_some, if_neg hdims]
  rw [if_pos (Or.inr htriv)]

theorem transpose_of_trivial (h : input.dimsOrder.numDims = order.numDims)
    (hout : (TransformAttr.transpose order).inferOutputType input = some output)
    (hf : Follows (.transpose order) input output (conjugatePerm input order h))
    (htriv : isTrivialPermute input.getMemShape (transposePerm input order h))
    (hconj : isTrivialPermute input.getMemShape (conjugatePerm input order h)) :
    RespectsLogical elemSizeBytes (.transpose order) input output := by
  apply respectsLogical_of_permuted hf
  intro α storage hlen
  rw [transformLayout_transpose h hout,
    memPermuteTransformation_trivial hf.outRank.symm (numDims_transposePerm h) htriv]
  refine ⟨storage, rfl, fun v hv => ?_⟩
  have hm : input.getMemShape.length = (conjugatePerm input order h).numDims := by
    rw [hf.rank]
    exact DimsOrder.length_toMemoryOrder
  rw [hf.memShape, encode_of_trivial hconj hm hv]

theorem generic_of_same_order {perm : DimsOrder} {storage result : List (Option α)}
    (horder : output.dimsOrder = input.dimsOrder) (hp : perm.numDims = input.dimsOrder.numDims)
    (hlen : (storage.length : ℤ) = input.shape.prod) (htriv : ¬isTrivialPermute input.getMemShape perm)
    (h : memPermuteTransformation elemSizeBytes ⟨input, false, storage⟩ output perm.perm =
      some ⟨output, false, result⟩) :
    (∀ v, InBox input.getMemShape v → InBox output.getMemShape (perm.toMemoryOrder v)) ∧
      Permuted ⟨input, false, storage⟩ output perm result := by
  have hdims : ¬(input.dimsOrder.numDims ≠ output.dimsOrder.numDims ∨ input.dimsOrder.numDims ≠ perm.numDims) := by
    push Not
    exact ⟨congrArg DimsOrder.numDims horder.symm, hp.symm⟩
  have hopt : ¬isOptimizedTransformationSupported elemSizeBytes input.dimsOrder output.dimsOrder perm := by
    rintro ⟨-, hbetween, -⟩
    rw [horder] at hbetween
    have hne : DimsOrder.NHWC ≠ DimsOrder.NCHW := by decide
    have hne' : DimsOrder.NCDHW ≠ DimsOrder.NDHWC := by decide
    obtain (⟨h1, h2⟩ | ⟨h1, h2⟩) | (⟨h1, h2⟩ | ⟨h1, h2⟩) := hbetween
    · exact hne (h1.symm.trans h2)
    · exact hne (h2.symm.trans h1)
    · exact hne' (h1.symm.trans h2)
    · exact hne' (h2.symm.trans h1)
  unfold memPermuteTransformation at h
  simp only [fromAffineMap_perm, bind_eq_bind, bind_some, if_neg hdims, Bool.false_eq_true, false_or,
    if_neg htriv, if_neg hopt] at h
  split at h
  · cases h
  · next hsize =>
    obtain ⟨inds, hinds, h⟩ := bind_eq_some_iff.mp h
    obtain ⟨copied, hcopied, h⟩ := bind_eq_some_iff.mp h
    have hm : perm.numDims = input.getMemShape.length := hp.trans DimsOrder.length_toMemoryOrder.symm
    have hbox : ∀ v, InBox input.getMemShape v → InBox output.getMemShape (perm.toMemoryOrder v) :=
      fun v hv => memPermuteIndices_inBox NDType.memShape_pos hm hinds hv
    have htotal : output.shape.prod = input.shape.prod := by
      rw [List.length_replicate, not_not] at hsize
      have hpos := prod_pos output.shape_pos
      omega
    obtain ⟨inds', storage', hinds', hstorage', hper⟩ :=
      @generic_spec α ⟨input, false, storage⟩ output perm hlen htotal hp hbox
    rw [Option.some.inj (hinds'.symm.trans hinds)] at hstorage'
    rw [Option.some.inj (hstorage'.symm.trans hcopied)] at hper
    have he : copied = result := by
      have hs := Option.some.inj h
      exact congrArg StoredContent.storage hs
    rw [he] at hper
    exact ⟨hbox, hper⟩

theorem respectsLogical_reorder (hout : (TransformAttr.reorder order).inferOutputType input = some output) :
    RespectsLogical elemSizeBytes (.reorder order) input output := by
  obtain ⟨permOrder, hperm, hf⟩ := reorder_follows hout
  apply respectsLogical_of_follows hf
  intro α storage
  unfold TransformAttr.transformLayout
  simp only [hout, bind_eq_bind, bind_some, hperm]

theorem respectsLogical_memPermute {dstOrder memPerm : DimsOrder}
    (hout : (TransformAttr.memPermute dstOrder memPerm).inferOutputType input = some output) :
    RespectsLogical elemSizeBytes (.memPermute dstOrder memPerm) input output := by
  apply respectsLogical_of_follows (memPermute_follows hout)
  intro α storage
  unfold TransformAttr.transformLayout
  simp only [hout, bind_eq_bind, bind_some]

theorem respectsLogical_transpose (hout : (TransformAttr.transpose order).inferOutputType input = some output)
    (hkeeps : KeepsLayout input (.transpose order)) : RespectsLogical elemSizeBytes (.transpose order) input output := by
  obtain ⟨horder, h, hf⟩ := transpose_follows hout
  cases hkeeps with
  | inl hmoved => exact transpose_of_moved h hout hf hmoved
  | inr htriv =>
    obtain ⟨_, htriv, hconj⟩ := htriv
    exact transpose_of_trivial h hout hf htriv hconj

def numbered (input : NDType) : StoredContent ℕ :=
  ⟨input, false, (List.range input.shape.prod.toNat).map some⟩

theorem length_numbered : ((numbered input).storage.length : ℤ) = input.shape.prod := by
  have hpos := prod_pos input.shape_pos
  have hl : (numbered input).storage.length = input.shape.prod.toNat := by simp [numbered]
  omega

theorem keeps_of_transpose (hout : (TransformAttr.transpose order).inferOutputType input = some output)
    {result : List (Option ℕ)}
    (hresult : (TransformAttr.transpose order).transformLayout elemSizeBytes (numbered input) =
      some ⟨output, false, result⟩)
    (hall : ∀ coord, InBox output.shape coord →
      ∃ origin, (TransformAttr.transpose order).source input output coord = some origin ∧ InBox input.shape origin ∧
        StoredContent.element ⟨output, false, result⟩ coord = (numbered input).element origin) :
    KeepsLayout input (.transpose order) := by
  obtain ⟨horder, h, hf⟩ := transpose_follows hout
  have hper := hf.elements_iff.mp hall
  rw [numbered, transformLayout_transpose h hout] at hresult
  have hm : input.getMemShape.length = (conjugatePerm input order h).numDims := by
    rw [hf.rank]
    exact DimsOrder.length_toMemoryOrder
  by_cases htriv : isTrivialPermute input.getMemShape (transposePerm input order h)
  · right
    rw [memPermuteTransformation_trivial hf.outRank.symm (numDims_transposePerm h) htriv] at hresult
    have he := congrArg StoredContent.storage (Option.some.inj hresult)
    dsimp only at he
    rw [← he] at hper
    exact ⟨h, htriv, trivial_of_permuted hm hf.memShape hper⟩
  · left
    obtain ⟨hbox, hper'⟩ := generic_of_same_order horder (numDims_transposePerm h) length_numbered htriv hresult
    apply movesUnitDims_of_agree h
    intro v hv
    exact agree_of_permuted hm hf.memShape hbox hper' hper hv

theorem not_respectsLogical {attr : TransformAttr}
    (hnone : ∀ storage : List (Option ℕ), attr.transformLayout elemSizeBytes ⟨input, false, storage⟩ = none) :
    ¬RespectsLogical elemSizeBytes attr input output := by
  intro hresp
  obtain ⟨result, hresult, -⟩ := hresp ℕ (List.replicate input.shape.prod.toNat none) (by
    have hpos := prod_pos input.shape_pos
    rw [List.length_replicate]
    omega)
  rw [hnone] at hresult
  cases hresult

/-- `Reorder` and `MemPermute` are right on every content, `Transpose` exactly where the layout is kept. -/
theorem transformLayout_iff {attr : TransformAttr} (hout : attr.inferOutputType input = some output) :
    RespectsLogical elemSizeBytes attr input output ↔ KeepsLayout input attr := by
  cases attr with
  | reorder order => exact iff_of_true (respectsLogical_reorder hout) trivial
  | memPermute dstOrder memPerm => exact iff_of_true (respectsLogical_memPermute hout) trivial
  | transpose order =>
    constructor
    · intro hresp
      obtain ⟨result, hresult, hall⟩ := hresp ℕ _ length_numbered
      exact keeps_of_transpose hout hresult hall
    · exact respectsLogical_transpose hout
  | reshape shape | changeShapeAndElemType shape | padWithZero padBefore padAfter | subView offset shape =>
    apply iff_of_false _ id
    apply not_respectsLogical
    intro storage
    unfold TransformAttr.transformLayout
    simp only [hout, bind_eq_bind, bind_some]

def swapHW : DimsOrder := ⟨[0, 1, 3, 2], by decide⟩

def cube (order : DimsOrder) (h : order.numDims = 4) : NDType := ⟨[1, 2, 2, 2], order, h, by decide⟩

theorem transformLayout_iff_nchw :
    RespectsLogical 1 (.transpose swapHW) (cube DimsOrder.NCHW rfl) (cube DimsOrder.NCHW rfl) := by
  apply (transformLayout_iff (show (TransformAttr.transpose swapHW).inferOutputType (cube DimsOrder.NCHW rfl) =
    some (cube DimsOrder.NCHW rfl) by decide)).mpr
  left
  unfold MovesUnitDims
  decide

/-- `Transpose` swaps `H` and `W` of a `2x2x2` image wrongly when the channels run fastest. -/
theorem transpose_of_nhwc :
    (TransformAttr.transpose swapHW).inferOutputType (cube DimsOrder.NHWC rfl) = some (cube DimsOrder.NHWC rfl) ∧
      ¬RespectsLogical 1 (.transpose swapHW) (cube DimsOrder.NHWC rfl) (cube DimsOrder.NHWC rfl) := by
  constructor
  · decide
  · intro hresp
    obtain ⟨result, hresult, hall⟩ := hresp ℕ ((List.range 8).map some) (by decide)
    have hrun : (TransformAttr.transpose swapHW).transformLayout 1
        ⟨cube DimsOrder.NHWC rfl, false, (List.range 8).map some⟩ =
        some ⟨cube DimsOrder.NHWC rfl, false, [some 0, some 4, some 2, some 6, some 1, some 5, some 3, some 7]⟩ := by
      rfl
    have he := congrArg StoredContent.storage (Option.some.inj (hrun.symm.trans hresult))
    dsimp only at he
    subst he
    obtain ⟨origin, horigin, -, hval⟩ := hall [0, 0, 0, 1] (inBox_iff.mpr (by decide))
    rw [← Option.some.inj horigin] at hval
    revert hval
    decide

end

end NpuCompiler.Const
