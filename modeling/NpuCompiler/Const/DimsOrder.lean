import NpuCompiler.Library.MixedRadix

namespace NpuCompiler.Const

open MixedRadix

structure DimsOrder where
  perm : List ℕ
  isPermutation : perm.Perm (List.range perm.length)
  deriving DecidableEq

namespace DimsOrder

def numDims (order : DimsOrder) : ℕ := order.perm.length

def dimAt (order : DimsOrder) (pos : ℕ) : ℕ := order.perm.getD pos 0

def dimPos (order : DimsOrder) (d : ℕ) : ℕ := order.perm.idxOf d

def fromNumDims (numDims : ℕ) : DimsOrder := ⟨List.range numDims, by simp⟩

def isIdentity (order : DimsOrder) : Prop := order = fromNumDims order.numDims

instance (order : DimsOrder) : Decidable order.isIdentity := inferInstanceAs (Decidable (_ = _))

def toMemoryOrder (order : DimsOrder) (values : List ℤ) : List ℤ :=
  order.perm.map fun d => entry values d

def toLogicalOrder (order : DimsOrder) (values : List ℤ) : List ℤ :=
  (List.range order.numDims).map fun d => entry values (order.dimPos d)

variable {order : DimsOrder} {v w : List ℤ} {i d : ℕ}

theorem nodup (order : DimsOrder) : order.perm.Nodup := order.isPermutation.nodup_iff.mpr List.nodup_range

theorem mem_perm : d ∈ order.perm ↔ d < order.numDims := by
  rw [order.isPermutation.mem_iff, List.mem_range]
  rfl

theorem dimAt_lt (h : i < order.numDims) : order.dimAt i < order.numDims := by
  apply mem_perm.mp
  unfold dimAt
  rw [List.getD_eq_getElem _ _ h]
  exact List.getElem_mem h

theorem dimPos_lt (h : d < order.numDims) : order.dimPos d < order.numDims := by
  exact List.idxOf_lt_length_of_mem (mem_perm.mpr h)

@[simp] theorem dimAt_dimPos (h : d < order.numDims) : order.dimAt (order.dimPos d) = d := by
  have hl : order.perm.idxOf d < order.perm.length := dimPos_lt h
  unfold dimAt dimPos
  rw [List.getD_eq_getElem _ _ hl]
  exact List.getElem_idxOf hl

@[simp] theorem dimPos_dimAt (h : i < order.numDims) : order.dimPos (order.dimAt i) = i := by
  unfold dimAt dimPos
  rw [List.getD_eq_getElem _ _ h]
  exact order.nodup.idxOf_getElem i h

@[simp] theorem length_toMemoryOrder : (order.toMemoryOrder v).length = order.numDims := by
  simp [toMemoryOrder, numDims]

@[simp] theorem length_toLogicalOrder : (order.toLogicalOrder v).length = order.numDims := by
  simp [toLogicalOrder]

theorem entry_toMemoryOrder (h : i < order.numDims) : entry (order.toMemoryOrder v) i = entry v (order.dimAt i) := by
  have hi : i < order.perm.length := h
  rw [entry_of_lt (by simpa using h)]
  simp [toMemoryOrder, dimAt, hi]

theorem entry_toLogicalOrder (h : d < order.numDims) :
    entry (order.toLogicalOrder v) d = entry v (order.dimPos d) := by
  rw [entry_of_lt (by simpa using h)]
  simp [toLogicalOrder]

theorem toLogicalOrder_toMemoryOrder (h : v.length = order.numDims) :
    order.toLogicalOrder (order.toMemoryOrder v) = v := by
  apply ext_entry (by simp [h])
  intro d hd
  have hn : d < order.numDims := by simpa using hd
  rw [entry_toLogicalOrder hn, entry_toMemoryOrder (dimPos_lt hn), dimAt_dimPos hn]

theorem toMemoryOrder_toLogicalOrder (h : v.length = order.numDims) :
    order.toMemoryOrder (order.toLogicalOrder v) = v := by
  apply ext_entry (by simp [h])
  intro i hi
  have hn : i < order.numDims := by simpa using hi
  rw [entry_toMemoryOrder hn, entry_toLogicalOrder (dimAt_lt hn), dimPos_dimAt hn]

theorem toMemoryOrder_shift (hv : v.length = order.numDims) (hw : w.length = order.numDims) :
    order.toMemoryOrder (shift v w) = shift (order.toMemoryOrder v) (order.toMemoryOrder w) := by
  apply ext_entry (by simp)
  intro i hi
  have hn : i < order.numDims := by simpa using hi
  rw [entry_shift (by simp), entry_toMemoryOrder hn, entry_toMemoryOrder hn, entry_toMemoryOrder hn,
    entry_shift (hv.trans hw.symm)]

theorem toLogicalOrder_shift (hv : v.length = order.numDims) (hw : w.length = order.numDims) :
    order.toLogicalOrder (shift v w) = shift (order.toLogicalOrder v) (order.toLogicalOrder w) := by
  apply ext_entry (by simp)
  intro d hd
  have hn : d < order.numDims := by simpa using hd
  rw [entry_shift (by simp), entry_toLogicalOrder hn, entry_toLogicalOrder hn, entry_toLogicalOrder hn,
    entry_shift (hv.trans hw.symm)]

theorem prod_toMemoryOrder (h : v.length = order.numDims) : (order.toMemoryOrder v).prod = v.prod := by
  have hv : (List.range v.length).map (entry v) = v := by
    apply ext_entry (by simp)
    intro i hi
    have hn : i < v.length := by simpa using hi
    rw [entry_of_lt hi]
    simp
  have hp := (order.isPermutation.map (entry v)).prod_eq
  change (order.toMemoryOrder v).prod = ((List.range order.numDims).map (entry v)).prod at hp
  rw [hp, ← h, hv]

theorem prod_toLogicalOrder (h : v.length = order.numDims) : (order.toLogicalOrder v).prod = v.prod := by
  rw [← @prod_toMemoryOrder order _ length_toLogicalOrder, toMemoryOrder_toLogicalOrder h]

theorem InBox_toMemoryOrder (hv : v.length = order.numDims) (h : InBox v w) :
    InBox (order.toMemoryOrder v) (order.toMemoryOrder w) := by
  apply inBox_iff.mpr
  refine ⟨by simp, fun i hi => ?_⟩
  have hn : i < order.numDims := by simpa using hi
  rw [entry_toMemoryOrder hn, entry_toMemoryOrder hn]
  exact (inBox_iff.mp h).2 _ (hv ▸ dimAt_lt hn)

theorem InBox_toLogicalOrder (hv : v.length = order.numDims) (h : InBox v w) :
    InBox (order.toLogicalOrder v) (order.toLogicalOrder w) := by
  apply inBox_iff.mpr
  refine ⟨by simp, fun d hd => ?_⟩
  have hn : d < order.numDims := by simpa using hd
  rw [entry_toLogicalOrder hn, entry_toLogicalOrder hn]
  exact (inBox_iff.mp h).2 _ (hv ▸ dimPos_lt hn)

variable {dims offset shape : List ℤ}

theorem Fits_toMemoryOrder (hn : dims.length = order.numDims) (h : Fits dims offset shape) :
    Fits (order.toMemoryOrder dims) (order.toMemoryOrder offset) (order.toMemoryOrder shape) := by
  apply fits_iff.mpr
  refine ⟨by simp, by simp, fun i hi => ?_⟩
  have hi' : i < order.numDims := by simpa using hi
  rw [entry_toMemoryOrder hi', entry_toMemoryOrder hi', entry_toMemoryOrder hi']
  exact (fits_iff.mp h).2.2 _ (hn ▸ dimAt_lt hi')

theorem Fits_toLogicalOrder (hn : dims.length = order.numDims) (h : Fits dims offset shape) :
    Fits (order.toLogicalOrder dims) (order.toLogicalOrder offset) (order.toLogicalOrder shape) := by
  apply fits_iff.mpr
  refine ⟨by simp, by simp, fun d hd => ?_⟩
  have hd' : d < order.numDims := by simpa using hd
  rw [entry_toLogicalOrder hd', entry_toLogicalOrder hd', entry_toLogicalOrder hd']
  exact (fits_iff.mp h).2.2 _ (hn ▸ dimPos_lt hd')

theorem toMemoryOrder_fromNumDims (h : v.length = i) : (fromNumDims i).toMemoryOrder v = v := by
  apply ext_entry (by simp [numDims, fromNumDims, h])
  intro j hj
  have hn : j < (fromNumDims i).numDims := by simpa using hj
  have hr : j < i := by simpa [numDims, fromNumDims] using hn
  rw [entry_toMemoryOrder hn]
  simp [dimAt, fromNumDims, hr]

theorem isIdentity_fromNumDims (n : ℕ) : (fromNumDims n).isIdentity := by
  unfold isIdentity
  congr 1
  simp [numDims, fromNumDims]

theorem dimPos_of_isIdentity (hid : order.isIdentity) (hd : d < order.numDims) : order.dimPos d = d := by
  have hpos : order.dimPos d < (List.range order.numDims).length := List.length_range.symm ▸ dimPos_lt hd
  have hdim : (List.range order.numDims).getD (order.dimPos d) 0 = d :=
    (congrArg (fun o : DimsOrder => o.perm.getD (order.dimPos d) 0) hid).symm.trans (dimAt_dimPos hd)
  rwa [List.getD_eq_getElem _ _ hpos, List.getElem_range] at hdim

end DimsOrder

def MAX_NUM_DIMS : ℕ := 15

def DimsOrder.expand (order : DimsOrder) : DimsOrder where
  perm := 0 :: order.perm.map (· + 1)
  isPermutation := by
    rw [List.length_cons, List.length_map, List.range_succ_eq_map]
    exact (order.isPermutation.map (· + 1)).cons 0

def inferNewDimsOrder (origOrder : DimsOrder) (numShapeDims : ℕ) : Option DimsOrder :=
  if origOrder.isIdentity then some (DimsOrder.fromNumDims numShapeDims)
  else if numShapeDims = origOrder.numDims then some origOrder
  else if numShapeDims ≠ origOrder.numDims + 1 then none
  else if MAX_NUM_DIMS ≤ numShapeDims then none
  else some origOrder.expand

theorem inferNewDimsOrder_numDims {origOrder order : DimsOrder} {n : ℕ} (h : inferNewDimsOrder origOrder n = some order) :
    order.numDims = n := by
  unfold inferNewDimsOrder at h
  split at h
  · cases h
    simp [DimsOrder.numDims, DimsOrder.fromNumDims]
  · split at h
    · next hn =>
      cases h
      exact hn.symm
    · split at h
      · cases h
      · split at h
        · cases h
        · next hn _ =>
          cases h
          have he : n = origOrder.numDims + 1 := not_not.mp hn
          rw [he]
          simp [DimsOrder.numDims, DimsOrder.expand]

theorem inferNewDimsOrder_self (order : DimsOrder) : inferNewDimsOrder order order.numDims = some order := by
  unfold inferNewDimsOrder
  by_cases h : order.isIdentity
  · rw [if_pos h]
    exact congrArg some (Eq.symm h)
  · rw [if_neg h, if_pos rfl]

structure NDType where
  shape : List ℤ
  dimsOrder : DimsOrder
  numDims_eq : dimsOrder.numDims = shape.length
  shape_pos : ∀ d ∈ shape, 0 < d
  deriving DecidableEq

namespace NDType

def getRank (type : NDType) : ℕ := type.shape.length

def getMemShape (type : NDType) : List ℤ := type.dimsOrder.toMemoryOrder type.shape

def getTensorType (shape : List ℤ) (order : DimsOrder) : Option NDType :=
  if h : order.numDims = shape.length ∧ ∀ d ∈ shape, 0 < d then some ⟨shape, order, h.1, h.2⟩ else none

def changeShape (type : NDType) (shape : List ℤ) : Option NDType := do
  getTensorType shape (← inferNewDimsOrder type.dimsOrder shape.length)

def changeDimsOrder (type : NDType) (order : DimsOrder) : Option NDType := getTensorType type.shape order

def extractDenseTile (type : NDType) (tileShape : List ℤ) : Option NDType := getTensorType tileShape type.dimsOrder

def pad (type : NDType) (padBefore padAfter : List ℤ) : Option NDType :=
  if padBefore.length ≠ padAfter.length then none
  else if type.shape.length ≠ padBefore.length then none
  else getTensorType (shift (shift type.shape padBefore) padAfter) type.dimsOrder

variable {type other : NDType} {shape : List ℤ} {order : DimsOrder}

theorem ext_iff' : type = other ↔ type.shape = other.shape ∧ type.dimsOrder = other.dimsOrder := by
  constructor
  · intro h
    subst h
    exact ⟨rfl, rfl⟩
  · intro h
    cases type
    cases other
    simp only [NDType.mk.injEq]
    exact h

theorem getTensorType_eq_some : getTensorType shape order = some type ↔ type.shape = shape ∧ type.dimsOrder = order := by
  unfold getTensorType
  constructor
  · intro h
    split at h
    · cases h
      exact ⟨rfl, rfl⟩
    · cases h
  · rintro ⟨rfl, rfl⟩
    rw [dif_pos ⟨type.numDims_eq, type.shape_pos⟩]

theorem memShape_length : type.getMemShape.length = type.shape.length := by
  rw [← type.numDims_eq]
  exact DimsOrder.length_toMemoryOrder

theorem memShape_prod : type.getMemShape.prod = type.shape.prod := DimsOrder.prod_toMemoryOrder type.numDims_eq.symm

theorem memShape_pos : ∀ d ∈ type.getMemShape, 0 < d := by
  intro d hd
  obtain ⟨i, hi, rfl⟩ := List.mem_map.mp hd
  apply type.shape_pos
  apply entry_mem
  rw [← type.numDims_eq]
  exact DimsOrder.mem_perm.mp hi

end NDType

def getMemIndexND (memIndex1D : ℤ) (memShape : List ℤ) : List ℤ :=
  (memShape.foldr (fun mdSize st => (st.2 % mdSize :: st.1, (st.2 - st.2 % mdSize) / mdSize))
    (([] : List ℤ), memIndex1D)).1

def getMemIndex1D (memIndexND memShape : List ℤ) : ℤ :=
  ((memIndexND.zip memShape).foldr (fun md st => (st.1 + md.1 * st.2, st.2 * md.2)) ((0 : ℤ), (1 : ℤ))).1

theorem getMemIndexND_eq {memShape : List ℤ} (h : ∀ d ∈ memShape, 0 < d) (x : ℤ) :
    getMemIndexND x memShape = decode memShape x := by
  have hf : memShape.foldr (fun mdSize st => (st.2 % mdSize :: st.1, (st.2 - st.2 % mdSize) / mdSize))
      (([] : List ℤ), x) = (decode memShape x, x / memShape.prod) := by
    induction memShape with
    | nil => simp [decode]
    | cons d dims ih =>
      have ht : ∀ d ∈ dims, 0 < d := fun e he => h e (List.mem_cons_of_mem _ he)
      have hp := prod_pos ht
      rw [List.foldr_cons, ih ht]
      have hq : (x / dims.prod - x / dims.prod % d) / d = x / (d * dims.prod) := by
        rw [mul_comm, ← Int.ediv_ediv_of_nonneg hp.le]
        have hr := Int.emod_add_mul_ediv (x / dims.prod) d
        have he : x / dims.prod - x / dims.prod % d = d * (x / dims.prod / d) := by linarith
        rw [he, Int.mul_ediv_cancel_left _ (h d List.mem_cons_self).ne']
      simp only [decode, List.prod_cons, hq]
  unfold getMemIndexND
  rw [hf]

theorem getMemIndex1D_eq {memIndexND memShape : List ℤ} (h : memIndexND.length = memShape.length) :
    getMemIndex1D memIndexND memShape = encode memShape memIndexND := by
  have hf : (memIndexND.zip memShape).foldr (fun md st => (st.1 + md.1 * st.2, st.2 * md.2)) ((0 : ℤ), (1 : ℤ)) =
      (encode memShape memIndexND, memShape.prod) := by
    induction memShape generalizing memIndexND with
    | nil => simp [encode]
    | cons d dims ih =>
      cases memIndexND with
      | nil => simp at h
      | cons y c =>
        rw [List.zip_cons_cons, List.foldr_cons, ih (by simpa using h)]
        simp only [encode, List.prod_cons, Prod.mk.injEq]
        constructor
        · ring
        · ring
  unfold getMemIndex1D
  rw [hf]

end NpuCompiler.Const
