import NpuCompiler.Const.MemPermute
import NpuCompiler.Const.SwappedReshape

namespace NpuCompiler.Const

open MixedRadix List DimsOrder

section

theorem nodup_natRange (n : ℤ) : (natRange n).Nodup :=
  nodup_range.map fun _ _ h => Int.ofNat_inj.mp h

theorem natRange_mul {a b : ℤ} (ha : 0 ≤ a) (hb : 0 ≤ b) :
    natRange (a * b) = (natRange a).flatMap fun y => (natRange b).map fun x => y * b + x := by
  obtain ⟨n, rfl⟩ := Int.eq_ofNat_of_zero_le ha
  obtain ⟨m, rfl⟩ := Int.eq_ofNat_of_zero_le hb
  unfold natRange
  rw [← Nat.cast_mul, Int.toNat_natCast, Int.toNat_natCast, Int.toNat_natCast, ← range_chunks, map_flatMap, flatMap_map]
  apply flatMap_congr
  intro y _
  rw [map_map, map_map]
  apply map_congr_left
  intro x _
  simp

def coords : List ℤ → List (List ℤ)
  | [] => [[]]
  | d :: dims => (natRange d).flatMap fun y => (coords dims).map fun c => y :: c

theorem mem_coords {dims c : List ℤ} : c ∈ coords dims ↔ InBox dims c := by
  induction dims generalizing c with
  | nil =>
    constructor
    · intro h
      rw [mem_singleton.mp h]
      exact List.Forall₂.nil
    · intro h
      cases h
      exact mem_singleton_self _
  | cons d dims ih =>
    simp only [coords, mem_flatMap, mem_map]
    constructor
    · rintro ⟨y, hy, c, hc, rfl⟩
      exact List.Forall₂.cons (mem_natRange.mp hy) (ih.mp hc)
    · intro h
      cases h with
      | cons hy hc => exact ⟨_, mem_natRange.mpr hy, _, ih.mpr hc, rfl⟩

theorem nodup_coords (dims : List ℤ) : (coords dims).Nodup := by
  induction dims with
  | nil => simp [coords]
  | cons d dims ih =>
    apply nodup_flatMap.mpr
    constructor
    · intro y _
      exact ih.map fun _ _ h => (List.cons.inj h).2
    · apply (nodup_natRange d).imp
      intro a b hab
      simp only [Function.onFun, disjoint_left, mem_map, not_exists, not_and]
      rintro _ ⟨c, _, rfl⟩ e _ he
      exact hab (List.cons.inj he).1.symm

variable {α : Type} {src dst : List (Option α)} {inds : List (ℤ × ℤ)}

theorem checkedIndex_eq {buf : List (Option α)} {x : ℤ} (h : 0 ≤ x ∧ x < buf.length) :
    checkedIndex buf x = some x.toNat := if_pos h

theorem copyElements_spec (hsrc : ∀ p ∈ inds, 0 ≤ p.2 ∧ p.2 < src.length)
    (hdst : ∀ p ∈ inds, 0 ≤ p.1 ∧ p.1 < dst.length) (hnd : (inds.map Prod.fst).Nodup) :
    ∃ out, copyElements src dst inds = some out ∧ out.length = dst.length ∧
      (∀ p ∈ inds, (out[p.1.toNat]?).join = (src[p.2.toNat]?).join) ∧
      ∀ q : ℕ, (q : ℤ) ∉ inds.map Prod.fst → out[q]? = dst[q]? := by
  induction inds generalizing dst with
  | nil => exact ⟨dst, rfl, rfl, by simp, fun q _ => rfl⟩
  | cons p inds ih =>
    have hp := hdst p mem_cons_self
    rw [map_cons, nodup_cons] at hnd
    obtain ⟨out, hout, hlen, hcopied, hkept⟩ := @ih (dst.set p.1.toNat ((src[p.2.toNat]?).join))
      (fun q hq => hsrc q (mem_cons_of_mem _ hq))
      (fun q hq => by rw [length_set]; exact hdst q (mem_cons_of_mem _ hq)) hnd.2
    rw [length_set] at hlen
    refine ⟨out, ?_, hlen, ?_, ?_⟩
    · unfold copyElements at hout ⊢
      rw [foldlM_cons, checkedIndex_eq (hsrc p mem_cons_self), checkedIndex_eq hp]
      exact hout
    · intro q hq
      cases mem_cons.mp hq with
      | inl he =>
        subst he
        have hcast : ((q.1.toNat : ℕ) : ℤ) = q.1 := by omega
        rw [hkept q.1.toNat (by rw [hcast]; exact hnd.1), getElem?_set_self (by omega)]
        rfl
      | inr hq => exact hcopied q hq
    · intro q hq
      rw [map_cons, mem_cons, not_or] at hq
      rw [hkept q hq.2, getElem?_set_ne (by omega)]

variable {order perm : DimsOrder} {m v : List ℤ}

theorem fromAffineMap_perm (order : DimsOrder) : DimsOrder.fromAffineMap order.perm = some order :=
  dif_pos order.isPermutation

theorem encode_of_trivial (htriv : isTrivialPermute m perm) (hm : m.length = perm.numDims) (hv : InBox m v) :
    encode (perm.toMemoryOrder m) (perm.toMemoryOrder v) = encode m v := by
  have hvl : v.length = m.length := hv.length
  let pair : ℕ → ℤ × ℤ := fun d => (entry m d, entry v d)
  have hzero : ∀ d < perm.numDims, (pair d).1 = 1 → (pair d).2 = 0 := by
    intro d hd h1
    have hb := (inBox_iff.mp hv).2 d (hm ▸ hd)
    have h1 : entry m d = 1 := h1
    change entry v d = 0
    omega
  have hfilter : perm.perm.filter (fun d => (pair d).1 ≠ 1) =
      (List.range perm.numDims).filter (fun d => (pair d).1 ≠ 1) := by
    have hp := perm.isPermutation.filter (fun d => decide ((pair d).1 ≠ 1))
    have hsorted : (perm.perm.filter (fun d => (pair d).1 ≠ 1)).Pairwise (· ≤ ·) :=
      isChain_iff_pairwise.mp htriv
    have hrange : ((List.range perm.numDims).filter (fun d => (pair d).1 ≠ 1)).Pairwise (· ≤ ·) :=
      pairwise_le_range.filter _
    exact hp.eq_of_pairwise (fun a b _ _ hab hba => Nat.le_antisymm hab hba) hsorted hrange
  have hleft : (perm.toMemoryOrder m).zip (perm.toMemoryOrder v) = perm.perm.map pair := zip_map'
  have hright : m.zip v = (List.range perm.numDims).map pair := by
    have hmv : m.zip v = ((List.range perm.numDims).map (entry m)).zip ((List.range perm.numDims).map (entry v)) := by
      rw [← hm, range_map_entry, ← hvl, range_map_entry]
    rw [hmv]
    exact zip_map'
  rw [encode_eq_encodePairs (by simp), encode_eq_encodePairs hvl, hleft, hright,
    ← encodePairs_filter, ← @encodePairs_filter ((List.range perm.numDims).map pair), filter_map,
    filter_map]
  · exact congrArg (fun l => encodePairs (l.map pair)) hfilter
  · intro p hp
    obtain ⟨d, hd, rfl⟩ := mem_map.mp hp
    exact hzero d (mem_range.mp hd)
  · intro p hp
    obtain ⟨d, hd, rfl⟩ := mem_map.mp hp
    exact hzero d (mem_perm.mp hd)

theorem toMemoryOrder_injective {w : List ℤ} (hv : v.length = order.numDims) (hw : w.length = order.numDims)
    (h : order.toMemoryOrder v = order.toMemoryOrder w) : v = w := by
  rw [← toLogicalOrder_toMemoryOrder hv, h, toLogicalOrder_toMemoryOrder hw]

variable {elemSizeBytes : ℕ} {input : StoredContent α} {outType : NDType} {permOrder : DimsOrder}

def Permuted (input : StoredContent α) (outType : NDType) (permOrder : DimsOrder) (storage : List (Option α)) : Prop :=
  ∀ v, InBox input.type.getMemShape v →
    (storage[(encode outType.getMemShape (permOrder.toMemoryOrder v)).toNat]?).join =
      (input.storage[(encode input.type.getMemShape v).toNat]?).join

theorem copy_all {β : Type} {l : List β} (hl : l.Nodup) {src : List (Option α)} {f g : β → ℤ} {n : ℕ}
    (hf : ∀ x ∈ l, 0 ≤ f x ∧ f x < n) (hg : ∀ x ∈ l, 0 ≤ g x ∧ g x < src.length)
    (hinj : ∀ x ∈ l, ∀ y ∈ l, f x = f y → x = y) :
    ∃ out, copyElements src (List.replicate n none) (l.map fun x => (f x, g x)) = some out ∧
      ∀ x ∈ l, (out[(f x).toNat]?).join = (src[(g x).toNat]?).join := by
  have hnd : ((l.map fun x => (f x, g x)).map Prod.fst).Nodup := by
    rw [map_map]
    apply List.Nodup.map_on _ hl
    intro x hx y hy h
    exact hinj x hx y hy h
  obtain ⟨out, hout, -, hcopied, -⟩ := @copyElements_spec α src (List.replicate n none) _ (by
      intro p hp
      obtain ⟨x, hx, rfl⟩ := mem_map.mp hp
      exact hg x hx) (by
      intro p hp
      obtain ⟨x, hx, rfl⟩ := mem_map.mp hp
      rw [length_replicate]
      exact hf x hx) hnd
  exact ⟨out, hout, fun x hx => hcopied _ (mem_map.mpr ⟨x, hx, rfl⟩)⟩

def positionOf (type : NDType) (coord : List ℤ) : ℤ :=
  encode type.getMemShape (type.dimsOrder.toMemoryOrder coord)

theorem positionOf_bounds {type : NDType} {coord : List ℤ} (h : InBox type.shape coord) :
    0 ≤ positionOf type coord ∧ positionOf type coord < type.shape.prod := by
  have hb := encode_bounds (DimsOrder.InBox_toMemoryOrder type.numDims_eq.symm h)
  rw [prod_toMemoryOrder type.numDims_eq.symm] at hb
  exact hb

theorem positionOf_injective {type : NDType} {c c' : List ℤ} (h : InBox type.shape c) (h' : InBox type.shape c')
    (he : positionOf type c = positionOf type c') : c = c' := by
  have hm := encode_injective (DimsOrder.InBox_toMemoryOrder type.numDims_eq.symm h)
    (DimsOrder.InBox_toMemoryOrder type.numDims_eq.symm h') he
  exact toMemoryOrder_injective (h.length.trans type.numDims_eq.symm) (h'.length.trans type.numDims_eq.symm) hm

theorem map_coords_four {β : Type} {N C H W : ℤ} (f : List ℤ → β) : (coords [N, C, H, W]).map f =
    (natRange N).flatMap fun n => (natRange C).flatMap fun c => (natRange H).flatMap fun h =>
      (natRange W).map fun w => f [n, c, h, w] := by
  simp only [coords, map_flatMap, map_cons, map_nil]
  simp only [map_eq_flatMap]

theorem map_coords_five {β : Type} {N C D H W : ℤ} (f : List ℤ → β) : (coords [N, C, D, H, W]).map f =
    (natRange N).flatMap fun n => (natRange C).flatMap fun c => (natRange D).flatMap fun d =>
      (natRange H).flatMap fun h => (natRange W).map fun w => f [n, c, d, h, w] := by
  simp only [coords, map_flatMap, map_cons, map_nil]
  simp only [map_eq_flatMap]

theorem blobCopy4d_eq {type output : NDType} (hrank : type.getRank = 4) (hshape : output.shape = type.shape)
    (hbetween : isBetween DimsOrder.NHWC DimsOrder.NCHW type.dimsOrder output.dimsOrder) :
    blobCopy4d type output = (coords type.shape).map fun c => (positionOf output c, positionOf type c) := by
  obtain ⟨shape, order, hn, hp⟩ := type
  obtain ⟨shape', order', hn', hp'⟩ := output
  simp only at hshape hbetween
  subst hshape
  obtain ⟨N, C, H, W, rfl⟩ : ∃ N C H W, shape' = [N, C, H, W] := length_eq_four.mp hrank
  rw [map_coords_four]
  unfold blobCopy4d
  apply flatMap_congr; intro n _
  apply flatMap_congr; intro c _
  apply flatMap_congr; intro h _
  apply map_congr_left; intro w _
  cases hbetween with
  | inl ho =>
    obtain ⟨rfl, rfl⟩ := ho
    simp [positionOf, strideOf, NDType.getMemShape, DimsOrder.toMemoryOrder, DimsOrder.NHWC, DimsOrder.NCHW,
      DimsOrder.fromNumDims, encode, weight, DimsOrder.dimPos, range_succ]
    constructor
    · ring
    · ring
  | inr ho =>
    obtain ⟨rfl, rfl⟩ := ho
    simp [positionOf, strideOf, NDType.getMemShape, DimsOrder.toMemoryOrder, DimsOrder.NHWC, DimsOrder.NCHW,
      DimsOrder.fromNumDims, encode, weight, DimsOrder.dimPos, range_succ]
    constructor
    · ring
    · ring

theorem blobCopy5d_eq {type output : NDType} (hrank : type.getRank = 5) (hshape : output.shape = type.shape)
    (hbetween : isBetween DimsOrder.NCDHW DimsOrder.NDHWC type.dimsOrder output.dimsOrder) :
    blobCopy5d type output = (coords type.shape).map fun c => (positionOf output c, positionOf type c) := by
  obtain ⟨shape, order, hn, hp⟩ := type
  obtain ⟨shape', order', hn', hp'⟩ := output
  simp only at hshape hbetween
  subst hshape
  obtain ⟨N, C, D, H, W, rfl⟩ : ∃ N C D H W, shape' = [N, C, D, H, W] := length_eq_five hrank
  rw [map_coords_five]
  unfold blobCopy5d
  apply flatMap_congr; intro n _
  apply flatMap_congr; intro c _
  apply flatMap_congr; intro d _
  apply flatMap_congr; intro h _
  apply map_congr_left; intro w _
  cases hbetween with
  | inl ho =>
    obtain ⟨rfl, rfl⟩ := ho
    simp [positionOf, strideOf, NDType.getMemShape, DimsOrder.toMemoryOrder, DimsOrder.NDHWC, DimsOrder.NCDHW,
      DimsOrder.fromNumDims, encode, weight, DimsOrder.dimPos, range_succ]
    constructor
    · ring
    · ring
  | inr ho =>
    obtain ⟨rfl, rfl⟩ := ho
    simp [positionOf, strideOf, NDType.getMemShape, DimsOrder.toMemoryOrder, DimsOrder.NDHWC, DimsOrder.NCDHW,
      DimsOrder.fromNumDims, encode, weight, DimsOrder.dimPos, range_succ]
    constructor
    · ring
    · ring

theorem getPermutationFromOrders_apply {inOrder outOrder : DimsOrder} (hn : inOrder.numDims = outOrder.numDims)
    (hperm : permOrder.perm = getPermutationFromOrders inOrder outOrder) (v : List ℤ) :
    permOrder.toMemoryOrder (inOrder.toMemoryOrder v) = outOrder.toMemoryOrder v := by
  have hlen : permOrder.numDims = outOrder.numDims := by
    unfold DimsOrder.numDims
    rw [hperm]
    simp [getPermutationFromOrders]
  apply ext_entry (by simp [hlen])
  intro i hi
  have hp : i < permOrder.numDims := by simpa using hi
  have ho : i < outOrder.numDims := hlen ▸ hp
  have hd : permOrder.dimAt i = inOrder.dimPos (outOrder.dimAt i) := by
    have ho' : i < outOrder.perm.length := ho
    unfold DimsOrder.dimAt
    rw [hperm]
    simp [getPermutationFromOrders, ho']
  have hin : outOrder.dimAt i < inOrder.numDims := hn ▸ dimAt_lt ho
  rw [entry_toMemoryOrder hp, hd, entry_toMemoryOrder (dimPos_lt hin),
    dimAt_dimPos hin, entry_toMemoryOrder ho]

theorem optimized_spec (hlen : (input.storage.length : ℤ) = input.type.shape.prod)
    (hopt : isOptimizedTransformationSupported elemSizeBytes input.type.dimsOrder outType.dimsOrder permOrder)
    (hn : input.type.dimsOrder.numDims = outType.dimsOrder.numDims)
    (hshape : outType.getMemShape = permOrder.toMemoryOrder input.type.getMemShape) :
    ∃ storage, memPermuteTransformationOptimized input.storage (List.replicate outType.shape.prod.toNat none)
      input.type outType = some storage ∧ Permuted input outType permOrder storage := by
  obtain ⟨-, hbetween, hperm⟩ := hopt
  have happly := getPermutationFromOrders_apply hn hperm
  -- the logical shape is kept
  have hlogical : outType.shape = input.type.shape := by
    unfold NDType.getMemShape at hshape
    rw [happly] at hshape
    exact toMemoryOrder_injective outType.numDims_eq.symm (hn ▸ input.type.numDims_eq.symm) hshape
  obtain ⟨storage, hstorage, hcopied⟩ := @copy_all α _ _ (nodup_coords input.type.shape) input.storage
    (positionOf outType) (positionOf input.type) outType.shape.prod.toNat (by
      intro c hc
      have hb := @positionOf_bounds outType c (hlogical ▸ mem_coords.mp hc)
      omega) (by
      intro c hc
      rw [hlen]
      exact positionOf_bounds (mem_coords.mp hc)) (by
      intro c hc c' hc' he
      exact positionOf_injective (hlogical ▸ mem_coords.mp hc) (hlogical ▸ mem_coords.mp hc') he)
  have hpermuted : Permuted input outType permOrder storage := by
    intro v hv
    have hm : input.type.getMemShape.length = input.type.dimsOrder.numDims := length_toMemoryOrder
    have hbox := DimsOrder.InBox_toLogicalOrder hm hv
    unfold NDType.getMemShape at hbox
    rw [toLogicalOrder_toMemoryOrder input.type.numDims_eq.symm] at hbox
    have hc := hcopied _ (mem_coords.mpr hbox)
    unfold positionOf at hc
    rw [← happly, toMemoryOrder_toLogicalOrder (hv.length.trans hm)] at hc
    exact hc
  unfold memPermuteTransformationOptimized
  cases hbetween with
  | inl h4 =>
    have hrank : input.type.getRank = 4 := by
      unfold NDType.getRank
      rw [← input.type.numDims_eq]
      cases h4 with
      | inl h => rw [h.1]; rfl
      | inr h => rw [h.1]; rfl
    rw [if_pos hrank, blobCopy4d_eq hrank hlogical h4, hstorage]
    exact ⟨storage, rfl, hpermuted⟩
  | inr h5 =>
    have hrank : input.type.getRank = 5 := by
      unfold NDType.getRank
      rw [← input.type.numDims_eq]
      cases h5 with
      | inl h => rw [h.1]; rfl
      | inr h => rw [h.1]; rfl
    rw [if_neg (by omega), if_pos hrank, blobCopy5d_eq hrank hlogical h5, hstorage]
    exact ⟨storage, rfl, hpermuted⟩

variable {inMemShape outMemShape : List ℤ}

theorem memPermuteIndices_eq (hbox : ∀ v, InBox inMemShape v → InBox outMemShape (permOrder.toMemoryOrder v))
    (hpos : ∀ d ∈ inMemShape, 0 < d) : memPermuteIndices inMemShape outMemShape permOrder =
      some ((natRange inMemShape.prod).map fun k =>
        (encode outMemShape (permOrder.toMemoryOrder (decode inMemShape k)), k)) := by
  unfold memPermuteIndices
  apply mapM_eq_some
  intro k _
  have hb := hbox _ (inBox_decode (x := k) hpos)
  have hcheck : checkedMemIndex1D (permOrder.toMemoryOrder (decode inMemShape k)) outMemShape =
      some (encode outMemShape (permOrder.toMemoryOrder (decode inMemShape k))) := by
    unfold checkedMemIndex1D
    rw [if_pos ⟨hb.length, fun i hi => ((inBox_iff.mp hb).2 i hi).2⟩, getMemIndex1D_eq hb.length]
  simp only [getMemIndexND_eq hpos, hcheck]
  rfl

theorem memPermuteIndices_inBox (hpos : ∀ d ∈ inMemShape, 0 < d) (hlen : permOrder.numDims = inMemShape.length)
    {inds : List (ℤ × ℤ)} (h : memPermuteIndices inMemShape outMemShape permOrder = some inds) {v : List ℤ}
    (hv : InBox inMemShape v) : InBox outMemShape (permOrder.toMemoryOrder v) := by
  obtain ⟨hl, hall⟩ := mapM_some_inv h
  have hb := encode_bounds hv
  obtain ⟨i, hi, he⟩ := mem_iff_getElem.mp (mem_natRange.mpr hb)
  have hstep := hall i hi (hl ▸ hi)
  rw [he, getMemIndexND_eq hpos, decode_encode hv] at hstep
  obtain ⟨ind, hind, -⟩ := Option.bind_eq_some_iff.mp hstep
  unfold checkedMemIndex1D at hind
  split at hind
  · next hcheck =>
    apply inBox_iff.mpr
    refine ⟨hcheck.1, fun j hj => ⟨?_, hcheck.2 j hj⟩⟩
    have hp : j < permOrder.numDims := by
      rw [← hcheck.1, length_toMemoryOrder] at hj
      exact hj
    rw [entry_toMemoryOrder hp]
    exact ((inBox_iff.mp hv).2 _ (hlen ▸ dimAt_lt hp)).1
  · cases hind

theorem generic_spec (hlen : (input.storage.length : ℤ) = input.type.shape.prod)
    (htotal : outType.shape.prod = input.type.shape.prod) (hnum : permOrder.numDims = input.type.dimsOrder.numDims)
    (hbox : ∀ v, InBox input.type.getMemShape v → InBox outType.getMemShape (permOrder.toMemoryOrder v)) :
    ∃ inds storage, memPermuteIndices input.type.getMemShape outType.getMemShape permOrder = some inds ∧
      copyElements input.storage (List.replicate outType.shape.prod.toNat none) inds = some storage ∧
      Permuted input outType permOrder storage := by
  have hpos := input.type.memShape_pos
  have hmem : ∀ v, InBox input.type.getMemShape v → v.length = permOrder.numDims := by
    intro v hv
    rw [hv.length, hnum]
    exact length_toMemoryOrder
  have hrange : ∀ {k}, k ∈ natRange input.type.getMemShape.prod →
      0 ≤ k ∧ k < input.type.getMemShape.prod := fun hk => mem_natRange.mp hk
  obtain ⟨storage, hstorage, hcopied⟩ := @copy_all α _ _ (nodup_natRange input.type.getMemShape.prod) input.storage
    (fun k => encode outType.getMemShape (permOrder.toMemoryOrder (decode input.type.getMemShape k))) id
    outType.shape.prod.toNat (by
      intro k _
      have hb := encode_bounds (hbox _ (inBox_decode (x := k) hpos))
      rw [NDType.memShape_prod] at hb
      omega) (by
      intro k hk
      rw [hlen, ← NDType.memShape_prod]
      exact hrange hk) (by
      intro k hk l hl he
      have hdk := inBox_decode (x := k) hpos
      have hdl := inBox_decode (x := l) hpos
      have hd := toMemoryOrder_injective (hmem _ hdk) (hmem _ hdl) (encode_injective (hbox _ hdk) (hbox _ hdl) he)
      rw [← encode_decode hpos (hrange hk).1 (hrange hk).2, hd, encode_decode hpos (hrange hl).1 (hrange hl).2])
  refine ⟨_, storage, memPermuteIndices_eq hbox hpos, hstorage, fun v hv => ?_⟩
  have hc := hcopied _ (mem_natRange.mpr (encode_bounds hv))
  rw [decode_encode hv] at hc
  exact hc

theorem memPermuteTransformation_spec (hns : input.isSplat = false)
    (hlen : (input.storage.length : ℤ) = input.type.shape.prod) (hn : input.type.dimsOrder.numDims = outType.dimsOrder.numDims)
    (hp : permOrder.numDims = input.type.dimsOrder.numDims)
    (hshape : outType.getMemShape = permOrder.toMemoryOrder input.type.getMemShape) :
    ∃ storage, memPermuteTransformation elemSizeBytes input outType permOrder.perm = some ⟨outType, false, storage⟩ ∧
      Permuted input outType permOrder storage := by
  have hm : input.type.getMemShape.length = permOrder.numDims := by
    rw [hp]
    exact length_toMemoryOrder
  have hbox : ∀ v, InBox input.type.getMemShape v → InBox outType.getMemShape (permOrder.toMemoryOrder v) := by
    intro v hv
    rw [hshape]
    exact DimsOrder.InBox_toMemoryOrder hm hv
  have htotal : outType.shape.prod = input.type.shape.prod := by
    rw [← NDType.memShape_prod, hshape, prod_toMemoryOrder hm, NDType.memShape_prod]
  have hdims : ¬(input.type.dimsOrder.numDims ≠ outType.dimsOrder.numDims ∨
      input.type.dimsOrder.numDims ≠ permOrder.numDims) := by
    push Not
    exact ⟨hn, hp.symm⟩
  unfold memPermuteTransformation
  simp only [fromAffineMap_perm, Option.bind_eq_bind, Option.bind_some, if_neg hdims, hns, Bool.false_eq_true, false_or]
  by_cases htriv : isTrivialPermute input.type.getMemShape permOrder
  · rw [if_pos htriv]
    refine ⟨_, rfl, fun v hv => ?_⟩
    rw [hshape, encode_of_trivial htriv hm hv]
  · rw [if_neg htriv]
    have hsize : ¬(List.replicate outType.shape.prod.toNat (none : Option α)).length ≠ input.storage.length := by
      rw [length_replicate, not_not]
      omega
    rw [if_neg hsize]
    by_cases hopt : isOptimizedTransformationSupported elemSizeBytes input.type.dimsOrder outType.dimsOrder permOrder
    · obtain ⟨storage, hstorage, hper⟩ := optimized_spec hlen hopt hn hshape
      rw [if_pos hopt, hstorage]
      exact ⟨storage, rfl, hper⟩
    · obtain ⟨inds, storage, hinds, hstorage, hper⟩ := generic_spec hlen htotal hp hbox
      rw [if_neg hopt, hinds, Option.bind_some, hstorage]
      exact ⟨storage, rfl, hper⟩

def unitVector (n d : ℕ) : List ℤ := (List.replicate n 0).set d 1

theorem entry_unitVector {n d i : ℕ} (hd : d < n) : entry (unitVector n d) i = if i = d then 1 else 0 := by
  unfold entry unitVector
  rw [getD_eq_getElem?_getD, getElem?_set]
  by_cases h : d = i
  · subst h
    simp [hd]
  · rw [if_neg h, if_neg (Ne.symm h), getElem?_replicate]
    split
    · rfl
    · rfl

theorem inBox_unitVector {m : List ℤ} {d : ℕ} (hpos : ∀ e ∈ m, 0 < e) (hd : d < m.length) (h2 : entry m d ≠ 1) :
    InBox m (unitVector m.length d) := by
  apply inBox_iff.mpr
  refine ⟨by simp [unitVector], fun i hi => ?_⟩
  rw [entry_unitVector hd]
  have hi0 := hpos _ (entry_mem hi)
  by_cases h : i = d
  · rw [if_pos h]
    subst h
    omega
  · rw [if_neg h]
    omega

theorem toMemoryOrder_unitVector {d : ℕ} (hd : d < permOrder.numDims) :
    permOrder.toMemoryOrder (unitVector permOrder.numDims d) = unitVector permOrder.numDims (permOrder.dimPos d) := by
  apply ext_entry (by simp [unitVector])
  intro i hi
  have hi' : i < permOrder.numDims := by simpa using hi
  rw [entry_toMemoryOrder hi', entry_unitVector hd, entry_unitVector (dimPos_lt hd)]
  have hiff : permOrder.dimAt i = d ↔ i = permOrder.dimPos d := by
    constructor
    · intro h
      rw [← h, dimPos_dimAt hi']
    · intro h
      rw [h, dimAt_dimPos hd]
  simp only [hiff]

theorem trivial_of_encode {m : List ℤ} (hpos : ∀ d ∈ m, 0 < d) (hm : m.length = permOrder.numDims)
    (h : ∀ v, InBox m v → encode (permOrder.toMemoryOrder m) (permOrder.toMemoryOrder v) = encode m v) :
    isTrivialPermute m permOrder := by
  have hweight : ∀ d < permOrder.numDims, entry m d ≠ 1 →
      weight (permOrder.toMemoryOrder m) (permOrder.dimPos d) = weight m d := by
    intro d hd h1
    have hd' : d < m.length := hm ▸ hd
    have he := h _ (inBox_unitVector hpos hd' h1)
    have hlen : permOrder.dimPos d < (permOrder.toMemoryOrder m).length := by
      rw [length_toMemoryOrder]
      exact dimPos_lt hd
    have hleft := encode_unit hlen
    rw [length_toMemoryOrder] at hleft
    rw [hm, toMemoryOrder_unitVector hd] at he
    unfold unitVector at he
    rw [hleft, ← hm, encode_unit hd'] at he
    exact he
  have hpermuted : ∀ d ∈ permOrder.toMemoryOrder m, 0 < d := by
    intro e he
    obtain ⟨d, hd, rfl⟩ := mem_map.mp he
    exact hpos _ (entry_mem (hm ▸ mem_perm.mp hd))
  apply isChain_iff_pairwise.mpr
  apply pairwise_filter.mpr
  apply pairwise_iff_getElem.mpr
  intro i j hi hj hij hdi hdj
  have hdi := of_decide_eq_true hdi
  have hdj := of_decide_eq_true hdj
  by_contra hlt
  have hdim : ∀ k (hk : k < permOrder.perm.length), permOrder.perm[k] < permOrder.numDims ∧
      permOrder.dimPos permOrder.perm[k] = k := by
    intro k hk
    have he : permOrder.dimAt k = permOrder.perm[k] := getD_eq_getElem _ _ hk
    rw [← he]
    exact ⟨dimAt_lt hk, dimPos_dimAt hk⟩
  obtain ⟨hni, hpi⟩ := hdim i hi
  obtain ⟨hnj, hpj⟩ := hdim j hj
  have hwi := hweight _ hni hdi
  have hwj := hweight _ hnj hdj
  rw [hpi] at hwi
  rw [hpj] at hwj
  have hposi := hpos _ (entry_mem (hm ▸ hni))
  have hsource := weight_lt_of_lt hpos (hm ▸ hni) (show 2 ≤ entry m permOrder.perm[i] by omega)
    (show permOrder.perm[j] < permOrder.perm[i] by omega)
  have hj2 : 2 ≤ entry (permOrder.toMemoryOrder m) j := by
    have hposj := hpos _ (entry_mem (hm ▸ hnj))
    have he : permOrder.dimAt j = permOrder.perm[j] := getD_eq_getElem _ _ hj
    rw [entry_toMemoryOrder hj, he]
    omega
  have htarget := weight_lt_of_lt hpermuted (length_toMemoryOrder ▸ hj) hj2 hij
  omega

end

end NpuCompiler.Const
