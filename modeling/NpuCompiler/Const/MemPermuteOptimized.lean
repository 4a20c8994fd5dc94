import NpuCompiler.Const.LogicalLayout

namespace NpuCompiler.Const

open MixedRadix List DimsOrder

section

/-- The inner loop: an element is copied, and both pointers move on. The second component is the destination pointer behind
the row. -/
def rowLoop (W dstStep srcStep dstPtr srcPtr : ℤ) : List (ℤ × ℤ) × ℤ :=
  let st := (natRange W).foldl (fun (st : List (ℤ × ℤ) × ℤ × ℤ) _ =>
    (st.1 ++ [(st.2.1, st.2.2)], st.2.1 + dstStep, st.2.2 + srcStep)) ([], dstPtr, srcPtr)
  (st.1, st.2.1)

def planeLoop (H W inputH dstStep srcStep dstPtr srcPtr : ℤ) : List (ℤ × ℤ) :=
  ((natRange H).foldl (fun (st : List (ℤ × ℤ) × ℤ) h =>
    let row := rowLoop W dstStep srcStep st.2 (srcPtr + h * inputH)
    (st.1 ++ row.1, row.2)) ([], dstPtr)).1

def blobCopy4dPointers (input output : NDType) : List (ℤ × ℤ) :=
  let N := entry input.shape 0
  let C := entry input.shape 1
  let H := entry input.shape 2
  let W := entry input.shape 3
  (natRange N).flatMap fun n => (natRange C).flatMap fun c =>
    let srcPtr := n * strideOf input 0 + c * strideOf input 1
    if input.dimsOrder = DimsOrder.NHWC then
      planeLoop H W (strideOf input 2) 1 (strideOf input 3) (n * strideOf output 0 + c * strideOf output 1) srcPtr
    else planeLoop H W (strideOf input 2) (strideOf output 3) 1 (n * strideOf output 0 + c) srcPtr

def blobCopy5dPointers (input output : NDType) : List (ℤ × ℤ) :=
  let N := entry input.shape 0
  let C := entry input.shape 1
  let D := entry input.shape 2
  let H := entry input.shape 3
  let W := entry input.shape 4
  (natRange N).flatMap fun n => (natRange C).flatMap fun c => (natRange D).flatMap fun d =>
    let srcPtr := n * strideOf input 0 + c * strideOf input 1 + d * strideOf input 2
    if input.dimsOrder = DimsOrder.NDHWC then
      planeLoop H W (strideOf input 3) 1 (strideOf input 4)
        (n * strideOf output 0 + c * strideOf output 1 + d * strideOf output 2) srcPtr
    else planeLoop H W (strideOf input 3) (strideOf output 4) 1 (n * strideOf output 0 + c + d * strideOf output 2) srcPtr

def optimizedPointers (input output : NDType) : Option (List (ℤ × ℤ)) :=
  if input.getRank = 4 then some (blobCopy4dPointers input output)
  else if input.getRank = 5 then some (blobCopy5dPointers input output)
  else none

theorem foldl_natRange {σ : Type} {step : σ → ℤ → σ} {s : σ} {n : ℤ} :
    (natRange n).foldl step s = (List.range n.toNat).foldl (fun s (i : ℕ) => step s i) s := by
  unfold natRange
  rw [foldl_map]

theorem rowLoop_eq {W dstStep srcStep dstPtr srcPtr : ℤ} (hW : 0 ≤ W) : rowLoop W dstStep srcStep dstPtr srcPtr =
    ((natRange W).map fun w => (dstPtr + w * dstStep, srcPtr + w * srcStep), dstPtr + W * dstStep) := by
  have hrun (n : ℕ) : (List.range n).foldl (fun (st : List (ℤ × ℤ) × ℤ × ℤ) (_ : ℕ) =>
      (st.1 ++ [(st.2.1, st.2.2)], st.2.1 + dstStep, st.2.2 + srcStep)) ([], dstPtr, srcPtr) =
      ((List.range n).map fun (w : ℕ) => (dstPtr + w * dstStep, srcPtr + w * srcStep), dstPtr + n * dstStep, srcPtr + n * srcStep) := by
    induction n with
    | zero => simp
    | succ n ih =>
      rw [range_succ, foldl_append, ih, map_append]
      simp only [foldl_cons, foldl_nil, map_cons, map_nil, Nat.cast_add, Nat.cast_one, Prod.mk.injEq, true_and]
      constructor
      · ring
      · ring
  unfold rowLoop
  rw [foldl_natRange, hrun]
  unfold natRange
  rw [map_map, Int.toNat_of_nonneg hW]
  rfl

theorem planeLoop_eq {H W inputH dstStep srcStep dstPtr srcPtr : ℤ} (hW : 0 ≤ W) :
    planeLoop H W inputH dstStep srcStep dstPtr srcPtr = (natRange H).flatMap fun h => (natRange W).map fun w =>
      (dstPtr + (h * W + w) * dstStep, srcPtr + h * inputH + w * srcStep) := by
  have hrun (n : ℕ) : (List.range n).foldl (fun (st : List (ℤ × ℤ) × ℤ) (h : ℕ) =>
      let row := rowLoop W dstStep srcStep st.2 (srcPtr + h * inputH)
      (st.1 ++ row.1, row.2)) ([], dstPtr) =
      ((List.range n).flatMap fun (h : ℕ) => (natRange W).map fun w =>
        (dstPtr + (h * W + w) * dstStep, srcPtr + h * inputH + w * srcStep), dstPtr + n * W * dstStep) := by
    induction n with
    | zero => simp
    | succ n ih =>
      rw [range_succ, foldl_append, ih, flatMap_append]
      simp only [foldl_cons, foldl_nil, rowLoop_eq hW, flatMap_cons, flatMap_nil, append_nil, Prod.mk.injEq]
      constructor
      · congr 1
        apply map_congr_left
        intro w _
        congr 1
        ring
      · push_cast
        ring
  unfold planeLoop
  rw [foldl_natRange, hrun]
  unfold natRange
  rw [flatMap_map]

theorem blobCopy4dPointers_eq {input output : NDType} (hrank : input.getRank = 4) :
    blobCopy4dPointers input output = blobCopy4d input output := by
  have hW : 0 ≤ entry input.shape 3 := (input.shape_pos _ (entry_mem (by unfold NDType.getRank at hrank; omega))).le
  unfold blobCopy4dPointers blobCopy4d
  apply flatMap_congr; intro n _
  apply flatMap_congr; intro c _
  dsimp only
  split_ifs
  · rw [planeLoop_eq hW]
    simp only [mul_one]
  · rw [planeLoop_eq hW]
    simp only [mul_one]

theorem blobCopy5dPointers_eq {input output : NDType} (hrank : input.getRank = 5) :
    blobCopy5dPointers input output = blobCopy5d input output := by
  have hW : 0 ≤ entry input.shape 4 := (input.shape_pos _ (entry_mem (by unfold NDType.getRank at hrank; omega))).le
  unfold blobCopy5dPointers blobCopy5d
  apply flatMap_congr; intro n _
  apply flatMap_congr; intro c _
  apply flatMap_congr; intro d _
  dsimp only
  split_ifs
  · rw [planeLoop_eq hW]
    simp only [mul_one]
  · rw [planeLoop_eq hW]
    simp only [mul_one]

variable {β : Type} {src dst : List (Option β)} {inds inds' : List (ℤ × ℤ)} {elemSizeBytes : ℕ}

def bytesOf (elemSizeBytes : ℕ) (inds : List (ℤ × ℤ)) : List (ℤ × ℤ) :=
  inds.flatMap fun ind => (natRange elemSizeBytes).map fun k => (ind.1 * elemSizeBytes + k, ind.2 * elemSizeBytes + k)

theorem copyElements_perm (hperm : inds.Perm inds') (hsrc : ∀ p ∈ inds, 0 ≤ p.2 ∧ p.2 < src.length)
    (hdst : ∀ p ∈ inds, 0 ≤ p.1 ∧ p.1 < dst.length) (hnd : (inds.map Prod.fst).Nodup) :
    copyElements src dst inds = copyElements src dst inds' := by
  obtain ⟨out, hout, hlen, hcopied, hkept⟩ := copyElements_spec hsrc hdst hnd
  obtain ⟨out', hout', hlen', hcopied', hkept'⟩ := copyElements_spec (fun p hp => hsrc p (hperm.mem_iff.mpr hp))
    (fun p hp => hdst p (hperm.mem_iff.mpr hp)) ((hperm.map Prod.fst).nodup_iff.mp hnd)
  rw [hout, hout']
  congr 1
  apply ext_getElem?
  intro q
  by_cases hq : (q : ℤ) ∈ inds.map Prod.fst
  · obtain ⟨p, hp, hpq⟩ := mem_map.mp hq
    have hqLen : q < dst.length := by
      have := (hdst p hp).2
      omega
    have hjoin := (hcopied p hp).trans (hcopied' p (hperm.mem_iff.mp hp)).symm
    rw [hpq, Int.toNat_natCast, getElem?_eq_getElem (by omega), getElem?_eq_getElem (by omega)] at hjoin
    rw [getElem?_eq_getElem (by omega), getElem?_eq_getElem (by omega)]
    exact congrArg some hjoin
  · rw [hkept q hq, hkept' q (fun hq' => hq ((hperm.map Prod.fst).mem_iff.mpr hq'))]

theorem mem_bytesOf {q : ℤ × ℤ} : q ∈ bytesOf elemSizeBytes inds ↔
    ∃ p ∈ inds, ∃ k : ℤ, 0 ≤ k ∧ k < elemSizeBytes ∧ q = (p.1 * elemSizeBytes + k, p.2 * elemSizeBytes + k) := by
  unfold bytesOf
  rw [mem_flatMap]
  refine exists_congr fun p => and_congr_right fun _ => ?_
  rw [mem_map]
  constructor
  · rintro ⟨k, hk, rfl⟩
    exact ⟨k, (mem_natRange.mp hk).1, (mem_natRange.mp hk).2, rfl⟩
  · rintro ⟨k, hk, hlt, rfl⟩
    exact ⟨k, mem_natRange.mpr ⟨hk, hlt⟩, rfl⟩

theorem byte_bounds {x n k : ℤ} {e : ℕ} (hx : 0 ≤ x ∧ x < n) (hk : 0 ≤ k) (hlt : k < e) : 0 ≤ x * e + k ∧ x * e + k < n * e := by
  obtain ⟨h0, hn⟩ := hx
  constructor
  · positivity
  · have : (x + 1) * e ≤ n * e := by gcongr; omega
    linarith

theorem byte_injective {x y k l : ℤ} {e : ℕ} (hk : 0 ≤ k ∧ k < e) (hl : 0 ≤ l ∧ l < e) (h : x * e + k = y * e + l) :
    x = y ∧ k = l := by
  have hx : x = y := by
    rcases Int.lt_trichotomy x y with hlt | heq | hlt
    · have : (x + 1) * e ≤ y * e := by gcongr; omega
      linarith
    · exact heq
    · have : (y + 1) * e ≤ x * e := by gcongr; omega
      linarith
  subst hx
  exact ⟨rfl, by linarith⟩

theorem nodup_bytesOf (hnd : (inds.map Prod.fst).Nodup) : ((bytesOf elemSizeBytes inds).map Prod.fst).Nodup := by
  unfold bytesOf
  rw [map_flatMap]
  apply nodup_flatMap.mpr
  constructor
  · intro p _
    rw [map_map]
    apply (nodup_natRange _).map
    intro k l h
    exact add_left_cancel h
  · apply (pairwise_map.mp hnd).imp
    intro p q hpq
    simp only [Function.onFun, disjoint_left, mem_map, not_exists, not_and]
    rintro _ ⟨_, ⟨k, hk, rfl⟩, rfl⟩ _ ⟨l, hl, rfl⟩ heq
    exact hpq (byte_injective (mem_natRange.mp hk) (mem_natRange.mp hl) heq.symm).1

variable {attr : TransformAttr} {input outType : NDType} {permOrder : DimsOrder}

def layoutPermutation (input outType : NDType) : TransformAttr → Option (List ℕ)
  | .reorder _ => some (getPermutationFromOrders input.dimsOrder outType.dimsOrder)
  | .memPermute _ memPerm => some memPerm.perm
  | .transpose order => some (compose input.dimsOrder.perm order.perm)
  | _ => none

theorem isBetween_ne {order1 order2 typeOrder1 typeOrder2 : DimsOrder} (hne : order1 ≠ order2)
    (h : isBetween order1 order2 typeOrder1 typeOrder2) : typeOrder1 ≠ typeOrder2 := by
  rintro rfl
  rcases h with ⟨h1, h2⟩ | ⟨h1, h2⟩
  · exact hne (h1.symm.trans h2)
  · exact hne (h2.symm.trans h1)

theorem supported_memShape (hinfer : attr.inferOutputType input = some outType)
    (hperm : layoutPermutation input outType attr = some permOrder.perm)
    (hsupported : isOptimizedTransformationSupported elemSizeBytes input.dimsOrder outType.dimsOrder permOrder) :
    outType.getMemShape = permOrder.toMemoryOrder input.getMemShape ∧ permOrder.numDims = input.dimsOrder.numDims ∧
      outType.dimsOrder.numDims = input.dimsOrder.numDims := by
  cases attr with
  | reorder order =>
    obtain ⟨permOrder', hperm', hfollows⟩ := reorder_follows hinfer
    have hsame : permOrder = permOrder' := by
      have hlists := (Option.some.inj hperm).symm.trans hperm'.symm
      cases permOrder
      cases permOrder'
      cases hlists
      rfl
    subst hsame
    exact ⟨hfollows.memShape, hfollows.rank, hfollows.outRank⟩
  | memPermute dstOrder memPerm =>
    have hfollows := memPermute_follows hinfer
    have hsame : permOrder = memPerm := by
      have hlists := (Option.some.inj hperm).symm
      cases permOrder
      cases memPerm
      cases hlists
      rfl
    subst hsame
    exact ⟨hfollows.memShape, hfollows.rank, hfollows.outRank⟩
  | transpose order =>
    obtain ⟨horder, -⟩ := transpose_follows hinfer
    rcases hsupported.2.1 with h | h
    · exact absurd horder.symm (isBetween_ne (by decide) h)
    · exact absurd horder.symm (isBetween_ne (by decide) h)
  | _ => cases hperm

theorem optimizedPointers_eq (hbetween : isBetween DimsOrder.NHWC DimsOrder.NCHW input.dimsOrder outType.dimsOrder ∨
      isBetween DimsOrder.NCDHW DimsOrder.NDHWC input.dimsOrder outType.dimsOrder) (hshape : outType.shape = input.shape) :
    optimizedPointers input outType = some ((coords input.shape).map fun c => (positionOf outType c, positionOf input c)) := by
  have hnum : input.getRank = input.dimsOrder.numDims := input.numDims_eq.symm
  unfold optimizedPointers
  cases hbetween with
  | inl h4 =>
    have hrank : input.getRank = 4 := by
      rw [hnum]
      rcases h4 with ⟨h, -⟩ | ⟨h, -⟩
      · rw [h]
        rfl
      · rw [h]
        rfl
    rw [if_pos hrank, blobCopy4dPointers_eq hrank, blobCopy4d_eq hrank hshape h4]
  | inr h5 =>
    have hrank : input.getRank = 5 := by
      rw [hnum]
      rcases h5 with ⟨h, -⟩ | ⟨h, -⟩
      · rw [h]
        rfl
      · rw [h]
        rfl
    rw [if_neg (by omega), if_pos hrank, blobCopy5dPointers_eq hrank, blobCopy5d_eq hrank hshape h5]

theorem positions_perm
    (happly : ∀ v, permOrder.toMemoryOrder (input.dimsOrder.toMemoryOrder v) = outType.dimsOrder.toMemoryOrder v) :
    ((coords input.shape).map fun c => (positionOf outType c, positionOf input c)).Perm
      ((natRange input.getMemShape.prod).map fun k =>
        (encode outType.getMemShape (permOrder.toMemoryOrder (decode input.getMemShape k)), k)) := by
  have hpos := input.memShape_pos
  have hpositions : ((coords input.shape).map fun c => (positionOf outType c, positionOf input c)).Nodup := by
    apply List.Nodup.map_on _ (nodup_coords input.shape)
    intro c hc c' hc' heq
    exact positionOf_injective (mem_coords.mp hc) (mem_coords.mp hc') (Prod.mk.inj heq).2
  have hindices : ((natRange input.getMemShape.prod).map fun k =>
      (encode outType.getMemShape (permOrder.toMemoryOrder (decode input.getMemShape k)), k)).Nodup :=
    (nodup_natRange _).map fun k l heq => (Prod.mk.inj heq).2
  apply (perm_ext_iff_of_nodup hpositions hindices).mpr
  intro p
  rw [mem_map, mem_map]
  constructor
  · rintro ⟨c, hc, rfl⟩
    have hbox := DimsOrder.InBox_toMemoryOrder input.numDims_eq.symm (mem_coords.mp hc)
    refine ⟨positionOf input c, mem_natRange.mpr (encode_bounds hbox), ?_⟩
    unfold positionOf NDType.getMemShape
    rw [decode_encode hbox, happly]
  · rintro ⟨k, hk, rfl⟩
    obtain ⟨h0, hlt⟩ := mem_natRange.mp hk
    have hbox := inBox_decode (x := k) hpos
    have hlen : (decode input.getMemShape k).length = input.dimsOrder.numDims := hbox.length.trans length_toMemoryOrder
    refine ⟨input.dimsOrder.toLogicalOrder (decode input.getMemShape k), ?_, ?_⟩
    · have hlogical := DimsOrder.InBox_toLogicalOrder length_toMemoryOrder hbox
      unfold NDType.getMemShape at hlogical
      rw [toLogicalOrder_toMemoryOrder input.numDims_eq.symm] at hlogical
      exact mem_coords.mpr hlogical
    · unfold positionOf
      rw [← happly, toMemoryOrder_toLogicalOrder hlen, encode_decode hpos h0 hlt]

/-- The loops run in parallel, so the copies come in any order. -/
theorem memPermuteTransformationOptimized_eq_generic {src dst : List (Option β)} (hinfer : attr.inferOutputType input = some outType)
    (hperm : layoutPermutation input outType attr = some permOrder.perm)
    (hsupported : isOptimizedTransformationSupported elemSizeBytes input.dimsOrder outType.dimsOrder permOrder)
    (hsrc : (src.length : ℤ) = input.shape.prod * elemSizeBytes) (hdst : dst.length = src.length) :
    ∃ optimized generic out, optimizedPointers input outType = some optimized ∧
      memPermuteIndices input.getMemShape outType.getMemShape permOrder = some generic ∧
      (∀ inds, inds.Perm (bytesOf elemSizeBytes optimized) → copyElements src dst inds = some out) ∧
      ∀ inds, inds.Perm (bytesOf elemSizeBytes generic) → copyElements src dst inds = some out := by
  obtain ⟨hmemShape, hrank, houtRank⟩ := supported_memShape hinfer hperm hsupported
  obtain ⟨-, hbetween, hpermOrder⟩ := hsupported
  have happly := getPermutationFromOrders_apply houtRank.symm hpermOrder
  have hshape : outType.shape = input.shape := by
    unfold NDType.getMemShape at hmemShape
    rw [happly] at hmemShape
    exact toMemoryOrder_injective outType.numDims_eq.symm (houtRank ▸ input.numDims_eq.symm) hmemShape
  have hbox (v : List ℤ) (hv : InBox input.getMemShape v) : InBox outType.getMemShape (permOrder.toMemoryOrder v) := by
    rw [hmemShape]
    exact DimsOrder.InBox_toMemoryOrder (length_toMemoryOrder.trans hrank.symm) hv
  have hperm := positions_perm happly
  let optimized := (coords input.shape).map fun c => (positionOf outType c, positionOf input c)
  have hinside (q : ℤ × ℤ) (hq : q ∈ bytesOf elemSizeBytes optimized) :
      (0 ≤ q.2 ∧ q.2 < src.length) ∧ 0 ≤ q.1 ∧ q.1 < dst.length := by
    obtain ⟨p, hp, k, hk, hlt, rfl⟩ := mem_bytesOf.mp hq
    obtain ⟨c, hc, rfl⟩ := mem_map.mp hp
    have hout := @positionOf_bounds outType c (hshape ▸ mem_coords.mp hc)
    rw [hshape] at hout
    rw [hdst, hsrc]
    exact ⟨byte_bounds (positionOf_bounds (mem_coords.mp hc)) hk hlt, byte_bounds hout hk hlt⟩
  have hnd : ((bytesOf elemSizeBytes optimized).map Prod.fst).Nodup := by
    apply nodup_bytesOf
    rw [map_map]
    apply List.Nodup.map_on _ (nodup_coords input.shape)
    intro c hc c' hc' heq
    exact positionOf_injective (hshape ▸ mem_coords.mp hc) (hshape ▸ mem_coords.mp hc') heq
  obtain ⟨out, hout, -⟩ := copyElements_spec (fun q hq => (hinside q hq).1) (fun q hq => (hinside q hq).2) hnd
  have hsame (inds : List (ℤ × ℤ)) (hinds : (bytesOf elemSizeBytes optimized).Perm inds) : copyElements src dst inds = some out := by
    rw [← copyElements_perm hinds (fun q hq => (hinside q hq).1) (fun q hq => (hinside q hq).2) hnd]
    exact hout
  refine ⟨optimized, _, out, optimizedPointers_eq hbetween hshape, memPermuteIndices_eq hbox input.memShape_pos, ?_, ?_⟩
  · exact fun inds hinds => hsame inds hinds.symm
  · exact fun inds hinds => hsame inds ((hperm.flatMap_right _).trans hinds.symm)

theorem memPermuteTransformationOptimized_eq_generic_nchw :
    ∃ optimized generic out, optimizedPointers (cube DimsOrder.NCHW rfl) (cube DimsOrder.NHWC rfl) = some optimized ∧
      memPermuteIndices [1, 2, 2, 2] [1, 2, 2, 2] DimsOrder.NHWC = some generic ∧
      (∀ inds, inds.Perm (bytesOf 2 optimized) → copyElements ((List.range 16).map some) (List.replicate 16 none) inds =
        some out) ∧
      ∀ inds, inds.Perm (bytesOf 2 generic) → copyElements ((List.range 16).map some) (List.replicate 16 none) inds = some out :=
  @memPermuteTransformationOptimized_eq_generic ℕ 2 (.reorder DimsOrder.NHWC) (cube DimsOrder.NCHW rfl) (cube DimsOrder.NHWC rfl)
    DimsOrder.NHWC ((List.range 16).map some) (List.replicate 16 none) (by decide) (by decide) (by decide) (by decide) (by decide)

end

end NpuCompiler.Const
