import NpuCompiler.Const.SubViewCopies

namespace NpuCompiler.Const

open MixedRadix ByteCopies

section

def padWithZeroRows (inMemShape outMemShape memPadBefore : List ℤ) (isSplat : Bool) (numElements : ℤ) : Option (ℤ × List (ℤ × ℤ)) :=
  let IN0 := entry inMemShape 0
  let IN1 := entry inMemShape 1
  let IN2 := entry inMemShape 2
  let IN3 := entry inMemShape 3
  let OUT1 := entry outMemShape 1
  let OUT2 := entry outMemShape 2
  let OUT3 := entry outMemShape 3
  match memPadBefore with
  | [off0] =>
    if isSplat then some (1, (natRange IN0).map fun in0 =>
      let out0 := in0 + off0
      (out0, 0))
    else some (numElements, [(off0, 0)])
  | [off0, off1] => some (1, (natRange IN0).flatMap fun in0 => (natRange IN1).map fun in1 =>
      let out0 := in0 + off0
      let out1 := in1 + off1
      (out1 + out0 * OUT1, if isSplat then 0 else in1 + in0 * IN1))
  | [off0, off1, off2] => some (1, (natRange IN0).flatMap fun in0 => (natRange IN1).flatMap fun in1 => (natRange IN2).map fun in2 =>
      let out0 := in0 + off0
      let out1 := in1 + off1
      let out2 := in2 + off2
      (out2 + out1 * OUT2 + out0 * OUT2 * OUT1, if isSplat then 0 else in2 + in1 * IN2 + in0 * IN2 * IN1))
  | [off0, off1, off2, off3] => some (1, (natRange IN0).flatMap fun in0 => (natRange IN1).flatMap fun in1 =>
      (natRange IN2).flatMap fun in2 => (natRange IN3).map fun in3 =>
        let out0 := in0 + off0
        let out1 := in1 + off1
        let out2 := in2 + off2
        let out3 := in3 + off3
        (out3 + out2 * OUT3 + out1 * OUT3 * OUT2 + out0 * OUT3 * OUT2 * OUT1,
          if isSplat then 0 else in3 + in2 * IN3 + in1 * IN3 * IN2 + in0 * IN3 * IN2 * IN1))
  | _ => do
    let inds ← (natRange numElements).mapM fun inMemInd1D => do
      let inMemIndND := getMemIndexND inMemInd1D inMemShape
      let outMemInd1D ← checkedMemIndex1D (shift inMemIndND memPadBefore) outMemShape
      some (outMemInd1D, if isSplat then 0 else inMemInd1D)
    some (1, inds)

/-- `outBuf` is the buffer of the output after `fillWithZero`; `schedule` is the order in which the parallel copies run. -/
def padWithZeroTransform (schedule : List (ℕ × ℕ) → List (ℕ × ℕ)) (input : NDType) (padBefore padAfter : List ℤ) (isSplat : Bool)
    (elemSize : ℕ) (inBuf outBuf : List (BitVec 8)) : Option (List (BitVec 8)) := do
  let order := input.dimsOrder
  let inMemShape := order.toMemoryOrder input.shape
  let outMemShape := order.toMemoryOrder (shift (shift input.shape padBefore) padAfter)
  let memPadBefore := order.toMemoryOrder padBefore
  let rows ← padWithZeroRows inMemShape outMemShape memPadBefore isSplat input.shape.prod
  copyAll (rows.1.toNat * elemSize) inBuf outBuf (schedule (inBytes elemSize rows.2))

def padPairs (inMemShape outMemShape memPadBefore : List ℤ) (isSplat : Bool) : List (ℤ × ℤ) :=
  (coords inMemShape).map fun c => (encode outMemShape (shift c memPadBefore), storedIndex isSplat (encode inMemShape c))

structure PadsInput (input : NDType) (padBefore padAfter : List ℤ) (isSplat : Bool) (bits : ℕ)
    (inBuf filled result : List (BitVec 8)) : Prop where
  inside : ∀ c, InBox (input.dimsOrder.toMemoryOrder input.shape) c →
    elementBits bits result (encode (input.dimsOrder.toMemoryOrder (shift (shift input.shape padBefore) padAfter))
        (shift c (input.dimsOrder.toMemoryOrder padBefore))) =
      elementBits bits inBuf (storedIndex isSplat (encode (input.dimsOrder.toMemoryOrder input.shape) c))
  outside : ∀ y, InBox (input.dimsOrder.toMemoryOrder (shift (shift input.shape padBefore) padAfter)) y →
    (∀ c, InBox (input.dimsOrder.toMemoryOrder input.shape) c → y ≠ shift c (input.dimsOrder.toMemoryOrder padBefore)) →
    elementBits bits result (encode (input.dimsOrder.toMemoryOrder (shift (shift input.shape padBefore) padAfter)) y) =
      elementBits bits filled (encode (input.dimsOrder.toMemoryOrder (shift (shift input.shape padBefore) padAfter)) y)

variable {inMemShape outMemShape memPadBefore : List ℤ} {isSplat : Bool}

theorem genericPadIndices_eq (h : Fits outMemShape memPadBefore inMemShape) :
    ((natRange inMemShape.prod).mapM fun inMemInd1D => do
      let inMemIndND := getMemIndexND inMemInd1D inMemShape
      let outMemInd1D ← checkedMemIndex1D (shift inMemIndND memPadBefore) outMemShape
      some (outMemInd1D, if isSplat then 0 else inMemInd1D)) = some (padPairs inMemShape outMemShape memPadBefore isSplat) := by
  have hpos := h.shape_pos
  rw [mapM_eq_some (g := fun x => (encode outMemShape (shift (decode inMemShape x) memPadBefore), storedIndex isSplat x))]
  · unfold padPairs
    rw [← map_decode_natRange hpos, List.map_map]
    congr 1
    apply List.map_congr_left
    intro x hx
    obtain ⟨hx0, hxlt⟩ := mem_natRange.mp hx
    rw [Function.comp_apply, encode_decode hpos hx0 hxlt]
  · intro x _
    dsimp only
    rw [getMemIndexND_eq hpos, checkedMemIndex1D_eq (h.inBox_shift (inBox_decode hpos))]
    rfl

theorem storedIndex_ite (x : ℤ) : (if isSplat then 0 else x) = storedIndex isSplat x := rfl

theorem padWithZeroRows_spec (h : Fits outMemShape memPadBefore inMemShape) :
    ∃ rows, padWithZeroRows inMemShape outMemShape memPadBefore isSplat inMemShape.prod = some rows ∧ 0 < rows.1 ∧
      elementsOf rows.1 rows.2 = padPairs inMemShape outMemShape memPadBefore isSplat := by
  have hpos := h.shape_pos
  have hout := h.length_offset
  have hin := h.length_shape.trans hout.symm
  unfold padWithZeroRows
  match memPadBefore with
  | [off0] =>
    obtain ⟨OUT0, rfl⟩ := List.length_eq_one_iff.mp hout.symm
    obtain ⟨IN0, rfl⟩ := List.length_eq_one_iff.mp hin
    cases isSplat with
    | true =>
      refine ⟨_, rfl, Int.one_pos, ?_⟩
      rw [elementsOf_one, padPairs, map_coords_one]
      apply List.map_congr_left; intro in0 _
      simp [encode, shift, storedIndex]
    | false =>
      refine ⟨_, rfl, by simpa using hpos, ?_⟩
      rw [elementsOf_eq, padPairs, map_coords_one, List.flatMap_singleton, List.prod_singleton]
      apply List.map_congr_left; intro in0 _
      simp [encode, shift, add_comm]
  | [off0, off1] =>
    obtain ⟨OUT0, OUT1, rfl⟩ := List.length_eq_two.mp hout.symm
    obtain ⟨IN0, IN1, rfl⟩ := List.length_eq_two.mp hin
    refine ⟨_, rfl, Int.one_pos, ?_⟩
    rw [elementsOf_one, padPairs, map_coords_two]
    apply List.flatMap_congr; intro in0 _
    apply List.map_congr_left; intro in1 _
    simp only [encode, shift, List.zipWith_cons_cons, List.prod_cons, List.prod_nil, entry_cons_succ, entry_cons_zero, storedIndex_ite,
      Prod.mk.injEq]
    constructor
    · ring
    · congr 1
      ring
  | [off0, off1, off2] =>
    obtain ⟨OUT0, OUT1, OUT2, rfl⟩ := List.length_eq_three.mp hout.symm
    obtain ⟨IN0, IN1, IN2, rfl⟩ := List.length_eq_three.mp hin
    refine ⟨_, rfl, Int.one_pos, ?_⟩
    rw [elementsOf_one, padPairs, map_coords_three]
    apply List.flatMap_congr; intro in0 _
    apply List.flatMap_congr; intro in1 _
    apply List.map_congr_left; intro in2 _
    simp only [encode, shift, List.zipWith_cons_cons, List.prod_cons, List.prod_nil, entry_cons_succ, entry_cons_zero, storedIndex_ite,
      Prod.mk.injEq]
    constructor
    · ring
    · congr 1
      ring
  | [off0, off1, off2, off3] =>
    obtain ⟨OUT0, OUT1, OUT2, OUT3, rfl⟩ := List.length_eq_four.mp hout.symm
    obtain ⟨IN0, IN1, IN2, IN3, rfl⟩ := List.length_eq_four.mp hin
    refine ⟨_, rfl, Int.one_pos, ?_⟩
    rw [elementsOf_one, padPairs, map_coords_four]
    apply List.flatMap_congr; intro in0 _
    apply List.flatMap_congr; intro in1 _
    apply List.flatMap_congr; intro in2 _
    apply List.map_congr_left; intro in3 _
    simp only [encode, shift, List.zipWith_cons_cons, List.prod_cons, List.prod_nil, entry_cons_succ, entry_cons_zero, storedIndex_ite,
      Prod.mk.injEq]
    constructor
    · ring
    · congr 1
      ring
  | [] =>
    dsimp only
    rw [genericPadIndices_eq h]
    exact ⟨_, rfl, Int.one_pos, elementsOf_one⟩
  | _ :: _ :: _ :: _ :: _ :: _ =>
    dsimp only
    rw [genericPadIndices_eq h]
    exact ⟨_, rfl, Int.one_pos, elementsOf_one⟩

end

section
variable {inMemShape outMemShape memPadBefore inShape padBefore padAfter c : List ℤ} {isSplat : Bool} {p : ℤ × ℤ}

theorem padPairs_mem (hc : InBox inMemShape c) : (encode outMemShape (shift c memPadBefore), storedIndex isSplat (encode inMemShape c)) ∈
    padPairs inMemShape outMemShape memPadBefore isSplat := List.mem_map.mpr ⟨c, mem_coords.mpr hc, rfl⟩

theorem mem_padPairs (hfits : Fits outMemShape memPadBefore inMemShape) (hp : p ∈ padPairs inMemShape outMemShape memPadBefore isSplat) :
    (0 ≤ p.1 ∧ p.1 < outMemShape.prod) ∧ 0 ≤ p.2 ∧ p.2 < (if isSplat then 1 else inMemShape.prod) := by
  obtain ⟨c, hc, rfl⟩ := List.mem_map.mp hp
  have hbox := mem_coords.mp hc
  refine ⟨encode_bounds (hfits.inBox_shift hbox), ?_⟩
  cases isSplat with
  | true => exact ⟨le_refl _, Int.one_pos⟩
  | false => exact encode_bounds hbox

theorem shift_injective {offset c' : List ℤ} (hc : c.length = offset.length) (hc' : c'.length = offset.length)
    (h : shift c offset = shift c' offset) : c = c' := by
  apply ext_entry (hc.trans hc'.symm)
  intro i _
  have hi : entry (shift c offset) i = entry (shift c' offset) i := congrArg (entry · i) h
  rw [entry_shift hc, entry_shift hc'] at hi
  omega

theorem nodup_padPairs (hfits : Fits outMemShape memPadBefore inMemShape) :
    ((padPairs inMemShape outMemShape memPadBefore isSplat).map Prod.fst).Nodup := by
  have hlen : memPadBefore.length = inMemShape.length := hfits.length_offset.trans hfits.length_shape.symm
  unfold padPairs
  rw [List.map_map]
  apply List.Nodup.map_on _ (nodup_coords _)
  intro c hc c' hc' h
  have hbox := mem_coords.mp hc
  have hbox' := mem_coords.mp hc'
  apply shift_injective (hbox.length.trans hlen.symm) (hbox'.length.trans hlen.symm)
  exact encode_injective (hfits.inBox_shift hbox) (hfits.inBox_shift hbox') h

theorem fits_padded (hpos : ∀ d ∈ inShape, 0 < d) (hbefore : padBefore.length = inShape.length) (hafter : padAfter.length = inShape.length)
    (hbefore0 : ∀ y ∈ padBefore, 0 ≤ y) (hafter0 : ∀ y ∈ padAfter, 0 ≤ y) :
    Fits (shift (shift inShape padBefore) padAfter) padBefore inShape := by
  have hlen : (shift inShape padBefore).length = inShape.length := length_shift hbefore.symm
  have hlen' : (shift (shift inShape padBefore) padAfter).length = inShape.length := (length_shift (hlen.trans hafter.symm)).trans hlen
  apply fits_iff.mpr
  refine ⟨hbefore.trans hlen'.symm, hlen'.symm, ?_⟩
  intro i hi
  rw [hlen'] at hi
  rw [entry_shift (hlen.trans hafter.symm), entry_shift hbefore.symm]
  have h1 := hbefore0 _ (entry_mem (hbefore.symm ▸ hi))
  have h2 := hafter0 _ (entry_mem (hafter.symm ▸ hi))
  have h3 := hpos _ (entry_mem hi)
  omega

theorem padCopies_spec {schedule : List (ℕ × ℕ) → List (ℕ × ℕ)} {e : ℕ} {inBuf outBuf : List (BitVec 8)} {rows : ℤ × List (ℤ × ℤ)}
    (hschedule : ∀ copies, (schedule copies).Perm copies) (hfits : Fits outMemShape memPadBefore inMemShape) (hr : 0 < rows.1)
    (hrows : elementsOf rows.1 rows.2 = padPairs inMemShape outMemShape memPadBefore isSplat)
    (hin : inBuf.length = bufferSize (8 * e) isSplat inMemShape.prod) (hout : outBuf.length = bufferSize (8 * e) false outMemShape.prod) :
    ∃ result, copyAll (rows.1.toNat * e) inBuf outBuf (schedule (inBytes e rows.2)) = some result ∧ result.length = outBuf.length ∧
      (∀ c, InBox inMemShape c → elementBits (8 * e) result (encode outMemShape (shift c memPadBefore)) =
        elementBits (8 * e) inBuf (storedIndex isSplat (encode inMemShape c))) ∧
      ∀ y, InBox outMemShape y → (∀ c, InBox inMemShape c → y ≠ shift c memPadBefore) →
        elementBits (8 * e) result (encode outMemShape y) = elementBits (8 * e) outBuf (encode outMemShape y) := by
  have hinSize : (inBuf.length : ℤ) = (if isSplat then 1 else inMemShape.prod) * e := by
    rw [hin]
    unfold bufferSize
    cases isSplat with
    | true => exact toNat_packedSize Int.one_nonneg
    | false => exact toNat_packedSize (prod_pos hfits.shape_pos).le
  have houtSize : (outBuf.length : ℤ) = outMemShape.prod * e := by
    rw [hout]
    exact toNat_packedSize (prod_pos hfits.dims_pos).le
  have hbounds : ∀ p ∈ padPairs inMemShape outMemShape memPadBefore isSplat,
      (0 ≤ p.1 ∧ (p.1 + 1) * (e : ℤ) ≤ outBuf.length) ∧ 0 ≤ p.2 ∧ (p.2 + 1) * (e : ℤ) ≤ inBuf.length := by
    intro p hp
    obtain ⟨⟨h1, h1lt⟩, h2, h2lt⟩ := mem_padPairs hfits hp
    rw [hinSize, houtSize]
    exact ⟨⟨h1, Int.mul_le_mul_of_nonneg_right (by omega) (Int.natCast_nonneg e)⟩,
      h2, Int.mul_le_mul_of_nonneg_right (by omega) (Int.natCast_nonneg e)⟩
  obtain ⟨result, hrun, hlen, hcopied, hframe⟩ := @copyRows_spec _ outBuf inBuf _ e rows.1 rows.2 hr
    (fun p hp => (hbounds p (hrows ▸ hp)).1) (fun p hp => (hbounds p (hrows ▸ hp)).2)
    (by rw [hrows]; exact nodup_padPairs hfits) (hschedule (inBytes e rows.2))
  rw [hrows] at hcopied hframe
  refine ⟨result, hrun, hlen, ?_, ?_⟩
  · intro c hc
    have hmem : (_, _) ∈ padPairs inMemShape outMemShape memPadBefore isSplat := padPairs_mem hc
    have hbytes := hcopied _ hmem
    exact elementBits_of_bytes (hbounds _ hmem).1.1 (hbounds _ hmem).2.1 hbytes
  · intro y hy hfree
    have hy0 := (encode_bounds hy).1
    apply elementBits_of_bytes hy0 hy0
    intro t ht
    apply hframe
    intro p hp t' ht'
    apply elementByte_ne hy0 (hbounds p hp).1.1 _ ht ht'
    obtain ⟨c, hc, rfl⟩ := List.mem_map.mp hp
    have hbox := mem_coords.mp hc
    intro h
    exact hfree c hbox (encode_injective hy (hfits.inBox_shift hbox) h)

theorem padWithZeroTransform_spec {schedule : List (ℕ × ℕ) → List (ℕ × ℕ)} {input : NDType} {padBefore padAfter : List ℤ}
    {isSplat : Bool} {e : ℕ} {inBuf outBuf : List (BitVec 8)} (hschedule : ∀ copies, (schedule copies).Perm copies)
    (hbefore : padBefore.length = input.shape.length) (hafter : padAfter.length = input.shape.length)
    (hbefore0 : ∀ y ∈ padBefore, 0 ≤ y) (hafter0 : ∀ y ∈ padAfter, 0 ≤ y)
    (hin : inBuf.length = bufferSize (8 * e) isSplat input.shape.prod)
    (hout : outBuf.length = bufferSize (8 * e) false (shift (shift input.shape padBefore) padAfter).prod) :
    ∃ result, padWithZeroTransform schedule input padBefore padAfter isSplat e inBuf outBuf = some result ∧ result.length = outBuf.length ∧
      PadsInput input padBefore padAfter isSplat (8 * e) inBuf outBuf result := by
  have hfits := fits_padded input.shape_pos hbefore hafter hbefore0 hafter0
  have hrank : input.shape.length = input.dimsOrder.numDims := input.numDims_eq.symm
  have hmem := DimsOrder.Fits_toMemoryOrder (hfits.length_shape.symm.trans hrank) hfits
  have hinProd : (input.dimsOrder.toMemoryOrder input.shape).prod = input.shape.prod := DimsOrder.prod_toMemoryOrder hrank
  have houtProd := DimsOrder.prod_toMemoryOrder (hfits.length_shape.symm.trans hrank)
  obtain ⟨rows, hrows, hr, helements⟩ := @padWithZeroRows_spec _ _ _ isSplat hmem
  rw [hinProd] at hrows
  rw [← hinProd] at hin
  rw [← houtProd] at hout
  obtain ⟨result, hrun, hlen, hcopied, hframe⟩ := padCopies_spec hschedule hmem hr helements hin hout
  refine ⟨result, ?_, hlen, ⟨hcopied, hframe⟩⟩
  unfold padWithZeroTransform
  dsimp only
  rw [hrows]
  exact hrun

/-- For every rank the loops of SubView and PadWithZero copy each element to its place, whatever order the parallel copies run in. -/
theorem subView_padWithZero_copies {schedule : List (ℕ × ℕ) → List (ℕ × ℕ)} (hschedule : ∀ copies, (schedule copies).Perm copies) :
    (∀ (order : DimsOrder) (inShape offset shape : List ℤ) (isSplat : Bool) (bits : ℕ) (inBuf outBuf : List (BitVec 8)),
      inShape.length = order.numDims → Fits inShape offset shape → (bits = 1 ∨ bits = 2 ∨ bits = 4 ∨ 8 ∣ bits ∧ 0 < bits) →
      inBuf.length = bufferSize bits isSplat inShape.prod → outBuf.length = bufferSize bits isSplat shape.prod →
      ∃ result, subViewTransform schedule order inShape offset shape isSplat bits inBuf outBuf = some result ∧
        result.length = outBuf.length ∧ CopiesTile order inShape offset shape isSplat bits inBuf result) ∧
    ∀ (input : NDType) (padBefore padAfter : List ℤ) (isSplat : Bool) (e : ℕ) (inBuf outBuf : List (BitVec 8)),
      padBefore.length = input.shape.length → padAfter.length = input.shape.length →
      (∀ y ∈ padBefore, 0 ≤ y) → (∀ y ∈ padAfter, 0 ≤ y) → inBuf.length = bufferSize (8 * e) isSplat input.shape.prod →
      outBuf.length = bufferSize (8 * e) false (shift (shift input.shape padBefore) padAfter).prod →
      ∃ result, padWithZeroTransform schedule input padBefore padAfter isSplat e inBuf outBuf = some result ∧
        result.length = outBuf.length ∧ PadsInput input padBefore padAfter isSplat (8 * e) inBuf outBuf result := by
  constructor
  · intro order inShape offset shape isSplat bits inBuf outBuf hrank hfits hbits hin hout
    exact subViewTransform_spec hschedule hrank hfits hbits hin hout
  · intro input padBefore padAfter isSplat e inBuf outBuf hbefore hafter hbefore0 hafter0 hin hout
    exact padWithZeroTransform_spec hschedule hbefore hafter hbefore0 hafter0 hin hout

/-- Two nibbles of a 2x4 input, and two bytes padded in front, with the copies run backwards. -/
theorem subView_padWithZero_copies_reverse :
    (∃ result, subViewTransform List.reverse (DimsOrder.fromNumDims 2) [2, 4] [1, 1] [1, 2] false 4 [0x10, 0x32, 0x54, 0x76] [0xff] =
        some result ∧ result.length = 1 ∧
      CopiesTile (DimsOrder.fromNumDims 2) [2, 4] [1, 1] [1, 2] false 4 [0x10, 0x32, 0x54, 0x76] result) ∧
    ∃ result, padWithZeroTransform List.reverse ⟨[1, 2], DimsOrder.fromNumDims 2, rfl, by decide⟩ [0, 1] [1, 0] false 1 [7, 8]
        [0, 0, 0, 0, 0, 0] = some result ∧ result.length = 6 ∧
      PadsInput ⟨[1, 2], DimsOrder.fromNumDims 2, rfl, by decide⟩ [0, 1] [1, 0] false 8 [7, 8] [0, 0, 0, 0, 0, 0] result := by
  have hspec := @subView_padWithZero_copies List.reverse fun copies => List.reverse_perm copies
  constructor
  · apply hspec.1
    · rfl
    · exact Fits.cons (by decide) (by decide) (by decide) (Fits.cons (by decide) (by decide) (by decide) Fits.nil)
    · decide
    · rfl
    · rfl
  · apply hspec.2
    · rfl
    · rfl
    · decide
    · decide
    · rfl
    · rfl

example : padWithZeroTransform List.reverse ⟨[1, 2], DimsOrder.fromNumDims 2, rfl, by decide⟩ [0, 1] [1, 0] false 1 [7, 8]
    [0, 0, 0, 0, 0, 0] = some [0, 7, 8, 0, 0, 0] := by decide

end

end NpuCompiler.Const
