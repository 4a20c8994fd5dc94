import NpuCompiler.Const.LayoutTransformations
import NpuCompiler.Const.SubByteContent
import NpuCompiler.Library.ByteCopies

namespace NpuCompiler.Const

open MixedRadix ByteCopies SubBytes

section
variable {β : Type} {d : ℤ} {dims : List ℤ}

theorem map_coords_cons (f : List ℤ → β) : (coords (d :: dims)).map f =
    (natRange d).flatMap fun y => (coords dims).map fun c => f (y :: c) := by
  rw [coords, List.map_flatMap]
  apply List.flatMap_congr
  intro y _
  rw [List.map_map]
  rfl

theorem map_coords_one (f : List ℤ → β) : (coords [d]).map f = (natRange d).map fun y => f [y] := by
  rw [map_coords_cons, List.map_eq_flatMap]
  rfl

theorem map_coords_two {d0 d1 : ℤ} (f : List ℤ → β) : (coords [d0, d1]).map f =
    (natRange d0).flatMap fun y0 => (natRange d1).map fun y1 => f [y0, y1] := by
  rw [map_coords_cons]
  apply List.flatMap_congr
  intro y0 _
  exact map_coords_one _

theorem map_coords_three {d0 d1 d2 : ℤ} (f : List ℤ → β) : (coords [d0, d1, d2]).map f =
    (natRange d0).flatMap fun y0 => (natRange d1).flatMap fun y1 => (natRange d2).map fun y2 => f [y0, y1, y2] := by
  rw [map_coords_cons]
  apply List.flatMap_congr
  intro y0 _
  exact map_coords_two _

theorem map_decode_natRange (h : ∀ d ∈ dims, 0 < d) : (natRange dims.prod).map (decode dims) = coords dims := by
  induction dims with
  | nil => rfl
  | cons d dims ih =>
    obtain ⟨hd, hdims⟩ := List.forall_mem_cons.mp h
    have hp := prod_pos hdims
    rw [List.prod_cons, natRange_mul hd.le hp.le, List.map_flatMap, coords]
    apply List.flatMap_congr
    intro y hy
    obtain ⟨h0, hlt⟩ := mem_natRange.mp hy
    rw [← ih hdims, List.map_map, List.map_map]
    apply List.map_congr_left
    intro x hx
    obtain ⟨hx0, hxlt⟩ := mem_natRange.mp hx
    simp only [Function.comp_apply, decode]
    rw [decode_add_mul hdims, add_comm, Int.add_mul_ediv_right _ _ hp.ne', Int.ediv_eq_zero_of_lt hx0 hxlt, zero_add,
      Int.emod_eq_of_lt h0 hlt]

theorem elementsOf_eq {r : ℤ} {rows : List (ℤ × ℤ)} :
    elementsOf r rows = rows.flatMap fun row => (natRange r).map fun j => (row.1 + j, row.2 + j) := by
  unfold elementsOf natRange
  apply List.flatMap_congr
  intro row _
  rw [List.map_map]
  rfl

def elementBits (bits : ℕ) (buf : List (BitVec 8)) (x : ℤ) : List Bool :=
  (List.range bits).map fun j => bitAt buf (x.toNat * bits + j)

def storedIndex (isSplat : Bool) (x : ℤ) : ℤ := if isSplat then 0 else x

@[simp] theorem storedIndex_false (x : ℤ) : storedIndex false x = x := rfl

def bufferSize (bits : ℕ) (isSplat : Bool) (numElements : ℤ) : ℕ :=
  packedSize bits (if isSplat then 1 else numElements.toNat)

variable {bits e : ℕ} {buf buf' : List (BitVec 8)} {x x' : ℤ}

theorem toNat_packedSize {n : ℤ} (hn : 0 ≤ n) : (packedSize (8 * e) n.toNat : ℤ) = n * e := by
  obtain ⟨m, rfl⟩ := Int.eq_ofNat_of_zero_le hn
  unfold packedSize
  rw [Int.toNat_natCast, show m * (8 * e) = 8 * (m * e) by ring, Nat.mul_add_div (by omega)]
  simp

theorem bitAt_byte {k t u : ℕ} (hu : u < 8) : bitAt buf ((k + t) * 8 + u) = (buf.getD (k + t) 0).getLsbD u := by
  unfold bitAt
  rw [Nat.mul_comm, Nat.mul_add_div (by omega), Nat.mul_add_mod, Nat.div_eq_of_lt hu, Nat.mod_eq_of_lt hu, Nat.add_zero]

theorem elementBits_of_bytes (hx : 0 ≤ x) (hx' : 0 ≤ x')
    (h : ∀ t < e, buf[(x * (e : ℤ)).toNat + t]? = buf'[(x' * (e : ℤ)).toNat + t]?) :
    elementBits (8 * e) buf x = elementBits (8 * e) buf' x' := by
  obtain ⟨n, rfl⟩ := Int.eq_ofNat_of_zero_le hx
  obtain ⟨m, rfl⟩ := Int.eq_ofNat_of_zero_le hx'
  unfold elementBits
  apply List.map_congr_left
  intro j hj
  have hlt := List.mem_range.mp hj
  have hsplit (k : ℕ) : k * (8 * e) + j = (k * e + j / 8) * 8 + j % 8 := by
    have := Nat.div_add_mod j 8
    rw [Nat.add_mul, Nat.mul_assoc, Nat.mul_comm e 8]
    omega
  have hbyte := h (j / 8) (by omega)
  rw [← Nat.cast_mul, ← Nat.cast_mul, Int.toNat_natCast, Int.toNat_natCast] at hbyte
  rw [Int.toNat_natCast, Int.toNat_natCast, hsplit, hsplit, bitAt_byte (by omega), bitAt_byte (by omega), List.getD_eq_getElem?_getD,
    List.getD_eq_getElem?_getD, hbyte]

def generalTransformRows (inMemShape outMemShape memOffset : List ℤ) (outNumElems : ℤ) : Option (ℤ × List (ℤ × ℤ)) :=
  let IN1 := entry inMemShape 1
  let IN2 := entry inMemShape 2
  let IN3 := entry inMemShape 3
  let OUT0 := entry outMemShape 0
  let OUT1 := entry outMemShape 1
  let OUT2 := entry outMemShape 2
  let OUT3 := entry outMemShape 3
  match memOffset with
  | [off0] => some (outNumElems, [(0, off0)])
  | [off0, off1] => some (OUT1, (natRange OUT0).map fun out0 =>
      let in0 := out0 + off0
      (out0 * OUT1, in0 * IN1 + off1))
  | [off0, off1, off2] => some (OUT2, (natRange OUT0).flatMap fun out0 => (natRange OUT1).map fun out1 =>
      let in0 := out0 + off0
      let in1 := out1 + off1
      (out0 * OUT2 * OUT1 + out1 * OUT2, in0 * IN2 * IN1 + in1 * IN2 + off2))
  | [off0, off1, off2, off3] => some (OUT3, (natRange OUT0).flatMap fun out0 => (natRange OUT1).flatMap fun out1 =>
      (natRange OUT2).map fun out2 =>
        let in0 := out0 + off0
        let in1 := out1 + off1
        let in2 := out2 + off2
        (out0 * OUT3 * OUT2 * OUT1 + out1 * OUT3 * OUT2 + out2 * OUT3,
          in0 * IN3 * IN2 * IN1 + in1 * IN3 * IN2 + in2 * IN3 + off3))
  | _ => do
    let inds ← (natRange outNumElems).mapM fun outMemInd1D => do
      let outMemIndND := getMemIndexND outMemInd1D outMemShape
      let inMemInd1D ← checkedMemIndex1D (shift outMemIndND memOffset) inMemShape
      some (outMemInd1D, inMemInd1D)
    some (1, inds)

def generalTransform (schedule : List (ℕ × ℕ) → List (ℕ × ℕ)) (inMemShape outMemShape memOffset : List ℤ)
    (storageElemTypeSize : ℕ) (outNumElems : ℤ) (inBuf outBuf : List (BitVec 8)) : Option (List (BitVec 8)) := do
  let elemSize := storageElemTypeSize / 8
  let rows ← generalTransformRows inMemShape outMemShape memOffset outNumElems
  copyAll (rows.1.toNat * elemSize) inBuf outBuf (schedule (inBytes elemSize rows.2))

def subByteIndices (inMemShape outMemShape memOffset : List ℤ) (outNumElems : ℤ) : Option (List (ℤ × ℤ)) :=
  let IN1 := entry inMemShape 1
  let IN2 := entry inMemShape 2
  let IN3 := entry inMemShape 3
  let OUT0 := entry outMemShape 0
  let OUT1 := entry outMemShape 1
  let OUT2 := entry outMemShape 2
  let OUT3 := entry outMemShape 3
  match memOffset with
  | [off0] => some ((natRange OUT0).map fun out0 => (out0, out0 + off0))
  | [off0, off1] => some ((natRange OUT0).flatMap fun out0 => (natRange OUT1).map fun out1 =>
      let in0 := out0 + off0
      let in1 := out1 + off1
      (out1 + out0 * OUT1, in1 + in0 * IN1))
  | [off0, off1, off2] => some ((natRange OUT0).flatMap fun out0 => (natRange OUT1).flatMap fun out1 =>
      (natRange OUT2).map fun out2 =>
        let in0 := out0 + off0
        let in1 := out1 + off1
        let in2 := out2 + off2
        (out2 + out1 * OUT2 + out0 * OUT2 * OUT1, in2 + in1 * IN2 + in0 * IN2 * IN1))
  | [off0, off1, off2, off3] => some ((natRange OUT0).flatMap fun out0 => (natRange OUT1).flatMap fun out1 =>
      (natRange OUT2).flatMap fun out2 => (natRange OUT3).map fun out3 =>
        let in0 := out0 + off0
        let in1 := out1 + off1
        let in2 := out2 + off2
        let in3 := out3 + off3
        (out3 + out2 * OUT3 + out1 * OUT3 * OUT2 + out0 * OUT3 * OUT2 * OUT1,
          in3 + in2 * IN3 + in1 * IN3 * IN2 + in0 * IN3 * IN2 * IN1))
  | _ => (natRange outNumElems).mapM fun outMemInd1D => do
      let outMemIndND := getMemIndexND outMemInd1D outMemShape
      let inMemInd1D ← checkedMemIndex1D (shift outMemIndND memOffset) inMemShape
      some (outMemInd1D, inMemInd1D)

def fillOutBuf (storageElemTypeSize : ℕ) (inBuf outBuf : List (BitVec 8)) (inMemInd1D outMemInd1D : ℤ) :
    Option (List (BitVec 8)) := do
  let elemPerByte : ℤ := (8 / storageElemTypeSize : ℕ)
  let inByte ← inBuf[(inMemInd1D.tdiv elemPerByte).toNat]?
  let subByteValue := (inByte >>> ((inMemInd1D.tmod elemPerByte).toNat * storageElemTypeSize)) &&& maskOf storageElemTypeSize
  let outByte ← outBuf[(outMemInd1D.tdiv elemPerByte).toNat]?
  some (outBuf.set (outMemInd1D.tdiv elemPerByte).toNat
    (outByte ||| subByteValue <<< ((outMemInd1D.tmod elemPerByte).toNat * storageElemTypeSize)))

def subByteTransform (inMemShape outMemShape memOffset : List ℤ) (storageElemTypeSize : ℕ) (outNumElems : ℤ)
    (inBuf outBuf : List (BitVec 8)) : Option (List (BitVec 8)) := do
  let elemPerByte := 8 / storageElemTypeSize
  if ¬ isPowerOfTwo elemPerByte then none
  else
    let inds ← subByteIndices inMemShape outMemShape memOffset outNumElems
    inds.foldlM (fun outBuf ind => fillOutBuf storageElemTypeSize inBuf outBuf ind.2 ind.1) (outBuf.map fun _ => 0)

def subViewTransform (schedule : List (ℕ × ℕ) → List (ℕ × ℕ)) (order : DimsOrder) (inShape offset shape : List ℤ)
    (isSplat : Bool) (storageElemTypeSize : ℕ) (inBuf outBuf : List (BitVec 8)) : Option (List (BitVec 8)) :=
  let outNumElems := shape.prod
  if isSplat then memcpy outBuf 0 inBuf 0 inBuf.length
  else
    let inMemShape := order.toMemoryOrder inShape
    let outMemShape := order.toMemoryOrder shape
    let memOffset := order.toMemoryOrder offset
    if storageElemTypeSize < 8 then
      subByteTransform inMemShape outMemShape memOffset storageElemTypeSize outNumElems inBuf outBuf
    else
      generalTransform schedule inMemShape outMemShape memOffset storageElemTypeSize outNumElems inBuf outBuf

/-- Each element of the tile is the element of the input at the shifted coordinate, in the order of memory. -/
def CopiesTile (order : DimsOrder) (inShape offset shape : List ℤ) (isSplat : Bool) (bits : ℕ) (inBuf result : List (BitVec 8)) : Prop :=
  ∀ c, InBox (order.toMemoryOrder shape) c →
    elementBits bits result (storedIndex isSplat (encode (order.toMemoryOrder shape) c)) =
      elementBits bits inBuf (storedIndex isSplat (encode (order.toMemoryOrder inShape) (shift c (order.toMemoryOrder offset))))

variable {inMemShape outMemShape memOffset : List ℤ}

def subViewPairs (inMemShape outMemShape memOffset : List ℤ) : List (ℤ × ℤ) :=
  (coords outMemShape).map fun c => (encode outMemShape c, encode inMemShape (shift c memOffset))

theorem checkedMemIndex1D_eq {dims c : List ℤ} (h : InBox dims c) : checkedMemIndex1D c dims = some (encode dims c) := by
  unfold checkedMemIndex1D
  rw [if_pos, getMemIndex1D_eq h.length]
  exact ⟨h.length, fun i hi => ((inBox_iff.mp h).2 i hi).2⟩

theorem genericIndices_eq (h : Fits inMemShape memOffset outMemShape) :
    ((natRange outMemShape.prod).mapM fun outMemInd1D => do
      let outMemIndND := getMemIndexND outMemInd1D outMemShape
      let inMemInd1D ← checkedMemIndex1D (shift outMemIndND memOffset) inMemShape
      some (outMemInd1D, inMemInd1D)) = some (subViewPairs inMemShape outMemShape memOffset) := by
  have hpos := h.shape_pos
  rw [mapM_eq_some (g := fun x => (x, encode inMemShape (shift (decode outMemShape x) memOffset)))]
  · unfold subViewPairs
    rw [← map_decode_natRange hpos, List.map_map]
    congr 1
    apply List.map_congr_left
    intro x hx
    obtain ⟨hx0, hxlt⟩ := mem_natRange.mp hx
    rw [Function.comp_apply, encode_decode hpos hx0 hxlt]
  · intro x _
    dsimp only
    rw [getMemIndexND_eq hpos, checkedMemIndex1D_eq (h.inBox_shift (inBox_decode hpos))]
    rfl

theorem generalTransformRows_spec (h : Fits inMemShape memOffset outMemShape) :
    ∃ rows, generalTransformRows inMemShape outMemShape memOffset outMemShape.prod = some rows ∧ 0 < rows.1 ∧
      elementsOf rows.1 rows.2 = subViewPairs inMemShape outMemShape memOffset := by
  have hpos := h.shape_pos
  have hin := h.length_offset
  have hout := h.length_shape
  unfold generalTransformRows subViewPairs
  match memOffset with
  | [off0] =>
    obtain ⟨IN0, rfl⟩ := List.length_eq_one_iff.mp hin.symm
    obtain ⟨OUT0, rfl⟩ := List.length_eq_one_iff.mp hout
    refine ⟨_, rfl, by simpa using hpos, ?_⟩
    rw [elementsOf_eq, map_coords_one, List.flatMap_singleton, List.prod_singleton]
    apply List.map_congr_left
    intro y _
    simp [encode, shift, add_comm]
  | [off0, off1] =>
    obtain ⟨IN0, IN1, rfl⟩ := List.length_eq_two.mp hin.symm
    obtain ⟨OUT0, OUT1, rfl⟩ := List.length_eq_two.mp hout
    refine ⟨_, rfl, hpos _ (by simp), ?_⟩
    rw [elementsOf_eq, map_coords_two, List.flatMap_map]
    apply List.flatMap_congr; intro out0 _
    apply List.map_congr_left; intro out1 _
    simp only [encode, shift, List.zipWith_cons_cons, List.prod_cons, List.prod_nil, entry_cons_succ, entry_cons_zero, Prod.mk.injEq]
    constructor
    · ring
    · ring
  | [off0, off1, off2] =>
    obtain ⟨IN0, IN1, IN2, rfl⟩ := List.length_eq_three.mp hin.symm
    obtain ⟨OUT0, OUT1, OUT2, rfl⟩ := List.length_eq_three.mp hout
    refine ⟨_, rfl, hpos _ (by simp), ?_⟩
    rw [elementsOf_eq, map_coords_three, List.flatMap_assoc]
    apply List.flatMap_congr; intro out0 _
    rw [List.flatMap_map]
    apply List.flatMap_congr; intro out1 _
    apply List.map_congr_left; intro out2 _
    simp only [encode, shift, List.zipWith_cons_cons, List.prod_cons, List.prod_nil, entry_cons_succ, entry_cons_zero, Prod.mk.injEq]
    constructor
    · ring
    · ring
  | [off0, off1, off2, off3] =>
    obtain ⟨IN0, IN1, IN2, IN3, rfl⟩ := List.length_eq_four.mp hin.symm
    obtain ⟨OUT0, OUT1, OUT2, OUT3, rfl⟩ := List.length_eq_four.mp hout
    refine ⟨_, rfl, hpos _ (by simp), ?_⟩
    rw [elementsOf_eq, map_coords_four, List.flatMap_assoc]
    apply List.flatMap_congr; intro out0 _
    rw [List.flatMap_assoc]
    apply List.flatMap_congr; intro out1 _
    rw [List.flatMap_map]
    apply List.flatMap_congr; intro out2 _
    apply List.map_congr_left; intro out3 _
    simp only [encode, shift, List.zipWith_cons_cons, List.prod_cons, List.prod_nil, entry_cons_succ, entry_cons_zero, Prod.mk.injEq]
    constructor
    · ring
    · ring
  | [] =>
    dsimp only
    rw [genericIndices_eq h]
    exact ⟨_, rfl, Int.one_pos, elementsOf_one⟩
  | _ :: _ :: _ :: _ :: _ :: _ =>
    dsimp only
    rw [genericIndices_eq h]
    exact ⟨_, rfl, Int.one_pos, elementsOf_one⟩

theorem subByteIndices_eq (h : Fits inMemShape memOffset outMemShape) :
    subByteIndices inMemShape outMemShape memOffset outMemShape.prod = some (subViewPairs inMemShape outMemShape memOffset) := by
  have hin := h.length_offset
  have hout := h.length_shape
  unfold subByteIndices
  match memOffset with
  | [off0] =>
    obtain ⟨IN0, rfl⟩ := List.length_eq_one_iff.mp hin.symm
    obtain ⟨OUT0, rfl⟩ := List.length_eq_one_iff.mp hout
    apply congrArg some
    rw [subViewPairs, map_coords_one]
    apply List.map_congr_left; intro out0 _
    simp [encode, shift]
  | [off0, off1] =>
    obtain ⟨IN0, IN1, rfl⟩ := List.length_eq_two.mp hin.symm
    obtain ⟨OUT0, OUT1, rfl⟩ := List.length_eq_two.mp hout
    apply congrArg some
    rw [subViewPairs, map_coords_two]
    apply List.flatMap_congr; intro out0 _
    apply List.map_congr_left; intro out1 _
    simp only [encode, shift, List.zipWith_cons_cons, List.prod_cons, List.prod_nil, entry_cons_succ, entry_cons_zero, Prod.mk.injEq]
    constructor
    · ring
    · ring
  | [off0, off1, off2] =>
    obtain ⟨IN0, IN1, IN2, rfl⟩ := List.length_eq_three.mp hin.symm
    obtain ⟨OUT0, OUT1, OUT2, rfl⟩ := List.length_eq_three.mp hout
    apply congrArg some
    rw [subViewPairs, map_coords_three]
    apply List.flatMap_congr; intro out0 _
    apply List.flatMap_congr; intro out1 _
    apply List.map_congr_left; intro out2 _
    simp only [encode, shift, List.zipWith_cons_cons, List.prod_cons, List.prod_nil, entry_cons_succ, entry_cons_zero, Prod.mk.injEq]
    constructor
    · ring
    · ring
  | [off0, off1, off2, off3] =>
    obtain ⟨IN0, IN1, IN2, IN3, rfl⟩ := List.length_eq_four.mp hin.symm
    obtain ⟨OUT0, OUT1, OUT2, OUT3, rfl⟩ := List.length_eq_four.mp hout
    apply congrArg some
    rw [subViewPairs, map_coords_four]
    apply List.flatMap_congr; intro out0 _
    apply List.flatMap_congr; intro out1 _
    apply List.flatMap_congr; intro out2 _
    apply List.map_congr_left; intro out3 _
    simp only [encode, shift, List.zipWith_cons_cons, List.prod_cons, List.prod_nil, entry_cons_succ, entry_cons_zero, Prod.mk.injEq]
    constructor
    · ring
    · ring
  | [] => exact genericIndices_eq h
  | _ :: _ :: _ :: _ :: _ :: _ => exact genericIndices_eq h

end
section
variable {bits : ℕ} {inBuf outBuf : List (BitVec 8)} {inds : List (ℤ × ℤ)}

theorem div_mod_element (hbits : bits = 1 ∨ bits = 2 ∨ bits = 4) (n p : ℕ) :
    p / 8 = n / (8 / bits) ∧ p % 8 / bits = n % (8 / bits) ↔ p / bits = n := by
  rcases hbits with rfl | rfl | rfl <;> omega

theorem element_byte (hbits : bits = 1 ∨ bits = 2 ∨ bits = 4) (n : ℕ) {j : ℕ} (hj : j < bits) :
    (n * bits + j) / 8 = n / (8 / bits) ∧ (n * bits + j) % 8 = n % (8 / bits) * bits + j := by
  rcases hbits with rfl | rfl | rfl <;> omega

theorem getLsbD_shifted {value : BitVec 8} {r j : ℕ} : (value >>> (r * bits)).getLsbD j = value.getLsbD (r * bits + j) := by
  rw [BitVec.getLsbD_ushiftRight]

theorem element_lt (hbits : bits = 1 ∨ bits = 2 ∨ bits = 4) {n m : ℕ} (hlt : n < m) : n / (8 / bits) < packedSize bits m := by
  unfold packedSize
  rcases hbits with rfl | rfl | rfl <;> omega

theorem fillOutBuf_spec (hbits : bits = 1 ∨ bits = 2 ∨ bits = 4) {n m : ℕ} (hin : n / (8 / bits) < inBuf.length)
    (hout : m / (8 / bits) < outBuf.length) : ∃ outBuf', fillOutBuf bits inBuf outBuf n m = some outBuf' ∧ outBuf'.length = outBuf.length ∧
      ∀ p, bitAt outBuf' p = (bitAt outBuf p || (decide (p / bits = m) && bitAt inBuf (n * bits + p % bits))) := by
  have hpos : 0 < bits := by omega
  have htdiv (k : ℕ) : ((k : ℤ).tdiv ((8 / bits : ℕ) : ℤ)).toNat = k / (8 / bits) := by
    rw [Int.tdiv_eq_ediv_of_nonneg (Int.natCast_nonneg k), ← Int.natCast_ediv, Int.toNat_natCast]
  have htmod (k : ℕ) : ((k : ℤ).tmod ((8 / bits : ℕ) : ℤ)).toNat = k % (8 / bits) := by
    rw [Int.tmod_eq_emod_of_nonneg (Int.natCast_nonneg k), ← Int.natCast_emod, Int.toNat_natCast]
  unfold fillOutBuf
  dsimp only
  rw [htdiv, htdiv, htmod, htmod, List.getElem?_eq_getElem hin, List.getElem?_eq_getElem hout]
  refine ⟨_, rfl, List.length_set, ?_⟩
  intro p
  have hbit : bitAt inBuf (n * bits + p % bits) = (inBuf[n / (8 / bits)] >>> (n % (8 / bits) * bits)).getLsbD (p % bits) := by
    obtain ⟨hdiv, hmod⟩ := element_byte hbits n (Nat.mod_lt p hpos)
    unfold bitAt
    rw [hdiv, hmod, List.getD_eq_getElem _ _ hin, getLsbD_shifted]
  rw [hbit]
  unfold bitAt
  rw [List.getD_eq_getElem?_getD, List.getElem?_set, List.getD_eq_getElem?_getD]
  have hplaced := @getLsbD_placed bits (m % (8 / bits)) (p % 8) (inBuf[n / (8 / bits)] >>> (n % (8 / bits) * bits)) hpos (Nat.mod_lt p (by omega))
  have hrest : p % 8 % bits = p % bits := by rcases hbits with rfl | rfl | rfl <;> omega
  have helement := div_mod_element hbits m p
  by_cases hbyte : m / (8 / bits) = p / 8
  · rw [if_pos hbyte, if_pos (hbyte ▸ hout), Option.getD_some, BitVec.getLsbD_or]
    change (_ || (placed bits _ _).getLsbD _) = _
    rw [hplaced, hrest, ← hbyte, List.getElem?_eq_getElem hout, Option.getD_some]
    congr 2
    exact decide_eq_decide.mpr ⟨fun h => helement.mp ⟨hbyte.symm, h⟩, fun h => (helement.mpr h).2⟩
  · rw [if_neg hbyte]
    have hother : p / bits ≠ m := fun h => hbyte (helement.mpr h).1.symm
    simp [hother]

section
variable (hbits : bits = 1 ∨ bits = 2 ∨ bits = 4) (hin : ∀ p ∈ inds, 0 ≤ p.2 ∧ p.2.toNat / (8 / bits) < inBuf.length)
  (hout : ∀ p ∈ inds, 0 ≤ p.1 ∧ p.1.toNat / (8 / bits) < outBuf.length)
include hbits hin hout

theorem fillOutBuf_run :
    ∃ outBuf', inds.foldlM (fun outBuf ind => fillOutBuf bits inBuf outBuf ind.2 ind.1) outBuf = some outBuf' ∧
      outBuf'.length = outBuf.length ∧ ∀ p, bitAt outBuf' p = (bitAt outBuf p ||
        inds.any fun ind => decide (p / bits = ind.1.toNat) && bitAt inBuf (ind.2.toNat * bits + p % bits)) := by
  induction inds generalizing outBuf with
  | nil => exact ⟨outBuf, rfl, rfl, fun p => by simp⟩
  | cons ind inds ih =>
    obtain ⟨⟨hin0, hinlt⟩, hinrest⟩ := List.forall_mem_cons.mp hin
    obtain ⟨⟨hout0, houtlt⟩, houtrest⟩ := List.forall_mem_cons.mp hout
    obtain ⟨next, hstep, hlen, hnext⟩ := fillOutBuf_spec hbits hinlt houtlt
    rw [Int.toNat_of_nonneg hin0, Int.toNat_of_nonneg hout0] at hstep
    obtain ⟨outBuf', hrun, hlen', hbitsAt⟩ := @ih next hinrest (hlen ▸ houtrest)
    refine ⟨outBuf', ?_, hlen'.trans hlen, ?_⟩
    · rw [List.foldlM_cons, hstep]
      exact hrun
    · intro p
      rw [hbitsAt, hnext, List.any_cons, Bool.or_assoc]

theorem fillOutBuf_elements (hnodup : (inds.map Prod.fst).Nodup) :
    ∃ outBuf', inds.foldlM (fun outBuf ind => fillOutBuf bits inBuf outBuf ind.2 ind.1) (outBuf.map fun _ => 0) = some outBuf' ∧
      outBuf'.length = outBuf.length ∧ ∀ p ∈ inds, elementBits bits outBuf' p.1 = elementBits bits inBuf p.2 := by
  obtain ⟨outBuf', hrun, hlen, hbitsAt⟩ := @fillOutBuf_run bits inBuf (outBuf.map fun _ => 0) inds hbits hin (by rwa [List.length_map])
  refine ⟨outBuf', hrun, by rwa [List.length_map] at hlen, ?_⟩
  intro ind hind
  unfold elementBits
  apply List.map_congr_left
  intro j hj
  have hjlt := List.mem_range.mp hj
  have hempty : bitAt (outBuf.map fun _ => 0) (ind.1.toNat * bits + j) = false := by
    unfold bitAt
    rw [List.getD_eq_getElem?_getD, List.getElem?_map]
    cases outBuf[(ind.1.toNat * bits + j) / 8]? <;> simp
  have hdiv : (ind.1.toNat * bits + j) / bits = ind.1.toNat := by
    rw [Nat.mul_comm, Nat.mul_add_div (by omega), Nat.div_eq_of_lt hjlt, Nat.add_zero]
  have hmod : (ind.1.toNat * bits + j) % bits = j := by
    rw [Nat.mul_comm, Nat.mul_add_mod, Nat.mod_eq_of_lt hjlt]
  rw [hbitsAt, hempty, Bool.false_or, hdiv, hmod, Bool.eq_iff_iff, List.any_eq_true]
  constructor
  · rintro ⟨other, hother, h⟩
    rw [Bool.and_eq_true, decide_eq_true_iff] at h
    have hsame : other.1 = ind.1 := by
      have := (hout other hother).1
      have := (hout ind hind).1
      omega
    rw [← List.inj_on_of_nodup_map hnodup hother hind hsame]
    exact h.2
  · intro h
    exact ⟨ind, hind, by simp [h]⟩

end

end
section
variable {schedule : List (ℕ × ℕ) → List (ℕ × ℕ)} {inMemShape outMemShape memOffset : List ℤ} {bits e : ℕ} {inBuf outBuf : List (BitVec 8)}

theorem mem_subViewPairs {p : ℤ × ℤ} (hfits : Fits inMemShape memOffset outMemShape) (hp : p ∈ subViewPairs inMemShape outMemShape memOffset) :
    (0 ≤ p.1 ∧ p.1 < outMemShape.prod) ∧ 0 ≤ p.2 ∧ p.2 < inMemShape.prod := by
  obtain ⟨c, hc, rfl⟩ := List.mem_map.mp hp
  have hbox := mem_coords.mp hc
  exact ⟨encode_bounds hbox, encode_bounds (hfits.inBox_shift hbox)⟩

theorem subViewPairs_mem {c : List ℤ} (hc : InBox outMemShape c) :
    (encode outMemShape c, encode inMemShape (shift c memOffset)) ∈ subViewPairs inMemShape outMemShape memOffset :=
  List.mem_map.mpr ⟨c, mem_coords.mpr hc, rfl⟩

theorem nodup_subViewPairs : ((subViewPairs inMemShape outMemShape memOffset).map Prod.fst).Nodup := by
  unfold subViewPairs
  rw [List.map_map]
  apply List.Nodup.map_on _ (nodup_coords _)
  intro c hc c' hc' h
  exact encode_injective (mem_coords.mp hc) (mem_coords.mp hc') h

theorem generalTransform_spec (hschedule : ∀ copies, (schedule copies).Perm copies) (hfits : Fits inMemShape memOffset outMemShape)
    (hin : (inBuf.length : ℤ) = inMemShape.prod * e) (hout : (outBuf.length : ℤ) = outMemShape.prod * e) :
    ∃ result, generalTransform schedule inMemShape outMemShape memOffset (8 * e) outMemShape.prod inBuf outBuf = some result ∧
      result.length = outBuf.length ∧ ∀ p ∈ subViewPairs inMemShape outMemShape memOffset,
        elementBits (8 * e) result p.1 = elementBits (8 * e) inBuf p.2 := by
  obtain ⟨⟨r, rows⟩, hrows, hr, helements⟩ := generalTransformRows_spec hfits
  have hbounds : ∀ p ∈ subViewPairs inMemShape outMemShape memOffset,
      (0 ≤ p.1 ∧ (p.1 + 1) * (e : ℤ) ≤ outBuf.length) ∧ 0 ≤ p.2 ∧ (p.2 + 1) * (e : ℤ) ≤ inBuf.length := by
    intro p hp
    obtain ⟨⟨h1, h1lt⟩, h2, h2lt⟩ := mem_subViewPairs hfits hp
    rw [hin, hout]
    exact ⟨⟨h1, Int.mul_le_mul_of_nonneg_right (by omega) (Int.natCast_nonneg e)⟩,
      h2, Int.mul_le_mul_of_nonneg_right (by omega) (Int.natCast_nonneg e)⟩
  obtain ⟨result, hrun, hlen, hcopied, -⟩ := @copyRows_spec _ outBuf inBuf _ e r rows hr
    (fun p hp => (hbounds p (helements ▸ hp)).1) (fun p hp => (hbounds p (helements ▸ hp)).2)
    (by rw [helements]; exact nodup_subViewPairs) (hschedule (inBytes e rows))
  refine ⟨result, ?_, hlen, ?_⟩
  · unfold generalTransform
    dsimp only
    rw [hrows, Nat.mul_div_cancel_left e (by omega)]
    exact hrun
  · intro p hp
    exact elementBits_of_bytes (hbounds p hp).1.1 (hbounds p hp).2.1 (hcopied p (by rwa [helements]))

theorem subByteTransform_spec (hbits : bits = 1 ∨ bits = 2 ∨ bits = 4) (hfits : Fits inMemShape memOffset outMemShape)
    (hin : inBuf.length = packedSize bits inMemShape.prod.toNat) (hout : outBuf.length = packedSize bits outMemShape.prod.toNat) :
    ∃ result, subByteTransform inMemShape outMemShape memOffset bits outMemShape.prod inBuf outBuf = some result ∧
      result.length = outBuf.length ∧ ∀ p ∈ subViewPairs inMemShape outMemShape memOffset,
        elementBits bits result p.1 = elementBits bits inBuf p.2 := by
  have hpower : isPowerOfTwo (8 / bits) = true := by rcases hbits with rfl | rfl | rfl <;> rfl
  unfold subByteTransform
  dsimp only
  rw [hpower, subByteIndices_eq hfits]
  apply fillOutBuf_elements hbits _ _ nodup_subViewPairs
  · intro p hp
    obtain ⟨-, h2, h2lt⟩ := mem_subViewPairs hfits hp
    rw [hin]
    exact ⟨h2, element_lt hbits (by omega)⟩
  · intro p hp
    obtain ⟨⟨h1, h1lt⟩, -⟩ := mem_subViewPairs hfits hp
    rw [hout]
    exact ⟨h1, element_lt hbits (by omega)⟩

theorem subViewTransform_spec {schedule : List (ℕ × ℕ) → List (ℕ × ℕ)} {order : DimsOrder} {inShape offset shape : List ℤ}
    {isSplat : Bool} {bits : ℕ} {inBuf outBuf : List (BitVec 8)} (hschedule : ∀ copies, (schedule copies).Perm copies)
    (hrank : inShape.length = order.numDims) (hfits : Fits inShape offset shape) (hbits : bits = 1 ∨ bits = 2 ∨ bits = 4 ∨ 8 ∣ bits ∧ 0 < bits)
    (hin : inBuf.length = bufferSize bits isSplat inShape.prod) (hout : outBuf.length = bufferSize bits isSplat shape.prod) :
    ∃ result, subViewTransform schedule order inShape offset shape isSplat bits inBuf outBuf = some result ∧
      result.length = outBuf.length ∧ CopiesTile order inShape offset shape isSplat bits inBuf result := by
  cases isSplat with
  | true =>
    have hsame : outBuf.length = inBuf.length := hout.trans hin.symm
    refine ⟨inBuf, ?_, hsame.symm, fun c _ => rfl⟩
    unfold subViewTransform memcpy
    rw [if_pos rfl, if_pos (by omega)]
    simp [hsame.le]
  | false =>
    have hmem := DimsOrder.Fits_toMemoryOrder hrank hfits
    have hshape : shape.length = order.numDims := hfits.length_shape.trans hrank
    rw [← DimsOrder.prod_toMemoryOrder hrank] at hin
    rw [← DimsOrder.prod_toMemoryOrder hshape] at hout
    unfold subViewTransform CopiesTile
    simp only [storedIndex_false]
    rw [if_neg (by simp), ← DimsOrder.prod_toMemoryOrder hshape]
    by_cases hpacked : bits < 8
    · have hpart : bits = 1 ∨ bits = 2 ∨ bits = 4 := by
        rcases hbits with h | h | h | ⟨h, hpos⟩
        · exact Or.inl h
        · exact Or.inr (Or.inl h)
        · exact Or.inr (Or.inr h)
        · exact absurd (Nat.le_of_dvd hpos h) (Nat.not_le.mpr hpacked)
      rw [if_pos hpacked]
      obtain ⟨result, hrun, hlen, helements⟩ := subByteTransform_spec hpart hmem hin hout
      refine ⟨result, hrun, hlen, ?_⟩
      intro c hc
      have hpair := helements _ (subViewPairs_mem hc)
      exact hpair
    · obtain ⟨e, rfl⟩ : 8 ∣ bits := by omega
      rw [if_neg hpacked]
      obtain ⟨result, hrun, hlen, helements⟩ := generalTransform_spec hschedule hmem
        (by rw [hin]; exact toNat_packedSize (prod_pos hmem.dims_pos).le) (by rw [hout]; exact toNat_packedSize (prod_pos hmem.shape_pos).le)
      refine ⟨result, hrun, hlen, ?_⟩
      intro c hc
      have hpair := helements _ (subViewPairs_mem hc)
      exact hpair

example : subViewTransform List.reverse (DimsOrder.fromNumDims 2) [2, 4] [1, 1] [1, 2] false 4 [0x10, 0x32, 0x54, 0x76] [0xff] =
    some [0x65] := by decide

end

end NpuCompiler.Const
