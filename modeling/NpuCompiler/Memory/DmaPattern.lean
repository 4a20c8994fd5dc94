import NpuCompiler.Const.LayoutTransformations
import NpuCompiler.Library.LoopNest

namespace NpuCompiler.Memory

open LoopNest List

/-- The iterations of the DMA dimensions and the bytes between them, from the outermost to the innermost one. -/
structure DMAPattern where
  dims : List ℤ
  strides : List ℤ
  deriving DecidableEq

section

def alignToByteBoundary (bits : ℤ) : ℤ := if bits.tmod 8 ≠ 0 then bits + (8 - bits.tmod 8) else bits

def toByte (bits : ℤ) : Option ℤ := if bits.tmod 8 = 0 then some (bits.tdiv 8) else none

structure Reduction where
  accumulatedSize : ℤ
  previousStrideInBits : ℤ
  reducedBitDims : List ℤ
  reducedBitStrides : List ℤ

def reduceDim (elemSize : ℤ) (assumeDynamicStrides : Bool) (reduction : Reduction) (dim : ℤ × ℤ) : Reduction :=
  let accumulatedSize := reduction.accumulatedSize * dim.1
  if dim.1 * reduction.previousStrideInBits ≠ dim.2 ∨ assumeDynamicStrides then
    { accumulatedSize := elemSize
      previousStrideInBits := dim.2
      reducedBitDims := reduction.reducedBitDims ++ [accumulatedSize]
      reducedBitStrides := reduction.reducedBitStrides ++ [dim.2] }
  else { reduction with accumulatedSize := accumulatedSize, previousStrideInBits := dim.2 }

def flush (elemSize frontStride : ℤ) (reduction : Reduction) : List ℤ × List ℤ :=
  if elemSize < reduction.accumulatedSize ∨ reduction.reducedBitDims = [] then
    (reduction.reducedBitDims ++ [reduction.accumulatedSize], reduction.reducedBitStrides ++ [frontStride])
  else (reduction.reducedBitDims, reduction.reducedBitStrides)

def toPattern (elemSize : ℤ) (reducedBitDims reducedBitStrides : List ℤ) : Option DMAPattern := do
  let reducedBitDimsByteAligned := reducedBitDims.modifyHead alignToByteBoundary
  let reducedDims := reducedBitDimsByteAligned.map fun bitDim => bitDim.tdiv elemSize
  let front ← toByte (reducedDims.headD 0 * elemSize)
  let reducedDims := front :: reducedDims.tail
  if reducedBitStrides.dropLast.any (fun bitStride => bitStride.tmod 8 ≠ 0) then none
  else do
    let reducedStrides ← reducedBitStrides.mapM fun bitStride => toByte (alignToByteBoundary bitStride)
    some { dims := reducedDims.reverse, strides := reducedStrides.reverse }

def reduceDimsForDma (memShape memStrides : List ℤ) (elemSize : ℤ) (assumeDynamicStrides : Bool) : Option DMAPattern :=
  match memShape, memStrides with
  | size :: sizes, stride :: strides => do
    let memShape := size :: sizes ++ [elemSize]
    let memStrides := stride * size :: stride :: strides
    let reduction := (memShape.zip memStrides).reverse.foldl (reduceDim elemSize assumeDynamicStrides)
      { accumulatedSize := 1, previousStrideInBits := 1, reducedBitDims := [], reducedBitStrides := [] }
    let reduced := flush elemSize (stride * size) reduction
    toPattern elemSize reduced.1 reduced.2
  | _, _ => do
    let alignedElemSize ← toByte (alignToByteBoundary elemSize)
    some { dims := [alignedElemSize], strides := [alignedElemSize] }

/-- The loops over the dimensions; the innermost one moves by single bytes, and the outermost stride is not used. -/
def DMAPattern.loops (pattern : DMAPattern) : List (ℤ × ℤ) := pattern.dims.zip (pattern.strides.tail ++ [1])

def DMAPattern.addresses (pattern : DMAPattern) : List ℤ := offsets pattern.loops

def bitsOfByte (address : ℤ) : List ℤ := (List.range 8).map fun (k : ℕ) => address * 8 + k

def elementBits (memShape memStrides : List ℤ) (elemSize : ℤ) : List ℤ :=
  (Const.coords memShape).flatMap fun coord =>
    (List.range elemSize.toNat).map fun (k : ℕ) => (List.zipWith (· * ·) coord memStrides).sum + k

def tensorLoops (memShape memStrides : List ℤ) (elemSize : ℤ) : List (ℤ × ℤ) := memShape.zip memStrides ++ [(elemSize, 1)]

def contiguousRun (elemSize : ℤ) : List (ℤ × ℤ) → ℤ × Bool
  | [] => (elemSize, true)
  | dim :: inner =>
    let run := contiguousRun elemSize inner
    if run.2 ∧ run.1 = dim.2 then (dim.1 * run.1, true) else (run.1, false)

def innermostRun (memShape memStrides : List ℤ) (elemSize : ℤ) (assumeDynamicStrides : Bool) : ℤ :=
  if assumeDynamicStrides then elemSize else (contiguousRun elemSize (memShape.zip memStrides)).1

variable {elemSize : ℤ} {assumeDynamicStrides : Bool} {group dim : ℤ × ℤ} {done dims ext : List (ℤ × ℤ)} {reduction : Reduction}

/-- The sizes in bits of the groups of dimensions, from the innermost one; all but that one have the element size as a factor. -/
def bitDims (elemSize : ℤ) : List (ℤ × ℤ) → List ℤ
  | [] => []
  | group :: inner => bitDims elemSize inner ++ [if inner = [] then group.1 else elemSize * group.1]

structure Grouped (elemSize : ℤ) (group : ℤ × ℤ) (done : List (ℤ × ℤ)) (reduction : Reduction) : Prop where
  accumulatedSize : reduction.accumulatedSize = if done = [] then group.1 else elemSize * group.1
  previousStride : reduction.previousStrideInBits = group.1 * group.2
  reducedBitDims : reduction.reducedBitDims = bitDims elemSize done
  reducedBitStrides : reduction.reducedBitStrides = ((group :: done).dropLast.map Prod.snd).reverse

theorem Grouped.flush (h : Grouped elemSize group done reduction)
    (hbreak : dim.1 * (group.1 * group.2) ≠ dim.2 ∨ assumeDynamicStrides = true) :
    Grouped elemSize (1, dim.2) ((dim.1 * group.1, group.2) :: done) (reduceDim elemSize assumeDynamicStrides reduction dim) := by
  unfold reduceDim
  dsimp only
  rw [h.previousStride, if_pos hbreak]
  refine ⟨by simp, (Int.one_mul _).symm, ?_, ?_⟩
  · rw [h.reducedBitDims, h.accumulatedSize]
    have hsize : (if done = [] then group.1 else elemSize * group.1) * dim.1 =
        if done = [] then dim.1 * group.1 else elemSize * (dim.1 * group.1) := by
      split_ifs
      · exact Int.mul_comm _ _
      · rw [Int.mul_assoc, Int.mul_comm group.1]
    rw [hsize]
    rfl
  · rw [h.reducedBitStrides, dropLast_cons_of_ne_nil (cons_ne_nil _ _), map_cons, reverse_cons]
    cases done with
    | nil => rfl
    | cons next done =>
      rw [dropLast_cons_of_ne_nil (cons_ne_nil _ _), dropLast_cons_of_ne_nil (cons_ne_nil _ _)]
      rfl

theorem Grouped.extend (h : Grouped elemSize group done reduction) (hcompact : dim.1 * (group.1 * group.2) = dim.2)
    (hstatic : assumeDynamicStrides = false) :
    Grouped elemSize (dim.1 * group.1, group.2) done (reduceDim elemSize assumeDynamicStrides reduction dim) := by
  unfold reduceDim
  dsimp only
  rw [h.previousStride, hstatic, if_neg (by simpa using hcompact)]
  refine ⟨?_, ?_, h.reducedBitDims, ?_⟩
  · dsimp only
    rw [h.accumulatedSize]
    split_ifs
    · exact Int.mul_comm _ _
    · rw [Int.mul_assoc, Int.mul_comm group.1]
  · dsimp only
    rw [Int.mul_assoc, hcompact]
  · dsimp only
    rw [h.reducedBitStrides]
    cases done with
    | nil => rfl
    | cons next done =>
      rw [dropLast_cons_of_ne_nil (cons_ne_nil _ _), dropLast_cons_of_ne_nil (cons_ne_nil _ _)]
      rfl

def stepOf : List (ℤ × ℤ) → ℤ
  | [] => 1
  | dim :: _ => dim.2

def loopsOf : List (ℤ × ℤ) → List (ℤ × ℤ)
  | [] => []
  | dim :: inner => (dim.1, stepOf inner) :: loopsOf inner

/-- One group for each loop with dynamic strides, and else the collapsed loops; the outermost group is open. -/
def groupsOf (assumeDynamicStrides : Bool) (ext : List (ℤ × ℤ)) : List (ℤ × ℤ) :=
  if assumeDynamicStrides then (1, stepOf ext) :: loopsOf ext else collapse ((1, stepOf ext) :: loopsOf ext)

theorem collapse_scale {size step : ℤ} (h : collapse ((1, step) :: dims) = group :: done) :
    collapse ((size, step) :: dims) = (size * group.1, group.2) :: done := by
  cases hcollapse : collapse dims with
  | nil =>
    unfold collapse at h ⊢
    rw [hcollapse] at h ⊢
    injection h with hhead htail
    rw [← hhead, ← htail]
    dsimp only
    rw [Int.mul_one]
  | cons next rest =>
    rw [collapse_of_cons hcollapse] at h ⊢
    dsimp only at h ⊢
    split_ifs at h ⊢ with hcompact
    · injection h with hhead htail
      rw [← hhead, ← htail, Int.one_mul]
    · injection h with hhead htail
      rw [← hhead, ← htail, Int.mul_one]

theorem reduce_groups : ∃ group done, groupsOf assumeDynamicStrides ext = group :: done ∧ group.1 * group.2 = stepOf ext ∧
    Grouped elemSize group done (ext.foldr (fun dim reduction => reduceDim elemSize assumeDynamicStrides reduction dim)
      { accumulatedSize := 1, previousStrideInBits := 1, reducedBitDims := [], reducedBitStrides := [] }) := by
  induction ext with
  | nil =>
    refine ⟨(1, 1), [], ?_, rfl, ⟨rfl, rfl, rfl, rfl⟩⟩
    unfold groupsOf
    split_ifs <;> rfl
  | cons dim ext ih =>
    obtain ⟨group, done, hgroups, hspan, hgrouped⟩ := ih
    rw [foldr_cons]
    cases assumeDynamicStrides with
    | true =>
      injection hgroups with hhead htail
      rw [← hhead, ← htail] at hgrouped
      have hnext := @Grouped.flush elemSize true _ dim _ _ hgrouped (Or.inr rfl)
      rw [Int.mul_one] at hnext
      exact ⟨_, _, rfl, Int.one_mul _, hnext⟩
    | false =>
      have hscaled : collapse ((dim.1, stepOf ext) :: loopsOf ext) = (dim.1 * group.1, group.2) :: done := collapse_scale hgroups
      have hcollapse := @collapse_of_cons (1, dim.2) (dim.1 * group.1, group.2) ((dim.1, stepOf ext) :: loopsOf ext) done hscaled
      dsimp only at hcollapse
      rw [Int.mul_assoc, Int.one_mul] at hcollapse
      by_cases hcompact : dim.1 * (group.1 * group.2) = dim.2
      · rw [if_pos hcompact] at hcollapse
        exact ⟨_, done, hcollapse, by rw [Int.mul_assoc, hcompact]; rfl, hgrouped.extend hcompact rfl⟩
      · rw [if_neg hcompact] at hcollapse
        exact ⟨_, _, hcollapse, Int.one_mul _, hgrouped.flush (Or.inl hcompact)⟩

variable {x : ℤ} {last : ℤ × ℤ} {init : List (ℤ × ℤ)}

theorem alignToByteBoundary_of_dvd {bits : ℤ} (h : 8 ∣ bits) : alignToByteBoundary bits = bits := by
  unfold alignToByteBoundary
  rw [if_neg (not_not_intro (Int.tmod_eq_zero_of_dvd h))]

theorem toByte_of_dvd {bits : ℤ} (h : 8 ∣ bits) : toByte bits = some (bits / 8) := by
  unfold toByte
  rw [if_pos (Int.tmod_eq_zero_of_dvd h), Int.tdiv_eq_ediv_of_dvd h]

theorem dvd_alignToByteBoundary (bits : ℤ) : 8 ∣ alignToByteBoundary bits := by
  have hdiv := Int.tmod_add_mul_tdiv bits 8
  unfold alignToByteBoundary
  split_ifs with h
  · exact ⟨bits.tdiv 8 + 1, by omega⟩
  · exact Int.dvd_of_tmod_eq_zero (not_not.mp h)

theorem bitDims_append : bitDims elemSize (init ++ [last]) = last.1 :: (init.map fun group => elemSize * group.1).reverse := by
  induction init with
  | nil => rfl
  | cons group init ih =>
    rw [cons_append]
    unfold bitDims
    rw [ih, if_neg (by simp), map_cons, reverse_cons]
    rfl

theorem toPattern_spec (helem : 0 < elemSize) (hbytes : 8 ∣ last.1) (hfactor : elemSize ∣ last.1) {pattern : DMAPattern}
    (hreturn : toPattern elemSize (bitDims elemSize (init ++ [last])) ((init.map Prod.snd).reverse ++ [x]) = some pattern) :
    pattern.dims = init.map Prod.fst ++ [last.1 / 8] ∧ (∃ y, pattern.strides = y :: init.map fun group => group.2 / 8) ∧
      ∀ group ∈ init, 8 ∣ group.2 := by
  have hfront : last.1.tdiv elemSize * elemSize = last.1 := Int.tdiv_mul_cancel hfactor
  have hdims : (init.map fun group => elemSize * group.1).reverse.map (fun bitDim => bitDim.tdiv elemSize) =
      (init.map Prod.fst).reverse := by
    rw [← map_reverse, ← map_reverse, map_map]
    apply map_congr_left
    intro group _
    exact Int.mul_tdiv_cancel_left _ helem.ne'
  unfold toPattern at hreturn
  rw [bitDims_append, modifyHead_cons, alignToByteBoundary_of_dvd hbytes] at hreturn
  dsimp only at hreturn
  rw [map_cons, headD_cons, hfront, toByte_of_dvd hbytes, tail_cons, hdims, dropLast_concat] at hreturn
  simp only [Option.bind_eq_bind, Option.bind_some] at hreturn
  split_ifs at hreturn with haligned
  have hmultiple : ∀ group ∈ init, 8 ∣ group.2 := by
    intro group hgroup
    apply Int.dvd_of_tmod_eq_zero
    by_contra hne
    apply haligned
    apply any_eq_true.mpr
    exact ⟨group.2, mem_reverse.mpr (mem_map_of_mem hgroup), decide_eq_true hne⟩
  have hstrides : (init.map Prod.snd).reverse.mapM (fun bitStride => toByte (alignToByteBoundary bitStride)) =
      some (init.map fun group => group.2 / 8).reverse := by
    rw [mapM_eq_some (g := fun bitStride => bitStride / 8)]
    · rw [← map_reverse, ← map_reverse, map_map]
      rfl
    · intro bitStride hmem
      obtain ⟨group, hgroup, rfl⟩ := mem_map.mp (mem_reverse.mp hmem)
      rw [alignToByteBoundary_of_dvd (hmultiple group hgroup), toByte_of_dvd (hmultiple group hgroup)]
  rw [mapM_append, hstrides, mapM_cons, toByte_of_dvd (dvd_alignToByteBoundary x)] at hreturn
  simp only [mapM_nil, Option.pure_def, Option.bind_eq_bind, Option.bind_some, Option.some.injEq] at hreturn
  subst hreturn
  refine ⟨by simp, ⟨alignToByteBoundary x / 8, by simp⟩, hmultiple⟩

end

section
variable {elemSize : ℤ} {memShape memStrides : List ℤ}

theorem loopsOf_zip {front : ℤ} (hlen : memStrides.length = memShape.length) :
    loopsOf ((memShape ++ [elemSize]).zip (front :: memStrides)) = tensorLoops memShape memStrides elemSize ∧
      stepOf ((memShape ++ [elemSize]).zip (front :: memStrides)) = front := by
  induction memShape generalizing front memStrides with
  | nil =>
    rw [eq_nil_of_length_eq_zero hlen]
    exact ⟨rfl, rfl⟩
  | cons size sizes ih =>
    cases memStrides with
    | nil => simp at hlen
    | cons stride strides =>
      obtain ⟨hloops, hstep⟩ := @ih strides stride (by simpa using hlen)
      refine ⟨?_, rfl⟩
      rw [cons_append, zip_cons_cons]
      unfold loopsOf
      rw [hloops, hstep]
      rfl

theorem offsets_tensorLoops (hlen : memStrides.length = memShape.length) :
    offsets (tensorLoops memShape memStrides elemSize) = elementBits memShape memStrides elemSize := by
  induction memShape generalizing memStrides with
  | nil =>
    rw [eq_nil_of_length_eq_zero hlen]
    unfold tensorLoops elementBits
    rw [zip_nil_left, nil_append, offsets_singleton]
    simp [Const.coords]
  | cons size sizes ih =>
    cases memStrides with
    | nil => simp at hlen
    | cons stride strides =>
      have hinner := @ih strides (by simpa using hlen)
      unfold tensorLoops at hinner ⊢
      rw [zip_cons_cons, cons_append, offsets_cons, hinner]
      unfold elementBits
      rw [show Const.coords (size :: sizes) = (Const.natRange size).flatMap fun y => (Const.coords sizes).map fun c => y :: c from rfl]
      unfold Const.natRange
      rw [flatMap_assoc, flatMap_map]
      apply flatMap_congr
      intro i _
      rw [map_flatMap, flatMap_map]
      apply flatMap_congr
      intro coord _
      rw [map_map]
      apply map_congr_left
      intro k _
      simp only [Function.comp_apply, zipWith_cons_cons, sum_cons]
      rw [Int.add_assoc]

theorem collapse_run {dims : List (ℤ × ℤ)} : ∃ init, collapse (dims ++ [(elemSize, 1)]) = init ++ [((contiguousRun elemSize dims).1, 1)] ∧
    ((contiguousRun elemSize dims).2 = true ↔ init = []) ∧ elemSize ∣ (contiguousRun elemSize dims).1 := by
  induction dims with
  | nil => exact ⟨[], rfl, by simp [contiguousRun], dvd_refl _⟩
  | cons dim dims ih =>
    obtain ⟨init, hcollapse, hwhole, hfactor⟩ := ih
    unfold contiguousRun
    dsimp only
    cases init with
    | nil =>
      rw [hwhole.mpr rfl, cons_append, collapse_of_cons hcollapse, Int.mul_one]
      by_cases hcompact : (contiguousRun elemSize dims).1 = dim.2
      · rw [if_pos hcompact, if_pos ⟨rfl, hcompact⟩]
        exact ⟨[], rfl, by simp, Dvd.dvd.mul_left hfactor _⟩
      · rw [if_neg hcompact, if_neg (fun h => hcompact h.2)]
        exact ⟨[dim], rfl, by simp, hfactor⟩
    | cons group init =>
      have hpart : (contiguousRun elemSize dims).2 = false := Bool.eq_false_of_not_eq_true (fun h => cons_ne_nil _ _ (hwhole.mp h))
      rw [hpart, if_neg (by simp), cons_append, collapse_of_cons hcollapse]
      split_ifs
      · exact ⟨_ :: init, rfl, by simp, hfactor⟩
      · exact ⟨dim :: group :: init, rfl, by simp, hfactor⟩

end

end NpuCompiler.Memory
