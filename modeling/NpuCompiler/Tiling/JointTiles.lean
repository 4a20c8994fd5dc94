import NpuCompiler.Tiling.OutputPartition

namespace NpuCompiler.Tiling

open MixedRadix Partition List

/-- What the operations of a group can ask for besides their alignment. -/
inductive OperationKind where
  | depthConvolution (isSEP : Bool)
  | depthToSpace (blockSize : Option ℤ)
  | other
  deriving DecidableEq

/-- The `alignment` is the one `getAlignment` gives for the divisors, `isSpatialFirst` its nesting of the tiles. -/
structure Operation where
  alignment : List ℤ
  isSpatialFirst : Bool
  isDynamic : Bool
  kind : OperationKind
  deriving DecidableEq

structure TilingParams where
  multiplier : ℤ
  unrollSpatialFirst : Bool
  alignments : List (List ℤ)
  deriving DecidableEq

section
variable (operations : List Operation) (divisors shape : List ℤ)

def depthToSpaceMultiplier (multiplier blockSize : ℤ) : Option ℤ := do
  let shapeH ← shape[dimH]?
  let shapeW ← shape[dimW]?
  if blockSize = 0 then some multiplier
  else if shapeH.tmod blockSize ≠ 0 ∨ shapeW.tmod blockSize ≠ 0 then some multiplier
  else some (Int.lcm blockSize multiplier)

def addOperation (params : TilingParams) (innerOp : Operation) : Option TilingParams :=
  let params := { params with
    alignments := params.alignments ++ [innerOp.alignment]
    unrollSpatialFirst := params.unrollSpatialFirst || innerOp.isSpatialFirst }
  if ¬innerOp.isDynamic then some params
  else match innerOp.kind with
    | .depthConvolution isSEP =>
      -- undefined: the channel split is a reference to a temporary, which is gone when the tiles are made
      if isSEP ∧ entry divisors dimC ≠ 1 then none else some params
    | .depthToSpace blockSize => do
      let multiplier ← depthToSpaceMultiplier shape params.multiplier (blockSize.getD 0)
      some { params with multiplier := multiplier }
    | .other => some params

def lcmOf (values : List ℤ) : ℤ := values.foldl (fun l value => Int.lcm l value) 1

def calculateAlignmentLCM (alignments : List (List ℤ)) : Option (Option (List ℤ)) :=
  match alignments with
  | [] => some none
  | first :: _ =>
    if ∃ alignment ∈ alignments, alignment.length ≠ first.length then none
    else some (some ((List.range first.length).map fun dim => lcmOf (alignments.map fun alignment => entry alignment dim)))

def divideSpatial (multiplier : ℤ) (shape : List ℤ) : List ℤ :=
  (shape.set dimH ((entry shape dimH).tdiv multiplier)).set dimW ((entry shape dimW).tdiv multiplier)

def divideAlignment (multiplier : ℤ) (alignment : List ℤ) : List ℤ :=
  (alignment.set dimH (max ((entry alignment dimH).tdiv multiplier) 1)).set dimW
    (max ((entry alignment dimW).tdiv multiplier) 1)

def multiplySpatial (multiplier : ℤ) (v : List ℤ) : List ℤ :=
  (v.set dimH (entry v dimH * multiplier)).set dimW (entry v dimW * multiplier)

def scaleTile (multiplier : ℤ) (tile : TileInfo) : TileInfo :=
  { tile with shape := multiplySpatial multiplier tile.shape, offsets := multiplySpatial multiplier tile.offsets }

def fillDividedTilesOperations : Option (List TileInfo) := do
  let params ← operations.foldlM (addOperation divisors shape) ⟨1, false, []⟩
  let optionalAlignment ← calculateAlignmentLCM params.alignments
  if params.multiplier ≠ 1 then
    let tiles ← fillDividedTiles divisors (divideSpatial params.multiplier shape)
      (optionalAlignment.map (divideAlignment params.multiplier)) params.unrollSpatialFirst none
    some (tiles.map (scaleTile params.multiplier))
  else fillDividedTiles divisors shape optionalAlignment params.unrollSpatialFirst none

/-- `fillDividedTiles` for one `DepthToSpace` operation with its own alignment; a block size of zero is a throw. -/
def fillDividedTilesDepthToSpaceOp (alignment : Option (List ℤ)) (unrollSpatialFirst : Bool) (blockSize : ℤ) :
    Option (List TileInfo) := do
  if blockSize = 0 then none
  else
    let shapeH ← shape[dimH]?
    let shapeW ← shape[dimW]?
    if shapeH.tmod blockSize ≠ 0 ∨ shapeW.tmod blockSize ≠ 0 then none
    else
      let tiles ← fillDividedTiles divisors (divideSpatial blockSize shape) alignment unrollSpatialFirst none
      some (tiles.map (scaleTile blockSize))

/-- The block size the tiles have to respect for an operation: only those with a dynamic shape have one. -/
def Operation.blockSize (op : Operation) : Option ℤ :=
  match op.isDynamic, op.kind with
  | true, .depthToSpace blockSize => blockSize
  | _, _ => none

def blockSizes : List ℤ := operations.filterMap Operation.blockSize

structure JointTiling (tiles : List TileInfo) : Prop where
  partition : IsPartition shape tiles
  blocks : ∀ blockSize ∈ blockSizes operations, ∀ tile ∈ tiles, ∀ d ∈ [dimH, dimW],
    blockSize ∣ entry tile.shape d ∧ blockSize ∣ entry tile.offsets d
  aligned : ∀ op ∈ operations, ∀ tile ∈ tiles, ∀ d < shape.length,
    entry op.alignment d ∣ entry tile.shape d ∨ entry tile.offsets d + entry tile.shape d = entry shape d

variable {values : List ℤ} {x m : ℤ}

theorem foldl_lcm_dvd_iff : values.foldl (fun l value => (Int.lcm l value : ℤ)) m ∣ x ↔ m ∣ x ∧ ∀ value ∈ values, value ∣ x := by
  induction values generalizing m with
  | nil => simp
  | cons value values ih =>
    rw [foldl_cons, ih, Int.coe_lcm_dvd_iff]
    simp only [forall_mem_cons, and_assoc]

theorem lcmOf_dvd_iff : lcmOf values ∣ x ↔ ∀ value ∈ values, value ∣ x := by
  rw [lcmOf, foldl_lcm_dvd_iff]
  simp

theorem lcm_pos {a b : ℤ} (ha : 0 < a) (hb : 0 < b) : (0 : ℤ) < Int.lcm a b := by
  exact Int.natCast_pos.mpr (Int.lcm_pos ha.ne' hb.ne')

theorem lcmOf_pos (h : ∀ value ∈ values, 0 < value) : 0 < lcmOf values := by
  apply foldl_invariant (I := fun l : ℤ => 0 < l) one_pos
  intro value hv l hl
  exact lcm_pos hl (h value hv)

end

section
variable {operations : List Operation} {op : Operation} {divisors shape : List ℤ} {params params' : TilingParams}

structure AddsOperation (op : Operation) (params params' : TilingParams) : Prop where
  alignments : params'.alignments = params.alignments ++ [op.alignment]
  multiplier : ∀ x, params'.multiplier ∣ x ↔ params.multiplier ∣ x ∧ ∀ blockSize ∈ op.blockSize, blockSize ∣ x
  pos : 0 < params.multiplier → 0 < params'.multiplier

theorem depthToSpaceMultiplier_eq {m m' b : ℤ} (hb : 0 < b) (hH : b ∣ entry shape dimH) (hW : b ∣ entry shape dimW)
    (h : depthToSpaceMultiplier shape m b = some m') : m' = Int.lcm b m := by
  obtain ⟨shapeH, hshapeH, h⟩ := Option.bind_eq_some_iff.mp h
  obtain ⟨shapeW, hshapeW, h⟩ := Option.bind_eq_some_iff.mp h
  rw [entry_of_getElem? hshapeH] at hH
  rw [entry_of_getElem? hshapeW] at hW
  rw [if_neg hb.ne', if_neg] at h
  · exact (Option.some.inj h).symm
  · rw [not_or, not_not, not_not]
    exact ⟨Int.tmod_eq_zero_of_dvd hH, Int.tmod_eq_zero_of_dvd hW⟩

theorem addOperation_spec
    (hblock : ∀ b ∈ op.blockSize, 0 < b ∧ b ∣ entry shape dimH ∧ b ∣ entry shape dimW)
    (h : addOperation divisors shape params op = some params') : AddsOperation op params params' := by
  unfold addOperation at h
  cases hdyn : op.isDynamic with
  | false =>
    rw [hdyn] at h
    cases h
    exact ⟨rfl, by simp [Operation.blockSize, hdyn], id⟩
  | true =>
    rw [hdyn] at h
    cases hkind : op.kind with
    | other =>
      rw [hkind] at h
      cases h
      exact ⟨rfl, by simp [Operation.blockSize, hkind], id⟩
    | depthConvolution isSEP =>
      rw [hkind] at h
      simp only [not_true_eq_false, ↓reduceIte] at h
      split_ifs at h
      cases h
      exact ⟨rfl, by simp [Operation.blockSize, hkind], id⟩
    | depthToSpace blockSize =>
      rw [hkind] at h
      obtain ⟨multiplier, hmul, h⟩ := Option.bind_eq_some_iff.mp h
      cases h
      have hblockSize : op.blockSize = blockSize := by simp [Operation.blockSize, hdyn, hkind]
      cases blockSize with
      | none =>
        have he : multiplier = params.multiplier := by
          obtain ⟨_, _, hmul⟩ := Option.bind_eq_some_iff.mp hmul
          obtain ⟨_, _, hmul⟩ := Option.bind_eq_some_iff.mp hmul
          exact (Option.some.inj hmul).symm
        subst he
        exact ⟨rfl, by simp [hblockSize], id⟩
      | some b =>
        obtain ⟨hb, hH, hW⟩ := hblock b (by rw [hblockSize]; rfl)
        have he := depthToSpaceMultiplier_eq hb hH hW hmul
        subst he
        refine ⟨rfl, fun x => ?_, fun hpos => lcm_pos hb hpos⟩
        rw [Int.coe_lcm_dvd_iff, and_comm, hblockSize]
        simp

theorem operations_run
    (hblocks : ∀ b ∈ blockSizes operations, 0 < b ∧ b ∣ entry shape dimH ∧ b ∣ entry shape dimW)
    (h : operations.foldlM (addOperation divisors shape) params = some params') :
    params'.alignments = params.alignments ++ operations.map Operation.alignment ∧
      (∀ x, params'.multiplier ∣ x ↔ params.multiplier ∣ x ∧ ∀ b ∈ blockSizes operations, b ∣ x) ∧
      (0 < params.multiplier → 0 < params'.multiplier) := by
  induction operations generalizing params with
  | nil =>
    cases h
    simp [blockSizes]
  | cons op operations ih =>
    rw [foldlM_cons] at h
    obtain ⟨next, hnext, h⟩ := Option.bind_eq_some_iff.mp h
    have hmem : ∀ b, b ∈ blockSizes (op :: operations) ↔ b ∈ op.blockSize ∨ b ∈ blockSizes operations := by
      intro b
      simp [blockSizes]
    have hstep := addOperation_spec (fun b hb => hblocks b ((hmem b).mpr (.inl hb))) hnext
    obtain ⟨halign, hmul, hpos⟩ := ih (fun b hb => hblocks b ((hmem b).mpr (.inr hb))) h
    refine ⟨?_, fun x => ?_, fun hp => hpos (hstep.pos hp)⟩
    · rw [halign, hstep.alignments, append_assoc]
      rfl
    · simp only [hmul, hstep.multiplier, hmem, and_assoc, or_imp, forall_and]

theorem eq_of_dvd_iff {a b : ℤ} (ha : 0 < a) (hb : 0 < b) (h : ∀ x, a ∣ x ↔ b ∣ x) : a = b := by
  exact Int.dvd_antisymm ha.le hb.le ((h b).mpr (dvd_refl b)) ((h a).mp (dvd_refl a))

theorem operations_params
    (hblocks : ∀ b ∈ blockSizes operations, 0 < b ∧ b ∣ entry shape dimH ∧ b ∣ entry shape dimW)
    (h : operations.foldlM (addOperation divisors shape) ⟨1, false, []⟩ = some params) :
    params.alignments = operations.map Operation.alignment ∧ params.multiplier = lcmOf (blockSizes operations) := by
  obtain ⟨halign, hmul, hpos⟩ := operations_run hblocks h
  refine ⟨halign, eq_of_dvd_iff (hpos one_pos) (lcmOf_pos fun b hb => (hblocks b hb).1) fun x => ?_⟩
  rw [hmul, lcmOf_dvd_iff]
  simp

end

section
variable {multiplier : ℤ} {shape reduced v c : List ℤ} {tiles : List TileInfo} {tile : TileInfo} {d : ℕ}

def mapSpatial (f : ℤ → ℤ) (v : List ℤ) : List ℤ := (v.set dimH (f (entry v dimH))).set dimW (f (entry v dimW))

@[simp] theorem length_mapSpatial {f : ℤ → ℤ} : (mapSpatial f v).length = v.length := by
  simp [mapSpatial]

theorem entry_set_of_le {x : ℤ} (h : v.length ≤ d) : v.set d x = v := set_eq_of_length_le h

theorem entry_mapSpatial {f : ℤ → ℤ} (hf : f 0 = 0) :
    entry (mapSpatial f v) d = if d = dimH ∨ d = dimW then f (entry v d) else entry v d := by
  have hset : ∀ (w : List ℤ) (j : ℕ), entry w j = entry v j →
      entry (w.set j (f (entry v j))) d = if d = j then f (entry v d) else entry w d := by
    intro w j hw
    by_cases hj : j < w.length
    · rw [MixedRadix.entry_set _ hj]
      split
      · rename_i he
        rw [he]
      · rfl
    · rw [entry_set_of_le (by omega)]
      split
      · rename_i he
        have hzero : entry w j = 0 := entry_of_le (by omega)
        rw [he, ← hw, hzero, hf]
      · rfl
  have hW : entry (v.set dimH (f (entry v dimH))) dimW = entry v dimW := by
    unfold entry
    simp [dimH, dimW]
  rw [mapSpatial, hset _ _ hW, hset _ _ rfl]
  by_cases h1 : d = dimW
  · simp [h1]
  · simp [h1]

def factor (multiplier : ℤ) (d : ℕ) : ℤ := if d = dimH ∨ d = dimW then multiplier else 1

theorem factor_pos (hm : 0 < multiplier) : 0 < factor multiplier d := by
  unfold factor
  split
  · exact hm
  · exact one_pos

theorem entry_multiplySpatial : entry (multiplySpatial multiplier v) d = entry v d * factor multiplier d := by
  have he : entry (multiplySpatial multiplier v) d = _ := @entry_mapSpatial v d (fun x => x * multiplier) (zero_mul _)
  rw [he, factor]
  split
  · rfl
  · rw [mul_one]

@[simp] theorem length_multiplySpatial : (multiplySpatial multiplier v).length = v.length :=
  @length_mapSpatial v fun x => x * multiplier

@[simp] theorem length_divideSpatial : (divideSpatial multiplier v).length = v.length :=
  @length_mapSpatial v fun x => x.tdiv multiplier

theorem entry_divideSpatial (hH : multiplier ∣ entry shape dimH) (hW : multiplier ∣ entry shape dimW) :
    entry (divideSpatial multiplier shape) d * factor multiplier d = entry shape d := by
  have he : entry (divideSpatial multiplier shape) d = _ :=
    @entry_mapSpatial shape d (fun x => x.tdiv multiplier) (Int.zero_tdiv _)
  rw [he, factor]
  split
  · rename_i hd
    rcases hd with rfl | rfl
    · exact Int.tdiv_mul_cancel hH
    · exact Int.tdiv_mul_cancel hW
  · rw [mul_one]

theorem entry_divideSpatial_spatial (hd : d = dimH ∨ d = dimW) :
    entry (divideSpatial multiplier shape) d = (entry shape d).tdiv multiplier := by
  have he : entry (divideSpatial multiplier shape) d = _ :=
    @entry_mapSpatial shape d (fun x => x.tdiv multiplier) (Int.zero_tdiv _)
  rw [he, if_pos hd]

def reducedPoint (multiplier : ℤ) (c : List ℤ) : List ℤ := mapSpatial (fun x => x / multiplier) c

theorem entry_reducedPoint : entry (reducedPoint multiplier c) d = entry c d / factor multiplier d := by
  have he : entry (reducedPoint multiplier c) d = _ := @entry_mapSpatial c d (fun x => x / multiplier) (Int.zero_ediv _)
  rw [he, factor]
  split
  · rfl
  · rw [Int.ediv_one]

theorem mul_le_iff_le_reducedPoint (hm : 0 < multiplier) (x : ℤ) :
    x * factor multiplier d ≤ entry c d ↔ x ≤ entry (reducedPoint multiplier c) d := by
  rw [entry_reducedPoint]
  exact (Int.le_ediv_iff_mul_le (factor_pos hm)).symm

theorem lt_mul_iff_reducedPoint_lt (hm : 0 < multiplier) (x : ℤ) :
    entry c d < x * factor multiplier d ↔ entry (reducedPoint multiplier c) d < x := by
  rw [← not_le, ← not_le, mul_le_iff_le_reducedPoint hm]

theorem contains_scaleTile (hm : 0 < multiplier) :
    (scaleTile multiplier tile).Contains c ↔ tile.Contains (reducedPoint multiplier c) := by
  unfold TileInfo.Contains TileInfo.InRange
  simp only [scaleTile, length_multiplySpatial, entry_multiplySpatial, ← Int.add_mul, mul_le_iff_le_reducedPoint hm,
    lt_mul_iff_reducedPoint_lt hm, reducedPoint, length_mapSpatial]

theorem inBox_reducedPoint (hm : 0 < multiplier) (hlen : reduced.length = shape.length)
    (hshape : ∀ d, entry reduced d * factor multiplier d = entry shape d) :
    InBox shape c ↔ InBox reduced (reducedPoint multiplier c) := by
  have hzero : ∀ d, 0 ≤ entry c d ↔ 0 ≤ entry (reducedPoint multiplier c) d := by
    intro d
    rw [← mul_le_iff_le_reducedPoint hm, zero_mul]
  simp only [inBox_iff, ← hshape, hzero, lt_mul_iff_reducedPoint_lt hm, hlen, reducedPoint, length_mapSpatial]

theorem IsPartition.scale (h : IsPartition reduced tiles) (hm : 0 < multiplier) (hlen : reduced.length = shape.length)
    (hshape : ∀ d, entry reduced d * factor multiplier d = entry shape d) :
    IsPartition shape (tiles.map (scaleTile multiplier)) := by
  constructor
  · intro scaled hscaled
    obtain ⟨t, ht, rfl⟩ := mem_map.mp hscaled
    obtain ⟨hrank, hpos⟩ := h.sizes t ht
    refine ⟨?_, fun s hs => ?_⟩
    · simp [scaleTile, hrank, hlen]
    · obtain ⟨d, hd, rfl⟩ := mem_iff_getElem.mp hs
      have hdt : d < t.shape.length := by simpa [scaleTile] using hd
      rw [← entry_of_lt hd]
      change 0 < entry (multiplySpatial multiplier t.shape) d
      rw [entry_multiplySpatial]
      exact mul_pos (hpos _ (entry_mem hdt)) (factor_pos hm)
  · apply Splits.map
    apply ((h.splits.comap (reducedPoint multiplier)).congr fun c => inBox_reducedPoint hm hlen hshape).congr_part
    intro t _ c
    exact (contains_scaleTile hm).symm

/-- With `shapeVal` reduced by the multiplier and cut into `divisorVal` tiles, the sizes of the tiles but the last are
multiples of the alignment once scaled back. -/
def ScalesBack (shapeVal divisorVal alignmentVal multiplier : ℤ) : Prop :=
  if 1 < alignmentVal.tdiv multiplier then
    1 < divisorVal →
      alignmentVal ∣ alignValUp (divUp (shapeVal.tdiv multiplier) divisorVal) (alignmentVal.tdiv multiplier) * multiplier
  else
    ((shapeVal.tdiv multiplier).tmod divisorVal ≠ 0 →
      alignmentVal ∣ ((shapeVal.tdiv multiplier).tdiv divisorVal + 1) * multiplier) ∧
    ((shapeVal.tdiv multiplier).tmod divisorVal + 1 < divisorVal →
      alignmentVal ∣ (shapeVal.tdiv multiplier).tdiv divisorVal * multiplier)

variable {shapeVal divisorVal alignmentVal multiplier : ℤ}

theorem scalesBack_iff {sizes : ℤ × ℤ × ℤ} (hdiv : 1 ≤ divisorVal)
    (h : divideTileSizeAndInterval 0 [divisorVal] [shapeVal.tdiv multiplier] [max (alignmentVal.tdiv multiplier) 1] =
      some sizes) :
    ScalesBack shapeVal divisorVal alignmentVal multiplier ↔ ∀ i : ℕ, (i : ℤ) + 1 < divisorVal →
      alignmentVal ∣ (if (i : ℤ) < sizes.2.2 then sizes.1 else sizes.2.1) * multiplier := by
  simp only [divideTileSizeAndInterval, getElem?_cons_zero, Option.bind_eq_bind, Option.bind_some] at h
  unfold ScalesBack
  generalize shapeVal.tdiv multiplier = shapeVal at *
  split at h
  · cases h
  · next hle =>
    by_cases hal : 1 < alignmentVal.tdiv multiplier
    · rw [max_eq_left hal.le, if_pos hal] at h
      rw [if_pos hal]
      split at h
      · cases h
      · cases h
        dsimp only
        constructor
        · intro hkept i hi
          rw [if_pos (by omega)]
          exact hkept (by omega)
        · intro hkept hone
          have hfirst := hkept 0 (by simpa using hone)
          rwa [if_pos (by simpa using hone)] at hfirst
    · rw [max_eq_right (by omega), if_neg (lt_irrefl 1)] at h
      rw [if_neg hal]
      have hrest := Int.tmod_nonneg divisorVal (show 0 ≤ shapeVal by omega)
      have hlt := Int.tmod_lt_of_pos shapeVal (show 0 < divisorVal by omega)
      split at h
      · next hrem =>
        cases h
        dsimp only
        constructor
        · intro hkept i hi
          split
          · exact hkept.1 hrem
          · exact hkept.2 (by omega)
        · intro hkept
          constructor
          · intro _
            have hfirst := hkept 0 (by omega)
            rwa [if_pos (by omega)] at hfirst
          · intro hlast
            have hat := hkept (shapeVal.tmod divisorVal).toNat (by omega)
            rwa [if_neg (by omega)] at hat
      · next hrem =>
        cases h
        dsimp only
        push Not at hrem
        constructor
        · intro hkept i hi
          rw [if_pos (by omega)]
          exact hkept.2 (by omega)
        · intro hkept
          constructor
          · intro hne
            exact absurd hrem hne
          · intro hlast
            have hfirst := hkept 0 (by omega)
            rwa [if_pos (by omega)] at hfirst

end

section
variable {operations : List Operation} {divisors shape : List ℤ} {params : TilingParams} {tiles : List TileInfo}
  {alignment : List ℤ} {optionalAlignment : Option (List ℤ)} {d : ℕ}

def alignmentLCM (operations : List Operation) (d : ℕ) : ℤ := lcmOf (operations.map fun op => entry op.alignment d)

theorem alignmentLCM_dvd_iff {x : ℤ} : alignmentLCM operations d ∣ x ↔ ∀ op ∈ operations, entry op.alignment d ∣ x := by
  rw [alignmentLCM, lcmOf_dvd_iff, forall_mem_map]

theorem calculateAlignmentLCM_spec (hpos : ∀ op ∈ operations, ∀ a ∈ op.alignment, 0 < a)
    (h : calculateAlignmentLCM (operations.map Operation.alignment) = some optionalAlignment) :
    (optionalAlignment = none ∧ operations = []) ∨ ∃ alignment, optionalAlignment = some alignment ∧
      ∀ d < alignment.length, entry alignment d = alignmentLCM operations d ∧ 0 < alignmentLCM operations d := by
  cases operations with
  | nil =>
    cases h
    exact .inl ⟨rfl, rfl⟩
  | cons first operations =>
    rw [map_cons] at h
    simp only [calculateAlignmentLCM] at h
    split at h
    · cases h
    · next hsame =>
      cases h
      right
      refine ⟨_, rfl, fun d hd => ?_⟩
      rw [length_map, length_range] at hd
      push Not at hsame
      constructor
      · rw [entry_of_lt (by simpa using hd), getElem_map, getElem_range, ← map_cons (f := Operation.alignment),
          map_map]
        rfl
      · apply lcmOf_pos
        intro value hvalue
        obtain ⟨op, hop, rfl⟩ := mem_map.mp hvalue
        have hlen := hsame op.alignment (by rw [← map_cons]; exact mem_map_of_mem hop)
        exact hpos op hop _ (entry_mem (by omega))

theorem entry_divideAlignment {multiplier : ℤ} (hd : d < alignment.length) :
    entry (divideAlignment multiplier alignment) d =
      if d = dimH ∨ d = dimW then max ((entry alignment d).tdiv multiplier) 1 else entry alignment d := by
  have hset : ∀ (w : List ℤ) (j : ℕ) (x : ℤ), w.length = alignment.length →
      entry (w.set j x) d = if d = j then x else entry w d := by
    intro w j x hw
    by_cases hj : j < w.length
    · exact MixedRadix.entry_set _ hj
    · rw [entry_set_of_le (by omega), if_neg (by omega)]
  rw [divideAlignment, hset _ _ _ (by simp), hset _ _ _ rfl]
  by_cases h1 : d = dimW
  · simp [h1]
  · by_cases h2 : d = dimH
    · simp [h2, dimH, dimW]
    · simp [h1, h2]

theorem multiplySpatial_one (v : List ℤ) : multiplySpatial 1 v = v := by
  apply ext_entry (by simp)
  intro d _
  rw [entry_multiplySpatial, factor, ite_self, mul_one]

theorem scaleTile_one (tile : TileInfo) : scaleTile 1 tile = tile := by
  rw [scaleTile, multiplySpatial_one, multiplySpatial_one]

theorem divideSpatial_one (shape : List ℤ) : divideSpatial 1 shape = shape := by
  apply ext_entry (by simp)
  intro d _
  have he := @entry_divideSpatial 1 shape d (one_dvd _) (one_dvd _)
  rwa [factor, ite_self, mul_one] at he

theorem divideAlignment_one (h : ∀ d < alignment.length, 0 < entry alignment d) : divideAlignment 1 alignment = alignment := by
  have hlen : (divideAlignment 1 alignment).length = alignment.length := by simp [divideAlignment]
  apply ext_entry hlen
  intro d hd
  rw [hlen] at hd
  rw [entry_divideAlignment hd, Int.tdiv_one, max_eq_left (h d hd), ite_self]

theorem fillDividedTilesOperations_eq (hpos : ∀ op ∈ operations, ∀ a ∈ op.alignment, 0 < a)
    (hblocks : ∀ b ∈ blockSizes operations, 0 < b ∧ b ∣ entry shape dimH ∧ b ∣ entry shape dimW)
    (h : fillDividedTilesOperations operations divisors shape = some tiles) :
    ∃ optionalAlignment unrollSpatialFirst base,
      calculateAlignmentLCM (operations.map Operation.alignment) = some optionalAlignment ∧
      fillDividedTiles divisors (divideSpatial (lcmOf (blockSizes operations)) shape)
        (optionalAlignment.map (divideAlignment (lcmOf (blockSizes operations)))) unrollSpatialFirst none =
        some base ∧
      tiles = base.map (scaleTile (lcmOf (blockSizes operations))) := by
  obtain ⟨params, hparams, h⟩ := Option.bind_eq_some_iff.mp h
  obtain ⟨halign, hmul⟩ := operations_params hblocks hparams
  obtain ⟨optionalAlignment, hlcm, h⟩ := Option.bind_eq_some_iff.mp h
  rw [halign] at hlcm
  rw [hmul] at h
  refine ⟨optionalAlignment, params.unrollSpatialFirst, ?_⟩
  by_cases hone : lcmOf (blockSizes operations) = 1
  · rw [if_neg (not_not.mpr hone)] at h
    have hal : optionalAlignment.map (divideAlignment 1) = optionalAlignment := by
      rcases calculateAlignmentLCM_spec hpos hlcm with ⟨rfl, _⟩ | ⟨alignment, rfl, hentry⟩
      · rfl
      · rw [Option.map_some, divideAlignment_one]
        intro d hd
        rw [(hentry d hd).1]
        exact (hentry d hd).2
    rw [hone, divideSpatial_one, hal]
    exact ⟨tiles, hlcm, h, by simp [funext scaleTile_one]⟩
  · rw [if_pos hone] at h
    obtain ⟨base, hbase, h⟩ := Option.bind_eq_some_iff.mp h
    exact ⟨base, hlcm, hbase, (Option.some.inj h).symm⟩

theorem exists_tile_of_segment {size : ℕ → ℤ} {total i : ℕ} (hpart : IsPartition shape tiles)
    (hshape : ∀ d < shape.length, 0 < entry shape d) (hd : d < shape.length)
    (hsegment : ∀ t ∈ tiles, HasSegment size total d t) (hsize : ∀ i < total, 0 < size i)
    (hsum : offsetAt size total = entry shape d) (hi : i < total) :
    ∃ t ∈ tiles, entry t.shape d = size i ∧ entry t.offsets d = offsetAt size i := by
  have hnext : offsetAt size (i + 1) ≤ entry shape d := hsum ▸ offsetAt_le hsize hi le_rfl
  have hzero : 0 ≤ offsetAt size i := offsetAt_le hsize (Nat.zero_le i) hi.le
  have hposi := hsize i hi
  rw [offsetAt_succ] at hnext
  have hpoint : InBox shape ((List.replicate shape.length 0).set d (offsetAt size i)) := by
    apply inBox_iff.mpr
    refine ⟨by simp, fun j hj => ?_⟩
    rw [MixedRadix.entry_set _ (by simpa using hd)]
    split
    · rename_i he
      rw [he]
      omega
    · rw [entry_of_lt (by simpa using hj), getElem_replicate]
      exact ⟨le_rfl, hshape j hj⟩
  obtain ⟨t, ht, hcontains⟩ := hpart.splits.covers _ hpoint
  obtain ⟨j, hj, hs, ho⟩ := hsegment t ht
  have hrange := hcontains.2 d ((hpart.sizes t ht).1 ▸ hd)
  unfold TileInfo.InRange at hrange
  rw [MixedRadix.entry_set _ (by simpa using hd), if_pos rfl, hs, ho, ← offsetAt_succ] at hrange
  have hij : j = i := by
    rcases Nat.lt_trichotomy j i with hlt | rfl | hlt
    · have hle := offsetAt_le hsize hlt hi.le
      rw [Nat.succ_eq_add_one] at hle
      omega
    · rfl
    · have hle := offsetAt_le hsize hlt hj.le
      rw [Nat.succ_eq_add_one, offsetAt_succ] at hle
      omega
  exact ⟨t, ht, hij ▸ hs, hij ▸ ho⟩

theorem aligned_scale_iff {size : ℕ → ℤ} {total : ℕ} {multiplier shapeVal a : ℤ} (hm : 0 < multiplier)
    (hsegment : ∀ t ∈ tiles, HasSegment size total d t) (hsize : ∀ i < total, 0 < size i)
    (hsum : offsetAt size total * factor multiplier d = shapeVal)
    (hexists : ∀ i < total, ∃ t ∈ tiles, entry t.shape d = size i ∧ entry t.offsets d = offsetAt size i) :
    (∀ t ∈ tiles.map (scaleTile multiplier), a ∣ entry t.shape d ∨ entry t.offsets d + entry t.shape d = shapeVal) ↔
      ∀ i, i + 1 < total → a ∣ size i * factor multiplier d := by
  have hf := @factor_pos multiplier d hm
  have hend : ∀ i, offsetAt size i * factor multiplier d + size i * factor multiplier d =
      offsetAt size (i + 1) * factor multiplier d := by
    intro i
    rw [offsetAt_succ, Int.add_mul]
  simp only [forall_mem_map, scaleTile, entry_multiplySpatial]
  constructor
  · intro h i hi
    obtain ⟨t, ht, hs, ho⟩ := hexists i (by omega)
    have hside := h t ht
    rw [hs, ho, hend, ← hsum] at hside
    apply hside.resolve_right
    intro he
    have hsame := Int.eq_of_mul_eq_mul_right hf.ne' he
    have hlt := offsetAt_le hsize hi le_rfl
    have hnext := hsize (i + 1) hi
    rw [Nat.succ_eq_add_one, offsetAt_succ] at hlt
    omega
  · intro h t ht
    obtain ⟨i, hi, hs, ho⟩ := hsegment t ht
    rw [hs, ho]
    by_cases hlast : i + 1 < total
    · exact .inl (h i hlast)
    · right
      rw [hend, ← hsum, show i + 1 = total by omega]

theorem divideTileSizeAndInterval_one {sizes : ℤ × ℤ × ℤ}
    (h : divideTileSizeAndInterval d divisors shape alignment = some sizes) :
    divideTileSizeAndInterval 0 [entry divisors d] [entry shape d] [entry alignment d] = some sizes := by
  have hall := h
  unfold divideTileSizeAndInterval at hall
  obtain ⟨shapeVal, hshape, hall⟩ := Option.bind_eq_some_iff.mp hall
  obtain ⟨divisorVal, hdivisor, hall⟩ := Option.bind_eq_some_iff.mp hall
  obtain ⟨alignmentVal, halignment, hall⟩ := Option.bind_eq_some_iff.mp hall
  rw [entry_of_getElem? hshape, entry_of_getElem? hdivisor, entry_of_getElem? halignment]
  exact hall

theorem entry_baseAlignment {sizes : ℤ × ℤ × ℤ} {multiplier : ℤ}
    (hpos : ∀ op ∈ operations, ∀ a ∈ op.alignment, 0 < a) (hd : d < shape.length)
    (hlcm : calculateAlignmentLCM (operations.map Operation.alignment) = some optionalAlignment)
    (hsizes : divideTileSizeAndInterval d divisors (divideSpatial multiplier shape)
      ((optionalAlignment.map (divideAlignment multiplier)).getD (List.replicate shape.length 1)) = some sizes) :
    0 < alignmentLCM operations d ∧
      entry ((optionalAlignment.map (divideAlignment multiplier)).getD (List.replicate shape.length 1)) d =
        if d = dimH ∨ d = dimW then max ((alignmentLCM operations d).tdiv multiplier) 1 else alignmentLCM operations d := by
  rcases calculateAlignmentLCM_spec hpos hlcm with ⟨rfl, rfl⟩ | ⟨alignment, rfl, hentry⟩
  · have hone : alignmentLCM [] d = 1 := rfl
    have hquot : Int.tdiv 1 multiplier ≤ 1 := by
      rw [Int.tdiv_eq_ediv_of_nonneg (by decide)]
      exact Int.ediv_le_self multiplier (by decide)
    rw [hone, max_eq_right hquot, ite_self, Option.map_none, Option.getD_none, entry_of_lt (by simpa using hd),
      getElem_replicate]
    exact ⟨one_pos, rfl⟩
  · rw [Option.map_some, Option.getD_some] at hsizes ⊢
    have hlt : d < alignment.length := by
      obtain ⟨_, _, hsizes⟩ := Option.bind_eq_some_iff.mp hsizes
      obtain ⟨_, _, hsizes⟩ := Option.bind_eq_some_iff.mp hsizes
      obtain ⟨_, halignment, _⟩ := Option.bind_eq_some_iff.mp hsizes
      simpa [divideAlignment] using (List.getElem?_eq_some_iff.mp halignment).1
    rw [entry_divideAlignment hlt, (hentry d hlt).1]
    exact ⟨(hentry d hlt).2, rfl⟩

/-- What is asked of the divisors and the shape beyond success: the sizes of the reduced height and width scaled back are
multiples of the common alignment. -/
def AlignmentKept (operations : List Operation) (divisors shape : List ℤ) : Prop :=
  ∀ d ∈ [dimH, dimW], d < shape.length → ScalesBack (entry shape d) (entry divisors d) (alignmentLCM operations d)
    (lcmOf (blockSizes operations))

theorem divideTileSizeAndInterval_le {sizes : ℤ × ℤ × ℤ}
    (h : divideTileSizeAndInterval d divisors shape alignment = some sizes) : entry divisors d ≤ entry shape d := by
  unfold divideTileSizeAndInterval at h
  obtain ⟨shapeVal, hshape, h⟩ := Option.bind_eq_some_iff.mp h
  obtain ⟨divisorVal, hdivisor, h⟩ := Option.bind_eq_some_iff.mp h
  obtain ⟨alignmentVal, _, h⟩ := Option.bind_eq_some_iff.mp h
  rw [entry_of_getElem? hshape, entry_of_getElem? hdivisor]
  split at h
  · cases h
  · omega

section
variable {multiplier : ℤ} {sizes : ℤ × ℤ × ℤ}

def SegmentsAligned (operations : List Operation) (divisors reduced baseAlignment : List ℤ) (multiplier : ℤ) (d : ℕ) : Prop :=
  ∀ i, i + 1 < totalAt divisors d →
    alignmentLCM operations d ∣ sizeAt divisors reduced baseAlignment none d i * factor multiplier d

variable {reduced baseAlignment : List ℤ}

theorem segmentsAligned_spatial (hd : d = dimH ∨ d = dimW)
    (hreduced : entry reduced d = (entry shape d).tdiv multiplier)
    (hbase : entry baseAlignment d = max ((alignmentLCM operations d).tdiv multiplier) 1)
    (hdiv : 1 ≤ entry divisors d) (hsizes : divideTileSizeAndInterval d divisors reduced baseAlignment = some sizes) :
    SegmentsAligned operations divisors reduced baseAlignment multiplier d ↔
      ScalesBack (entry shape d) (entry divisors d) (alignmentLCM operations d) multiplier := by
  have hone := divideTileSizeAndInterval_one hsizes
  rw [hreduced, hbase] at hone
  have hsize := fun i => (sizeAt_regular hsizes (.inl rfl) i).2
  rw [scalesBack_iff hdiv hone]
  unfold SegmentsAligned
  simp only [hsize, factor, if_pos hd, totalAt]
  constructor
  · intro h i hi
    exact h i (by omega)
  · intro h i hi
    exact h i (by omega)

theorem segmentsAligned_regular (hlt : d < reduced.length) (hdiv : 1 ≤ entry divisors d)
    (hbase : entry baseAlignment d = alignmentLCM operations d) (hpos : 0 < alignmentLCM operations d)
    (hsizes : divideTileSizeAndInterval d divisors reduced baseAlignment = some sizes) :
    SegmentsAligned operations divisors reduced baseAlignment multiplier d := by
  obtain ⟨-, -, -, haligned⟩ := sizeAt_spec hsizes hlt hdiv (show ValidSplit divisors reduced none from fun _ hs => nomatch hs)
  intro i hi
  have hdvd := haligned (.inl rfl) i hi
  rw [hbase, max_eq_left (by omega)] at hdvd
  exact Dvd.dvd.mul_right hdvd _

end

/-- The tiles of a group of operations partition the shape and respect the block sizes, and they are aligned for every
operation exactly where scaling back keeps the common alignment. -/
theorem jointTiling_iff (hrank : divisors.length = shape.length) (hdiv : ∀ d ∈ divisors, 1 ≤ d)
    (hpos : ∀ op ∈ operations, ∀ a ∈ op.alignment, 0 < a)
    (hblocks : ∀ b ∈ blockSizes operations, 0 < b ∧ b ∣ entry shape dimH ∧ b ∣ entry shape dimW)
    (h : fillDividedTilesOperations operations divisors shape = some tiles) :
    JointTiling operations shape tiles ↔ AlignmentKept operations divisors shape := by
  obtain ⟨optionalAlignment, unrollSpatialFirst, base, hlcm, hbase, rfl⟩ := fillDividedTilesOperations_eq hpos hblocks h
  have hm : 0 < lcmOf (blockSizes operations) := lcmOf_pos fun b hb => (hblocks b hb).1
  have hH : lcmOf (blockSizes operations) ∣ entry shape dimH := lcmOf_dvd_iff.mpr fun b hb => (hblocks b hb).2.1
  have hW : lcmOf (blockSizes operations) ∣ entry shape dimW := lcmOf_dvd_iff.mpr fun b hb => (hblocks b hb).2.2
  have hshape : ∀ d, entry (divideSpatial (lcmOf (blockSizes operations)) shape) d * factor _ d = entry shape d :=
    fun d => entry_divideSpatial hH hW
  have hsplit : ValidSplit divisors (divideSpatial (lcmOf (blockSizes operations)) shape) none := fun _ hs => nomatch hs
  obtain ⟨hpart, -, hsegments⟩ := fillDividedTiles_segments (by simpa using hrank) hdiv hsplit hbase
  rw [length_divideSpatial] at hsegments
  generalize hmul : lcmOf (blockSizes operations) = m at *
  have hentry : ∀ d < shape.length, 1 ≤ entry divisors d := fun d hd => hdiv _ (entry_mem (hrank ▸ hd))
  have hreducedPos : ∀ d < (divideSpatial m shape).length, 0 < entry (divideSpatial m shape) d := by
    intro d hd
    rw [length_divideSpatial] at hd
    obtain ⟨⟨sizes, hsizes⟩, -⟩ := hsegments d hd
    have hle := divideTileSizeAndInterval_le hsizes
    have := hentry d hd
    omega
  -- the alignment of the tiles along one dimension is that of its segments
  have hdim : ∀ d < shape.length, (∀ op ∈ operations, ∀ t ∈ base.map (scaleTile m),
      entry op.alignment d ∣ entry t.shape d ∨ entry t.offsets d + entry t.shape d = entry shape d) ↔
      SegmentsAligned operations divisors (divideSpatial m shape)
        ((optionalAlignment.map (divideAlignment m)).getD (List.replicate shape.length 1)) m d := by
    intro d hd
    obtain ⟨⟨sizes, hsizes⟩, hsegment⟩ := hsegments d hd
    obtain ⟨-, hsize, hsum, -⟩ := sizeAt_spec hsizes (by simpa using hd) (hentry d hd) hsplit
    have hscale : ∀ a, _ := fun a => @aligned_scale_iff base d _ _ m (entry shape d) a hm hsegment hsize
      (by rw [hsum, hshape]) fun i hi =>
        exists_tile_of_segment hpart hreducedPos (by simpa using hd) hsegment hsize hsum hi
    simp only [hscale, SegmentsAligned, alignmentLCM_dvd_iff]
    exact ⟨fun h i hi op hop => h op hop i hi, fun h op hop i hi => h i hi op hop⟩
  have hspatial : ∀ d ∈ [dimH, dimW], d < shape.length → (SegmentsAligned operations divisors (divideSpatial m shape)
        ((optionalAlignment.map (divideAlignment m)).getD (List.replicate shape.length 1)) m d ↔
      ScalesBack (entry shape d) (entry divisors d) (alignmentLCM operations d) m) := by
    intro d hd hlt
    have hd' : d = dimH ∨ d = dimW := by simpa using hd
    obtain ⟨⟨sizes, hsizes⟩, -⟩ := hsegments d hlt
    have hal := (entry_baseAlignment hpos hlt hlcm hsizes).2
    rw [if_pos hd'] at hal
    exact segmentsAligned_spatial hd' (entry_divideSpatial_spatial hd') hal (hentry d hlt) hsizes
  constructor
  · rintro ⟨-, -, haligned⟩ d hd hlt
    rw [hmul]
    exact (hspatial d hd hlt).mp ((hdim d hlt).mp fun op hop t ht => haligned op hop t ht d hlt)
  · intro hkept
    constructor
    · exact hpart.scale hm length_divideSpatial hshape
    · intro b hb t ht d hd
      obtain ⟨t, -, rfl⟩ := mem_map.mp ht
      have hdvd : b ∣ factor m d := by
        rw [factor, if_pos (by simpa using hd), ← hmul]
        exact lcmOf_dvd_iff.mp (dvd_refl _) b hb
      simp only [scaleTile, entry_multiplySpatial]
      exact ⟨Dvd.dvd.mul_left hdvd _, Dvd.dvd.mul_left hdvd _⟩
    · intro op hop t ht d hd
      apply (hdim d hd).mpr _ op hop t ht
      obtain ⟨⟨sizes, hsizes⟩, -⟩ := hsegments d hd
      obtain ⟨halpos, hal⟩ := entry_baseAlignment hpos hd hlcm hsizes
      by_cases hHW : d = dimH ∨ d = dimW
      · have hmem : d ∈ [dimH, dimW] := by simpa using hHW
        have hscales := hkept d hmem hd
        rw [hmul] at hscales
        exact (hspatial d hmem hd).mpr hscales
      · rw [if_neg hHW] at hal
        exact segmentsAligned_regular (by simpa using hd) (hentry d hd) hal halpos hsizes

theorem fillDividedTilesDepthToSpaceOp_spec {blockSize : ℤ} {unrollSpatialFirst : Bool}
    (hrank : divisors.length = shape.length) (hdiv : ∀ d ∈ divisors, 1 ≤ d) (hblock : 0 < blockSize)
    (h : fillDividedTilesDepthToSpaceOp divisors shape optionalAlignment unrollSpatialFirst blockSize = some tiles) :
    IsPartition shape tiles ∧ ∀ d ∈ [dimH, dimW], d < shape.length → ∀ t ∈ tiles,
      blockSize ∣ entry t.offsets d ∧ blockSize ∣ entry t.shape d ∧
      (max (entry (optionalAlignment.getD (List.replicate shape.length 1)) d) 1 * blockSize ∣ entry t.shape d ∨
        entry t.offsets d + entry t.shape d = entry shape d) := by
  unfold fillDividedTilesDepthToSpaceOp at h
  rw [if_neg hblock.ne'] at h
  obtain ⟨shapeH, hshapeH, h⟩ := Option.bind_eq_some_iff.mp h
  obtain ⟨shapeW, hshapeW, h⟩ := Option.bind_eq_some_iff.mp h
  split at h
  · cases h
  · next hmod =>
    obtain ⟨base, hbase, h⟩ := Option.bind_eq_some_iff.mp h
    cases h
    push Not at hmod
    have hH : blockSize ∣ entry shape dimH := by
      rw [entry_of_getElem? hshapeH]
      exact Int.dvd_of_tmod_eq_zero hmod.1
    have hW : blockSize ∣ entry shape dimW := by
      rw [entry_of_getElem? hshapeW]
      exact Int.dvd_of_tmod_eq_zero hmod.2
    have hshape : ∀ d, entry (divideSpatial blockSize shape) d * factor blockSize d = entry shape d :=
      fun d => entry_divideSpatial hH hW
    have hsplit : ValidSplit divisors (divideSpatial blockSize shape) none := fun _ hs => nomatch hs
    obtain ⟨hpart, -, hsegments⟩ := fillDividedTiles_segments (by simpa using hrank) hdiv hsplit hbase
    rw [length_divideSpatial] at hsegments
    refine ⟨hpart.scale hblock length_divideSpatial hshape, fun d hd hlt scaled hscaled => ?_⟩
    obtain ⟨t, ht, rfl⟩ := mem_map.mp hscaled
    obtain ⟨⟨sizes, hsizes⟩, hsegment⟩ := hsegments d hlt
    obtain ⟨-, -, hsum, haligned⟩ :=
      sizeAt_spec hsizes (by simpa using hlt) (hdiv _ (entry_mem (hrank ▸ hlt))) hsplit
    obtain ⟨i, hi, hs, ho⟩ := hsegment t ht
    have hf : factor blockSize d = blockSize := if_pos (by simpa using hd)
    simp only [scaleTile, entry_multiplySpatial, ← hshape d, hf, ← Int.add_mul]
    refine ⟨Int.dvd_mul_left _ _, Int.dvd_mul_left _ _, ?_⟩
    by_cases hlast : i + 1 < totalAt divisors d
    · left
      rw [hs]
      exact mul_dvd_mul_right (haligned (.inl rfl) i hlast) _
    · right
      rw [hs, ho, ← offsetAt_succ, show i + 1 = totalAt divisors d by omega, hsum]

theorem fillDividedTilesDepthToSpaceOp_halves :
    ∃ tiles, fillDividedTilesDepthToSpaceOp [1, 1, 2, 1] [1, 1, 20, 4] (some [1, 1, 2, 1]) false 2 = some tiles ∧
      IsPartition [1, 1, 20, 4] tiles ∧ tiles.length = 2 ∧
      ∀ t ∈ tiles, 4 ∣ entry t.shape dimH ∨ entry t.offsets dimH + entry t.shape dimH = 20 := by
  obtain ⟨tiles, h⟩ := Option.isSome_iff_exists.mp
    (show (fillDividedTilesDepthToSpaceOp [1, 1, 2, 1] [1, 1, 20, 4] (some [1, 1, 2, 1]) false 2).isSome by decide)
  have hlen : (fillDividedTilesDepthToSpaceOp [1, 1, 2, 1] [1, 1, 20, 4] (some [1, 1, 2, 1]) false 2).map List.length = some 2 := by
    decide
  rw [h] at hlen
  obtain ⟨hpart, haligned⟩ := fillDividedTilesDepthToSpaceOp_spec (by rfl) (by decide) (by decide) h
  exact ⟨tiles, h, hpart, Option.some.inj hlen, fun t ht => (haligned dimH (by decide) (by decide) t ht).2.2⟩

def alignedPair (alignment blockSize : ℤ) : List Operation :=
  [⟨[1, 1, alignment, 1], false, false, .other⟩, ⟨[1, 1, 1, 1], false, true, .depthToSpace (some blockSize)⟩]

theorem jointTiling_alignedPair : ∃ tiles, fillDividedTilesOperations (alignedPair 4 2) [1, 1, 3, 1] [1, 1, 20, 8] = some tiles ∧
    JointTiling (alignedPair 4 2) [1, 1, 20, 8] tiles := by
  have htiles : ∃ tiles, fillDividedTilesOperations (alignedPair 4 2) [1, 1, 3, 1] [1, 1, 20, 8] = some tiles :=
    Option.isSome_iff_exists.mp (by decide)
  obtain ⟨tiles, htiles⟩ := htiles
  have hiff : JointTiling (alignedPair 4 2) [1, 1, 20, 8] tiles ↔ AlignmentKept (alignedPair 4 2) [1, 1, 3, 1] [1, 1, 20, 8] :=
    jointTiling_iff rfl (by decide) (by decide) (by decide) htiles
  refine ⟨tiles, htiles, hiff.mpr fun d hd _ => ?_⟩
  rcases mem_pair.mp hd with rfl | rfl
  · rw [ScalesBack, if_pos (by decide)]
    decide
  · rw [ScalesBack, if_neg (by decide)]
    decide

/-- Lines aligned to three are halved to a line, and two tiles of four lines come out. -/
theorem jointTiling_lost : ∃ tiles, fillDividedTilesOperations (alignedPair 3 2) [1, 1, 2, 1] [1, 1, 8, 8] = some tiles ∧
    ¬JointTiling (alignedPair 3 2) [1, 1, 8, 8] tiles := by
  refine ⟨[⟨[1, 1, 4, 8], [0, 0, 0, 0], [1, 1, 2, 1], true⟩, ⟨[1, 1, 4, 8], [0, 0, 4, 0], [1, 1, 2, 1], true⟩], by decide, fun h => ?_⟩
  have hfirst := h.aligned ⟨[1, 1, 3, 1], false, false, .other⟩ (by decide) _ mem_cons_self dimH (by decide)
  revert hfirst
  decide

end

end NpuCompiler.Tiling
