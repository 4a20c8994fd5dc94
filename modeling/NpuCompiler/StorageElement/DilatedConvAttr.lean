import NpuCompiler.StorageElement.RollAttr

namespace NpuCompiler.StorageElement

/-- An empty array of offsets adds nothing and is `none` as well. -/
structure SEDilatedConvAttr where
  dilation : SpatialAxis → ℤ
  dataOffset : Shape
  dataSizes : Option Shape
  offsets : Option Shape
  sizes : Option Shape

namespace SEDilatedConvAttr

variable (attr : SEDilatedConvAttr)

def inferOutputShape (inputShape : Shape) : Shape := onSpatial (fun axis count =>
  (count - attr.dataOffset axis.dim + attr.dilation axis - 1).tdiv (attr.dilation axis)) inputShape

def backInferInputShape (outputShape : Shape) : Shape := onSpatial (fun axis size => size * attr.dilation axis) outputShape

def backInferInputCoord (outputCoord : Shape) : Shape :=
  onSpatial (fun axis coord => coord * attr.dilation axis + attr.dataOffset axis.dim) outputCoord

def extractTile (tile : Tile) (inputShape : Shape) : SEDilatedConvAttr × Tile :=
  let finalOffset := combineOffsets tile.offset attr.offsets
  let inputTileStart := attr.backInferInputCoord finalOffset
  let inputTileEnd := attr.backInferInputCoord (fun d => finalOffset d + tile.shape d - 1)
  let dataSizes : Shape := fun d => inputTileEnd d - inputTileStart d + 1
  -- count from 0 offset, but use more data
  let inputTileOffset := onSpatial (fun axis start => start - attr.dataOffset axis.dim) inputTileStart
  let inputTileShape := onSpatial (fun axis size => size + attr.dataOffset axis.dim) (attr.backInferInputShape tile.shape)
  ({ attr with dataSizes := some dataSizes, offsets := none, sizes := some tile.shape },
    ⟨inputTileOffset, onSpatial (fun axis size =>
      if size + inputTileOffset axis.dim > inputShape axis.dim then
        size - ((size + inputTileOffset axis.dim) - inputShape axis.dim)
      else size) inputTileShape⟩)

def inferInputTileShapeAndOffset (tile : Tile) : Tile :=
  ⟨attr.backInferInputCoord tile.offset, attr.backInferInputShape tile.shape⟩

end SEDilatedConvAttr

def dilatedConvInterface : SEAttrInterface SEDilatedConvAttr where
  getOffsets := SEDilatedConvAttr.offsets
  inferOutputShape := SEDilatedConvAttr.inferOutputShape
  backInferInputCoord attr outputCoord _ := some (attr.backInferInputCoord outputCoord)
  extractTile attr tile inputShape := some (attr.extractTile tile inputShape)

namespace SEDilatedConvAttr

section
variable {a d p inputSize start size k : ℤ}

theorem le_tdiv_iff (hd : 1 ≤ d) (hk : 0 < k) : k ≤ a.tdiv d ↔ k * d ≤ a := by
  rcases le_or_gt 0 a with hnonneg | hneg
  · rw [Int.tdiv_eq_ediv_of_nonneg hnonneg]
    exact Int.le_ediv_iff_mul_le (by omega)
  · have hquot : a.tdiv d ≤ 0 := by
      rw [← neg_neg a, Int.neg_tdiv, Int.tdiv_eq_ediv_of_nonneg (by omega)]
      have hdiv : 0 ≤ -a / d := Int.ediv_nonneg (by omega) (by omega)
      omega
    have hmul : 0 < k * d := mul_pos hk (by omega)
    omega

/-- The size of the input tile of one axis. -/
def clampedSize (d p inputSize start size : ℤ) : ℤ :=
  if size * d + p + start * d > inputSize then size * d + p - ((size * d + p + start * d) - inputSize) else size * d + p

variable (hd : 1 ≤ d) (hp : 0 ≤ p) (hpd : p < d) (hstart : 0 ≤ start) (hsize : 0 < size)
  (hend : start + size ≤ (inputSize - p + d - 1).tdiv d)

include hd hstart hsize hend in
theorem last_lt : start * d + size * d ≤ inputSize - p + d - 1 := by
  have hle := (le_tdiv_iff hd (by omega)).mp hend
  rw [add_mul] at hle
  exact hle

include hd hp hstart hsize hend in
theorem clampedSize_inside :
    0 ≤ start * d ∧ 0 < clampedSize d p inputSize start size ∧ start * d + clampedSize d p inputSize start size ≤ inputSize := by
  have hlast := last_lt hd hstart hsize hend
  have hmul : 1 * d ≤ size * d := mul_le_mul_of_nonneg_right (by omega) (by omega)
  have hnonneg : 0 ≤ start * d := mul_nonneg hstart (by omega)
  unfold clampedSize
  split <;> omega

include hd hp hpd hstart hsize hend in
theorem tdiv_clampedSize : (clampedSize d p inputSize start size - p + d - 1).tdiv d = size := by
  have hlast := last_lt hd hstart hsize hend
  have hle : size ≤ (clampedSize d p inputSize start size - p + d - 1).tdiv d := by
    rw [le_tdiv_iff hd hsize]
    unfold clampedSize
    split <;> omega
  have hlt : ¬size + 1 ≤ (clampedSize d p inputSize start size - p + d - 1).tdiv d := by
    rw [le_tdiv_iff hd (by omega), add_mul]
    unfold clampedSize
    split <;> omega
  omega

include hd hp hstart hsize hend in
theorem read_lt_clampedSize (hk : 0 ≤ k) (hlt : k < size) :
    0 ≤ k * d + p ∧ k * d + p < clampedSize d p inputSize start size := by
  have hlast := last_lt hd hstart hsize hend
  have hmul : (k + 1) * d ≤ size * d := mul_le_mul_of_nonneg_right (by omega) (by omega)
  have hnonneg : 0 ≤ k * d := mul_nonneg hk (by omega)
  rw [add_mul] at hmul
  unfold clampedSize
  split <;> omega

include hd hp hpd in
theorem paths_agree_iff {first : ℤ} : start * d = first * d + p ∧ clampedSize d p inputSize start size = size * d ↔
    start = first ∧ p = 0 ∧ (first + size) * d ≤ inputSize := by
  constructor
  · rintro ⟨hoffset, hshape⟩
    have hdiff : (start - first) * d = p := by
      rw [sub_mul]
      omega
    have hle : start - first < 1 := by
      by_contra hnot
      have hmul : 1 * d ≤ (start - first) * d := mul_le_mul_of_nonneg_right (by omega) (by omega)
      omega
    have hge : -1 < start - first := by
      by_contra hnot
      have hmul : (start - first) * d ≤ -1 * d := mul_le_mul_of_nonneg_right (by omega) (by omega)
      omega
    have hsame : start = first := by omega
    subst hsame
    have hzero : p = 0 := by omega
    refine ⟨rfl, hzero, ?_⟩
    unfold clampedSize at hshape
    rw [add_mul]
    split at hshape <;> omega
  · rintro ⟨rfl, rfl, hle⟩
    rw [add_mul] at hle
    unfold clampedSize
    rw [if_neg (by omega)]
    omega

variable {attr : SEDilatedConvAttr} {inputShape : Shape} {tile : Tile}

/-- Where both ways of inferring an input tile give the same one. -/
def PathsAgree (attr : SEDilatedConvAttr) (inputShape : Shape) (tile : Tile) : Prop := ∀ axis : SpatialAxis,
  combineOffsets tile.offset attr.offsets axis.dim = tile.offset axis.dim ∧ attr.dataOffset axis.dim = 0 ∧
    (tile.offset axis.dim + tile.shape axis.dim) * attr.dilation axis ≤ inputShape axis.dim

theorem extractTile_offset (axis : SpatialAxis) : (attr.extractTile tile inputShape).2.offset axis.dim =
    combineOffsets tile.offset attr.offsets axis.dim * attr.dilation axis := by
  change onSpatial (fun axis start => start - attr.dataOffset axis.dim)
    (onSpatial (fun axis coord => coord * attr.dilation axis + attr.dataOffset axis.dim)
      (combineOffsets tile.offset attr.offsets)) axis.dim = _
  rw [onSpatial_dim, onSpatial_dim, add_sub_cancel_right]

theorem extractTile_shape (axis : SpatialAxis) : (attr.extractTile tile inputShape).2.shape axis.dim =
    clampedSize (attr.dilation axis) (attr.dataOffset axis.dim) (inputShape axis.dim)
      (combineOffsets tile.offset attr.offsets axis.dim) (tile.shape axis.dim) := by
  have hoffset := @extractTile_offset attr inputShape tile axis
  change onSpatial (fun axis size => if size + (attr.extractTile tile inputShape).2.offset axis.dim > inputShape axis.dim then
      size - ((size + (attr.extractTile tile inputShape).2.offset axis.dim) - inputShape axis.dim) else size)
    (onSpatial (fun axis size => size + attr.dataOffset axis.dim)
      (onSpatial (fun axis size => size * attr.dilation axis) tile.shape)) axis.dim = _
  rw [onSpatial_dim, onSpatial_dim, onSpatial_dim, hoffset]
  rfl

theorem inferInputTile_offset (axis : SpatialAxis) : (attr.inferInputTileShapeAndOffset tile).offset axis.dim =
    tile.offset axis.dim * attr.dilation axis + attr.dataOffset axis.dim := by
  cases axis with
  | H => rfl
  | W => rfl

theorem inferInputTile_shape (axis : SpatialAxis) : (attr.inferInputTileShapeAndOffset tile).shape axis.dim =
    tile.shape axis.dim * attr.dilation axis := by
  cases axis with
  | H => rfl
  | W => rfl

variable (hdata : ∀ axis : SpatialAxis, 1 ≤ attr.dilation axis ∧ 0 ≤ attr.dataOffset axis.dim ∧
    attr.dataOffset axis.dim < attr.dilation axis)
  (hplain : combineOffsets tile.offset attr.offsets .N = tile.offset .N ∧
    combineOffsets tile.offset attr.offsets .C = tile.offset .C)
  (htile : Tile.Inside ⟨combineOffsets tile.offset attr.offsets, tile.shape⟩ (attr.inferOutputShape inputShape))

include htile in
theorem tile_end_le (axis : SpatialAxis) :
    0 ≤ combineOffsets tile.offset attr.offsets axis.dim ∧ 0 < tile.shape axis.dim ∧
      combineOffsets tile.offset attr.offsets axis.dim + tile.shape axis.dim ≤
        (inputShape axis.dim - attr.dataOffset axis.dim + attr.dilation axis - 1).tdiv (attr.dilation axis) := by
  have haxis := htile axis.dim
  unfold inferOutputShape at haxis
  rw [onSpatial_dim] at haxis
  exact haxis

include hdata hplain htile in
theorem extractTile_faithful :
    Faithful dilatedConvInterface attr inputShape (dilatedConvInterface.untiled attr inputShape) tile := by
  refine ⟨(attr.extractTile tile inputShape).1, (attr.extractTile tile inputShape).2, rfl, ?_, ?_⟩
  · intro d
    induction d using Dim.spatialCases with
    | N => exact htile .N
    | C => exact htile .C
    | spatial axis =>
    obtain ⟨hstart, hsize, hend⟩ := tile_end_le htile axis
    rw [extractTile_offset, extractTile_shape]
    exact clampedSize_inside (hdata axis).1 (hdata axis).2.1 hstart hsize hend
  · intro k hk
    refine ⟨attr.backInferInputCoord k, ?_, ?_, ?_⟩
    · change some (attr.backInferInputCoord (outputCoord none k)) = _
      rw [outputCoord_zero (.inl rfl)]
    · intro d
      induction d using Dim.spatialCases with
      | N => exact hk .N
      | C => exact hk .C
      | spatial axis =>
      obtain ⟨hstart, hsize, hend⟩ := tile_end_le htile axis
      change _ ∧ _ < (attr.extractTile tile inputShape).2.shape axis.dim
      unfold backInferInputCoord
      rw [onSpatial_dim, extractTile_shape]
      exact read_lt_clampedSize (hdata axis).1 (hdata axis).2.1 hstart hsize hend (hk axis.dim).1 (hk axis.dim).2
    · change some (attr.backInferInputCoord (outputCoord attr.offsets fun d => (0 + tile.offset d) + k d)) =
        some fun d => (0 + (attr.extractTile tile inputShape).2.offset d) + attr.backInferInputCoord k d
      rw [Option.some.injEq]
      funext d
      induction d using Dim.spatialCases with
      | N =>
        change 0 + tile.offset .N + k .N = 0 + combineOffsets tile.offset attr.offsets .N + k .N
        rw [hplain.1]
      | C =>
        change 0 + tile.offset .C + k .C = 0 + combineOffsets tile.offset attr.offsets .C + k .C
        rw [hplain.2]
      | spatial axis =>
        rw [extractTile_offset]
        unfold backInferInputCoord
        rw [onSpatial_dim, onSpatial_dim]
        have hcoord : outputCoord attr.offsets (fun d => 0 + tile.offset d + k d) axis.dim =
            combineOffsets tile.offset attr.offsets axis.dim + k axis.dim := by
          cases attr.offsets with
          | none =>
            cases axis with
            | H => simp [outputCoord, combineOffsets, SpatialAxis.dim]
            | W => simp [outputCoord, combineOffsets, SpatialAxis.dim]
          | some v =>
            cases axis with
            | H => simp [outputCoord, combineOffsets, SpatialAxis.dim, add_assoc]
            | W => simp [outputCoord, combineOffsets, SpatialAxis.dim, add_assoc]
        rw [hcoord, add_mul]
        omega

include hdata hplain in
theorem inferInputTile_eq_iff :
    attr.inferInputTileShapeAndOffset tile = (attr.extractTile tile inputShape).2 ↔ PathsAgree attr inputShape tile := by
  have haxis (axis : SpatialAxis) := @paths_agree_iff (attr.dilation axis) (attr.dataOffset axis.dim) (inputShape axis.dim)
    (combineOffsets tile.offset attr.offsets axis.dim) (tile.shape axis.dim) (hdata axis).1 (hdata axis).2.1 (hdata axis).2.2
    (tile.offset axis.dim)
  constructor
  · intro heq axis
    rw [← haxis axis, ← extractTile_offset, ← extractTile_shape, ← heq]
    exact ⟨inferInputTile_offset axis, inferInputTile_shape axis⟩
  · intro hagree
    have hoffset : (attr.inferInputTileShapeAndOffset tile).offset = (attr.extractTile tile inputShape).2.offset := by
      funext d
      induction d using Dim.spatialCases with
      | N => exact hplain.1.symm
      | C => exact hplain.2.symm
      | spatial axis => rw [inferInputTile_offset, extractTile_offset, ((haxis axis).mpr (hagree axis)).1]
    have hshape : (attr.inferInputTileShapeAndOffset tile).shape = (attr.extractTile tile inputShape).2.shape := by
      funext d
      induction d using Dim.spatialCases with
      | N => rfl
      | C => rfl
      | spatial axis => rw [inferInputTile_shape, extractTile_shape, ((haxis axis).mpr (hagree axis)).2]
    exact congrArg₂ Tile.mk hoffset hshape

include hdata hplain htile in
/-- The data of a tile is always kept. The other way to infer the input tile gives the same one for a tile whose rows end in
the input, under no offset at all. -/
theorem dilatedConvTile_spec :
    Faithful dilatedConvInterface attr inputShape (dilatedConvInterface.untiled attr inputShape) tile ∧
    (∀ axis : SpatialAxis, (attr.extractTile tile inputShape).1.inferOutputShape (attr.extractTile tile inputShape).2.shape axis.dim =
      tile.shape axis.dim) ∧
    (attr.inferInputTileShapeAndOffset tile = (attr.extractTile tile inputShape).2 ↔ PathsAgree attr inputShape tile) := by
  refine ⟨extractTile_faithful hdata hplain htile, fun axis => ?_, inferInputTile_eq_iff hdata hplain⟩
  obtain ⟨hstart, hsize, hend⟩ := tile_end_le htile axis
  obtain ⟨hd, hp, hpd⟩ := hdata axis
  have hshape := @extractTile_shape attr inputShape tile axis
  unfold inferOutputShape
  rw [onSpatial_dim, hshape]
  exact tdiv_clampedSize hd hp hpd hstart hsize hend

def everyOther : SEDilatedConvAttr := ⟨fun _ => 2, byDim 0 0 1 0, none, none, none⟩

def fourOfEight : Tile := ⟨byDim 0 0 0 0, byDim 1 16 4 4⟩

theorem everyOther_data (axis : SpatialAxis) : 1 ≤ everyOther.dilation axis ∧ 0 ≤ everyOther.dataOffset axis.dim ∧
    everyOther.dataOffset axis.dim < everyOther.dilation axis := by
  cases axis with
  | H => decide
  | W => decide

theorem fourOfEight_inside : fourOfEight.Inside (everyOther.inferOutputShape (byDim 1 16 8 8)) := by
  intro d
  cases d with
  | N => decide
  | C => decide
  | H => decide
  | W => decide

theorem dilatedConvTile_spec_everyOther :
    Faithful dilatedConvInterface everyOther (byDim 1 16 8 8) (dilatedConvInterface.untiled everyOther (byDim 1 16 8 8))
      fourOfEight ∧
    (∀ axis : SpatialAxis, (everyOther.extractTile fourOfEight (byDim 1 16 8 8)).1.inferOutputShape
      (everyOther.extractTile fourOfEight (byDim 1 16 8 8)).2.shape axis.dim = fourOfEight.shape axis.dim) ∧
    (everyOther.inferInputTileShapeAndOffset fourOfEight = (everyOther.extractTile fourOfEight (byDim 1 16 8 8)).2 ↔
      PathsAgree everyOther (byDim 1 16 8 8) fourOfEight) :=
  dilatedConvTile_spec everyOther_data ⟨rfl, rfl⟩ fourOfEight_inside

/-- The rows 1, 3, 5 and 7 of eight are said to need the rows 1 to 8. -/
theorem inferInputTile_everyOther :
    Tile.Inside fourOfEight (everyOther.inferOutputShape (byDim 1 16 8 8)) ∧
    everyOther.inferInputTileShapeAndOffset fourOfEight ≠ (everyOther.extractTile fourOfEight (byDim 1 16 8 8)).2 ∧
    ¬(everyOther.inferInputTileShapeAndOffset fourOfEight).Inside (byDim 1 16 8 8) := by
  refine ⟨fourOfEight_inside, fun heq => ?_, fun hinside => ?_⟩
  · exact absurd (congrFun (congrArg Tile.offset heq) .H) (by decide)
  · exact absurd (hinside .H).2.2 (by decide)

end

end SEDilatedConvAttr

end NpuCompiler.StorageElement
