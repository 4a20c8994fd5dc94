import Mathlib.Tactic.Ring
import NpuCompiler.StorageElement.PaddingAttr
import NpuCompiler.StorageElement.RollAttr

namespace NpuCompiler.StorageElement

open SEPaddingAttr (clamp)

/-- The padding before the data is `padTop` and `padLeft`, the one after it `padBottom` and `padRight`. -/
structure SEUpsamplingAttr where
  factor : SpatialAxis → ℤ
  padBefore : SpatialAxis → ℤ
  padAfter : SpatialAxis → ℤ
  offsets : Option Shape
  sizes : Option Shape

namespace SEUpsamplingAttr

def upsampledSize (inputSize factor padBefore padAfter : ℤ) : ℤ := inputSize + factor * (inputSize - 1) + padBefore + padAfter

def inputCoord (coord inputSize factor padBefore : ℤ) : ℤ :=
  let input := coord - padBefore
  clamp (if input ≥ 0 then input / (factor + 1) else input) 0 (inputSize - 1)

/-- The coordinates at which the loop of `createSparsityMapContent` writes a one. -/
def HoldsData (coord inputSize factor padBefore padAfter : ℤ) : Prop :=
  padBefore ≤ coord ∧ coord < upsampledSize inputSize factor padBefore padAfter - padAfter ∧ (factor + 1) ∣ coord - padBefore

variable (attr : SEUpsamplingAttr)

def fullShape (inputShape : Shape) : Shape :=
  onSpatial (fun axis size => upsampledSize size (attr.factor axis) (attr.padBefore axis) (attr.padAfter axis)) inputShape

def inferOutputShape (inputShape : Shape) : Shape :=
  match attr.offsets, attr.sizes with
  | none, none => attr.fullShape inputShape
  | offsets, sizes => fun d =>
    min (attr.fullShape inputShape d - offsets.getD (fun _ => 0) d) (sizes.getD (attr.fullShape inputShape) d)

def backInferInputCoord (outputCoord inputShape : Shape) : Shape :=
  onSpatial (fun axis coord => inputCoord coord (inputShape axis.dim) (attr.factor axis) (attr.padBefore axis)) outputCoord

def inferInputTileShapeAndOffset (tile : Tile) (inputShape : Shape) : Tile :=
  let inputTileOffset := attr.backInferInputCoord tile.offset inputShape
  let inputTileEnd := attr.backInferInputCoord (fun d => tile.offset d + tile.shape d - 1) inputShape
  ⟨inputTileOffset, fun d => inputTileEnd d - inputTileOffset d + 1⟩

def inferOutputTileStartOffset (inputTileOffset : Shape) : Shape := onSpatial (fun axis offset =>
  let outputTileOffset := offset * (attr.factor axis + 1)
  if offset ≠ 0 then outputTileOffset + attr.padBefore axis else outputTileOffset) inputTileOffset

def extractTile (tile : Tile) (inputShape : Shape) : SEUpsamplingAttr × Tile :=
  let finalOffset := combineOffsets tile.offset attr.offsets
  let inputTile := attr.inferInputTileShapeAndOffset ⟨finalOffset, tile.shape⟩ inputShape
  let outputTileStartOffset := attr.inferOutputTileStartOffset inputTile.offset
  let relativeOffsets := onSpatial (fun axis offset =>
    if inputTile.offset axis.dim ≠ 0 then offset + attr.padBefore axis else offset)
    (fun d => finalOffset d - outputTileStartOffset d)
  ({ attr with
      padAfter := fun axis => attr.padAfter axis + attr.factor axis
      offsets := some relativeOffsets
      sizes := some tile.shape }, inputTile)

/-- An element of the data, neither padding nor an inserted zero. -/
def IsData (inputShape coord : Shape) : Prop := ∀ axis : SpatialAxis,
  HoldsData (coord axis.dim) (inputShape axis.dim) (attr.factor axis) (attr.padBefore axis) (attr.padAfter axis)

end SEUpsamplingAttr

def upsamplingInterface : SEAttrInterface SEUpsamplingAttr where
  getOffsets := SEUpsamplingAttr.offsets
  inferOutputShape := SEUpsamplingAttr.inferOutputShape
  backInferInputCoord attr outputCoord inputShape := some (attr.backInferInputCoord outputCoord inputShape)
  extractTile attr tile inputShape := some (attr.extractTile tile inputShape)

namespace SEUpsamplingAttr

section
variable {factor padBefore padAfter inputSize coord x y start size k : ℤ}

section
variable (hf : 0 ≤ factor) (hpos : 0 < inputSize)
include hf hpos

theorem le_inputCoord_iff : x ≤ inputCoord coord inputSize factor padBefore ↔
    x ≤ 0 ∨ x ≤ inputSize - 1 ∧ x * (factor + 1) ≤ coord - padBefore := by
  unfold inputCoord clamp
  dsimp only
  by_cases hge : coord - padBefore ≥ 0
  · have hdiv := @Int.le_ediv_iff_mul_le x (coord - padBefore) (factor + 1) (by omega)
    have hnonneg : 0 ≤ (coord - padBefore) / (factor + 1) := Int.ediv_nonneg hge (by omega)
    rw [if_pos hge, ← hdiv]
    split_ifs <;> omega
  · rw [if_neg hge, if_pos (by omega)]
    constructor
    · exact .inl
    · rintro (hle | ⟨-, hle⟩)
      · exact hle
      · by_contra hlt
        have hmul : 0 ≤ x * (factor + 1) := mul_nonneg (by omega) (by omega)
        omega

theorem inputCoord_range :
    0 ≤ inputCoord coord inputSize factor padBefore ∧ inputCoord coord inputSize factor padBefore < inputSize := by
  have hle := (@le_inputCoord_iff factor padBefore inputSize coord 0 hf hpos).mpr (.inl le_rfl)
  have hlt : ¬inputSize ≤ inputCoord coord inputSize factor padBefore := by
    rw [le_inputCoord_iff hf hpos]
    omega
  omega

theorem inputCoord_mono {coord' : ℤ} (hle : coord ≤ coord') :
    inputCoord coord inputSize factor padBefore ≤ inputCoord coord' inputSize factor padBefore := by
  have hself := (@le_inputCoord_iff factor padBefore inputSize coord _ hf hpos).mp le_rfl
  apply (le_inputCoord_iff hf hpos).mpr
  omega

theorem inputCoord_eq (hy : 0 ≤ y)
    (hle : y = 0 ∨ y ≤ inputSize - 1 ∧ y * (factor + 1) ≤ coord - padBefore)
    (hnext : y + 1 ≤ inputSize - 1 → coord - padBefore < (y + 1) * (factor + 1)) :
    inputCoord coord inputSize factor padBefore = y := by
  have hge := (@le_inputCoord_iff factor padBefore inputSize coord y hf hpos).mpr (by omega)
  have hlt : ¬y + 1 ≤ inputCoord coord inputSize factor padBefore := by
    rw [le_inputCoord_iff hf hpos]
    omega
  omega

end

theorem holdsData_iff (hf : 0 ≤ factor) : HoldsData coord inputSize factor padBefore padAfter ↔
    ∃ i, 0 ≤ i ∧ i < inputSize ∧ coord = padBefore + i * (factor + 1) := by
  have hsize : upsampledSize inputSize factor padBefore padAfter - padAfter = padBefore + (inputSize - 1) * (factor + 1) + 1 := by
    unfold upsampledSize
    rw [mul_add, mul_comm factor]
    omega
  unfold HoldsData
  rw [hsize]
  constructor
  · rintro ⟨hge, hlt, i, hi⟩
    rw [mul_comm] at hi
    refine ⟨i, ?_, ?_, by omega⟩
    · by_contra hneg
      have hmul : i * (factor + 1) ≤ -1 * (factor + 1) := mul_le_mul_of_nonneg_right (by omega) (by omega)
      omega
    · by_contra hlarge
      have hmul : (inputSize - 1 + 1) * (factor + 1) ≤ i * (factor + 1) := mul_le_mul_of_nonneg_right (by omega) (by omega)
      rw [add_mul] at hmul
      omega
  · rintro ⟨i, hnonneg, hlt, rfl⟩
    have hlow : 0 ≤ i * (factor + 1) := mul_nonneg hnonneg (by omega)
    have hhigh : i * (factor + 1) ≤ (inputSize - 1) * (factor + 1) := mul_le_mul_of_nonneg_right (by omega) (by omega)
    exact ⟨by omega, by omega, ⟨i, by rw [mul_comm]; omega⟩⟩

variable (hf : 0 ≤ factor) (hpos : 0 < inputSize) (hbefore : 0 ≤ padBefore) (hafter : 0 ≤ padAfter) (hstart : 0 ≤ start)
  (hsize : 0 < size) (hend : start + size ≤ upsampledSize inputSize factor padBefore padAfter)

/-- The first input element of a tile and the number of its input elements. -/
def firstCoord (inputSize factor padBefore start : ℤ) : ℤ := inputCoord start inputSize factor padBefore

def tileCount (inputSize factor padBefore start size : ℤ) : ℤ :=
  inputCoord (start + size - 1) inputSize factor padBefore - firstCoord inputSize factor padBefore start + 1

include hf hpos hsize in
theorem tile_inside : 0 ≤ firstCoord inputSize factor padBefore start ∧ 0 < tileCount inputSize factor padBefore start size ∧
    firstCoord inputSize factor padBefore start + tileCount inputSize factor padBefore start size ≤ inputSize := by
  have hmono := @inputCoord_mono factor padBefore inputSize start hf hpos (start + size - 1) (by omega)
  have hfirst := @inputCoord_range factor padBefore inputSize start hf hpos
  have hlast := @inputCoord_range factor padBefore inputSize (start + size - 1) hf hpos
  unfold tileCount firstCoord
  omega

include hf hpos hbefore hstart in
theorem relative_nonneg : 0 ≤ start - firstCoord inputSize factor padBefore start * (factor + 1) := by
  have hfirst := (@le_inputCoord_iff factor padBefore inputSize start _ hf hpos).mp le_rfl
  have hrange := @inputCoord_range factor padBefore inputSize start hf hpos
  unfold firstCoord
  rcases hfirst with hzero | ⟨-, hle⟩
  · rw [show inputCoord start inputSize factor padBefore = 0 by omega]
    omega
  · omega

include hf hpos hafter hend in
/-- The factor added to the padding behind the data makes the tile long enough. -/
theorem size_le_upsampled : size ≤ upsampledSize (tileCount inputSize factor padBefore start size) factor padBefore (padAfter + factor) -
    (start - firstCoord inputSize factor padBefore start * (factor + 1)) := by
  have hlast : ¬inputCoord (start + size - 1) inputSize factor padBefore + 1 ≤
      inputCoord (start + size - 1) inputSize factor padBefore := by omega
  rw [le_inputCoord_iff hf hpos] at hlast
  have hrange := @inputCoord_range factor padBefore inputSize (start + size - 1) hf hpos
  unfold tileCount upsampledSize at *
  generalize inputCoord (start + size - 1) inputSize factor padBefore = last at *
  have hexpand : last - firstCoord inputSize factor padBefore start + 1 +
      factor * (last - firstCoord inputSize factor padBefore start + 1 - 1) =
      (last + 1) * (factor + 1) - firstCoord inputSize factor padBefore start * (factor + 1) - factor := by ring
  rw [hexpand]
  by_cases hedge : last + 1 ≤ inputSize - 1
  · have hbound : start + size - 1 - padBefore < (last + 1) * (factor + 1) := by omega
    omega
  · have hall : last + 1 = inputSize := by omega
    have hwhole : inputSize + factor * (inputSize - 1) = (last + 1) * (factor + 1) - factor := by
      rw [hall]
      ring
    omega

include hf hpos hsize in
theorem inputCoord_tile (hk : 0 ≤ k) (hlt : k < size) :
    firstCoord inputSize factor padBefore start +
      inputCoord (start - firstCoord inputSize factor padBefore start * (factor + 1) + k)
        (tileCount inputSize factor padBefore start size) factor padBefore =
      inputCoord (start + k) inputSize factor padBefore := by
  have hinside := @tile_inside factor padBefore inputSize start size hf hpos hsize
  have hlow : firstCoord inputSize factor padBefore start ≤ inputCoord (start + k) inputSize factor padBefore :=
    inputCoord_mono hf hpos (by omega)
  have hhigh : inputCoord (start + k) inputSize factor padBefore ≤ inputCoord (start + size - 1) inputSize factor padBefore :=
    inputCoord_mono hf hpos (by omega)
  have hself := (@le_inputCoord_iff factor padBefore inputSize (start + k) _ hf hpos).mp le_rfl
  have hnext : ¬inputCoord (start + k) inputSize factor padBefore + 1 ≤ inputCoord (start + k) inputSize factor padBefore := by omega
  rw [le_inputCoord_iff hf hpos] at hnext
  have hlast := @inputCoord_range factor padBefore inputSize (start + size - 1) hf hpos
  rw [inputCoord_eq (y := inputCoord (start + k) inputSize factor padBefore - firstCoord inputSize factor padBefore start) hf
    hinside.2.1 (by omega)]
  · omega
  · unfold tileCount
    rw [sub_mul]
    omega
  · intro hle
    unfold tileCount at hle
    have hsplit : (inputCoord (start + k) inputSize factor padBefore - firstCoord inputSize factor padBefore start + 1) * (factor + 1) =
        (inputCoord (start + k) inputSize factor padBefore + 1) * (factor + 1) -
          firstCoord inputSize factor padBefore start * (factor + 1) := by ring
    rw [hsplit]
    omega

include hf hpos hsize in
theorem holdsData_tile (hk : 0 ≤ k) (hlt : k < size) :
    HoldsData (start - firstCoord inputSize factor padBefore start * (factor + 1) + k)
      (tileCount inputSize factor padBefore start size) factor padBefore (padAfter + factor) ↔
    HoldsData (start + k) inputSize factor padBefore padAfter := by
  have hinside := @tile_inside factor padBefore inputSize start size hf hpos hsize
  rw [holdsData_iff hf, holdsData_iff hf]
  constructor
  · rintro ⟨i, hnonneg, hi, hcoord⟩
    refine ⟨i + firstCoord inputSize factor padBefore start, by omega, by omega, ?_⟩
    rw [add_mul]
    omega
  · rintro ⟨i, hnonneg, hi, hcoord⟩
    have hself : inputCoord (start + k) inputSize factor padBefore = i := by
      apply inputCoord_eq hf hpos hnonneg (.inr ⟨by omega, by omega⟩)
      intro _
      rw [add_mul]
      omega
    have hlow : firstCoord inputSize factor padBefore start ≤ inputCoord (start + k) inputSize factor padBefore :=
      inputCoord_mono hf hpos (by omega)
    have hhigh : inputCoord (start + k) inputSize factor padBefore ≤ inputCoord (start + size - 1) inputSize factor padBefore :=
      inputCoord_mono hf hpos (by omega)
    refine ⟨i - firstCoord inputSize factor padBefore start, by omega, ?_, ?_⟩
    · unfold tileCount
      omega
    · rw [sub_mul]
      omega

end

section
variable {attr : SEUpsamplingAttr} {inputShape : Shape} {s : Extracted SEUpsamplingAttr} {tile : Tile} {axis : SpatialAxis} {k : Shape}

def startOf (attr : SEUpsamplingAttr) : Shape := attr.offsets.getD (fun _ => 0)

theorem combineOffsets_eq (d : Dim) : combineOffsets tile.offset attr.offsets d = startOf attr d + tile.offset d := by
  unfold startOf
  cases attr.offsets with
  | none => exact (zero_add _).symm
  | some offsets => rfl

theorem outputCoord_eq (axis : SpatialAxis) : outputCoord attr.offsets k axis.dim = startOf attr axis.dim + k axis.dim := by
  cases axis with
  | H => rfl
  | W => rfl

theorem inferOutputShape_eq (inputShape : Shape) (d : Dim) : attr.inferOutputShape inputShape d =
    min (attr.fullShape inputShape d - startOf attr d) (attr.sizes.getD (attr.fullShape inputShape) d) := by
  unfold inferOutputShape startOf
  cases attr.offsets with
  | none =>
    cases attr.sizes with
    | none => exact ((congrArg₂ min (sub_zero _) rfl).trans (min_self _)).symm
    | some sizes => rfl
  | some offsets => rfl

structure WellFormed (attr : SEUpsamplingAttr) : Prop where
  factor : ∀ axis, 0 ≤ attr.factor axis
  padBefore : ∀ axis, 0 ≤ attr.padBefore axis
  padAfter : ∀ axis, 0 ≤ attr.padAfter axis
  start : ∀ d, 0 ≤ startOf attr d
  batch : startOf attr .N = 0
  channels : startOf attr .C = 0

def Extracted.KeepsZeros (attr : SEUpsamplingAttr) (inputShape : Shape) (s : Extracted SEUpsamplingAttr) : Prop :=
  ∀ k, (∀ d, 0 ≤ k d ∧ k d < s.output.shape d) → (s.attr.IsData s.input.shape (outputCoord s.attr.offsets k) ↔
    attr.IsData inputShape (outputCoord attr.offsets fun d => s.output.offset d + k d))

structure Upsampled (attr : SEUpsamplingAttr) (inputShape : Shape) (s : Extracted SEUpsamplingAttr) : Prop where
  wellFormed : WellFormed s.attr
  input : ∀ axis : SpatialAxis, 0 < s.input.shape axis.dim
  shape : s.attr.inferOutputShape s.input.shape = s.output.shape
  reads : s.Reads upsamplingInterface attr inputShape
  zeros : Extracted.KeepsZeros attr inputShape s

/-- One extraction keeps the data and the zeros of the untiled upsampling. -/
def KeepsTile (attr : SEUpsamplingAttr) (inputShape : Shape) (s : Extracted SEUpsamplingAttr) (tile : Tile) : Prop :=
  ∃ attr' inputTile, s.attr.extractTile tile s.input.shape = (attr', inputTile) ∧ inputTile.Inside s.input.shape ∧
    (∃ offsets, attr'.offsets = some offsets ∧ ∀ d, 0 ≤ offsets d) ∧ attr'.inferOutputShape inputTile.shape = tile.shape ∧
    Extracted.Reads upsamplingInterface attr inputShape ⟨attr', inputTile.within s.input, tile.within s.output⟩ ∧
    Extracted.KeepsZeros attr inputShape ⟨attr', inputTile.within s.input, tile.within s.output⟩

theorem extractTile_offset (axis : SpatialAxis) : (attr.extractTile tile inputShape).2.offset axis.dim =
    firstCoord (inputShape axis.dim) (attr.factor axis) (attr.padBefore axis) (startOf attr axis.dim + tile.offset axis.dim) := by
  rw [← combineOffsets_eq]
  cases axis with
  | H => rfl
  | W => rfl

theorem extractTile_shape (axis : SpatialAxis) : (attr.extractTile tile inputShape).2.shape axis.dim =
    tileCount (inputShape axis.dim) (attr.factor axis) (attr.padBefore axis) (startOf attr axis.dim + tile.offset axis.dim)
      (tile.shape axis.dim) := by
  rw [← combineOffsets_eq]
  cases axis with
  | H => rfl
  | W => rfl

/-- The padding is added again where the start of the tile's output left it out. -/
theorem startOf_extractTile (axis : SpatialAxis) : startOf (attr.extractTile tile inputShape).1 axis.dim =
    startOf attr axis.dim + tile.offset axis.dim - (attr.extractTile tile inputShape).2.offset axis.dim * (attr.factor axis + 1) := by
  have hrelative : startOf (attr.extractTile tile inputShape).1 axis.dim =
      if (attr.extractTile tile inputShape).2.offset axis.dim ≠ 0 then
        combineOffsets tile.offset attr.offsets axis.dim -
          attr.inferOutputTileStartOffset (attr.extractTile tile inputShape).2.offset axis.dim + attr.padBefore axis
      else combineOffsets tile.offset attr.offsets axis.dim -
        attr.inferOutputTileStartOffset (attr.extractTile tile inputShape).2.offset axis.dim := by
    cases axis with
    | H => rfl
    | W => rfl
  rw [hrelative, combineOffsets_eq]
  unfold inferOutputTileStartOffset
  rw [onSpatial_dim]
  dsimp only
  split_ifs
  · omega
  · rfl

theorem startOf_extractTile_plain (d : Dim) (hd : d = .N ∨ d = .C) : startOf (attr.extractTile tile inputShape).1 d = 0 := by
  rcases hd with rfl | rfl
  · exact sub_self _
  · exact sub_self _

theorem WellFormed.tile_end (h : WellFormed attr) (htile : tile.Inside (attr.inferOutputShape inputShape)) (axis : SpatialAxis) :
    0 ≤ startOf attr axis.dim + tile.offset axis.dim ∧ 0 < tile.shape axis.dim ∧
      startOf attr axis.dim + tile.offset axis.dim + tile.shape axis.dim ≤
        upsampledSize (inputShape axis.dim) (attr.factor axis) (attr.padBefore axis) (attr.padAfter axis) := by
  obtain ⟨hoffset, hsize, hend⟩ := htile axis.dim
  rw [inferOutputShape_eq] at hend
  have hfull : attr.fullShape inputShape axis.dim =
      upsampledSize (inputShape axis.dim) (attr.factor axis) (attr.padBefore axis) (attr.padAfter axis) := onSpatial_dim _ _ axis
  have hstart := h.start axis.dim
  have hmin := min_le_left (attr.fullShape inputShape axis.dim - startOf attr axis.dim)
    (attr.sizes.getD (attr.fullShape inputShape) axis.dim)
  omega

theorem WellFormed.tile_plain (h : WellFormed attr) (htile : tile.Inside (attr.inferOutputShape inputShape)) (d : Dim)
    (hd : d = .N ∨ d = .C) : 0 ≤ tile.offset d ∧ 0 < tile.shape d ∧ tile.offset d + tile.shape d ≤ inputShape d ∧
      (attr.extractTile tile inputShape).2.offset d = tile.offset d ∧ (attr.extractTile tile inputShape).2.shape d = tile.shape d := by
  obtain ⟨hoffset, hsize, hend⟩ := htile d
  rw [inferOutputShape_eq] at hend
  have hmin := min_le_left (attr.fullShape inputShape d - startOf attr d) (attr.sizes.getD (attr.fullShape inputShape) d)
  have hstart := h.start d
  have hfull : attr.fullShape inputShape d = inputShape d := by
    rcases hd with rfl | rfl
    · rfl
    · rfl
  have hfirst : (attr.extractTile tile inputShape).2.offset d = combineOffsets tile.offset attr.offsets d := by
    rcases hd with rfl | rfl
    · rfl
    · rfl
  have hcount : (attr.extractTile tile inputShape).2.shape d =
      combineOffsets tile.offset attr.offsets d + tile.shape d - 1 - combineOffsets tile.offset attr.offsets d + 1 := by
    rcases hd with rfl | rfl
    · rfl
    · rfl
  have hzero : startOf attr d = 0 := by
    rcases hd with rfl | rfl
    · exact h.batch
    · exact h.channels
  rw [hcount, hfirst, combineOffsets_eq]
  omega

theorem WellFormed.coord_range (h : WellFormed attr) (hinput : ∀ axis : SpatialAxis, 0 < inputShape axis.dim)
    (hk : ∀ d, 0 ≤ k d ∧ k d < attr.inferOutputShape inputShape d) (d : Dim) :
    0 ≤ attr.backInferInputCoord (outputCoord attr.offsets k) inputShape d ∧
      attr.backInferInputCoord (outputCoord attr.offsets k) inputShape d < inputShape d := by
  have hplain (d : Dim) (hd : attr.fullShape inputShape d = inputShape d) : 0 ≤ k d ∧ k d < inputShape d := by
    obtain ⟨hnonneg, hlt⟩ := hk d
    rw [inferOutputShape_eq, hd] at hlt
    have hmin := min_le_left (inputShape d - startOf attr d) (attr.sizes.getD (attr.fullShape inputShape) d)
    have hstart := h.start d
    omega
  induction d using Dim.spatialCases with
  | N => exact hplain .N rfl
  | C => exact hplain .C rfl
  | spatial axis =>
    unfold backInferInputCoord
    rw [onSpatial_dim]
    exact inputCoord_range (h.factor axis) (hinput axis)

section
variable (h : WellFormed attr) (hinput : ∀ axis : SpatialAxis, 0 < inputShape axis.dim)
  (htile : tile.Inside (attr.inferOutputShape inputShape))
include h hinput htile

theorem WellFormed.extractTile_inside : (attr.extractTile tile inputShape).2.Inside inputShape := by
  intro d
  induction d using Dim.spatialCases with
  | N =>
    obtain ⟨hoffset, hsize, hle, hfirst, hcount⟩ := h.tile_plain htile .N (.inl rfl)
    rw [hfirst, hcount]
    exact ⟨hoffset, hsize, hle⟩
  | C =>
    obtain ⟨hoffset, hsize, hle, hfirst, hcount⟩ := h.tile_plain htile .C (.inr rfl)
    rw [hfirst, hcount]
    exact ⟨hoffset, hsize, hle⟩
  | spatial axis =>
    rw [extractTile_offset, extractTile_shape]
    exact tile_inside (h.factor axis) (hinput axis) (h.tile_end htile axis).2.1

theorem WellFormed.extractTile : WellFormed (attr.extractTile tile inputShape).1 := by
  refine ⟨h.factor, h.padBefore, fun axis => ?_, fun d => ?_, startOf_extractTile_plain .N (.inl rfl),
    startOf_extractTile_plain .C (.inr rfl)⟩
  · exact add_nonneg (h.padAfter axis) (h.factor axis)
  · induction d using Dim.spatialCases with
    | N => rw [startOf_extractTile_plain .N (.inl rfl)]
    | C => rw [startOf_extractTile_plain .C (.inr rfl)]
    | spatial axis =>
      rw [startOf_extractTile, extractTile_offset]
      exact relative_nonneg (h.factor axis) (hinput axis) (h.padBefore axis) (h.tile_end htile axis).1

theorem WellFormed.extractTile_outputShape :
    (attr.extractTile tile inputShape).1.inferOutputShape (attr.extractTile tile inputShape).2.shape = tile.shape := by
  funext d
  rw [inferOutputShape_eq]
  apply min_eq_right
  change tile.shape d ≤ _
  induction d using Dim.spatialCases with
  | N =>
    rw [startOf_extractTile_plain .N (.inl rfl), sub_zero]
    exact (h.tile_plain htile .N (.inl rfl)).2.2.2.2.ge
  | C =>
    rw [startOf_extractTile_plain .C (.inr rfl), sub_zero]
    exact (h.tile_plain htile .C (.inr rfl)).2.2.2.2.ge
  | spatial axis =>
    have hfull : (attr.extractTile tile inputShape).1.fullShape (attr.extractTile tile inputShape).2.shape axis.dim =
        upsampledSize ((attr.extractTile tile inputShape).2.shape axis.dim) (attr.factor axis) (attr.padBefore axis)
          (attr.padAfter axis + attr.factor axis) := onSpatial_dim _ _ axis
    rw [hfull, startOf_extractTile, extractTile_offset, extractTile_shape]
    exact size_le_upsampled (h.factor axis) (hinput axis) (h.padAfter axis) (h.tile_end htile axis).2.2

variable (hk : ∀ d, 0 ≤ k d ∧ k d < tile.shape d)
include hk

theorem WellFormed.extractTile_coord (d : Dim) : (attr.extractTile tile inputShape).2.offset d +
    (attr.extractTile tile inputShape).1.backInferInputCoord (outputCoord (attr.extractTile tile inputShape).1.offsets k)
      (attr.extractTile tile inputShape).2.shape d =
    attr.backInferInputCoord (outputCoord attr.offsets fun d => tile.offset d + k d) inputShape d := by
  induction d using Dim.spatialCases with
  | N => exact congrArg (· + k .N) (h.tile_plain htile .N (.inl rfl)).2.2.2.1
  | C => exact congrArg (· + k .C) (h.tile_plain htile .C (.inr rfl)).2.2.2.1
  | spatial axis =>
    unfold backInferInputCoord
    rw [onSpatial_dim, onSpatial_dim, outputCoord_eq, outputCoord_eq, startOf_extractTile, extractTile_offset, extractTile_shape,
      ← add_assoc]
    exact inputCoord_tile (h.factor axis) (hinput axis) (h.tile_end htile axis).2.1 (hk axis.dim).1 (hk axis.dim).2

theorem WellFormed.extractTile_isData :
    (attr.extractTile tile inputShape).1.IsData (attr.extractTile tile inputShape).2.shape
      (outputCoord (attr.extractTile tile inputShape).1.offsets k) ↔
    attr.IsData inputShape (outputCoord attr.offsets fun d => tile.offset d + k d) := by
  apply forall_congr'
  intro axis
  rw [outputCoord_eq, outputCoord_eq, startOf_extractTile, extractTile_offset, extractTile_shape, ← add_assoc]
  exact holdsData_tile (h.factor axis) (hinput axis) (h.tile_end htile axis).2.1 (hk axis.dim).1 (hk axis.dim).2

end

theorem Upsampled.extract (h : Upsampled attr inputShape s) (htile : tile.Inside s.output.shape) :
    KeepsTile attr inputShape s tile ∧ ∀ s', s.extract upsamplingInterface tile = some s' → Upsampled attr inputShape s' := by
  obtain ⟨hwell, hinput, hshape, hreads, hzeros⟩ := h
  rw [← hshape] at htile
  have hinside := hwell.extractTile_inside hinput htile
  have hnew := hwell.extractTile hinput htile
  have hsize := hwell.extractTile_outputShape hinput htile
  have hwithin (k : Shape) (hk : ∀ d, 0 ≤ k d ∧ k d < tile.shape d) (d : Dim) :
      0 ≤ tile.offset d + k d ∧ tile.offset d + k d < s.output.shape d := by
    have htiled := htile d
    have hkd := hk d
    rw [hshape] at htiled
    omega
  have hkeepsReads : Extracted.Reads upsamplingInterface attr inputShape ⟨(s.attr.extractTile tile s.input.shape).1,
      (s.attr.extractTile tile s.input.shape).2.within s.input, tile.within s.output⟩ := by
    intro k hk
    obtain ⟨c, hc, -, hwhole⟩ := hreads (fun d => tile.offset d + k d) (hwithin k hk)
    refine ⟨_, rfl, hnew.coord_range (fun axis => (hinside axis.dim).2.1) (hsize.symm ▸ hk), ?_⟩
    have hcoord : (fun d => (s.attr.extractTile tile s.input.shape).2.offset d +
        (s.attr.extractTile tile s.input.shape).1.backInferInputCoord
          (outputCoord (s.attr.extractTile tile s.input.shape).1.offsets k) (s.attr.extractTile tile s.input.shape).2.shape d) = c :=
      (funext (hwell.extractTile_coord hinput htile hk)).trans (Option.some.inj hc)
    simp only [← add_assoc] at hwhole
    refine hwhole.trans (congrArg some (funext fun d => ?_))
    rw [← hcoord]
    exact (add_assoc _ _ _).symm
  have hkeepsZeros : Extracted.KeepsZeros attr inputShape ⟨(s.attr.extractTile tile s.input.shape).1,
      (s.attr.extractTile tile s.input.shape).2.within s.input, tile.within s.output⟩ := by
    intro k hk
    have hplace := hzeros (fun d => tile.offset d + k d) (hwithin k hk)
    simp only [← add_assoc] at hplace
    exact (hwell.extractTile_isData hinput htile hk).trans hplace
  constructor
  · exact ⟨_, _, rfl, hinside, ⟨_, rfl, hnew.start⟩, hsize, hkeepsReads, hkeepsZeros⟩
  · intro s' hs'
    cases hs'
    exact ⟨hnew, fun axis => (hinside axis.dim).2.1, hsize, hkeepsReads, hkeepsZeros⟩

theorem Upsampled.untiled (h : WellFormed attr) (hinput : ∀ axis : SpatialAxis, 0 < inputShape axis.dim) :
    Upsampled attr inputShape (upsamplingInterface.untiled attr inputShape) := by
  have hzero (k : Shape) : (fun d => (0 : ℤ) + k d) = k := funext fun d => zero_add _
  refine ⟨h, hinput, rfl, fun k hk => ⟨_, rfl, h.coord_range hinput hk, ?_⟩, fun k hk => ?_⟩
  · change upsamplingInterface.read attr inputShape (fun d => 0 + k d) = some fun d => 0 + _
    rw [hzero, hzero]
    rfl
  · change _ ↔ attr.IsData inputShape (outputCoord attr.offsets fun d => 0 + k d)
    rw [hzero]
    rfl

theorem upsampledTiles_kept (h : WellFormed attr) (hinput : ∀ axis : SpatialAxis, 0 < inputShape axis.dim) {tiles : List Tile}
    (hnested : Nested (attr.inferOutputShape inputShape) tiles) :
    Along upsamplingInterface (KeepsTile attr inputShape) (upsamplingInterface.untiled attr inputShape) tiles :=
  along_of_invariant (fun _ _ hs htile => hs.extract htile) (Upsampled.untiled h hinput) hnested

def threeByThree : SEUpsamplingAttr := ⟨fun _ => 2, fun _ => 2, fun _ => 0, none, none⟩

theorem threeByThree_kept : Along upsamplingInterface (KeepsTile threeByThree (byDim 1 16 3 3))
    (upsamplingInterface.untiled threeByThree (byDim 1 16 3 3))
    [⟨byDim 0 0 5 1, byDim 1 16 4 6⟩, ⟨byDim 0 0 1 2, byDim 1 16 2 3⟩] := by
  apply upsampledTiles_kept
  · exact ⟨fun _ => Int.zero_le_ofNat 2, fun _ => Int.zero_le_ofNat 2, fun _ => le_rfl, fun _ => le_rfl, rfl, rfl⟩
  · intro axis
    cases axis with
    | H => decide
    | W => decide
  · refine ⟨fun d => ?_, fun d => ?_, trivial⟩
    · cases d with
      | N => decide
      | C => decide
      | H => decide
      | W => decide
    · cases d with
      | N => decide
      | C => decide
      | H => decide
      | W => decide

end

end SEUpsamplingAttr

end NpuCompiler.StorageElement
