import NpuCompiler.StorageElement.SEAttr

namespace NpuCompiler.StorageElement

/-- `IE::PadMode` -/
inductive PadMode
  | constant | edge | reflect | symmetric
  deriving DecidableEq

structure SEPaddingAttr where
  mode : PadMode
  padLeft : ℤ
  padTop : ℤ
  padRight : ℤ
  padBottom : ℤ
  offsets : Option Shape
  sizes : Option Shape

inductive CoordLocation
  | padBegin | inData | padEnd
  deriving DecidableEq

namespace SEPaddingAttr

def coordTransform (mode : PadMode) (coord padBegin inputSize : ℤ) : ℤ :=
  match mode with
  | .constant | .edge =>
    if coord < padBegin then 0
    else if coord ≥ padBegin + inputSize then inputSize - 1
    else coord - padBegin
  | .reflect =>
    if coord < padBegin then padBegin - coord
    else if coord ≥ padBegin + inputSize then (inputSize - 1) - (coord - inputSize - padBegin + 1)
    else coord - padBegin
  | .symmetric =>
    if coord < padBegin then padBegin - coord - 1
    else if coord ≥ padBegin + inputSize then inputSize - (coord - inputSize - padBegin + 1)
    else coord - padBegin

variable (attr : SEPaddingAttr)

def padBegin : Dim → ℤ
  | .H => attr.padTop
  | .W => attr.padLeft
  | _ => 0

def padEnd : Dim → ℤ
  | .H => attr.padBottom
  | .W => attr.padRight
  | _ => 0

def inferOutputShape (inputShape : Shape) : Shape :=
  attr.sizes.getD (fun d => inputShape d + attr.padBegin d + attr.padEnd d)

def isSpatial : Dim → Bool
  | .H | .W => true
  | _ => false

def clamp (value low high : ℤ) : ℤ := if value < low then low else if high < value then high else value

def backInferInputCoord (outputCoord inputShape : Shape) : Option Shape :=
  if outputCoord .H < inputShape .H + attr.padTop + attr.padBottom ∧
      outputCoord .W < inputShape .W + attr.padLeft + attr.padRight then
    some (fun d =>
      let inCoord := if isSpatial d then coordTransform attr.mode (outputCoord d) (attr.padBegin d) (inputShape d)
        else outputCoord d
      clamp inCoord 0 (inputShape d - 1))
  else none

def getCoordLocation (inputShape : Shape) (coord : ℤ) (dim : Dim) (padBeginValue : ℤ) : CoordLocation :=
  if isSpatial dim then
    if coord < padBeginValue then .padBegin
    else if coord ≥ inputShape dim + padBeginValue then .padEnd else .inData
  else .inData

structure AxisParams where
  inputTileShape : ℤ
  inputTileOffset : ℤ
  relativeOffset : ℤ

def inferAxisParams (mode : PadMode) (startLocation endLocation : CoordLocation)
    (padBeginValue inputSize outputTileOffset inputTileDimStart inputTileDimEnd : ℤ) : Option AxisParams :=
  match startLocation, endLocation with
  | .padBegin, .padBegin =>
    let shape := inputTileDimStart - inputTileDimEnd + 1
    if mode = .reflect then some ⟨shape + 1, inputTileDimEnd - 1, padBeginValue - shape⟩
    else some ⟨shape, inputTileDimEnd, padBeginValue - shape⟩
  | .padBegin, .inData => some ⟨max inputTileDimStart inputTileDimEnd + 1, 0, outputTileOffset⟩
  | .padBegin, .padEnd => some ⟨inputSize, 0, outputTileOffset⟩
  | .inData, .inData => some ⟨inputTileDimEnd - inputTileDimStart + 1, inputTileDimStart, padBeginValue⟩
  | .inData, .padEnd =>
    some ⟨inputSize - min inputTileDimStart inputTileDimEnd, min inputTileDimStart inputTileDimEnd, padBeginValue⟩
  | .padEnd, .padEnd =>
    let shape := inputTileDimStart - inputTileDimEnd + 1
    let relative := padBeginValue + inputTileDimStart - inputTileDimEnd + 1
    if mode = .reflect then some ⟨shape + 1, inputTileDimEnd, relative + 1⟩
    else some ⟨shape, inputTileDimEnd, relative⟩
  | _, _ => none

def inferPadInputTileParams (tile : Tile) (inputShape : Shape) : Option (Tile × Shape) :=
  let outputTileEnd : Shape := fun d => tile.offset d + tile.shape d - 1
  (attr.backInferInputCoord tile.offset inputShape).bind (fun inputTileStart =>
    (attr.backInferInputCoord outputTileEnd inputShape).bind (fun inputTileEnd =>
      let params (d : Dim) := inferAxisParams attr.mode (getCoordLocation inputShape (tile.offset d) d (attr.padBegin d))
        (getCoordLocation inputShape (outputTileEnd d) d (attr.padBegin d)) (attr.padBegin d) (inputShape d)
        (tile.offset d) (inputTileStart d) (inputTileEnd d)
      (params .N).bind (fun n => (params .C).bind (fun c => (params .H).bind (fun h => (params .W).bind (fun w =>
        let axes := byDim n c h w
        some (⟨fun d => (axes d).inputTileOffset, fun d => (axes d).inputTileShape⟩, fun d => (axes d).relativeOffset)))))))

def extractTile (tile : Tile) (inputShape : Shape) : Option (SEPaddingAttr × Tile) :=
  (attr.inferPadInputTileParams ⟨combineOffsets tile.offset attr.offsets, tile.shape⟩ inputShape).map
    (fun (inputTile, relativeOffsets) => ({ attr with offsets := some relativeOffsets, sizes := some tile.shape }, inputTile))

end SEPaddingAttr

def paddingInterface : SEAttrInterface SEPaddingAttr where
  getOffsets := SEPaddingAttr.offsets
  inferOutputShape := SEPaddingAttr.inferOutputShape
  backInferInputCoord := SEPaddingAttr.backInferInputCoord
  extractTile := SEPaddingAttr.extractTile

end NpuCompiler.StorageElement

namespace NpuCompiler.StorageElement

def PadMode.mirrorGap : PadMode → ℤ
  | .reflect => 0
  | _ => 1

def PadMode.Mirrors (mode : PadMode) : Prop := mode = .reflect ∨ mode = .symmetric

instance (mode : PadMode) : Decidable mode.Mirrors := inferInstanceAs (Decidable (_ ∨ _))

theorem PadMode.mirrorGap_range {mode : PadMode} (h : mode.Mirrors) : 0 ≤ mode.mirrorGap ∧ mode.mirrorGap ≤ 1 := by
  rcases h with rfl | rfl
  · exact ⟨le_refl _, Int.one_nonneg⟩
  · exact ⟨Int.one_nonneg, le_refl _⟩

theorem PadMode.not_mirrors {mode : PadMode} (h : ¬ mode.Mirrors) : mode = .constant ∨ mode = .edge := by
  cases mode with
  | constant => exact .inl rfl
  | edge => exact .inr rfl
  | reflect => exact absurd (.inl rfl) h
  | symmetric => exact absurd (.inr rfl) h

namespace SEPaddingAttr

section
variable {mode : PadMode} {x k p q size n : ℤ}

theorem clamp_of_range (h : 0 ≤ x) (hlt : x < size) : clamp x 0 (size - 1) = x := by
  unfold clamp
  rw [if_neg (by omega), if_neg (by omega)]

theorem coordTransform_data (h : p ≤ x) (hlt : x < p + size) : coordTransform mode x p size = x - p := by
  cases mode with
  | constant | edge | reflect | symmetric =>
    unfold coordTransform
    dsimp only
    rw [if_neg (by omega), if_neg (by omega)]

theorem coordTransform_edge_begin (hmode : ¬ mode.Mirrors) (h : x < p) : coordTransform mode x p size = 0 := by
  rcases PadMode.not_mirrors hmode with rfl | rfl
  · exact if_pos h
  · exact if_pos h

theorem coordTransform_edge_end (hmode : ¬ mode.Mirrors) (hp : p ≤ x) (h : p + size ≤ x) :
    coordTransform mode x p size = size - 1 := by
  unfold coordTransform
  rcases PadMode.not_mirrors hmode with rfl | rfl
  · dsimp only
    rw [if_neg (by omega), if_pos (by omega)]
  · dsimp only
    rw [if_neg (by omega), if_pos (by omega)]

theorem coordTransform_mirror_begin (hmode : mode.Mirrors) (h : x < p) :
    coordTransform mode x p size = p - x - mode.mirrorGap := by
  unfold coordTransform PadMode.mirrorGap
  rcases hmode with rfl | rfl
  · dsimp only
    rw [if_pos h]
    omega
  · dsimp only
    rw [if_pos h]

theorem coordTransform_mirror_end (hmode : mode.Mirrors) (hp : p ≤ x) (h : p + size ≤ x) :
    coordTransform mode x p size = 2 * size - 2 + mode.mirrorGap + p - x := by
  unfold coordTransform PadMode.mirrorGap
  rcases hmode with rfl | rfl
  · dsimp only
    rw [if_neg (by omega), if_pos (by omega)]
    omega
  · dsimp only
    rw [if_neg (by omega), if_pos (by omega)]
    omega

def axisLocation (padBeginValue inputSize coord : ℤ) : CoordLocation :=
  if coord < padBeginValue then .padBegin
  else if coord ≥ inputSize + padBeginValue then .padEnd else .inData

structure AxisRead (mode : PadMode) (p q size x n : ℤ) (params : AxisParams) : Prop where
  offset_nonneg : 0 ≤ params.inputTileOffset
  shape_pos : 0 < params.inputTileShape
  inside : params.inputTileOffset + params.inputTileShape ≤ size
  relative_nonneg : 0 ≤ params.relativeOffset
  relative_end : params.relativeOffset + n ≤ params.inputTileShape + p + q
  read : ∀ k, 0 ≤ k → k < n →
    0 ≤ coordTransform mode (params.relativeOffset + k) p params.inputTileShape ∧
    coordTransform mode (params.relativeOffset + k) p params.inputTileShape < params.inputTileShape ∧
    coordTransform mode (x + k) p size =
      params.inputTileOffset + coordTransform mode (params.relativeOffset + k) p params.inputTileShape

structure AxisValid (mode : PadMode) (p q size x n : ℤ) : Prop where
  begin_nonneg : 0 ≤ p
  end_nonneg : 0 ≤ q
  size_pos : 0 < size
  first_nonneg : 0 ≤ x
  count_pos : 0 < n
  last_lt : x + n ≤ size + p + q
  range : ∀ y, x ≤ y → y < x + n → 0 ≤ coordTransform mode y p size ∧ coordTransform mode y p size < size

/-- A tile in the padding before the data is not longer than what the padding behind a single element takes in, and a
tile with mirrored padding does not end further back than it begins. -/
def AxisGood (mode : PadMode) (p q size x n : ℤ) : Prop :=
  (¬ mode.Mirrors → x + n ≤ p → n ≤ q + 2) ∧
    (mode.Mirrors → p ≤ x → x < p + size → p + size < x + n →
      coordTransform mode x p size ≤ coordTransform mode (x + n - 1) p size)

instance (mode : PadMode) (p q size x n : ℤ) : Decidable (AxisGood mode p q size x n) :=
  inferInstanceAs (Decidable ((_ → _ → _) ∧ (_ → _ → _ → _ → _)))

section
variable (h : AxisValid mode p q size x n)
include h

theorem read_begin_begin (hgood : AxisGood mode p q size x n) (hend : x + n ≤ p) :
    ∃ params, inferAxisParams mode .padBegin .padBegin p size x (coordTransform mode x p size)
      (coordTransform mode (x + n - 1) p size) = some params ∧ AxisRead mode p q size x n params := by
  obtain ⟨hp, hq, hsize, hx, hn, hlast, hrange⟩ := h
  by_cases hmode : mode.Mirrors
  · -- the mirrored elements run backwards from the end of the input tile
    have hfirst := hrange x (le_refl _) (by omega)
    rw [coordTransform_mirror_begin hmode (by omega)] at hfirst
    have hgap := PadMode.mirrorGap_range hmode
    refine ⟨⟨n + 1 - mode.mirrorGap, p - x - n, p - n⟩, ?_, by dsimp only; omega, by dsimp only; omega, by dsimp only; omega,
      by dsimp only; omega, by dsimp only; omega, ?_⟩
    · rw [coordTransform_mirror_begin hmode (by omega), coordTransform_mirror_begin hmode (by omega)]
      unfold inferAxisParams PadMode.mirrorGap
      rcases hmode with rfl | rfl
      · dsimp only
        rw [if_pos rfl, Option.some.injEq, AxisParams.mk.injEq]
        omega
      · dsimp only
        rw [if_neg (by decide), Option.some.injEq, AxisParams.mk.injEq]
        omega
    · intro k hk hlt
      dsimp only
      rw [coordTransform_mirror_begin hmode (by omega), coordTransform_mirror_begin hmode (by omega)]
      omega
  · have hshort := hgood.1 hmode hend
    refine ⟨⟨1, 0, p - 1⟩, ?_, le_refl _, Int.one_pos, by dsimp only; omega, by dsimp only; omega, by dsimp only; omega, ?_⟩
    · rw [coordTransform_edge_begin hmode (by omega), coordTransform_edge_begin hmode (by omega)]
      unfold inferAxisParams
      dsimp only
      rw [if_neg (fun heq => hmode (.inl heq))]
      rfl
    · intro k hk hlt
      dsimp only
      have hzero : coordTransform mode (p - 1 + k) p 1 = 0 := by
        by_cases hbefore : p - 1 + k < p
        · exact coordTransform_edge_begin hmode hbefore
        · by_cases hdata : p - 1 + k < p + 1
          · rw [coordTransform_data (by omega) hdata]
            omega
          · exact coordTransform_edge_end hmode (by omega) (by omega)
      have hfirst : coordTransform mode (x + k) p size = 0 := coordTransform_edge_begin hmode (by omega)
      rw [hzero, hfirst]
      omega

theorem read_begin_data (hbegin : x < p) (hend : p < x + n) (hdata : x + n ≤ size + p) :
    ∃ params, inferAxisParams mode .padBegin .inData p size x (coordTransform mode x p size)
      (coordTransform mode (x + n - 1) p size) = some params ∧ AxisRead mode p q size x n params := by
  obtain ⟨hp, hq, hsize, hx, hn, hlast, hrange⟩ := h
  have hfirst := hrange x (le_refl _) (by omega)
  have hlastRead : coordTransform mode (x + n - 1) p size = x + n - 1 - p := coordTransform_data (by omega) (by omega)
  -- the input tile begins with the data, and reaches as far as the tile does on either side
  have hshape : coordTransform mode x p size < max (coordTransform mode x p size) (coordTransform mode (x + n - 1) p size) + 1 ∧
      x + n - p ≤ max (coordTransform mode x p size) (coordTransform mode (x + n - 1) p size) + 1 ∧
      max (coordTransform mode x p size) (coordTransform mode (x + n - 1) p size) + 1 ≤ size := by
    rw [hlastRead]
    omega
  refine ⟨⟨max (coordTransform mode x p size) (coordTransform mode (x + n - 1) p size) + 1, 0, x⟩, rfl, ?_⟩
  generalize max (coordTransform mode x p size) (coordTransform mode (x + n - 1) p size) + 1 = shape at hshape
  refine ⟨le_refl _, by dsimp only; omega, by dsimp only; omega, hx, by dsimp only; omega, ?_⟩
  intro k hk hlt
  dsimp only
  by_cases hbefore : x + k < p
  · by_cases hmode : mode.Mirrors
    · have hread := hrange (x + k) (by omega) (by omega)
      rw [coordTransform_mirror_begin hmode hbefore] at hread
      rw [coordTransform_mirror_begin hmode hbegin] at hshape
      rw [coordTransform_mirror_begin hmode hbefore, coordTransform_mirror_begin hmode hbefore]
      omega
    · rw [coordTransform_edge_begin hmode hbefore, coordTransform_edge_begin hmode hbefore]
      omega
  · rw [coordTransform_data (by omega) (by omega), coordTransform_data (by omega) (by omega)]
    omega

theorem read_begin_end : ∃ params, inferAxisParams mode .padBegin .padEnd p size x (coordTransform mode x p size)
      (coordTransform mode (x + n - 1) p size) = some params ∧ AxisRead mode p q size x n params := by
  obtain ⟨hp, hq, hsize, hx, hn, hlast, hrange⟩ := h
  refine ⟨_, rfl, le_refl _, hsize, by dsimp only; omega, hx, by dsimp only; omega, ?_⟩
  intro k hk hlt
  obtain ⟨hnonneg, hread⟩ := hrange (x + k) (by omega) (by omega)
  exact ⟨hnonneg, hread, (zero_add _).symm⟩

theorem read_data_data (hbegin : p ≤ x) (hdata : x + n ≤ size + p) :
    ∃ params, inferAxisParams mode .inData .inData p size x (coordTransform mode x p size)
      (coordTransform mode (x + n - 1) p size) = some params ∧ AxisRead mode p q size x n params := by
  obtain ⟨hp, hq, hsize, hx, hn, hlast, hrange⟩ := h
  refine ⟨⟨n, x - p, p⟩, ?_, by dsimp only; omega, hn, by dsimp only; omega, hp, by dsimp only; omega, ?_⟩
  · rw [coordTransform_data (by omega) (by omega), coordTransform_data (by omega) (by omega)]
    unfold inferAxisParams
    rw [Option.some.injEq, AxisParams.mk.injEq]
    omega
  · intro k hk hlt
    dsimp only
    rw [coordTransform_data (by omega) (by omega), coordTransform_data (by omega) (by omega)]
    omega

theorem read_data_end (hgood : AxisGood mode p q size x n) (hbegin : p ≤ x)
    (hdata : x < p + size) (hend : p + size < x + n) :
    ∃ params, inferAxisParams mode .inData .padEnd p size x (coordTransform mode x p size)
      (coordTransform mode (x + n - 1) p size) = some params ∧ AxisRead mode p q size x n params := by
  obtain ⟨hp, hq, hsize, hx, hn, hlast, hrange⟩ := h
  have hfirst : coordTransform mode x p size = x - p := coordTransform_data hbegin hdata
  -- the input tile begins where the tile does
  have hleast : min (coordTransform mode x p size) (coordTransform mode (x + n - 1) p size) = x - p := by
    rw [hfirst]
    apply min_eq_left
    by_cases hmode : mode.Mirrors
    · have hle := hgood.2 hmode hbegin hdata hend
      rwa [hfirst] at hle
    · rw [coordTransform_edge_end hmode (by omega) (by omega)]
      omega
  refine ⟨⟨size - (x - p), x - p, p⟩, ?_, by dsimp only; omega, by dsimp only; omega, by dsimp only; omega, hp,
    by dsimp only; omega, ?_⟩
  · unfold inferAxisParams
    rw [hleast]
  · intro k hk hlt
    dsimp only
    by_cases hbefore : x + k < p + size
    · rw [coordTransform_data (by omega) (by omega), coordTransform_data (by omega) hbefore]
      omega
    · by_cases hmode : mode.Mirrors
      · have hgap := PadMode.mirrorGap_range hmode
        have hle := hgood.2 hmode hbegin hdata hend
        rw [hfirst, coordTransform_mirror_end hmode (by omega) (by omega)] at hle
        rw [coordTransform_mirror_end hmode (by omega) (by omega), coordTransform_mirror_end hmode (by omega) (by omega)]
        omega
      · rw [coordTransform_edge_end hmode (by omega) (by omega), coordTransform_edge_end hmode (by omega) (by omega)]
        omega

theorem read_end_end (hbegin : p + size ≤ x) :
    ∃ params, inferAxisParams mode .padEnd .padEnd p size x (coordTransform mode x p size)
      (coordTransform mode (x + n - 1) p size) = some params ∧ AxisRead mode p q size x n params := by
  obtain ⟨hp, hq, hsize, hx, hn, hlast, hrange⟩ := h
  by_cases hmode : mode.Mirrors
  · have hgap := PadMode.mirrorGap_range hmode
    have hread := hrange (x + n - 1) (by omega) (by omega)
    rw [coordTransform_mirror_end hmode (by omega) (by omega)] at hread
    refine ⟨⟨n + 1 - mode.mirrorGap, 2 * size - 2 + mode.mirrorGap + p - (x + n - 1), p + n + 1 - mode.mirrorGap⟩, ?_,
      hread.1, by dsimp only; omega, by dsimp only; omega, by dsimp only; omega, by dsimp only; omega, ?_⟩
    · rw [coordTransform_mirror_end hmode (by omega) hbegin, coordTransform_mirror_end hmode (by omega) (by omega)]
      unfold inferAxisParams PadMode.mirrorGap
      rcases hmode with rfl | rfl
      · dsimp only
        rw [if_pos rfl, Option.some.injEq, AxisParams.mk.injEq]
        omega
      · dsimp only
        rw [if_neg (by decide), Option.some.injEq, AxisParams.mk.injEq]
        omega
    · intro k hk hlt
      dsimp only
      rw [coordTransform_mirror_end hmode (by omega) (by omega), coordTransform_mirror_end hmode (by omega) (by omega)]
      omega
  · refine ⟨⟨1, size - 1, p + 1⟩, ?_, by dsimp only; omega, Int.one_pos, by dsimp only; omega, by dsimp only; omega,
      by dsimp only; omega, ?_⟩
    · rw [coordTransform_edge_end hmode (by omega) hbegin, coordTransform_edge_end hmode (by omega) (by omega)]
      unfold inferAxisParams
      dsimp only
      rw [if_neg (fun heq => hmode (.inl heq)), Option.some.injEq, AxisParams.mk.injEq]
      omega
    · intro k hk hlt
      dsimp only
      rw [coordTransform_edge_end hmode (by omega) (by omega), coordTransform_edge_end hmode (by omega) (by omega)]
      omega

theorem inferAxisParams_read (hgood : AxisGood mode p q size x n) :
    ∃ params, inferAxisParams mode (axisLocation p size x) (axisLocation p size (x + n - 1)) p size x
      (coordTransform mode x p size) (coordTransform mode (x + n - 1) p size) = some params ∧
        AxisRead mode p q size x n params := by
  have hn := h.count_pos
  unfold axisLocation
  by_cases hbegin : x < p
  · rw [if_pos hbegin]
    by_cases hlast : x + n ≤ p
    · rw [if_pos (by omega)]
      exact read_begin_begin h hgood hlast
    · rw [if_neg (by omega)]
      by_cases hdata : x + n ≤ size + p
      · rw [if_neg (by omega)]
        exact read_begin_data h hbegin (by omega) hdata
      · rw [if_pos (by omega)]
        exact read_begin_end h
  · rw [if_neg hbegin, if_neg (by omega : ¬ x + n - 1 < p)]
    by_cases hend : x ≥ size + p
    · rw [if_pos hend, if_pos (by omega)]
      exact read_end_end h (by omega)
    · rw [if_neg hend]
      by_cases hdata : x + n ≤ size + p
      · rw [if_neg (by omega)]
        exact read_data_data h (by omega) hdata
      · rw [if_pos (by omega)]
        exact read_data_end h hgood (by omega) (by omega) (by omega)

end

/-- A part of a padded axis: `count` outputs from `first` on of an axis of `whole` elements, which are read from `offset` on
of the `size` inputs at `base`. -/
structure PaddedAxis (mode : PadMode) (p q whole first count size offset base : ℤ) : Prop where
  valid : AxisValid mode p q size offset count
  first_nonneg : 0 ≤ first
  last_lt : first + count ≤ whole + p + q
  base_nonneg : 0 ≤ base
  inside : base + size ≤ whole
  read : ∀ k, 0 ≤ k → k < count → coordTransform mode (first + k) p whole = base + coordTransform mode (offset + k) p size

variable {whole first count offset base o : ℤ}

theorem paddedAxis_untiled (hp : 0 ≤ p) (hq : 0 ≤ q) (hsize : 0 < size)
    (hmode : mode.Mirrors → p < size + mode.mirrorGap ∧ q < size + mode.mirrorGap) :
    PaddedAxis mode p q size 0 (size + p + q) size 0 0 := by
  refine ⟨⟨hp, hq, hsize, le_refl _, by omega, by omega, ?_⟩, le_refl _, by omega, le_refl _, by omega, ?_⟩
  · intro y hy hlt
    by_cases hbefore : y < p
    · by_cases hmirror : mode.Mirrors
      · have hgap := PadMode.mirrorGap_range hmirror
        have hpad := hmode hmirror
        rw [coordTransform_mirror_begin hmirror hbefore]
        omega
      · rw [coordTransform_edge_begin hmirror hbefore]
        omega
    · by_cases hdata : y < p + size
      · rw [coordTransform_data (by omega) hdata]
        omega
      · by_cases hmirror : mode.Mirrors
        · have hgap := PadMode.mirrorGap_range hmirror
          have hpad := hmode hmirror
          rw [coordTransform_mirror_end hmirror (by omega) (by omega)]
          omega
        · rw [coordTransform_edge_end hmirror (by omega) (by omega)]
          omega
  · intro k _ _
    exact (zero_add _).symm

theorem PaddedAxis.sub (h : PaddedAxis mode p q whole first count size offset base) (ho : 0 ≤ o) (hn : 0 < n)
    (hend : o + n ≤ count) : AxisValid mode p q size (offset + o) n := by
  obtain ⟨hp, hq, hsize, hoffset, -, hlast, hrange⟩ := h.valid
  exact ⟨hp, hq, hsize, by omega, hn, by omega, fun y hy hlt => hrange y (by omega) (by omega)⟩

theorem PaddedAxis.extract (h : PaddedAxis mode p q whole first count size offset base) (ho : 0 ≤ o) (hend : o + n ≤ count)
    (hn : 0 < n) {params : AxisParams} (hread : AxisRead mode p q size (offset + o) n params) :
    PaddedAxis mode p q whole (first + o) n params.inputTileShape params.relativeOffset (base + params.inputTileOffset) := by
  obtain ⟨⟨hp, hq, -, -, -, -, -⟩, hfirst, hlast, hbase, hinside, hwhole⟩ := h
  obtain ⟨hoffset, hshape, hin, hrelative, hrelativeEnd, hreads⟩ := hread
  refine ⟨⟨hp, hq, hshape, hrelative, hn, hrelativeEnd, ?_⟩, by omega, by omega, by omega, by omega, ?_⟩
  · intro y hy hlt
    obtain ⟨hnonneg, hread, -⟩ := hreads (y - params.relativeOffset) (by omega) (by omega)
    rw [add_sub_cancel] at hnonneg hread
    exact ⟨hnonneg, hread⟩
  · intro k hk hlt
    obtain ⟨-, -, hread⟩ := hreads k hk hlt
    have heq := hwhole (o + k) (by omega) (by omega)
    rw [← add_assoc, ← add_assoc] at heq
    rw [heq, hread, add_assoc]

end

end SEPaddingAttr

end NpuCompiler.StorageElement
