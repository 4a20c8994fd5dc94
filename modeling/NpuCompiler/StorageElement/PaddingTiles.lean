import NpuCompiler.StorageElement.PaddingAttr

namespace NpuCompiler.StorageElement.SEPaddingAttr

open Option

section
variable {attr : SEPaddingAttr} {inputShape : Shape} {s : Extracted SEPaddingAttr} {tile : Tile}

def axisCoord (attr : SEPaddingAttr) (coord inputShape : Shape) : Shape := fun d =>
  if isSpatial d then coordTransform attr.mode (coord d) (attr.padBegin d) (inputShape d) else coord d

theorem backInferInputCoord_eq {coord : Shape}
    (hlt : ∀ d, isSpatial d = true → coord d < inputShape d + attr.padBegin d + attr.padEnd d)
    (hrange : ∀ d, 0 ≤ axisCoord attr coord inputShape d ∧ axisCoord attr coord inputShape d < inputShape d) :
    attr.backInferInputCoord coord inputShape = some (axisCoord attr coord inputShape) := by
  unfold backInferInputCoord
  rw [if_pos ⟨hlt .H rfl, hlt .W rfl⟩, Option.some.injEq]
  funext d
  exact clamp_of_range (hrange d).1 (hrange d).2

theorem backInferInputCoord_clamped {coord c : Shape} (h : attr.backInferInputCoord coord inputShape = some c) (d : Dim) :
    c d = clamp (axisCoord attr coord inputShape d) 0 (inputShape d - 1) := by
  unfold backInferInputCoord at h
  split_ifs at h
  rw [← Option.some.inj h]
  rfl

theorem backInferInputCoord_none {coord : Shape} {d : Dim} (hd : isSpatial d = true)
    (h : inputShape d + attr.padBegin d + attr.padEnd d ≤ coord d) : attr.backInferInputCoord coord inputShape = none := by
  unfold backInferInputCoord
  rw [if_neg]
  rintro ⟨hH, hW⟩
  cases d with
  | N => cases hd
  | C => cases hd
  | H => exact absurd hH (not_lt.mpr h)
  | W => exact absurd hW (not_lt.mpr h)

def endCoord (tile : Tile) : Shape := fun d => tile.offset d + tile.shape d - 1

def axisParams (attr : SEPaddingAttr) (tile : Tile) (inputShape inputTileStart inputTileEnd : Shape) (d : Dim) : Option AxisParams :=
  inferAxisParams attr.mode (getCoordLocation inputShape (tile.offset d) d (attr.padBegin d))
    (getCoordLocation inputShape (endCoord tile d) d (attr.padBegin d)) (attr.padBegin d) (inputShape d)
    (tile.offset d) (inputTileStart d) (inputTileEnd d)

def fromAxes (attr : SEPaddingAttr) (tile : Tile) (axes : Dim → AxisParams) : SEPaddingAttr × Tile :=
  ({ attr with offsets := some (fun d => (axes d).relativeOffset), sizes := some tile.shape },
    ⟨fun d => (axes d).inputTileOffset, fun d => (axes d).inputTileShape⟩)

theorem extractTile_iff {final : Tile} (hfinal : final = ⟨combineOffsets tile.offset attr.offsets, tile.shape⟩)
    {inputTileStart inputTileEnd : Shape} (hstart : attr.backInferInputCoord final.offset inputShape = some inputTileStart)
    (hend : attr.backInferInputCoord (endCoord final) inputShape = some inputTileEnd) {result : SEPaddingAttr × Tile} :
    attr.extractTile tile inputShape = some result ↔
      ∃ axes, (∀ d, axisParams attr final inputShape inputTileStart inputTileEnd d = some (axes d)) ∧
        result = fromAxes attr tile axes := by
  unfold extractTile inferPadInputTileParams
  rw [← hfinal]
  change Option.map _ (Option.bind (attr.backInferInputCoord final.offset inputShape) (fun inputTileStart =>
    Option.bind (attr.backInferInputCoord (endCoord final) inputShape) _)) = _ ↔ _
  rw [hstart, bind_some, hend, bind_some]
  change Option.map _ (Option.bind (axisParams attr final inputShape inputTileStart inputTileEnd .N) (fun n =>
    Option.bind (axisParams attr final inputShape inputTileStart inputTileEnd .C) (fun c =>
      Option.bind (axisParams attr final inputShape inputTileStart inputTileEnd .H) (fun h =>
        Option.bind (axisParams attr final inputShape inputTileStart inputTileEnd .W) _)))) = _ ↔ _
  constructor
  · intro h
    obtain ⟨params, hparams, rfl⟩ := map_eq_some_iff.mp h
    obtain ⟨paramsN, hN, hparams⟩ := bind_eq_some_iff.mp hparams
    obtain ⟨paramsC, hC, hparams⟩ := bind_eq_some_iff.mp hparams
    obtain ⟨paramsH, hH, hparams⟩ := bind_eq_some_iff.mp hparams
    obtain ⟨paramsW, hW, hparams⟩ := bind_eq_some_iff.mp hparams
    rw [← Option.some.inj hparams]
    refine ⟨_, ?_, rfl⟩
    intro d
    cases d with
    | N => exact hN
    | C => exact hC
    | H => exact hH
    | W => exact hW
  · rintro ⟨axes, haxes, rfl⟩
    rw [haxes, haxes, haxes, haxes]
    change some (fromAxes attr tile (byDim (axes .N) (axes .C) (axes .H) (axes .W))) = _
    rw [byDim_eta]

def startOf (attr : SEPaddingAttr) : Shape := attr.offsets.getD (fun _ => 0)

theorem combineOffsets_eq (origOffset : Shape) : combineOffsets origOffset attr.offsets = fun d => startOf attr d + origOffset d := by
  unfold startOf
  cases attr.offsets with
  | none =>
    funext d
    exact (zero_add _).symm
  | some offsets => rfl

structure Padded (attr : SEPaddingAttr) (inputShape : Shape) (s : Extracted SEPaddingAttr) : Prop where
  same : s.attr = { attr with offsets := s.attr.offsets, sizes := s.attr.sizes }
  axis : ∀ d, isSpatial d = true → PaddedAxis attr.mode (attr.padBegin d) (attr.padEnd d) (inputShape d)
    (s.output.offset d) (s.output.shape d) (s.input.shape d) (startOf s.attr d) (s.input.offset d)
  plain : ∀ d, isSpatial d = false → s.input.offset d = s.output.offset d ∧ s.input.shape d = s.output.shape d ∧ startOf s.attr d = 0
  within : ∀ d, isSpatial d = false → 0 ≤ s.output.offset d ∧ s.output.offset d + s.output.shape d ≤ inputShape d

def TileGood (attr : SEPaddingAttr) (s : Extracted SEPaddingAttr) (tile : Tile) : Prop :=
  ∀ d, isSpatial d = true → AxisGood attr.mode (attr.padBegin d) (attr.padEnd d) (s.input.shape d)
    (startOf s.attr d + tile.offset d) (tile.shape d)

def finalTile (s : Extracted SEPaddingAttr) (tile : Tile) : Tile := ⟨combineOffsets tile.offset s.attr.offsets, tile.shape⟩

theorem Padded.mode (h : Padded attr inputShape s) : s.attr.mode = attr.mode := by rw [h.same]

theorem Padded.padBegin (h : Padded attr inputShape s) (d : Dim) : s.attr.padBegin d = attr.padBegin d := by
  rw [h.same]
  cases d with
  | N => rfl
  | C => rfl
  | H => rfl
  | W => rfl

theorem Padded.padEnd (h : Padded attr inputShape s) (d : Dim) : s.attr.padEnd d = attr.padEnd d := by
  rw [h.same]
  cases d with
  | N => rfl
  | C => rfl
  | H => rfl
  | W => rfl

theorem axisCoord_spatial {coord : Shape} {d : Dim} (hd : isSpatial d = true) :
    axisCoord attr coord inputShape d = coordTransform attr.mode (coord d) (attr.padBegin d) (inputShape d) := if_pos hd

theorem axisCoord_plain {coord : Shape} {d : Dim} (hd : isSpatial d = false) : axisCoord attr coord inputShape d = coord d := by
  unfold axisCoord
  rw [hd]
  exact if_neg Bool.false_ne_true

theorem Padded.backInfer (h : Padded attr inputShape s) {coord : Shape}
    (hcoord : ∀ d, startOf s.attr d ≤ coord d ∧ coord d < startOf s.attr d + s.output.shape d) :
    s.attr.backInferInputCoord coord s.input.shape = some (axisCoord s.attr coord s.input.shape) ∧
      ∀ d, 0 ≤ axisCoord s.attr coord s.input.shape d ∧ axisCoord s.attr coord s.input.shape d < s.input.shape d := by
  have hrange (d : Dim) : 0 ≤ axisCoord s.attr coord s.input.shape d ∧
      axisCoord s.attr coord s.input.shape d < s.input.shape d := by
    cases hd : isSpatial d with
    | true =>
      rw [axisCoord_spatial hd, h.mode, h.padBegin]
      exact (h.axis d hd).valid.range (coord d) (hcoord d).1 (hcoord d).2
    | false =>
      obtain ⟨-, hshape, hstart⟩ := h.plain d hd
      have hd' := hcoord d
      rw [hstart, zero_add] at hd'
      rw [axisCoord_plain hd, hshape]
      exact hd'
  refine ⟨backInferInputCoord_eq ?_ hrange, hrange⟩
  intro d hd
  have hlast := (h.axis d hd).valid.last_lt
  rw [h.padBegin, h.padEnd]
  exact lt_of_lt_of_le (hcoord d).2 hlast

def spatialParams (attr : SEPaddingAttr) (s : Extracted SEPaddingAttr) (d : Dim) (x n : ℤ) : Option AxisParams :=
  inferAxisParams attr.mode (axisLocation (attr.padBegin d) (s.input.shape d) x)
    (axisLocation (attr.padBegin d) (s.input.shape d) (x + n - 1)) (attr.padBegin d) (s.input.shape d) x
    (coordTransform attr.mode x (attr.padBegin d) (s.input.shape d))
    (coordTransform attr.mode (x + n - 1) (attr.padBegin d) (s.input.shape d))

theorem finalTile_offset (d : Dim) : (finalTile s tile).offset d = startOf s.attr d + tile.offset d := by
  unfold finalTile
  rw [combineOffsets_eq]

theorem finalTile_end (d : Dim) : endCoord (finalTile s tile) d = startOf s.attr d + tile.offset d + tile.shape d - 1 :=
  congrArg (· + tile.shape d - 1) (finalTile_offset d)

theorem getCoordLocation_spatial {coord padBeginValue : ℤ} {d : Dim} (hd : isSpatial d = true) :
    getCoordLocation inputShape coord d padBeginValue = axisLocation padBeginValue (inputShape d) coord := if_pos hd

theorem getCoordLocation_plain {coord padBeginValue : ℤ} {d : Dim} (hd : isSpatial d = false) :
    getCoordLocation inputShape coord d padBeginValue = .inData := by
  unfold getCoordLocation
  rw [hd]
  exact if_neg Bool.false_ne_true

theorem Padded.axisParams_spatial (h : Padded attr inputShape s) {d : Dim} (hd : isSpatial d = true) :
    axisParams s.attr (finalTile s tile) s.input.shape (axisCoord s.attr (finalTile s tile).offset s.input.shape)
      (axisCoord s.attr (endCoord (finalTile s tile)) s.input.shape) d =
        spatialParams attr s d (startOf s.attr d + tile.offset d) (tile.shape d) := by
  unfold axisParams spatialParams
  rw [getCoordLocation_spatial hd, getCoordLocation_spatial hd, axisCoord_spatial hd, axisCoord_spatial hd, finalTile_offset,
    finalTile_end, h.mode, h.padBegin]

theorem Padded.axisParams_plain (h : Padded attr inputShape s) {d : Dim} (hd : isSpatial d = false) :
    axisParams s.attr (finalTile s tile) s.input.shape (axisCoord s.attr (finalTile s tile).offset s.input.shape)
      (axisCoord s.attr (endCoord (finalTile s tile)) s.input.shape) d = some ⟨tile.shape d, tile.offset d, 0⟩ := by
  obtain ⟨-, -, hstart⟩ := h.plain d hd
  have hbegin : s.attr.padBegin d = 0 := by
    cases d with
    | N => rfl
    | C => rfl
    | H => cases hd
    | W => cases hd
  unfold axisParams
  rw [getCoordLocation_plain hd, getCoordLocation_plain hd, axisCoord_plain hd, axisCoord_plain hd, finalTile_offset,
    finalTile_end, hstart, hbegin]
  unfold inferAxisParams
  rw [Option.some.injEq, AxisParams.mk.injEq]
  omega

theorem Padded.extractTile_iff (h : Padded attr inputShape s) (htile : tile.Inside s.output.shape)
    {result : SEPaddingAttr × Tile} : s.attr.extractTile tile s.input.shape = some result ↔
      ∃ axes : Dim → AxisParams, (∀ d, isSpatial d = true →
          spatialParams attr s d (startOf s.attr d + tile.offset d) (tile.shape d) = some (axes d)) ∧
        (∀ d, isSpatial d = false → axes d = ⟨tile.shape d, tile.offset d, 0⟩) ∧ result = fromAxes s.attr tile axes := by
  obtain ⟨hstart, -⟩ := @Padded.backInfer attr inputShape s h (finalTile s tile).offset (by
    intro d
    obtain ⟨hnonneg, hpos, hle⟩ := htile d
    rw [finalTile_offset]
    omega)
  obtain ⟨hend, -⟩ := @Padded.backInfer attr inputShape s h (endCoord (finalTile s tile)) (by
    intro d
    obtain ⟨hnonneg, hpos, hle⟩ := htile d
    rw [finalTile_end]
    omega)
  rw [@SEPaddingAttr.extractTile_iff s.attr s.input.shape tile (finalTile s tile) rfl _ _ hstart hend result]
  apply exists_congr
  intro axes
  rw [← and_assoc]
  apply and_congr_left
  intro _
  constructor
  · intro haxes
    constructor
    · intro d hd
      rw [← haxes d]
      exact (h.axisParams_spatial hd).symm
    · intro d hd
      have hplain := haxes d
      rw [h.axisParams_plain hd, Option.some.injEq] at hplain
      exact hplain.symm
  · rintro ⟨hspatial, hplain⟩ d
    cases hd : isSpatial d with
    | true => exact (h.axisParams_spatial hd).trans (hspatial d hd)
    | false =>
      rw [hplain d hd]
      exact h.axisParams_plain hd

theorem Padded.extract (h : Padded attr inputShape s) (htile : tile.Inside s.output.shape) (hgood : TileGood attr s tile) :
    ∃ axes : Dim → AxisParams, s.attr.extractTile tile s.input.shape = some (fromAxes s.attr tile axes) ∧
      (fromAxes s.attr tile axes).2.Inside s.input.shape ∧
      Padded attr inputShape ⟨(fromAxes s.attr tile axes).1, (fromAxes s.attr tile axes).2.within s.input,
        tile.within s.output⟩ := by
  have haxis (d : Dim) : ∃ params : AxisParams,
      (isSpatial d = true → spatialParams attr s d (startOf s.attr d + tile.offset d) (tile.shape d) = some params ∧
        AxisRead attr.mode (attr.padBegin d) (attr.padEnd d) (s.input.shape d) (startOf s.attr d + tile.offset d)
          (tile.shape d) params) ∧
      (isSpatial d = false → params = ⟨tile.shape d, tile.offset d, 0⟩) := by
    obtain ⟨hnonneg, hpos, hle⟩ := htile d
    cases hd : isSpatial d with
    | true =>
      obtain ⟨params, hparams, hread⟩ := inferAxisParams_read ((h.axis d hd).sub hnonneg hpos hle) (hgood d hd)
      exact ⟨params, fun _ => ⟨hparams, hread⟩, fun hfalse => absurd hfalse (by decide)⟩
    | false => exact ⟨_, fun htrue => absurd htrue (by decide), fun _ => rfl⟩
  choose axes hspatial hplain using haxis
  refine ⟨axes, (h.extractTile_iff htile).mpr ⟨axes, fun d hd => (hspatial d hd).1, hplain, rfl⟩, ?_, ?_, ?_, ?_, ?_⟩
  · intro d
    obtain ⟨hnonneg, hpos, hle⟩ := htile d
    cases hd : isSpatial d with
    | true =>
      have hread := (hspatial d hd).2
      exact ⟨hread.offset_nonneg, hread.shape_pos, hread.inside⟩
    | false =>
      obtain ⟨-, hshape, -⟩ := h.plain d hd
      change 0 ≤ (axes d).inputTileOffset ∧ 0 < (axes d).inputTileShape ∧
        (axes d).inputTileOffset + (axes d).inputTileShape ≤ s.input.shape d
      rw [hplain d hd, hshape]
      exact ⟨hnonneg, hpos, hle⟩
  · exact congrArg (fun old : SEPaddingAttr =>
      { old with offsets := some (fun d => (axes d).relativeOffset), sizes := some tile.shape }) h.same
  · intro d hd
    obtain ⟨hnonneg, hpos, hle⟩ := htile d
    exact (h.axis d hd).extract hnonneg hle hpos (hspatial d hd).2
  · intro d hd
    obtain ⟨hoffset, -, -⟩ := h.plain d hd
    change s.input.offset d + (axes d).inputTileOffset = s.output.offset d + tile.offset d ∧
      (axes d).inputTileShape = tile.shape d ∧ (axes d).relativeOffset = 0
    rw [hplain d hd, hoffset]
    exact ⟨rfl, rfl, rfl⟩
  · intro d hd
    obtain ⟨hnonneg, hpos, hle⟩ := htile d
    obtain ⟨hfirst, hlast⟩ := h.within d hd
    change 0 ≤ s.output.offset d + tile.offset d ∧ s.output.offset d + tile.offset d + tile.shape d ≤ inputShape d
    omega

theorem outputCoord_spatial {offsets : Option Shape} {k : Shape} {d : Dim} (hd : isSpatial d = true) :
    outputCoord offsets k d = (offsets.getD (fun _ => 0)) d + k d := by
  cases d with
  | N => cases hd
  | C => cases hd
  | H => rfl
  | W => rfl

theorem outputCoord_plain {offsets : Option Shape} {k : Shape} {d : Dim} (hd : isSpatial d = false) :
    outputCoord offsets k d = k d := by
  cases d with
  | N => rfl
  | C => rfl
  | H => cases hd
  | W => cases hd

section
variable (h : Padded attr inputShape s)
include h

theorem Padded.read {k : Shape} (hk : ∀ d, 0 ≤ k d ∧ k d < s.output.shape d) :
    paddingInterface.read s.attr s.input.shape k =
        some (axisCoord s.attr (outputCoord s.attr.offsets k) s.input.shape) ∧
      ∀ d, 0 ≤ axisCoord s.attr (outputCoord s.attr.offsets k) s.input.shape d ∧
        axisCoord s.attr (outputCoord s.attr.offsets k) s.input.shape d < s.input.shape d := by
  apply h.backInfer
  intro d
  obtain ⟨hnonneg, hlt⟩ := hk d
  cases hd : isSpatial d with
  | true =>
    rw [outputCoord_spatial hd]
    change startOf s.attr d ≤ startOf s.attr d + k d ∧ startOf s.attr d + k d < startOf s.attr d + s.output.shape d
    omega
  | false =>
    obtain ⟨-, -, hstart⟩ := h.plain d hd
    rw [outputCoord_plain hd, hstart]
    omega

theorem Padded.read_whole (hoffsets : attr.offsets = none) {k : Shape}
    (hk : ∀ d, 0 ≤ k d ∧ k d < s.output.shape d) :
    paddingInterface.read attr inputShape (fun d => s.output.offset d + k d) =
      some (fun d => s.input.offset d + axisCoord s.attr (outputCoord s.attr.offsets k) s.input.shape d) := by
  obtain ⟨-, hrange⟩ := h.read hk
  have hcoord (d : Dim) : axisCoord attr (fun d => s.output.offset d + k d) inputShape d =
      s.input.offset d + axisCoord s.attr (outputCoord s.attr.offsets k) s.input.shape d := by
    obtain ⟨hnonneg, hlt⟩ := hk d
    cases hd : isSpatial d with
    | true =>
      rw [axisCoord_spatial hd, axisCoord_spatial hd, outputCoord_spatial hd, h.mode, h.padBegin]
      exact (h.axis d hd).read (k d) hnonneg hlt
    | false =>
      rw [axisCoord_plain hd, axisCoord_plain hd, outputCoord_plain hd, (h.plain d hd).1]
  change attr.backInferInputCoord (outputCoord attr.offsets _) inputShape = _
  rw [outputCoord_zero (.inl hoffsets), backInferInputCoord_eq, Option.some.injEq]
  · funext d
    exact hcoord d
  · intro d hd
    have hlast := (h.axis d hd).last_lt
    have hlt := (hk d).2
    omega
  · intro d
    rw [hcoord]
    obtain ⟨hnonneg, hlt⟩ := hrange d
    cases hd : isSpatial d with
    | true =>
      have hbase := (h.axis d hd).base_nonneg
      have hinside := (h.axis d hd).inside
      omega
    | false =>
      obtain ⟨hoffset, hshape, -⟩ := h.plain d hd
      obtain ⟨hfirst, hlast⟩ := h.within d hd
      omega

theorem Padded.reads (hoffsets : attr.offsets = none) :
    s.Reads paddingInterface attr inputShape := by
  intro k hk
  obtain ⟨hread, hrange⟩ := h.read hk
  exact ⟨_, hread, hrange, h.read_whole hoffsets hk⟩

theorem Padded.short_of_faithful (htile : tile.Inside s.output.shape)
    (hfaithful : Faithful paddingInterface attr inputShape s tile) {d : Dim} (hd : isSpatial d = true)
    (hmode : ¬ attr.mode.Mirrors) (hend : startOf s.attr d + tile.offset d + tile.shape d ≤ attr.padBegin d) :
    tile.shape d ≤ attr.padEnd d + 2 := by
  obtain ⟨attr', input, hextract, -, hreads⟩ := hfaithful
  obtain ⟨axes, hspatial, -, hresult⟩ := (h.extractTile_iff htile).mp hextract
  obtain ⟨rfl, rfl⟩ := Prod.mk.inj hresult
  obtain ⟨-, hpos, -⟩ := htile d
  have hparams := hspatial d hd
  have hpadEnd := (h.axis d hd).valid.end_nonneg
  unfold spatialParams axisLocation at hparams
  rw [if_pos (by omega), if_pos (by omega), coordTransform_edge_begin hmode (by omega),
    coordTransform_edge_begin hmode (by omega)] at hparams
  unfold inferAxisParams at hparams
  dsimp only at hparams
  rw [if_neg (fun heq => hmode (.inl heq)), Option.some.injEq] at hparams
  by_contra hlong
  -- the element `padEnd + 2` of the tile
  let k : Shape := fun d' => if d' = d then attr.padEnd d + 2 else 0
  have hkd : k d = attr.padEnd d + 2 := if_pos rfl
  obtain ⟨c, hc, -, -⟩ := hreads k (by
    intro d'
    obtain ⟨-, hpos', -⟩ := htile d'
    by_cases heq : d' = d
    · subst heq
      rw [hkd]
      change 0 ≤ _ ∧ _ < tile.shape d'
      omega
    · have hk0 : k d' = 0 := if_neg heq
      rw [hk0]
      exact ⟨le_refl _, hpos'⟩)
  have hnone : paddingInterface.read (fromAxes s.attr tile axes).1 (fromAxes s.attr tile axes).2.shape k = none := by
    apply backInferInputCoord_none hd
    rw [outputCoord_spatial hd, hkd]
    change (axes d).inputTileShape + s.attr.padBegin d + s.attr.padEnd d ≤ (axes d).relativeOffset + (attr.padEnd d + 2)
    rw [← hparams, h.padBegin, h.padEnd]
    dsimp only
    omega
  cases hnone.symm.trans hc

theorem Padded.rises_of_faithful (hoffsets : attr.offsets = none)
    (htile : tile.Inside s.output.shape) (hfaithful : Faithful paddingInterface attr inputShape s tile) {d : Dim}
    (hd : isSpatial d = true) (hbegin : attr.padBegin d ≤ startOf s.attr d + tile.offset d)
    (hdata : startOf s.attr d + tile.offset d < attr.padBegin d + s.input.shape d)
    (hend : attr.padBegin d + s.input.shape d < startOf s.attr d + tile.offset d + tile.shape d) :
    coordTransform attr.mode (startOf s.attr d + tile.offset d) (attr.padBegin d) (s.input.shape d) ≤
      coordTransform attr.mode (startOf s.attr d + tile.offset d + tile.shape d - 1) (attr.padBegin d) (s.input.shape d) := by
  obtain ⟨attr', input, hextract, hinside, hreads⟩ := hfaithful
  obtain ⟨axes, hspatial, -, hresult⟩ := (h.extractTile_iff htile).mp hextract
  obtain ⟨rfl, rfl⟩ := Prod.mk.inj hresult
  have hparams := hspatial d hd
  unfold spatialParams axisLocation at hparams
  rw [if_neg (by omega), if_neg (by omega), if_neg (by omega), if_pos (by omega)] at hparams
  have haxes := Option.some.inj hparams
  -- the first element of the tile reads the first element of the input tile
  obtain ⟨c, hc, -, hwhole⟩ := hreads (fun _ => 0) (fun d => ⟨le_refl _, (htile d).2.1⟩)
  have hzero : c d = 0 := by
    have hshape : 0 < (axes d).inputTileShape := (hinside d).2.1
    have hrelative : (axes d).relativeOffset = attr.padBegin d := by rw [← haxes]
    rw [backInferInputCoord_clamped hc d, axisCoord_spatial hd, outputCoord_spatial hd]
    change clamp (coordTransform s.attr.mode ((axes d).relativeOffset + 0) (s.attr.padBegin d) (axes d).inputTileShape) 0
      ((axes d).inputTileShape - 1) = 0
    rw [hrelative, h.padBegin, coordTransform_data (by omega) (by omega), clamp_of_range (by omega) (by omega)]
    omega
  have hsame := h.read_whole hoffsets (fun d => ⟨(htile d).1, by
    obtain ⟨-, hpos, hle⟩ := htile d
    omega⟩)
  have hplace : (fun d => (tile.within s.output).offset d + 0) = (fun d => s.output.offset d + tile.offset d) :=
    funext (fun d => add_zero _)
  change paddingInterface.read attr inputShape (fun d => (tile.within s.output).offset d + 0) =
    some (fun d => s.input.offset d + (axes d).inputTileOffset + c d) at hwhole
  rw [hplace, hsame] at hwhole
  have hcoord := congrFun (Option.some.inj hwhole) d
  rw [hzero, axisCoord_spatial hd, outputCoord_spatial hd, h.mode, h.padBegin] at hcoord
  change s.input.offset d + coordTransform attr.mode (startOf s.attr d + tile.offset d) (attr.padBegin d) (s.input.shape d) =
    s.input.offset d + (axes d).inputTileOffset + 0 at hcoord
  have hleast : (axes d).inputTileOffset ≤
      coordTransform attr.mode (startOf s.attr d + tile.offset d + tile.shape d - 1) (attr.padBegin d) (s.input.shape d) := by
    rw [← haxes]
    exact min_le_right _ _
  omega

theorem faithful_iff (hoffsets : attr.offsets = none) (htile : tile.Inside s.output.shape) :
    Faithful paddingInterface attr inputShape s tile ↔ TileGood attr s tile := by
  constructor
  · intro hfaithful d hd
    constructor
    · intro hmode hend
      exact h.short_of_faithful htile hfaithful hd hmode hend
    · intro _ hbegin hdata hend
      exact h.rises_of_faithful hoffsets htile hfaithful hd hbegin hdata hend
  · intro hgood
    obtain ⟨axes, hextract, hinside, hpadded⟩ := h.extract htile hgood
    exact ⟨_, _, hextract, hinside, hpadded.reads hoffsets⟩

end

def CanPad (attr : SEPaddingAttr) (inputShape : Shape) : Prop := ∀ d, isSpatial d = true →
  0 ≤ attr.padBegin d ∧ 0 ≤ attr.padEnd d ∧ (attr.mode = .reflect → attr.padBegin d < inputShape d ∧ attr.padEnd d < inputShape d) ∧
    (attr.mode = .symmetric → attr.padBegin d ≤ inputShape d ∧ attr.padEnd d ≤ inputShape d)

theorem Padded.untiled (hoffsets : attr.offsets = none) (hsizes : attr.sizes = none) (hshape : ∀ d, 0 < inputShape d)
    (hpad : CanPad attr inputShape) : Padded attr inputShape (paddingInterface.untiled attr inputShape) := by
  have hstart (d : Dim) : startOf attr d = 0 := by
    unfold startOf
    rw [hoffsets]
    rfl
  have hwhole : paddingInterface.untiled attr inputShape =
      ⟨attr, ⟨fun _ => 0, inputShape⟩, ⟨fun _ => 0, fun d => inputShape d + attr.padBegin d + attr.padEnd d⟩⟩ := by
    unfold SEAttrInterface.untiled
    change Extracted.mk attr _ (Tile.mk _ (attr.sizes.getD _)) = _
    rw [hsizes]
    rfl
  rw [hwhole]
  refine ⟨?_, ?_, ?_, ?_⟩
  · rfl
  · intro d hd
    obtain ⟨hbegin, hend, hreflect, hsymmetric⟩ := hpad d hd
    change PaddedAxis attr.mode (attr.padBegin d) (attr.padEnd d) (inputShape d) 0
      (inputShape d + attr.padBegin d + attr.padEnd d) (inputShape d) (startOf attr d) 0
    rw [hstart]
    apply paddedAxis_untiled hbegin hend (hshape d)
    rintro (hmode | hmode)
    · have hpads := hreflect hmode
      rw [hmode]
      change _ < _ + 0 ∧ _ < _ + 0
      omega
    · have hpads := hsymmetric hmode
      rw [hmode]
      change _ < _ + 1 ∧ _ < _ + 1
      omega
  · intro d hd
    cases d with
    | N => exact ⟨rfl, (add_zero _).symm.trans (add_zero _).symm, hstart _⟩
    | C => exact ⟨rfl, (add_zero _).symm.trans (add_zero _).symm, hstart _⟩
    | H => cases hd
    | W => cases hd
  · intro d hd
    cases d with
    | N =>
      change (0 : ℤ) ≤ 0 ∧ 0 + (inputShape .N + 0 + 0) ≤ inputShape .N
      omega
    | C =>
      change (0 : ℤ) ≤ 0 ∧ 0 + (inputShape .C + 0 + 0) ≤ inputShape .C
      omega
    | H => cases hd
    | W => cases hd

/-- Tiles that are extracted one from the other keep the data of a padding when each of them can be extracted from the
part before. -/
theorem paddedTiles_faithful_iff (hoffsets : attr.offsets = none) (hsizes : attr.sizes = none) (hshape : ∀ d, 0 < inputShape d)
    (hpad : CanPad attr inputShape) {tiles : List Tile} (hnested : Nested (attr.inferOutputShape inputShape) tiles) :
    Along paddingInterface (Faithful paddingInterface attr inputShape) (paddingInterface.untiled attr inputShape) tiles ↔
      Along paddingInterface (TileGood attr) (paddingInterface.untiled attr inputShape) tiles := by
  apply along_congr (I := Padded attr inputShape)
  · exact fun s tile h htile => faithful_iff h hoffsets htile
  · intro s tile s' h htile hgood hs'
    obtain ⟨axes, hextract, -, hnew⟩ := h.extract htile hgood
    have hs : s.extract paddingInterface tile = some _ := congrArg (Option.map _) hextract
    rw [hs, Option.some.injEq] at hs'
    rw [← hs']
    exact hnew
  · exact Padded.untiled hoffsets hsizes hshape hpad
  · exact hnested

def reflectBelow : SEPaddingAttr := ⟨.reflect, 0, 0, 0, 3, none, none⟩

def fourRows : Shape := byDim 1 16 4 4

def rowsTile (offset size : ℤ) : Tile := ⟨byDim 0 0 offset 0, byDim 1 16 size 4⟩

theorem reflectBelow_canPad : CanPad reflectBelow fourRows := by
  intro d hd
  cases d with
  | N => cases hd
  | C => cases hd
  | H => decide
  | W => decide

theorem fourRows_pos (d : Dim) : 0 < fourRows d := by
  cases d with
  | N => decide
  | C => decide
  | H => decide
  | W => decide

theorem rowsTile_inside {whole : Shape} {rows offset size : ℤ} (hwhole : ∀ d, whole d = byDim 1 16 rows 4 d) (hoffset : 0 ≤ offset)
    (hsize : 0 < size) (hend : offset + size ≤ rows) : (rowsTile offset size).Inside whole := by
  intro d
  rw [hwhole]
  cases d with
  | N => exact ⟨le_refl _, Int.one_pos, le_refl _⟩
  | C => exact ⟨le_refl _, Int.ofNat_succ_pos 15, le_refl _⟩
  | H => exact ⟨hoffset, hsize, hend⟩
  | W => exact ⟨le_refl _, Int.ofNat_succ_pos 3, le_refl _⟩

theorem reflectBelow_output (d : Dim) : reflectBelow.inferOutputShape fourRows d = byDim 1 16 7 4 d := by
  cases d with
  | N => rfl
  | C => rfl
  | H => rfl
  | W => rfl

/-- The last row and its mirrored rows are read from the first row on. -/
theorem reflectBelow_reads_forward : ¬ ∀ (attr : SEPaddingAttr) (inputShape : Shape) (tiles : List Tile), attr.offsets = none →
    attr.sizes = none → (∀ d, 0 < inputShape d) → CanPad attr inputShape → Nested (attr.inferOutputShape inputShape) tiles →
      Along paddingInterface (Faithful paddingInterface attr inputShape) (paddingInterface.untiled attr inputShape) tiles := by
  intro hclaim
  have hinside := @rowsTile_inside _ 7 3 4 reflectBelow_output (by decide) (by decide) (by decide)
  have hfaithful := (hclaim reflectBelow fourRows [rowsTile 3 4] rfl rfl fourRows_pos reflectBelow_canPad ⟨hinside, trivial⟩).1
  have hgood := (faithful_iff (Padded.untiled rfl rfl fourRows_pos reflectBelow_canPad) rfl hinside).mp hfaithful .H rfl
  exact absurd (hgood.2 (.inl rfl) (by decide) (by decide) (by decide)) (by decide)

/-- The four rows and the first mirrored one, and of these all but the first. -/
theorem paddedTiles_faithful_rowsTile : Along paddingInterface (Faithful paddingInterface reflectBelow fourRows)
    (paddingInterface.untiled reflectBelow fourRows) [rowsTile 0 5, rowsTile 1 4] := by
  have houter := @rowsTile_inside _ 7 0 5 reflectBelow_output (by decide) (by decide) (by decide)
  have hinner := @rowsTile_inside (rowsTile 0 5).shape 5 1 4 (fun _ => rfl) (by decide) (by decide) (by decide)
  have hnested : Nested (reflectBelow.inferOutputShape fourRows) [rowsTile 0 5, rowsTile 1 4] := ⟨houter, hinner, trivial⟩
  apply (paddedTiles_faithful_iff rfl rfl fourRows_pos reflectBelow_canPad hnested).mpr
  refine ⟨?_, fun s' hs' => ⟨?_, fun _ _ => trivial⟩⟩
  · intro d hd
    cases d with
    | N => cases hd
    | C => cases hd
    | H => decide
    | W => decide
  · obtain rfl := Option.some.inj hs'
    intro d hd
    cases d with
    | N => cases hd
    | C => cases hd
    | H => decide
    | W => decide

end

end NpuCompiler.StorageElement.SEPaddingAttr
