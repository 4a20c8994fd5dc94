import NpuCompiler.StorageElement.SEAttr

namespace NpuCompiler.StorageElement

/-- `SE_ROLL_SPATIAL_H` and `SE_ROLL_SPATIAL_W` -/
inductive SpatialAxis
  | H | W
  deriving DecidableEq

def SpatialAxis.dim : SpatialAxis → Dim
  | .H => .H
  | .W => .W

def onSpatial (f : SpatialAxis → ℤ → ℤ) (shape : Shape) : Shape
  | .N => shape .N
  | .C => shape .C
  | .H => f .H (shape .H)
  | .W => f .W (shape .W)

theorem onSpatial_dim (f : SpatialAxis → ℤ → ℤ) (shape : Shape) (axis : SpatialAxis) :
    onSpatial f shape axis.dim = f axis (shape axis.dim) := by
  cases axis with
  | H => rfl
  | W => rfl

@[elab_as_elim]
theorem Dim.spatialCases {motive : Dim → Prop} (N : motive .N) (C : motive .C) (spatial : ∀ axis : SpatialAxis, motive axis.dim)
    (d : Dim) : motive d := by
  cases d with
  | N => exact N
  | C => exact C
  | H => exact spatial .H
  | W => exact spatial .W

structure SERollAttr where
  shift : SpatialAxis → ℤ
  offsets : Option Shape
  sizes : Option Shape

namespace SERollAttr

variable (attr : SERollAttr)

def inferOutputShape (inputShape : Shape) : Shape := attr.sizes.getD inputShape

def getInputCoord (outCoord shift dimShape : ℤ) : ℤ :=
  if shift = 0 then outCoord
  else
    let inputCoord := outCoord + shift
    if inputCoord < 0 then dimShape + inputCoord
    else if inputCoord ≥ dimShape then inputCoord % dimShape
    else inputCoord

def backInferInputCoord (outputCoord inputShape : Shape) : Shape
  | .N => outputCoord .N
  | .C => outputCoord .C
  | .H => getInputCoord (outputCoord .H) (-1 * attr.shift .H) (inputShape .H)
  | .W => getInputCoord (outputCoord .W) (-1 * attr.shift .W) (inputShape .W)

def getMinPoint (shift offsetBegin offsetEnd : ℤ) : ℤ :=
  if shift = 0 then offsetBegin
  else if offsetEnd ≥ shift then (if offsetBegin ≥ shift then offsetBegin else shift)
  else offsetBegin

def getMaxPoint (shift offsetBegin offsetEnd : ℤ) : ℤ :=
  if shift = 0 then offsetEnd
  else if offsetEnd ≥ shift then (if offsetBegin ≥ shift then offsetEnd else shift - 1)
  else offsetEnd

def inferInputTileShapeAndOffset (tile : Tile) (inputShape : Shape) : Option Tile :=
  let offsetEnd (d : Dim) := tile.offset d + tile.shape d - 1
  let coord (offsetH offsetW : ℤ) : Shape := attr.backInferInputCoord (fun
    | .N => tile.shape .N
    | .C => tile.shape .C
    | .H => offsetH
    | .W => offsetW) inputShape
  let minInputCoord := coord (getMinPoint (attr.shift .H) (tile.offset .H) (offsetEnd .H))
    (getMinPoint (attr.shift .W) (tile.offset .W) (offsetEnd .W))
  let maxInputCoord := coord (getMaxPoint (attr.shift .H) (tile.offset .H) (offsetEnd .H))
    (getMaxPoint (attr.shift .W) (tile.offset .W) (offsetEnd .W))
  if maxInputCoord .H < minInputCoord .H ∨ maxInputCoord .W < minInputCoord .W then none
  else some {
    offset := fun
      | .N => tile.offset .N
      | .C => tile.offset .C
      | .H => minInputCoord .H
      | .W => minInputCoord .W
    shape := fun
      | .N => tile.shape .N
      | .C => tile.shape .C
      | .H => maxInputCoord .H - minInputCoord .H + 1
      | .W => maxInputCoord .W - minInputCoord .W + 1 }

def getNewShift (offset shift : ℤ) : ℤ := if offset ≥ shift then 0 else shift - offset

def extractTile (tile : Tile) (inputShape : Shape) : Option (SERollAttr × Tile) :=
  let finalOffset := combineOffsets tile.offset attr.offsets
  (attr.inferInputTileShapeAndOffset ⟨finalOffset, tile.shape⟩ inputShape).map (fun inputTile =>
    (⟨fun axis => getNewShift (finalOffset axis.dim) (attr.shift axis), some (fun _ => 0), some tile.shape⟩, inputTile))

end SERollAttr

def rollInterface : SEAttrInterface SERollAttr where
  getOffsets := SERollAttr.offsets
  inferOutputShape := SERollAttr.inferOutputShape
  backInferInputCoord attr outputCoord inputShape := some (attr.backInferInputCoord outputCoord inputShape)
  extractTile := SERollAttr.extractTile

namespace SERollAttr

section
variable {wrap size first count shift dimShape base o n k : ℤ}

theorem getInputCoord_of_lt (hk : 0 ≤ k) (h : k < shift) : getInputCoord k (-1 * shift) dimShape = dimShape + (k - shift) := by
  unfold getInputCoord
  rw [if_neg (by omega)]
  dsimp only
  rw [if_pos (by omega)]
  omega

theorem getInputCoord_of_le (h : shift ≤ k) (hlt : k - shift < dimShape) :
    getInputCoord k (-1 * shift) dimShape = k - shift := by
  unfold getInputCoord
  by_cases hzero : shift = 0
  · rw [if_pos (by omega)]
    omega
  · rw [if_neg (by omega)]
    dsimp only
    rw [if_neg (by omega), if_neg (by omega)]
    omega

theorem points_of_side (hn : 0 < n) (h : shift ≤ o ∨ o + n - 1 < shift) :
    getMinPoint shift o (o + n - 1) = o ∧ getMaxPoint shift o (o + n - 1) = o + n - 1 := by
  unfold getMinPoint getMaxPoint
  by_cases hzero : shift = 0
  · rw [if_pos hzero, if_pos hzero]
    exact ⟨rfl, rfl⟩
  · rw [if_neg hzero, if_neg hzero]
    rcases h with hle | hlt
    · rw [if_pos (by omega), if_pos hle, if_pos (by omega), if_pos hle]
      exact ⟨rfl, rfl⟩
    · rw [if_neg (by omega), if_neg (by omega)]
      exact ⟨rfl, rfl⟩

theorem points_of_across (ho : 0 ≤ o) (hlt : o < shift) (hle : shift ≤ o + n - 1) :
    getMinPoint shift o (o + n - 1) = shift ∧ getMaxPoint shift o (o + n - 1) = shift - 1 := by
  unfold getMinPoint getMaxPoint
  rw [if_neg (by omega), if_pos hle, if_neg (by omega), if_neg (by omega), if_pos hle, if_neg (by omega)]
  exact ⟨rfl, rfl⟩

/-- A part of a rolled axis: `count` outputs from `first` on of an axis of `size` elements that wraps at `wrap`, which are
read with `shift` from the `dimShape` inputs at `base`. -/
structure RolledAxis (wrap size first count shift dimShape base : ℤ) : Prop where
  first_nonneg : 0 ≤ first
  count_pos : 0 < count
  end_le : first + count ≤ size
  wrap_nonneg : 0 ≤ wrap
  wrap_lt : wrap < size
  behind : wrap ≤ first → shift = 0 ∧ dimShape = count ∧ base = first - wrap
  across : first < wrap → shift = wrap - first ∧ wrap ≤ first + count ∧
    (dimShape = size ∧ base = 0 ∨ wrap = first + count ∧ dimShape = count ∧ base = first - wrap + size)

theorem rolledAxis_untiled (h : 0 ≤ wrap) (hlt : wrap < size) : RolledAxis wrap size 0 size wrap size 0 := by
  refine ⟨le_refl _, by omega, by omega, h, hlt, ?_, ?_⟩
  · intro hle
    omega
  · intro _
    exact ⟨by omega, by omega, .inl ⟨rfl, rfl⟩⟩

section
variable (h : RolledAxis wrap size first count shift dimShape base)
include h

theorem RolledAxis.read (hk : 0 ≤ k) (hlt : k < count) :
    0 ≤ getInputCoord k (-1 * shift) dimShape ∧ getInputCoord k (-1 * shift) dimShape < dimShape ∧
      getInputCoord (first + k) (-1 * wrap) size = base + getInputCoord k (-1 * shift) dimShape := by
  obtain ⟨hfirst, -, hend, hwrap, hsize, hbehind, hacross⟩ := h
  by_cases hle : wrap ≤ first
  · obtain ⟨rfl, rfl, rfl⟩ := hbehind hle
    rw [getInputCoord_of_le hk (by omega), getInputCoord_of_le (by omega) (by omega)]
    omega
  · obtain ⟨rfl, hcount, hcase⟩ := hacross (by omega)
    by_cases hbefore : first + k < wrap
    · rw [getInputCoord_of_lt hk (by omega), getInputCoord_of_lt (by omega) hbefore]
      omega
    · -- only an axis that keeps its whole input has elements behind the wrap point
      rw [getInputCoord_of_le (by omega) (by omega), getInputCoord_of_le (by omega) (by omega)]
      omega

theorem RolledAxis.extract (ho : 0 ≤ o) (hn : 0 < n)
    (hend : o + n ≤ count) (hgood : wrap ≤ first + o + n) :
    let lowest := getInputCoord (getMinPoint shift o (o + n - 1)) (-1 * shift) dimShape
    let highest := getInputCoord (getMaxPoint shift o (o + n - 1)) (-1 * shift) dimShape
    0 ≤ lowest ∧ lowest ≤ highest ∧ highest < dimShape ∧
      RolledAxis wrap size (first + o) n (getNewShift o shift) (highest - lowest + 1) (base + lowest) := by
  obtain ⟨hfirst, -, hlast, hwrap, hsize, hbehind, hacross⟩ := h
  dsimp only
  by_cases hle : wrap ≤ first
  · obtain ⟨rfl, rfl, rfl⟩ := hbehind hle
    obtain ⟨hmin, hmax⟩ := points_of_side hn (.inl ho)
    have hshift : getNewShift o 0 = 0 := if_pos ho
    rw [hmin, hmax, hshift, getInputCoord_of_le ho (by omega), getInputCoord_of_le (by omega) (by omega)]
    refine ⟨by omega, by omega, by omega, by omega, hn, by omega, hwrap, hsize, ?_, ?_⟩
    · intro _
      omega
    · intro hlt
      omega
  · obtain ⟨rfl, hcount, hcase⟩ := hacross (by omega)
    by_cases hside : wrap - first ≤ o
    · obtain ⟨hmin, hmax⟩ := points_of_side hn (.inl hside)
      have hshift : getNewShift o (wrap - first) = 0 := if_pos hside
      rw [hmin, hmax, hshift, getInputCoord_of_le hside (by omega), getInputCoord_of_le (by omega) (by omega)]
      refine ⟨by omega, by omega, by omega, by omega, hn, by omega, hwrap, hsize, ?_, ?_⟩
      · intro _
        omega
      · intro hlt
        omega
    · have hshift : getNewShift o (wrap - first) = wrap - (first + o) := by
        unfold getNewShift
        rw [if_neg (by omega)]
        omega
      rw [hshift]
      by_cases hover : wrap - first ≤ o + n - 1
      · -- the tile goes over the wrap point and needs the whole input
        obtain ⟨hmin, hmax⟩ := points_of_across ho (by omega) hover
        have hlowest : getInputCoord (wrap - first) (-1 * (wrap - first)) dimShape = wrap - first - (wrap - first) :=
          getInputCoord_of_le (le_refl _) (by omega)
        have hhighest : getInputCoord (wrap - first - 1) (-1 * (wrap - first)) dimShape =
            dimShape + (wrap - first - 1 - (wrap - first)) := getInputCoord_of_lt (by omega) (by omega)
        rw [hmin, hmax, hlowest, hhighest]
        refine ⟨by omega, by omega, by omega, by omega, hn, by omega, hwrap, hsize, ?_, ?_⟩
        · intro hle'
          omega
        · intro _
          exact ⟨rfl, by omega, .inl (by omega)⟩
      · obtain ⟨hmin, hmax⟩ := points_of_side hn (.inr (by omega : o + n - 1 < wrap - first))
        rw [hmin, hmax, getInputCoord_of_lt ho (by omega), getInputCoord_of_lt (by omega) (by omega)]
        refine ⟨by omega, by omega, by omega, by omega, hn, by omega, hwrap, hsize, ?_, ?_⟩
        · intro hle'
          omega
        · intro _
          exact ⟨rfl, by omega, .inr (by omega)⟩

theorem RolledAxis.extract_before (ho : 0 ≤ o) (hn : 0 < n)
    (hbad : first + o + n < wrap) :
    let lowest := getInputCoord (getMinPoint shift o (o + n - 1)) (-1 * shift) dimShape
    let highest := getInputCoord (getMaxPoint shift o (o + n - 1)) (-1 * shift) dimShape
    getInputCoord 0 (-1 * getNewShift o shift) (highest - lowest + 1) < 0 := by
  obtain ⟨hfirst, -, hlast, hwrap, hsize, hbehind, hacross⟩ := h
  obtain ⟨rfl, hcount, hcase⟩ := hacross (by omega)
  obtain ⟨hmin, hmax⟩ := points_of_side hn (.inr (by omega : o + n - 1 < wrap - first))
  have hshift : getNewShift o (wrap - first) = wrap - first - o := if_neg (by omega)
  have hlowest : getInputCoord o (-1 * (wrap - first)) dimShape = dimShape + (o - (wrap - first)) :=
    getInputCoord_of_lt ho (by omega)
  have hhighest : getInputCoord (o + n - 1) (-1 * (wrap - first)) dimShape = dimShape + (o + n - 1 - (wrap - first)) :=
    getInputCoord_of_lt (by omega) (by omega)
  dsimp only
  rw [hmin, hmax, hshift, hlowest, hhighest, getInputCoord_of_lt (le_refl _) (by omega)]
  omega

end

variable {attr : SERollAttr} {inputShape : Shape} {s : Extracted SERollAttr} {tile : Tile}

def lowest (attr : SERollAttr) (tile : Tile) (inputShape : Shape) (axis : SpatialAxis) : ℤ :=
  getInputCoord (getMinPoint (attr.shift axis) (tile.offset axis.dim) (tile.offset axis.dim + tile.shape axis.dim - 1))
    (-1 * attr.shift axis) (inputShape axis.dim)

def highest (attr : SERollAttr) (tile : Tile) (inputShape : Shape) (axis : SpatialAxis) : ℤ :=
  getInputCoord (getMaxPoint (attr.shift axis) (tile.offset axis.dim) (tile.offset axis.dim + tile.shape axis.dim - 1))
    (-1 * attr.shift axis) (inputShape axis.dim)

def inputTile (attr : SERollAttr) (tile : Tile) (inputShape : Shape) : Tile where
  offset
    | .N => tile.offset .N
    | .C => tile.offset .C
    | .H => lowest attr tile inputShape .H
    | .W => lowest attr tile inputShape .W
  shape
    | .N => tile.shape .N
    | .C => tile.shape .C
    | .H => highest attr tile inputShape .H - lowest attr tile inputShape .H + 1
    | .W => highest attr tile inputShape .W - lowest attr tile inputShape .W + 1

def tiledAttr (attr : SERollAttr) (tile : Tile) : SERollAttr :=
  ⟨fun axis => getNewShift (tile.offset axis.dim) (attr.shift axis), some (fun _ => 0), some tile.shape⟩

theorem extractTile_eq (hoffsets : combineOffsets tile.offset attr.offsets = tile.offset) :
    attr.extractTile tile inputShape =
      if highest attr tile inputShape .H < lowest attr tile inputShape .H ∨
        highest attr tile inputShape .W < lowest attr tile inputShape .W then none
      else some (tiledAttr attr tile, inputTile attr tile inputShape) := by
  unfold extractTile
  rw [hoffsets]
  change Option.map _ (if highest attr tile inputShape .H < lowest attr tile inputShape .H ∨
    highest attr tile inputShape .W < lowest attr tile inputShape .W then none else some (inputTile attr tile inputShape)) = _
  split_ifs
  · rfl
  · rfl

structure Rolled (attr : SERollAttr) (inputShape : Shape) (s : Extracted SERollAttr) : Prop where
  axis : ∀ axis, RolledAxis (attr.shift axis) (inputShape axis.dim) (s.output.offset axis.dim) (s.output.shape axis.dim)
    (s.attr.shift axis) (s.input.shape axis.dim) (s.input.offset axis.dim)
  batch : s.input.offset .N = s.output.offset .N ∧ s.input.shape .N = s.output.shape .N
  channels : s.input.offset .C = s.output.offset .C ∧ s.input.shape .C = s.output.shape .C
  offsets : s.attr.offsets = none ∨ s.attr.offsets = some (fun _ => 0)

theorem Rolled.untiled (hoffsets : attr.offsets = none) (hsizes : attr.sizes = none)
    (hshift : ∀ axis, 0 ≤ attr.shift axis ∧ attr.shift axis < inputShape axis.dim) :
    Rolled attr inputShape (rollInterface.untiled attr inputShape) := by
  have hshape : attr.inferOutputShape inputShape = inputShape := by
    unfold inferOutputShape
    rw [hsizes]
    rfl
  have hwhole : rollInterface.untiled attr inputShape = ⟨attr, ⟨fun _ => 0, inputShape⟩, ⟨fun _ => 0, inputShape⟩⟩ :=
    congrArg (fun shape => (⟨attr, ⟨fun _ => 0, inputShape⟩, ⟨fun _ => 0, shape⟩⟩ : Extracted SERollAttr)) hshape
  rw [hwhole]
  exact ⟨fun axis => rolledAxis_untiled (hshift axis).1 (hshift axis).2, ⟨rfl, rfl⟩, ⟨rfl, rfl⟩, .inl hoffsets⟩

def ReachesWrap (attr : SERollAttr) (s : Extracted SERollAttr) (tile : Tile) : Prop :=
  ∀ axis : SpatialAxis, attr.shift axis ≤ s.output.offset axis.dim + tile.offset axis.dim + tile.shape axis.dim

theorem Rolled.extract (h : Rolled attr inputShape s) (htile : tile.Inside s.output.shape) (hgood : ReachesWrap attr s tile) :
    s.attr.extractTile tile s.input.shape = some (tiledAttr s.attr tile, inputTile s.attr tile s.input.shape) ∧
      (inputTile s.attr tile s.input.shape).Inside s.input.shape ∧
      Rolled attr inputShape ⟨tiledAttr s.attr tile, (inputTile s.attr tile s.input.shape).within s.input, tile.within s.output⟩ := by
  have haxis (axis : SpatialAxis) := (h.axis axis).extract (htile axis.dim).1 (htile axis.dim).2.1 (htile axis.dim).2.2 (hgood axis)
  obtain ⟨hnonnegH, hleH, hltH, hnewH⟩ := haxis .H
  obtain ⟨hnonnegW, hleW, hltW, hnewW⟩ := haxis .W
  refine ⟨?_, ?_, ?_, ?_, ?_, .inr rfl⟩
  · rw [extractTile_eq (combineOffsets_zero h.offsets _), if_neg]
    rintro (hbad | hbad)
    · exact absurd hleH (not_le.mpr hbad)
    · exact absurd hleW (not_le.mpr hbad)
  · intro d
    cases d with
    | N =>
      obtain ⟨hnonneg, hpos, hle⟩ := htile .N
      exact ⟨hnonneg, hpos, h.batch.2 ▸ hle⟩
    | C =>
      obtain ⟨hnonneg, hpos, hle⟩ := htile .C
      exact ⟨hnonneg, hpos, h.channels.2 ▸ hle⟩
    | H =>
      change 0 ≤ lowest s.attr tile s.input.shape .H ∧ 0 < highest s.attr tile s.input.shape .H -
        lowest s.attr tile s.input.shape .H + 1 ∧ lowest s.attr tile s.input.shape .H + (highest s.attr tile s.input.shape .H -
        lowest s.attr tile s.input.shape .H + 1) ≤ s.input.shape .H
      unfold lowest highest
      dsimp only [SpatialAxis.dim] at hnonnegH hleH hltH ⊢
      omega
    | W =>
      change 0 ≤ lowest s.attr tile s.input.shape .W ∧ 0 < highest s.attr tile s.input.shape .W -
        lowest s.attr tile s.input.shape .W + 1 ∧ lowest s.attr tile s.input.shape .W + (highest s.attr tile s.input.shape .W -
        lowest s.attr tile s.input.shape .W + 1) ≤ s.input.shape .W
      unfold lowest highest
      dsimp only [SpatialAxis.dim] at hnonnegW hleW hltW ⊢
      omega
  · intro axis
    cases axis with
    | H => exact hnewH
    | W => exact hnewW
  · exact ⟨congrArg (· + tile.offset .N) h.batch.1, rfl⟩
  · exact ⟨congrArg (· + tile.offset .C) h.channels.1, rfl⟩

theorem Rolled.reads (h : Rolled attr inputShape s) (hoffsets : attr.offsets = none) :
    s.Reads rollInterface attr inputShape := by
  intro k hk
  have haxis (axis : SpatialAxis) := (h.axis axis).read (hk axis.dim).1 (hk axis.dim).2
  obtain ⟨hnonnegH, hltH, heqH⟩ := haxis .H
  obtain ⟨hnonnegW, hltW, heqW⟩ := haxis .W
  refine ⟨s.attr.backInferInputCoord k s.input.shape, ?_, ?_, ?_⟩
  · change some (s.attr.backInferInputCoord (outputCoord s.attr.offsets k) s.input.shape) = _
    rw [outputCoord_zero h.offsets]
  · intro d
    cases d with
    | N => exact ⟨(hk .N).1, h.batch.2 ▸ (hk .N).2⟩
    | C => exact ⟨(hk .C).1, h.channels.2 ▸ (hk .C).2⟩
    | H => exact ⟨hnonnegH, hltH⟩
    | W => exact ⟨hnonnegW, hltW⟩
  · change some (attr.backInferInputCoord (outputCoord attr.offsets _) inputShape) = _
    rw [outputCoord_zero (.inl hoffsets), Option.some.injEq]
    funext d
    cases d with
    | N => exact congrArg (· + k .N) h.batch.1.symm
    | C => exact congrArg (· + k .C) h.channels.1.symm
    | H => exact heqH
    | W => exact heqW

theorem faithful_iff (h : Rolled attr inputShape s) (hoffsets : attr.offsets = none) (htile : tile.Inside s.output.shape) :
    Faithful rollInterface attr inputShape s tile ↔ ReachesWrap attr s tile := by
  constructor
  · rintro ⟨attr', input, hextract, -, hreads⟩ axis
    by_contra hbad
    have hbefore := (h.axis axis).extract_before (htile axis.dim).1 (htile axis.dim).2.1 (not_le.mp hbad)
    change s.attr.extractTile tile s.input.shape = _ at hextract
    rw [extractTile_eq (combineOffsets_zero h.offsets _)] at hextract
    split_ifs at hextract
    obtain ⟨rfl, rfl⟩ := Prod.mk.inj (Option.some.inj hextract)
    obtain ⟨c, hc, hrange, -⟩ := hreads (fun _ => 0) (fun d => ⟨le_refl _, (htile d).2.1⟩)
    have hcoord : (tiledAttr s.attr tile).backInferInputCoord (outputCoord (some fun _ => 0) fun _ => 0)
        (inputTile s.attr tile s.input.shape).shape = c := Option.some.inj hc
    rw [outputCoord_zero (.inr rfl)] at hcoord
    have hnonneg := (hrange axis.dim).1
    rw [← hcoord] at hnonneg
    cases axis with
    | H => exact absurd hnonneg (not_le.mpr hbefore)
    | W => exact absurd hnonneg (not_le.mpr hbefore)
  · intro hgood
    obtain ⟨hextract, hinside, hrolled⟩ := h.extract htile hgood
    exact ⟨_, _, hextract, hinside, hrolled.reads hoffsets⟩

def innermostEnd (offset shape : Shape) : List Tile → Shape
  | [] => fun d => offset d + shape d
  | tile :: tiles => innermostEnd (fun d => offset d + tile.offset d) tile.shape tiles

theorem innermostEnd_le {offset shape : Shape} {tiles : List Tile} (h : Nested shape tiles) (d : Dim) :
    innermostEnd offset shape tiles d ≤ offset d + shape d := by
  induction tiles generalizing offset shape with
  | nil => exact le_refl _
  | cons tile tiles ih =>
    obtain ⟨hinside, hnested⟩ := h
    have hle := @ih (fun d => offset d + tile.offset d) tile.shape hnested
    have hend := (hinside d).2.2
    apply le_trans hle
    omega

theorem along_reachesWrap (h : Rolled attr inputShape s) {tiles : List Tile} (hnested : Nested s.output.shape tiles) :
    Along rollInterface (ReachesWrap attr) s tiles ↔
      ∀ axis : SpatialAxis, attr.shift axis ≤ innermostEnd s.output.offset s.output.shape tiles axis.dim := by
  induction tiles generalizing s with
  | nil =>
    refine iff_of_true trivial ?_
    intro axis
    obtain ⟨-, hcount, -, -, -, -, hacross⟩ := h.axis axis
    change attr.shift axis ≤ s.output.offset axis.dim + s.output.shape axis.dim
    by_cases hle : attr.shift axis ≤ s.output.offset axis.dim
    · omega
    · exact (hacross (not_le.mp hle)).2.1
  | cons tile tiles ih =>
    obtain ⟨hinside, hnested⟩ := hnested
    have hrest (hgood : ReachesWrap attr s tile) (s' : Extracted SERollAttr) (hs' : s.extract rollInterface tile = some s') :
        Along rollInterface (ReachesWrap attr) s' tiles ↔ ∀ axis : SpatialAxis, attr.shift axis ≤
          innermostEnd (fun d => s.output.offset d + tile.offset d) tile.shape tiles axis.dim := by
      obtain ⟨hextract, -, hrolled⟩ := h.extract hinside hgood
      have hs : s.extract rollInterface tile = some _ := congrArg (Option.map _) hextract
      rw [hs, Option.some.injEq] at hs'
      rw [← hs']
      exact ih hrolled hnested
    constructor
    · rintro ⟨hgood, hlater⟩
      obtain ⟨hextract, -, -⟩ := h.extract hinside hgood
      have hs : s.extract rollInterface tile = some _ := congrArg (Option.map _) hextract
      exact (hrest hgood _ hs).mp (hlater _ hs)
    · intro hlast
      have hgood : ReachesWrap attr s tile := by
        intro axis
        exact le_trans (hlast axis) (innermostEnd_le hnested axis.dim)
      exact ⟨hgood, fun s' hs' => (hrest hgood s' hs').mpr hlast⟩

/-- Tiles that are extracted one from the other keep the data of a roll when the last of them ends at or behind the wrap
point of each axis. -/
theorem rolledTiles_faithful_iff (hoffsets : attr.offsets = none) (hsizes : attr.sizes = none)
    (hshift : ∀ axis, 0 ≤ attr.shift axis ∧ attr.shift axis < inputShape axis.dim) {tiles : List Tile}
    (hnested : Nested inputShape tiles) :
    Along rollInterface (Faithful rollInterface attr inputShape) (rollInterface.untiled attr inputShape) tiles ↔
      ∀ axis : SpatialAxis, attr.shift axis ≤ innermostEnd (fun _ => 0) inputShape tiles axis.dim := by
  have hrolled := Rolled.untiled hoffsets hsizes hshift
  have hshape : (rollInterface.untiled attr inputShape).output = ⟨fun _ => 0, inputShape⟩ := by
    unfold SEAttrInterface.untiled
    change Tile.mk _ (attr.sizes.getD inputShape) = _
    rw [hsizes]
    rfl
  have hreaches := @along_reachesWrap attr inputShape _ hrolled tiles (by rwa [hshape])
  rw [hshape] at hreaches
  rw [← hreaches]
  apply along_congr (I := Rolled attr inputShape)
  · exact fun s tile h htile => faithful_iff h hoffsets htile
  · intro s tile s' h htile hgood hs'
    obtain ⟨hextract, -, hnew⟩ := h.extract htile hgood
    have hs : s.extract rollInterface tile = some _ := congrArg (Option.map _) hextract
    rw [hs, Option.some.injEq] at hs'
    rw [← hs']
    exact hnew
  · exact hrolled
  · rwa [hshape]

def rollOfThree : SERollAttr := ⟨fun _ => 3, none, none⟩

def squareTile (offset size : ℤ) : Tile where
  offset
    | .N => 0
    | .C => 0
    | .H => offset
    | .W => offset
  shape
    | .N => 1
    | .C => 16
    | .H => size
    | .W => size

theorem squareTile_inside {offset size whole : ℤ} (hoffset : 0 ≤ offset) (hpos : 0 < size) (hle : offset + size ≤ whole) :
    (squareTile offset size).Inside (squareTile 0 whole).shape := by
  intro d
  cases d with
  | N => exact ⟨le_refl _, Int.one_pos, le_refl _⟩
  | C => exact ⟨le_refl _, Int.ofNat_succ_pos 15, le_refl _⟩
  | H => exact ⟨hoffset, hpos, hle⟩
  | W => exact ⟨hoffset, hpos, hle⟩

def squareShape : Shape := (squareTile 0 4).shape

theorem rollOfThree_shift (axis : SpatialAxis) :
    0 ≤ rollOfThree.shift axis ∧ rollOfThree.shift axis < squareShape axis.dim := by
  cases axis with
  | H => decide
  | W => decide

/-- The tile of two by two elements at the beginning keeps the shifts 3 and 3 on an input of two by two elements. -/
theorem rollOfThree_reads_outside : ¬ ∀ (attr : SERollAttr) (inputShape : Shape) (tiles : List Tile), attr.offsets = none →
    attr.sizes = none → (∀ axis, 0 ≤ attr.shift axis ∧ attr.shift axis < inputShape axis.dim) → Nested inputShape tiles →
      Along rollInterface (Faithful rollInterface attr inputShape) (rollInterface.untiled attr inputShape) tiles := by
  intro hclaim
  have hinside := @squareTile_inside 0 2 4 (by decide) (by decide) (by decide)
  have hfaithful := (hclaim rollOfThree squareShape [squareTile 0 2] rfl rfl rollOfThree_shift ⟨hinside, trivial⟩).1
  have hreaches := (faithful_iff (Rolled.untiled rfl rfl rollOfThree_shift) rfl hinside).mp hfaithful .H
  exact absurd hreaches (by decide)

/-- The last three rows and columns, and of these the first two. -/
theorem rolledTiles_faithful_squareTile : Along rollInterface (Faithful rollInterface rollOfThree squareShape)
    (rollInterface.untiled rollOfThree squareShape) [squareTile 1 3, squareTile 0 2] := by
  have houter := @squareTile_inside 1 3 4 (by decide) (by decide) (by decide)
  have hinner := @squareTile_inside 0 2 3 (by decide) (by decide) (by decide)
  have hnested : Nested squareShape [squareTile 1 3, squareTile 0 2] := ⟨houter, hinner, trivial⟩
  apply (rolledTiles_faithful_iff rfl rfl rollOfThree_shift hnested).mpr
  intro axis
  cases axis with
  | H => decide
  | W => decide

end

end SERollAttr

end NpuCompiler.StorageElement
