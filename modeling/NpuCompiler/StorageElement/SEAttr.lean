import Mathlib.Algebra.Order.Ring.Int

namespace NpuCompiler.StorageElement

/-- `Dims4D::Act` -/
inductive Dim
  | N | C | H | W
  deriving DecidableEq

abbrev Shape := Dim → ℤ

def byDim {A : Type} (n c h w : A) : Dim → A
  | .N => n
  | .C => c
  | .H => h
  | .W => w

theorem byDim_eta {A : Type} (f : Dim → A) : byDim (f .N) (f .C) (f .H) (f .W) = f := by
  funext d
  cases d with
  | N => rfl
  | C => rfl
  | H => rfl
  | W => rfl

structure Tile where
  offset : Shape
  shape : Shape

def Tile.Inside (tile : Tile) (whole : Shape) : Prop :=
  ∀ d, 0 ≤ tile.offset d ∧ 0 < tile.shape d ∧ tile.offset d + tile.shape d ≤ whole d

def combineOffsets (origOffset : Shape) : Option Shape → Shape
  | none => origOffset
  | some offsetToAdd => fun d => offsetToAdd d + origOffset d

structure SEAttrInterface (A : Type) where
  getOffsets : A → Option Shape
  inferOutputShape : A → Shape → Shape
  backInferInputCoord : A → Shape → Shape → Option Shape
  /-- The attribute of the tile, and the tile of the input. -/
  extractTile : A → Tile → Shape → Option (A × Tile)

def outputCoord (offsetsAttr : Option Shape) (k : Shape) : Shape
  | .N => k .N
  | .C => k .C
  | .H => (offsetsAttr.getD (fun _ => 0)) .H + k .H
  | .W => (offsetsAttr.getD (fun _ => 0)) .W + k .W

theorem combineOffsets_zero {offsets : Option Shape} (h : offsets = none ∨ offsets = some (fun _ => 0)) (origOffset : Shape) :
    combineOffsets origOffset offsets = origOffset := by
  rcases h with rfl | rfl
  · rfl
  · funext d
    exact zero_add _

theorem outputCoord_zero {offsets : Option Shape} (h : offsets = none ∨ offsets = some (fun _ => 0)) (k : Shape) :
    outputCoord offsets k = k := by
  funext d
  rcases h with rfl | rfl
  · cases d with
    | N => rfl
    | C => rfl
    | H => exact zero_add _
    | W => exact zero_add _
  · cases d with
    | N => rfl
    | C => rfl
    | H => exact zero_add _
    | W => exact zero_add _

section
variable {A : Type} (interface : SEAttrInterface A)

def SEAttrInterface.read (attr : A) (dataShape k : Shape) : Option Shape :=
  interface.backInferInputCoord attr (outputCoord (interface.getOffsets attr) k) dataShape

/-- An attribute on a part of the input, with the places of its input and of its output in those of the untiled one. -/
structure Extracted (A : Type) where
  attr : A
  input : Tile
  output : Tile

def SEAttrInterface.untiled (attr : A) (inputShape : Shape) : Extracted A :=
  ⟨attr, ⟨fun _ => 0, inputShape⟩, ⟨fun _ => 0, interface.inferOutputShape attr inputShape⟩⟩

def Tile.within (tile part : Tile) : Tile := ⟨fun d => part.offset d + tile.offset d, tile.shape⟩

def Extracted.extract (s : Extracted A) (tile : Tile) : Option (Extracted A) :=
  (interface.extractTile s.attr tile s.input.shape).map
    (fun (attr, inputTile) => ⟨attr, inputTile.within s.input, tile.within s.output⟩)

variable (attr : A) (inputShape : Shape)

def Extracted.Reads (s : Extracted A) : Prop := ∀ k, (∀ d, 0 ≤ k d ∧ k d < s.output.shape d) →
  ∃ c, interface.read s.attr s.input.shape k = some c ∧ (∀ d, 0 ≤ c d ∧ c d < s.input.shape d) ∧
    interface.read attr inputShape (fun d => s.output.offset d + k d) = some (fun d => s.input.offset d + c d)

def Faithful (s : Extracted A) (tile : Tile) : Prop :=
  ∃ attr' inputTile, interface.extractTile s.attr tile s.input.shape = some (attr', inputTile) ∧
    inputTile.Inside s.input.shape ∧
      Extracted.Reads interface attr inputShape ⟨attr', inputTile.within s.input, tile.within s.output⟩

def Along (P : Extracted A → Tile → Prop) : Extracted A → List Tile → Prop
  | _, [] => True
  | s, tile :: tiles => P s tile ∧ ∀ s', s.extract interface tile = some s' → Along P s' tiles

def Nested : Shape → List Tile → Prop
  | _, [] => True
  | whole, tile :: tiles => tile.Inside whole ∧ Nested tile.shape tiles

variable {interface}

theorem extract_shape {s s' : Extracted A} {tile : Tile} (h : s.extract interface tile = some s') :
    s'.output = tile.within s.output := by
  unfold Extracted.extract at h
  obtain ⟨result, -, rfl⟩ := Option.map_eq_some_iff.mp h
  rfl

theorem along_of_invariant {P : Extracted A → Tile → Prop} {I : Extracted A → Prop} {s : Extracted A} {tiles : List Tile}
    (hstep : ∀ s tile, I s → tile.Inside s.output.shape → P s tile ∧ ∀ s', s.extract interface tile = some s' → I s')
    (h : I s) (hnested : Nested s.output.shape tiles) : Along interface P s tiles := by
  induction tiles generalizing s with
  | nil => trivial
  | cons tile tiles ih =>
    obtain ⟨hp, hkept⟩ := hstep s tile h hnested.1
    refine ⟨hp, fun s' hs' => ih (hkept s' hs') ?_⟩
    rw [extract_shape hs']
    exact hnested.2

theorem along_congr {P Q : Extracted A → Tile → Prop} {I : Extracted A → Prop} {s : Extracted A} {tiles : List Tile}
    (hstep : ∀ s tile, I s → tile.Inside s.output.shape → (P s tile ↔ Q s tile))
    (hkept : ∀ s tile s', I s → tile.Inside s.output.shape → Q s tile → s.extract interface tile = some s' → I s')
    (h : I s) (hnested : Nested s.output.shape tiles) : Along interface P s tiles ↔ Along interface Q s tiles := by
  induction tiles generalizing s with
  | nil => exact Iff.rfl
  | cons tile tiles ih =>
    obtain ⟨hinside, hnested⟩ := hnested
    have hrest (s' : Extracted A) (hq : Q s tile) (hs' : s.extract interface tile = some s') :
        Along interface P s' tiles ↔ Along interface Q s' tiles := by
      apply ih (hkept s tile s' h hinside hq hs')
      rw [extract_shape hs']
      exact hnested
    constructor
    · rintro ⟨hp, hlater⟩
      have hq := (hstep s tile h hinside).mp hp
      exact ⟨hq, fun s' hs' => (hrest s' hq hs').mp (hlater s' hs')⟩
    · rintro ⟨hq, hlater⟩
      exact ⟨(hstep s tile h hinside).mpr hq, fun s' hs' => (hrest s' hq hs').mpr (hlater s' hs')⟩

end

end NpuCompiler.StorageElement
