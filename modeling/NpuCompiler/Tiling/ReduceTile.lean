import NpuCompiler.Library.InsertOrder
import NpuCompiler.Tiling.BackInfer
import Mathlib.Data.List.Sections

namespace NpuCompiler.Tiling

open MixedRadix InsertOrder List

def inferReduceOutShape (inShape : List ℤ) (axes : List ℕ) (keepDims : Bool) : List ℤ :=
  let outShape := (List.range inShape.length).flatMap fun i =>
    if i ∉ axes then [entry inShape i] else if keepDims then [1] else []
  if outShape = [] then [1] else outShape

def insertReducedAxes (inShape : List ℤ) : List ℕ → List ℤ × List ℤ × List ℤ → Option (List ℤ × List ℤ × List ℤ)
  | [], tile => some tile
  | axesInd :: axesValue, (newInput, newAxis, newOffset) => do
    let newInput ← insertAt newInput axesInd (entry inShape axesInd)
    let newAxis ← insertAt newAxis axesInd 1
    let newOffset ← insertAt newOffset axesInd 0
    insertReducedAxes inShape axesValue (newInput, newAxis, newOffset)

def restoreReducedAxes (inShape : List ℤ) (axesValue : List ℕ) (shape : List ℤ) : List ℤ :=
  axesValue.foldl (fun shape axesInd => shape.set axesInd (entry inShape axesInd)) shape

def backInferReduceTile (outputTile : TileInfo) (inShape : List ℤ) (axesValue : List ℕ) (keepDims : Bool) :
    Option TilingInfo :=
  if keepDims = false then do
    let (newInput, newAxis, newOffset) ←
      insertReducedAxes inShape axesValue (outputTile.shape, outputTile.axis, outputTile.offsets)
    some ⟨[⟨newInput, newOffset, newAxis, false⟩], {}⟩
  else
    some ⟨[{ outputTile with shape := restoreReducedAxes inShape axesValue outputTile.shape }], {}⟩

section
variable (rank : ℕ) (axes : List ℕ) (keepDims : Bool)

def outputAxis (a : ℕ) : ℕ := if keepDims then a else (others rank axes).idxOf a

def reducedChoices (shape c : List ℤ) (a : ℕ) : List ℤ :=
  if a ∈ axes then (List.range (entry shape a).toNat).map Int.ofNat else [entry c (outputAxis rank axes keepDims a)]

def reduceTensor {α β : Type} (f : List α → β) (shape : List ℤ) (x : List ℤ → α) (c : List ℤ) : β :=
  f (((List.range rank).map (reducedChoices rank axes keepDims shape c)).sections.map x)

end

structure IsTileOf (shape : List ℤ) (tile : TileInfo) : Prop where
  fits : Fits shape tile.offsets tile.shape
  axis : tile.axis.length = shape.length

structure SelectsInput (inShape : List ℤ) (axes : List ℕ) (keepDims : Bool) (outputTile inputTile : TileInfo) : Prop where
  rank_shape : inputTile.shape.length = inShape.length
  rank_offsets : inputTile.offsets.length = inShape.length
  rank_axis : inputTile.axis.length = inShape.length
  reduced : ∀ a ∈ axes, entry inputTile.shape a = entry inShape a ∧ entry inputTile.offsets a = 0
  kept : ∀ a < inShape.length, a ∉ axes →
    entry inputTile.shape a = entry outputTile.shape (outputAxis inShape.length axes keepDims a) ∧
    entry inputTile.offsets a = entry outputTile.offsets (outputAxis inShape.length axes keepDims a) ∧
    entry inputTile.axis a = entry outputTile.axis (outputAxis inShape.length axes keepDims a)

section
variable (inShape : List ℤ) (axes : List ℕ) (outputTile : TileInfo)

def neededSize (a : ℕ) : ℤ :=
  if a ∈ axes then entry inShape a else entry outputTile.shape (outputAxis inShape.length axes false a)

def neededOffset (a : ℕ) : ℤ :=
  if a ∈ axes then 0 else entry outputTile.offsets (outputAxis inShape.length axes false a)

def neededCount (a : ℕ) : ℤ :=
  if a ∈ axes then 1 else entry outputTile.axis (outputAxis inShape.length axes false a)

def NeededAlike (a b : ℕ) : Prop :=
  neededSize inShape axes outputTile a = neededSize inShape axes outputTile b ∧
  neededOffset inShape axes outputTile a = neededOffset inShape axes outputTile b ∧
  (b ∉ axes → neededCount inShape axes outputTile a = neededCount inShape axes outputTile b)

end

variable {inShape shape offsets : List ℤ} {axes axesValue : List ℕ} {keepDims : Bool} {outputTile inputTile : TileInfo}
  {rank a : ℕ}

theorem sections_shift {l : List (List ℤ)} (h : l.length = offsets.length) :
    l.sections.map (fun p => shift p offsets) =
      (List.zipWith (fun choices o => choices.map (· + o)) l offsets).sections := by
  induction l generalizing offsets with
  | nil => simp [shift, List.sections]
  | cons choices l ih =>
    cases offsets with
    | nil => simp at h
    | cons o offsets =>
      have hl : l.length = offsets.length := by simpa using h
      rw [zipWith_cons_cons, List.sections, List.sections, ← ih hl, map_flatMap, flatMap_map]
      apply flatMap_congr
      intro p _
      rw [map_map, map_map]
      rfl

theorem SelectsInput.reduceTensor_eq (h : SelectsInput inShape axes keepDims outputTile inputTile) {α β : Type}
    (f : List α → β) (x : List ℤ → α) {c : List ℤ} (hc : c.length = outputTile.offsets.length) :
    reduceTensor inShape.length axes keepDims f inputTile.shape (fun p => x (shift p inputTile.offsets)) c =
      reduceTensor inShape.length axes keepDims f inShape x (shift c outputTile.offsets) := by
  have hchoices : List.zipWith (fun choices o => choices.map (· + o))
      ((List.range inShape.length).map (reducedChoices inShape.length axes keepDims inputTile.shape c))
      inputTile.offsets =
      (List.range inShape.length).map (reducedChoices inShape.length axes keepDims inShape (shift c outputTile.offsets)) := by
    apply ext_getElem (by simp [h.rank_offsets])
    intro a _ ha
    have harank : a < inShape.length := by simpa using ha
    have hrank : a < inputTile.offsets.length := h.rank_offsets ▸ harank
    rw [getElem_zipWith, getElem_map, getElem_map, getElem_range, ← entry_of_lt hrank]
    unfold reducedChoices
    by_cases hax : a ∈ axes
    · obtain ⟨hs, ho⟩ := h.reduced a hax
      rw [if_pos hax, if_pos hax, hs, ho]
      simp
    · obtain ⟨_, ho, _⟩ := h.kept a harank hax
      rw [if_neg hax, if_neg hax, ho, entry_shift hc]
      rfl
  unfold reduceTensor
  rw [← hchoices, ← sections_shift (by simp [h.rank_offsets]), map_map]
  rfl

theorem length_restoreReducedAxes : (restoreReducedAxes inShape axes shape).length = shape.length := by
  unfold restoreReducedAxes
  induction axes generalizing shape with
  | nil => rfl
  | cons a axes ih => rw [foldl_cons, ih, length_set]

theorem entry_restoreReducedAxes (h : ∀ a ∈ axes, a < shape.length) :
    entry (restoreReducedAxes inShape axes shape) a = if a ∈ axes then entry inShape a else entry shape a := by
  unfold restoreReducedAxes
  induction axes generalizing shape with
  | nil => rfl
  | cons b axes ih =>
    have hb := h b mem_cons_self
    rw [foldl_cons, ih fun e he => by rw [length_set]; exact h e (mem_cons_of_mem b he),
      MixedRadix.entry_set _ hb]
    by_cases ha : a ∈ axes
    · rw [if_pos ha, if_pos (mem_cons_of_mem b ha)]
    · by_cases he : a = b
      · rw [if_neg ha, if_pos he, if_pos (he ▸ mem_cons_self), he]
      · rw [if_neg ha, if_neg he, if_neg (by simp [ha, he])]

theorem insertReducedAxes_map {size count offset : ℕ → ℤ} {v : List ℕ}
    (h : ∀ a ∈ axesValue, size a = entry inShape a ∧ count a = 1 ∧ offset a = 0) :
    insertReducedAxes inShape axesValue (v.map size, v.map count, v.map offset) =
      (insertAll id axesValue v).map fun order => (order.map size, order.map count, order.map offset) := by
  induction axesValue generalizing v with
  | nil => rfl
  | cons a axesValue ih =>
    obtain ⟨hs, hc, ho⟩ := h a mem_cons_self
    rw [insertReducedAxes, insertAll, ← hs, ← hc, ← ho, insertAt_map, insertAt_map, insertAt_map]
    cases hv : insertAt v a a with
    | none => simp [hv]
    | some w =>
      simp only [id, hv, Option.map_some, Option.bind_eq_bind, Option.bind_some]
      exact ih fun b hb => h b (mem_cons_of_mem a hb)

theorem inferReduceOutShape_keepDims (hne : inShape ≠ []) : inferReduceOutShape inShape axes true =
    (List.range inShape.length).map fun i => if i ∉ axes then entry inShape i else 1 := by
  have hflat : (List.range inShape.length).flatMap (fun i => if i ∉ axes then [entry inShape i] else [1]) =
      (List.range inShape.length).map fun i => if i ∉ axes then entry inShape i else 1 := by
    rw [← flatMap_singleton' ((List.range inShape.length).map _), flatMap_map]
    apply flatMap_congr
    intro i _
    split <;> rfl
  simp only [inferReduceOutShape, ↓reduceIte, hflat]
  rw [if_neg]
  simpa using hne

theorem inferReduceOutShape_dropDims : inferReduceOutShape inShape axes false =
    if others inShape.length axes = [] then [1] else (others inShape.length axes).map (entry inShape) := by
  have hflat : (List.range inShape.length).flatMap (fun i => if i ∉ axes then [entry inShape i] else []) =
      (others inShape.length axes).map (entry inShape) := by
    unfold others
    induction List.range inShape.length with
    | nil => rfl
    | cons i l ih =>
      rw [flatMap_cons, ih]
      by_cases hi : i ∉ axes
      · rw [if_pos hi, filter_cons_of_pos (by simpa using hi)]
        rfl
      · rw [if_neg hi, filter_cons_of_neg (by simpa using hi)]
        rfl
  simp only [inferReduceOutShape, Bool.false_eq_true, ↓reduceIte, hflat, map_eq_nil_iff]

theorem others_map_entry {v : List ℤ} {value : ℕ → ℤ} (hv : v.length = (others rank axes).length)
    (h : ∀ a, a ∉ axes → value a = entry v ((others rank axes).idxOf a)) : (others rank axes).map value = v := by
  apply ext_getElem (by rw [length_map, hv])
  intro i hi hiv
  have hil : i < (others rank axes).length := hv ▸ hiv
  have hmem : (others rank axes)[i] ∉ axes := (mem_others.mp (getElem_mem hil)).2
  rw [getElem_map, h _ hmem, nodup_others.idxOf_getElem, entry_of_lt hiv]

section

theorem insertReducedAxes_needed (hkept : others inShape.length axes ≠ [])
    (htile : IsTileOf (inferReduceOutShape inShape axes false) outputTile) :
    insertReducedAxes inShape axes (outputTile.shape, outputTile.axis, outputTile.offsets) =
      (insertAll id axes (others inShape.length axes)).map fun order =>
        (order.map (neededSize inShape axes outputTile), order.map (neededCount inShape axes outputTile),
          order.map (neededOffset inShape axes outputTile)) := by
  rw [inferReduceOutShape_dropDims, if_neg hkept] at htile
  have hlen : ((others inShape.length axes).map (entry inShape)).length = (others inShape.length axes).length :=
    length_map ..
  rw [← insertReducedAxes_map]
  · rw [others_map_entry (htile.fits.length_shape.trans hlen), others_map_entry (htile.axis.trans hlen),
      others_map_entry (htile.fits.length_offset.trans hlen)]
    all_goals
      intro a ha
      simp [neededSize, neededCount, neededOffset, outputAxis, ha]
  · intro a ha
    simp [neededSize, neededCount, neededOffset, ha]

theorem length_insertReducedAxes {v v' : List ℤ × List ℤ × List ℤ} (h : insertReducedAxes inShape axesValue v = some v') :
    v'.1.length = v.1.length + axesValue.length := by
  induction axesValue generalizing v with
  | nil =>
    cases h
    rfl
  | cons a axesValue ih =>
    obtain ⟨newInput, hinput, h⟩ := Option.bind_eq_some_iff.mp h
    obtain ⟨newAxis, _, h⟩ := Option.bind_eq_some_iff.mp h
    obtain ⟨newOffset, _, h⟩ := Option.bind_eq_some_iff.mp h
    obtain ⟨ha, rfl⟩ := insertAt_eq_some hinput
    rw [ih h, length_insertIdx_of_le_length ha, length_cons]
    omega

variable (haxes : axes.Nodup) (hrange : ∀ a ∈ axes, a < inShape.length)
include haxes hrange

theorem selectsInput_order_iff {order : List ℕ} {done : Bool}
    (horder : insertAll id axes (others inShape.length axes) = some order) :
    SelectsInput inShape axes false outputTile ⟨order.map (neededSize inShape axes outputTile),
      order.map (neededOffset inShape axes outputTile), order.map (neededCount inShape axes outputTile), done⟩ ↔
    ∀ p < inShape.length, NeededAlike inShape axes outputTile (order.getD p 0) p := by
  have hlen : order.length = inShape.length := (length_insertAll horder).trans (length_others haxes hrange)
  have hentry : ∀ (value : ℕ → ℤ), ∀ p < inShape.length, entry (order.map value) p = value (order.getD p 0) := by
    intro value p hp
    rw [entry_of_lt (by simpa [hlen] using hp), getElem_map, getD_eq_getElem _ _ (hlen ▸ hp)]
  constructor
  · intro h p hp
    by_cases hpax : p ∈ axes
    · obtain ⟨hs, ho⟩ := h.reduced p hpax
      rw [hentry _ p hp] at hs ho
      refine ⟨?_, ?_, fun hn => absurd hpax hn⟩
      · rw [hs, neededSize, if_pos hpax]
      · rw [ho, neededOffset, if_pos hpax]
    · obtain ⟨hs, ho, hc⟩ := h.kept p hp hpax
      rw [hentry _ p hp] at hs ho hc
      refine ⟨?_, ?_, fun _ => ?_⟩
      · rw [hs, neededSize, if_neg hpax]
      · rw [ho, neededOffset, if_neg hpax]
      · rw [hc, neededCount, if_neg hpax]
  · intro h
    refine ⟨by simpa using hlen, by simpa using hlen, by simpa using hlen, ?_, ?_⟩
    · intro a ha
      obtain ⟨hs, ho, _⟩ := h a (hrange a ha)
      rw [hentry _ a (hrange a ha), hentry _ a (hrange a ha), hs, ho, neededSize, neededOffset, if_pos ha, if_pos ha]
      exact ⟨rfl, rfl⟩
    · intro a ha hax
      obtain ⟨hs, ho, hc⟩ := h a ha
      rw [hentry _ a ha, hentry _ a ha, hentry _ a ha, hs, ho, hc hax, neededSize, neededOffset, neededCount,
        if_neg hax, if_neg hax, if_neg hax]
      exact ⟨rfl, rfl, rfl⟩

theorem not_selectsInput_of_all (hall : others inShape.length axes = [])
    (htile : IsTileOf (inferReduceOutShape inShape axes false) outputTile)
    (h : backInferReduceTile outputTile inShape axes false = some ⟨[inputTile], {}⟩) :
    ¬SelectsInput inShape axes false outputTile inputTile := by
  intro hselects
  rw [inferReduceOutShape_dropDims, if_pos hall] at htile
  obtain ⟨v, hv, h⟩ := Option.bind_eq_some_iff.mp h
  have hgrow := length_insertReducedAxes hv
  have hcount := length_others haxes hrange
  rw [hall] at hcount
  have hrank := hselects.rank_shape
  have hone : outputTile.shape.length = 1 := htile.fits.length_shape
  cases h
  simp only [length_nil] at hcount hrank hgrow
  omega

theorem backInferReduceTile_dropDims_iff (htile : IsTileOf (inferReduceOutShape inShape axes false) outputTile) :
    (∃ inputTile, backInferReduceTile outputTile inShape axes false = some ⟨[inputTile], {}⟩ ∧
      SelectsInput inShape axes false outputTile inputTile) ↔
    others inShape.length axes ≠ [] ∧ ∃ order, insertAll id axes (others inShape.length axes) = some order ∧
      ∀ p < inShape.length, NeededAlike inShape axes outputTile (order.getD p 0) p := by
  by_cases hall : others inShape.length axes = []
  · constructor
    · rintro ⟨inputTile, h, hselects⟩
      exact absurd hselects (not_selectsInput_of_all haxes hrange hall htile h)
    · rintro ⟨hne, _⟩
      exact absurd hall hne
  · have hrun := insertReducedAxes_needed hall htile
    unfold backInferReduceTile
    rw [if_pos rfl, hrun]
    cases horder : insertAll id axes (others inShape.length axes) with
    | none => simp
    | some order =>
      have hiff := @selectsInput_order_iff _ _ outputTile haxes hrange _ false horder
      constructor
      · rintro ⟨inputTile, h, hselects⟩
        cases h
        exact ⟨hall, order, rfl, hiff.mp hselects⟩
      · rintro ⟨_, order', he, halike⟩
        cases he
        exact ⟨_, rfl, hiff.mpr halike⟩

end

theorem selectsInput_keepDims (hrange : ∀ a ∈ axes, a < inShape.length) (hne : inShape ≠ [])
    (htile : IsTileOf (inferReduceOutShape inShape axes true) outputTile) :
    SelectsInput inShape axes true outputTile
      { outputTile with shape := restoreReducedAxes inShape axes outputTile.shape } := by
  rw [inferReduceOutShape_keepDims hne] at htile
  have hlen := htile.fits.length_shape
  have hoff := htile.fits.length_offset
  have haxis := htile.axis
  rw [length_map, length_range] at hlen hoff haxis
  have hrestore : ∀ a, entry (restoreReducedAxes inShape axes outputTile.shape) a =
      if a ∈ axes then entry inShape a else entry outputTile.shape a := by
    intro a
    apply entry_restoreReducedAxes
    rw [hlen]
    exact hrange
  refine ⟨length_restoreReducedAxes.trans hlen, hoff, haxis, ?_, ?_⟩
  · intro a ha
    have hbound := (fits_iff.mp htile.fits).2.2 a (by simpa using hrange a ha)
    have hone : entry ((List.range inShape.length).map fun i => if i ∉ axes then entry inShape i else 1) a = 1 := by
      rw [entry_of_lt (by simpa using hrange a ha)]
      simp [ha]
    rw [hone] at hbound
    change entry (restoreReducedAxes _ _ _) a = _ ∧ entry outputTile.offsets a = 0
    rw [hrestore, if_pos ha]
    exact ⟨rfl, by omega⟩
  · intro a _ hax
    change entry (restoreReducedAxes _ _ _) a = _ ∧ _
    rw [hrestore, if_neg hax]
    exact ⟨rfl, rfl, rfl⟩

theorem ne_nil_of_selectsInput (htile : IsTileOf (inferReduceOutShape inShape axes true) outputTile)
    (h : backInferReduceTile outputTile inShape axes true = some ⟨[inputTile], {}⟩)
    (hselects : SelectsInput inShape axes true outputTile inputTile) : inShape ≠ [] := by
  rintro rfl
  have hrank := hselects.rank_shape
  cases h
  have hone := htile.fits.length_shape
  rw [length_restoreReducedAxes, hone] at hrank
  cases hrank

/-- The back-inferred tile is the part of the input that the output tile needs exactly when the dimensions are kept, or
when some axis is not reduced and the insertions in the listed order put at each position an axis that is selected like
the one that belongs there, as they do for axes listed from the lowest to the highest. -/
theorem backInferReduceTile_iff (haxes : axes.Nodup) (hrange : ∀ a ∈ axes, a < inShape.length)
    (htile : IsTileOf (inferReduceOutShape inShape axes keepDims) outputTile) :
    ((∃ inputTile, backInferReduceTile outputTile inShape axes keepDims = some ⟨[inputTile], {}⟩ ∧
        SelectsInput inShape axes keepDims outputTile inputTile ∧
        ∀ (α β : Type) (f : List α → β) (x : List ℤ → α) (c : List ℤ), c.length = outputTile.offsets.length →
          reduceTensor inShape.length axes keepDims f inputTile.shape (fun p => x (shift p inputTile.offsets)) c =
            reduceTensor inShape.length axes keepDims f inShape x (shift c outputTile.offsets)) ↔
      keepDims = true ∧ inShape ≠ [] ∨ others inShape.length axes ≠ [] ∧
        ∃ order, insertAll id axes (others inShape.length axes) = some order ∧
          ∀ p < inShape.length, NeededAlike inShape axes outputTile (order.getD p 0) p) ∧
    (insertAll id axes (others inShape.length axes) = some (List.range inShape.length) ↔ axes.Pairwise (· < ·)) := by
  refine ⟨?_, insertAll_eq_range_iff haxes hrange⟩
  cases keepDims with
  | true =>
    constructor
    · rintro ⟨inputTile, h, hselects, _⟩
      exact .inl ⟨rfl, ne_nil_of_selectsInput htile h hselects⟩
    · intro h
      have hne : inShape ≠ [] := by
        rcases h with ⟨_, hne⟩ | ⟨hkept, _⟩
        · exact hne
        · rintro rfl
          exact hkept rfl
      have hselects := selectsInput_keepDims hrange hne htile
      refine ⟨_, rfl, hselects, ?_⟩
      intro α β f x c hc
      exact hselects.reduceTensor_eq f x hc
  | false =>
    have hiff := backInferReduceTile_dropDims_iff haxes hrange htile
    constructor
    · rintro ⟨inputTile, h, hselects, _⟩
      exact .inr (hiff.mp ⟨inputTile, h, hselects⟩)
    · intro h
      obtain ⟨inputTile, hinfer, hselects⟩ := hiff.mpr (h.resolve_left fun h => Bool.false_ne_true h.1)
      refine ⟨inputTile, hinfer, hselects, ?_⟩
      intro α β f x c hc
      exact hselects.reduceTensor_eq f x hc

theorem backInferReduceTile_iff_ascending :
    ∃ inputTile, backInferReduceTile ⟨[1, 5], [1, 0], [2, 1], true⟩ [2, 3, 4, 5] [1, 2] false = some ⟨[inputTile], {}⟩ ∧
      SelectsInput [2, 3, 4, 5] [1, 2] false ⟨[1, 5], [1, 0], [2, 1], true⟩ inputTile := by
  have htile : IsTileOf (inferReduceOutShape [2, 3, 4, 5] [1, 2] false) ⟨[1, 5], [1, 0], [2, 1], true⟩ := by
    refine ⟨?_, rfl⟩
    apply fits_iff.mpr
    decide
  have hiff := @backInferReduceTile_iff [2, 3, 4, 5] [1, 2] false _ (by decide) (by decide) htile
  have horder := hiff.2.mpr (by decide)
  obtain ⟨inputTile, h, hselects, _⟩ := hiff.1.mpr (.inr ⟨by decide, _, horder, by
    intro p hp
    rw [getD_eq_getElem _ _ (by simpa using hp), getElem_range]
    exact ⟨rfl, rfl, fun _ => rfl⟩⟩)
  exact ⟨inputTile, h, hselects⟩

/-- Axes listed from the highest to the lowest: the rows and the columns of the reduced plane change places. -/
theorem backInferReduceTile_descending :
    IsTileOf (inferReduceOutShape [2, 3, 4, 5] [2, 1] false) ⟨[2, 5], [0, 0], [1, 1], true⟩ ∧
      backInferReduceTile ⟨[2, 5], [0, 0], [1, 1], true⟩ [2, 3, 4, 5] [2, 1] false =
        some ⟨[⟨[2, 3, 5, 4], [0, 0, 0, 0], [1, 1, 1, 1], false⟩], {}⟩ ∧
      ∀ inputTile, backInferReduceTile ⟨[2, 5], [0, 0], [1, 1], true⟩ [2, 3, 4, 5] [2, 1] false =
          some ⟨[inputTile], {}⟩ →
        ¬SelectsInput [2, 3, 4, 5] [2, 1] false ⟨[2, 5], [0, 0], [1, 1], true⟩ inputTile := by
  refine ⟨⟨fits_iff.mpr (by decide), rfl⟩, rfl, ?_⟩
  intro inputTile h hselects
  have htwo := (hselects.reduced 2 (by decide)).1
  cases h
  revert htwo
  decide

end NpuCompiler.Tiling
