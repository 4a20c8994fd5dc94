import NpuCompiler.StorageElement.PaddingAttr
import NpuCompiler.Tiling.JointTiles

namespace NpuCompiler.Tiling

open MixedRadix List Option
open StorageElement (PadMode)
open StorageElement.SEPaddingAttr (coordTransform)

def backInferPadDim (axis shape offset inShape outShape padBegin padEnd : ℤ) : Option (ℤ × ℤ) :=
  let curShape := if axis = 1 then inShape
    else shape - (if offset = 0 then padBegin else 0) - (if offset + shape = outShape then padEnd else 0)
  if ¬0 < curShape then none
  else
    let curOffset := if offset ≠ 0 then offset - padBegin else offset
    if ¬curOffset < inShape then none else some (curShape, curOffset)

def backInferPadTile (outputTile : TileInfo) (inShape outShape origPadsBegin origPadsEnd : List ℤ) : Option TileInfo :=
  (List.range inShape.length).foldlM (fun curTile ind => do
    let (curShape, curOffset) ← backInferPadDim (entry outputTile.axis ind) (entry outputTile.shape ind)
      (entry outputTile.offsets ind) (entry inShape ind) (entry outShape ind) (entry origPadsBegin ind) (entry origPadsEnd ind)
    some (curTile.setDim ind curShape curOffset (entry outputTile.axis ind))) outputTile

def updatePadBegin (axis offset padBegin : ℤ) : ℤ :=
  if axis = 1 then padBegin else if offset < padBegin then padBegin - offset else 0

def updatePadEnd (axis offset shape outShape padEnd : ℤ) : ℤ :=
  if axis = 1 then padEnd else if offset + shape ≠ outShape then 0 else padEnd

def updatePadOpAttrsAfterTiling (outShape : List ℤ) (outTile : TileInfo) (padsBegin padsEnd : List ℤ) : List ℤ × List ℤ :=
  ((List.range outShape.length).map fun ind =>
      updatePadBegin (entry outTile.axis ind) (entry outTile.offsets ind) (entry padsBegin ind),
    (List.range outShape.length).map fun ind => updatePadEnd (entry outTile.axis ind) (entry outTile.offsets ind)
      (entry outTile.shape ind) (entry outShape ind) (entry padsEnd ind))

/-- The input element that the padded output has at `coord` of a dimension. There is none for the padding of the constant
mode, nor where a mirrored coordinate leaves the input. -/
def padSource (mode : PadMode) (padBegin inShape coord : ℤ) : Option ℤ :=
  if padBegin ≤ coord ∧ coord < padBegin + inShape then some (coord - padBegin)
  else if mode = .constant then none
  else
    let inCoord := coordTransform mode coord padBegin inShape
    if 0 ≤ inCoord ∧ inCoord < inShape then some inCoord else none

def padElement {α : Type} (mode : PadMode) (padsBegin inShape : List ℤ) (input : List ℤ → α) (padValue : α) (coord : List ℤ) : α :=
  match (List.range inShape.length).mapM fun d => padSource mode (entry padsBegin d) (entry inShape d) (entry coord d) with
  | some inCoord => input inCoord
  | none => padValue

structure TiledPad (mode : PadMode) (inShape padsBegin : List ℤ) (outTile inTile : TileInfo) (pads : List ℤ × List ℤ) : Prop where
  inside : ∀ d < inShape.length, 0 ≤ entry inTile.offsets d ∧ 0 < entry inTile.shape d ∧
    entry inTile.offsets d + entry inTile.shape d ≤ entry inShape d
  size : ∀ d < inShape.length, entry pads.1 d + entry inTile.shape d + entry pads.2 d = entry outTile.shape d
  sources : ∀ d < inShape.length, ∀ coord, 0 ≤ coord → coord < entry outTile.shape d →
    (padSource mode (entry pads.1 d) (entry inTile.shape d) coord).map (· + entry inTile.offsets d) =
      padSource mode (entry padsBegin d) (entry inShape d) (coord + entry outTile.offsets d)
  elements : ∀ (α : Type) (input : List ℤ → α) (padValue : α) (coord : List ℤ), InBox outTile.shape coord →
    padElement mode pads.1 inTile.shape (fun inCoord => input (shift inCoord inTile.offsets)) padValue coord =
      padElement mode padsBegin inShape input padValue (shift coord outTile.offsets)

def underTile (padBegin inShape offset shape : ℤ) : ℤ := min (offset + shape) (padBegin + inShape) - max offset padBegin

def MirrorsFit (mode : PadMode) (padBegin inShape offset shape : ℤ) : Prop :=
  let before := max (padBegin - offset) 0
  let behind := max (offset + shape - (padBegin + inShape)) 0
  match mode with
  | .constant | .edge => True
  | .reflect => min before (inShape - 1) < underTile padBegin inShape offset shape ∧
      min behind (inShape - 1) < underTile padBegin inShape offset shape
  | .symmetric => min before inShape ≤ underTile padBegin inShape offset shape ∧
      min behind inShape ≤ underTile padBegin inShape offset shape

section
variable {mode : PadMode} {axis shape offset inShape outShape padBegin padEnd coord : ℤ}

structure MeetsInput (shape offset inShape padBegin padEnd : ℤ) : Prop where
  offset_nonneg : 0 ≤ offset
  start : offset = 0 ∨ padBegin < offset
  stop : offset + shape = padBegin + inShape + padEnd ∨ offset + shape < padBegin + inShape
  meets : 0 < underTile padBegin inShape offset shape

theorem backInferPadDim_eq (hone : axis = 1 → offset = 0 ∧ shape = outShape) (hout : outShape = padBegin + inShape + padEnd)
    (hbegin : 0 ≤ padBegin) (hend : 0 ≤ padEnd) (hmeets : MeetsInput shape offset inShape padBegin padEnd) :
    backInferPadDim axis shape offset inShape outShape padBegin padEnd =
      some (underTile padBegin inShape offset shape, max offset padBegin - padBegin) ∧
    updatePadBegin axis offset padBegin = max (padBegin - offset) 0 ∧
    updatePadEnd axis offset shape outShape padEnd = max (offset + shape - (padBegin + inShape)) 0 := by
  obtain ⟨hoffset, hstart, hstop, hpos⟩ := hmeets
  unfold underTile at hpos
  unfold backInferPadDim updatePadBegin updatePadEnd underTile
  by_cases haxis : axis = 1
  · obtain ⟨rfl, rfl⟩ := hone haxis
    simp only [haxis, if_true, ne_eq, not_true_eq_false, if_false]
    rw [if_neg (by omega), if_neg (by omega)]
    refine ⟨by congr 2 <;> omega, by omega, by omega⟩
  · simp only [haxis, if_false]
    refine ⟨?_, by split_ifs <;> omega, by split_ifs <;> omega⟩
    rw [if_neg (by split_ifs <;> omega), if_neg (by split_ifs <;> omega)]
    congr 2
    · split_ifs <;> omega
    · split_ifs <;> omega

theorem padSource_inside (h : padBegin ≤ coord ∧ coord < padBegin + inShape) :
    padSource mode padBegin inShape coord = some (coord - padBegin) := if_pos h

theorem padSource_before (h : coord < padBegin) : padSource mode padBegin inShape coord =
    match mode with
    | .constant => none
    | .edge => if 0 < inShape then some 0 else none
    | .reflect => if padBegin - coord < inShape then some (padBegin - coord) else none
    | .symmetric => if padBegin - coord - 1 < inShape then some (padBegin - coord - 1) else none := by
  unfold padSource
  rw [if_neg (by omega)]
  cases mode with
  | constant => rfl
  | edge => simp [coordTransform, h]
  | reflect =>
    simp only [coordTransform, h, if_true, reduceCtorEq, if_false]
    simp only [show 0 ≤ padBegin - coord by omega, true_and]
  | symmetric =>
    simp only [coordTransform, h, if_true, reduceCtorEq, if_false]
    simp only [show 0 ≤ padBegin - coord - 1 by omega, true_and]

theorem padSource_behind (hpos : 0 < inShape) (h : padBegin + inShape ≤ coord) : padSource mode padBegin inShape coord =
    match mode with
    | .constant => none
    | .edge => some (inShape - 1)
    | .reflect => if coord - (padBegin + inShape) + 1 < inShape then some (inShape - 1 - (coord - (padBegin + inShape) + 1)) else none
    | .symmetric => if coord - (padBegin + inShape) < inShape then some (inShape - 1 - (coord - (padBegin + inShape))) else none := by
  unfold padSource
  rw [if_neg (by omega)]
  cases mode with
  | constant => rfl
  | edge =>
    simp only [coordTransform, show ¬coord < padBegin by omega, show coord ≥ padBegin + inShape by omega, if_true, if_false,
      reduceCtorEq]
    rw [if_pos (by omega)]
  | reflect =>
    simp only [coordTransform, show ¬coord < padBegin by omega, show coord ≥ padBegin + inShape by omega, if_true, if_false,
      reduceCtorEq]
    split_ifs <;> first | omega | (congr 1; omega) | rfl
  | symmetric =>
    simp only [coordTransform, show ¬coord < padBegin by omega, show coord ≥ padBegin + inShape by omega, if_true, if_false,
      reduceCtorEq]
    split_ifs <;> first | omega | (congr 1; omega) | rfl

def ReadsAt (mode : PadMode) (shape offset inShape padBegin coord : ℤ) : Prop :=
  (padSource mode (max (padBegin - offset) 0) (underTile padBegin inShape offset shape) coord).map
      (· + (max offset padBegin - padBegin)) = padSource mode padBegin inShape (coord + offset)

theorem MeetsInput.readsAt (hmeets : MeetsInput shape offset inShape padBegin padEnd) (hpos : 0 < inShape)
    (hfit : MirrorsFit mode padBegin inShape offset shape) (hcoord : 0 ≤ coord) (hlt : coord < shape) :
    ReadsAt mode shape offset inShape padBegin coord := by
  obtain ⟨hoffset, hstart, hstop, hunder⟩ := hmeets
  unfold ReadsAt
  unfold MirrorsFit at hfit
  unfold underTile at *
  rcases lt_or_ge (coord + offset) padBegin with hbefore | hge
  · rw [padSource_before (by omega), padSource_before hbefore]
    cases mode with
    | constant => rfl
    | edge =>
      dsimp only
      rw [if_pos hunder, if_pos hpos, map_some]
      congr 1
      omega
    | reflect =>
      dsimp only at hfit ⊢
      by_cases hsource : padBegin - (coord + offset) < inShape
      · rw [if_pos (by omega), if_pos hsource, map_some]
        congr 1
        omega
      · rw [if_neg (by omega), if_neg hsource, map_none]
    | symmetric =>
      dsimp only at hfit ⊢
      by_cases hsource : padBegin - (coord + offset) - 1 < inShape
      · rw [if_pos (by omega), if_pos hsource, map_some]
        congr 1
        omega
      · rw [if_neg (by omega), if_neg hsource, map_none]
  · rcases lt_or_ge (coord + offset) (padBegin + inShape) with hinside | hbehind
    · rw [padSource_inside (by omega), padSource_inside (by omega), map_some]
      congr 1
      omega
    · rw [padSource_behind hunder (by omega), padSource_behind hpos hbehind]
      cases mode with
      | constant => rfl
      | edge =>
        dsimp only
        rw [map_some]
        congr 1
        omega
      | reflect =>
        dsimp only at hfit ⊢
        by_cases hsource : coord + offset - (padBegin + inShape) + 1 < inShape
        · rw [if_pos (by omega), if_pos hsource, map_some]
          congr 1
          omega
        · rw [if_neg (by omega), if_neg hsource, map_none]
      | symmetric =>
        dsimp only at hfit ⊢
        by_cases hsource : coord + offset - (padBegin + inShape) < inShape
        · rw [if_pos (by omega), if_pos hsource, map_some]
          congr 1
          omega
        · rw [if_neg (by omega), if_neg hsource, map_none]

theorem MeetsInput.mirrorsFit (hmeets : MeetsInput shape offset inShape padBegin padEnd) (hpos : 0 < inShape)
    (hreads : ∀ coord, 0 ≤ coord → coord < shape → ReadsAt mode shape offset inShape padBegin coord) :
    MirrorsFit mode padBegin inShape offset shape := by
  obtain ⟨hoffset, hstart, hstop, hunder⟩ := hmeets
  unfold MirrorsFit
  unfold ReadsAt at hreads
  cases mode with
  | constant => trivial
  | edge => trivial
  | reflect =>
    dsimp only
    constructor
    · by_contra hnot
      have hmissing := hreads (padBegin - offset - underTile padBegin inShape offset shape) (by omega)
        (by unfold underTile at hunder ⊢; omega)
      rw [padSource_before (by omega), padSource_before (by omega)] at hmissing
      dsimp only at hmissing
      rw [if_neg (by omega), if_pos (by omega)] at hmissing
      cases hmissing
    · by_contra hnot
      have hmissing := hreads (padBegin + inShape - offset + underTile padBegin inShape offset shape - 1)
        (by unfold underTile at hunder ⊢; omega) (by omega)
      rw [padSource_behind hunder (by unfold underTile at hunder ⊢; omega), padSource_behind hpos (by omega)] at hmissing
      dsimp only at hmissing
      rw [if_neg (by unfold underTile at hunder hnot ⊢; omega), if_pos (by omega)] at hmissing
      cases hmissing
  | symmetric =>
    dsimp only
    constructor
    · by_contra hnot
      have hmissing := hreads (padBegin - offset - underTile padBegin inShape offset shape - 1) (by omega)
        (by unfold underTile at hunder ⊢; omega)
      rw [padSource_before (by omega), padSource_before (by omega)] at hmissing
      dsimp only at hmissing
      rw [if_neg (by omega), if_pos (by omega)] at hmissing
      cases hmissing
    · by_contra hnot
      have hmissing := hreads (padBegin + inShape - offset + underTile padBegin inShape offset shape)
        (by unfold underTile at hunder ⊢; omega) (by omega)
      rw [padSource_behind hunder (by unfold underTile at hunder ⊢; omega), padSource_behind hpos (by omega)] at hmissing
      dsimp only at hmissing
      rw [if_neg (by unfold underTile at hunder hnot ⊢; omega), if_pos (by omega)] at hmissing
      cases hmissing

end

section
variable {divisors shape alignment : List ℤ} {unrollSpatialFirst : Bool} {customChannelSplit : Option (List ℤ)}
  {order : ℕ → ℕ} {k rank : ℕ} {tile tile' : TileInfo} {acc acc' : List TileInfo} {tiles : List TileInfo}

theorem orderAt_eq {d : ℕ} (hd : dimensionAt unrollSpatialFirst shape.length k = some d) :
    orderAt unrollSpatialFirst shape.length k = d := by
  unfold orderAt
  rw [hd]
  rfl

def HasAxes (divisors : List ℤ) (order : ℕ → ℕ) (k rank : ℕ) (tile : TileInfo) : Prop :=
  (tile.axis.length = rank ∧ tile.Sized rank) ∧ ∀ j < k, entry tile.axis (order j) = entry divisors (order j)

theorem HasAxes.setDim {size offset : ℤ} (h : HasAxes divisors order k rank tile) (hlt : order k < rank) :
    HasAxes divisors order (k + 1) rank (tile.setDim (order k) size offset (entry divisors (order k))) := by
  refine ⟨⟨by simpa [TileInfo.setDim] using h.1.1, h.1.2.setDim⟩, fun j hj => ?_⟩
  change entry (tile.axis.set (order k) _) (order j) = _
  rw [MixedRadix.entry_set _ (by rw [h.1.1]; exact hlt)]
  split
  · next he => rw [he]
  · next hne =>
    apply h.2 j
    have hjk : j ≠ k := fun he => hne (by rw [he])
    omega

def SetsAxes (divisors : List ℤ) (order : ℕ → ℕ) (k rank : ℕ)
    (next : List TileInfo → TileInfo → Option (List TileInfo × TileInfo)) : Prop :=
  ∀ acc t acc' t', (∀ u ∈ acc, HasAxes divisors order rank rank u) → HasAxes divisors order k rank t →
    next acc t = some (acc', t') → (∀ u ∈ acc', HasAxes divisors order rank rank u) ∧ HasAxes divisors order k rank t'

theorem setsAxes_unroll {next : List TileInfo → TileInfo → Option (List TileInfo × TileInfo)} {sizes : ℤ × ℤ × ℤ}
    (hnext : SetsAxes divisors order (k + 1) rank next) (hlt : order k < rank) {indices : List ℕ} {tileOffset : ℤ} :
    SetsAxes divisors order k rank
      (unrollDimension customChannelSplit next (order k) (entry divisors (order k)) sizes indices tileOffset) := by
  intro acc tile acc' tile' hacc htile h
  induction indices generalizing tileOffset acc tile with
  | nil =>
    cases h
    exact ⟨hacc, htile⟩
  | cons i indices ih =>
    obtain ⟨tileShape, -, h⟩ := bind_eq_some_iff.mp h
    obtain ⟨⟨acc₁, tile₁⟩, hfirst, hrest⟩ := bind_eq_some_iff.mp h
    obtain ⟨hacc₁, htile₁⟩ := hnext _ _ _ _ hacc (htile.setDim hlt) hfirst
    exact ih _ _ hacc₁ ⟨htile₁.1, fun j hj => htile₁.2 j (by omega)⟩ hrest

theorem setsAxes_divideTiles {remaining : ℕ} (hk : k + remaining + 1 = shape.length) :
    SetsAxes divisors (orderAt unrollSpatialFirst shape.length) k shape.length
      (divideTiles divisors shape alignment unrollSpatialFirst customChannelSplit remaining k) := by
  induction remaining generalizing k with
  | zero =>
    intro acc tile acc' tile' hacc htile h
    obtain ⟨d, hd, h⟩ := bind_eq_some_iff.mp h
    obtain ⟨sizes, hsizes, h⟩ := bind_eq_some_iff.mp h
    obtain ⟨total, htotal, h⟩ := bind_eq_some_iff.mp h
    have horder := orderAt_eq hd
    rw [← entry_of_getElem? htotal, ← horder] at h
    refine setsAxes_unroll ?_ (horder ▸ divideTileSizeAndInterval_lt hsizes) _ _ _ _ hacc htile h
    intro acc t acc' t' hall ht hpush
    cases hpush
    refine ⟨fun u hu => ?_, ht⟩
    rcases mem_append.mp hu with hu | hu
    · exact hall u hu
    · rw [mem_singleton.mp hu]
      exact ⟨ht.1, fun j hj => ht.2 j (by omega)⟩
  | succ remaining ih =>
    intro acc tile acc' tile' hacc htile h
    obtain ⟨d, hd, h⟩ := bind_eq_some_iff.mp h
    obtain ⟨sizes, hsizes, h⟩ := bind_eq_some_iff.mp h
    obtain ⟨total, htotal, h⟩ := bind_eq_some_iff.mp h
    have horder := orderAt_eq hd
    rw [← entry_of_getElem? htotal, ← horder] at h
    exact setsAxes_unroll (ih (by omega)) (horder ▸ divideTileSizeAndInterval_lt hsizes) _ _ _ _ hacc htile h

theorem fillDividedTiles_axes {alignment : Option (List ℤ)} (hrank : divisors.length = shape.length)
    (hdiv : ∀ d ∈ divisors, 1 ≤ d)
    (h : fillDividedTiles divisors shape alignment unrollSpatialFirst customChannelSplit = some tiles) :
    ∀ t ∈ tiles, t.Sized shape.length ∧ ∀ d < shape.length, entry t.axis d = entry divisors d := by
  unfold fillDividedTiles at h
  simp only [bind_eq_bind] at h
  split at h
  · cases h
  · next hnil =>
    obtain ⟨⟨dividedTiles, ongoingTile⟩, hdivide, h⟩ := bind_eq_some_iff.mp h
    cases h
    have hpos : 0 < divisors.length := length_pos_iff.mpr hnil
    have hvalid := divideTiles_dimensions (fun d hd => hdiv _ (entry_mem (hrank ▸ hd))) hdivide
    have haxes := (setsAxes_divideTiles (by omega) _ _ _ _ (by simp) ⟨by simp [TileInfo.ofRank, TileInfo.Sized, hrank], by simp⟩ hdivide).1
    have hperm := @orderAt_perm shape unrollSpatialFirst fun j hj => by
      obtain ⟨hd, sizes, hsizes⟩ := hvalid j (by omega) (by omega)
      exact ⟨hd, divideTileSizeAndInterval_lt hsizes⟩
    intro t ht
    refine ⟨(haxes t ht).1.2, fun d hd => ?_⟩
    obtain ⟨j, hj, rfl⟩ := mem_map.mp (hperm.mem_iff.mpr (mem_range.mpr hd))
    exact (haxes t ht).2 j (mem_range.mp hj)

end

section
variable {mode : PadMode} {divisors inShape outShape padsBegin padsEnd : List ℤ} {outTile inTile : TileInfo} {tiles : List TileInfo}
  {d : ℕ}

theorem backInferPadTile_spec (hsized : outTile.Sized inShape.length)
    (h : backInferPadTile outTile inShape outShape padsBegin padsEnd = some inTile) :
    inTile.Sized inShape.length ∧ ∀ d < inShape.length,
      backInferPadDim (entry outTile.axis d) (entry outTile.shape d) (entry outTile.offsets d) (entry inShape d)
        (entry outShape d) (entry padsBegin d) (entry padsEnd d) = some (entry inTile.shape d, entry inTile.offsets d) := by
  unfold backInferPadTile at h
  suffices hrun : ∀ n ≤ inShape.length, ∀ cur, (List.range n).foldlM _ outTile = some cur →
      cur.Sized inShape.length ∧ ∀ d < n, backInferPadDim (entry outTile.axis d) (entry outTile.shape d)
        (entry outTile.offsets d) (entry inShape d) (entry outShape d) (entry padsBegin d) (entry padsEnd d) =
          some (entry cur.shape d, entry cur.offsets d) by
    exact hrun _ le_rfl _ h
  clear h
  intro n hn
  induction n with
  | zero =>
    intro cur h
    cases h
    exact ⟨hsized, fun d hd => absurd hd (Nat.not_lt_zero d)⟩
  | succ n ih =>
    intro cur h
    rw [range_succ, foldlM_append] at h
    obtain ⟨prev, hprev, h⟩ := bind_eq_some_iff.mp h
    obtain ⟨hprevSized, hdims⟩ := ih (by omega) prev hprev
    rw [foldlM_cons] at h
    obtain ⟨next, hnext, h⟩ := bind_eq_some_iff.mp h
    obtain ⟨⟨curShape, curOffset⟩, hdim, hnext⟩ := bind_eq_some_iff.mp hnext
    cases hnext
    cases h
    refine ⟨hprevSized.setDim, fun d hd => ?_⟩
    rw [hprevSized.setDim_shape (by omega), hprevSized.setDim_offsets (by omega)]
    by_cases hdn : d = n
    · rw [if_pos hdn, if_pos hdn, hdn]
      exact hdim
    · rw [if_neg hdn, if_neg hdn]
      exact hdims d (by omega)

theorem backInferPadDim_isSome {axis shape offset inSize outSize padBegin padEnd : ℤ} (haxis : axis ≠ 1)
    (h : (backInferPadDim axis shape offset inSize outSize padBegin padEnd).isSome) :
    0 < shape - (if offset = 0 then padBegin else 0) - (if offset + shape = outSize then padEnd else 0) ∧
      (offset ≠ 0 → offset - padBegin < inSize) := by
  unfold backInferPadDim at h
  simp only [haxis, if_false] at h
  by_cases hshape : 0 < shape - (if offset = 0 then padBegin else 0) - (if offset + shape = outSize then padEnd else 0)
  · refine ⟨hshape, fun hne => ?_⟩
    rw [if_neg (not_not.mpr hshape), if_pos hne] at h
    by_contra hoffset
    rw [if_pos hoffset] at h
    cases h
  · rw [if_pos hshape] at h
    cases h

theorem meetsInput {size : ℕ → ℤ} {total : ℕ} {inSize padBegin padEnd : ℤ} (hbegin : 0 ≤ padBegin) (hpos : 0 < inSize)
    (hsize : ∀ i < total, 0 < size i) (hsum : offsetAt size total = padBegin + inSize + padEnd) (hend : 0 ≤ padEnd)
    (hall : ∀ i < total, (backInferPadDim total (size i) (offsetAt size i) inSize (padBegin + inSize + padEnd) padBegin padEnd).isSome)
    {i : ℕ} (hi : i < total) : MeetsInput (size i) (offsetAt size i) inSize padBegin padEnd := by
  have hzero : 0 ≤ offsetAt size i := offsetAt_le hsize (Nat.zero_le i) hi.le
  by_cases hone : total = 1
  · subst hone
    obtain rfl : i = 0 := by omega
    have hwhole : size 0 = padBegin + inSize + padEnd := by
      rw [← hsum, offsetAt_succ, offsetAt_zero, zero_add]
    rw [offsetAt_zero, hwhole]
    refine ⟨le_rfl, .inl rfl, .inl (zero_add _), ?_⟩
    unfold underTile
    omega
  · have haxis : (total : ℤ) ≠ 1 := by omega
    have hfirst := (backInferPadDim_isSome haxis (hall 0 (by omega))).1
    have hsecond := offsetAt_le hsize (show 0 + 1 ≤ total by omega) le_rfl
    have hsecondLt : size 0 < offsetAt size total := by
      have hnext := offsetAt_le hsize (show 1 + 1 ≤ total by omega) le_rfl
      have hsizeOne := hsize 1 (by omega)
      rw [offsetAt_succ, offsetAt_succ, offsetAt_zero] at hnext
      omega
    rw [offsetAt_zero, if_pos rfl, if_neg (by omega)] at hfirst
    have hstart : offsetAt size i = 0 ∨ padBegin < offsetAt size i := by
      by_cases hizero : i = 0
      · rw [hizero]
        exact .inl rfl
      · have hle := offsetAt_le hsize (show 0 + 1 ≤ i by omega) hi.le
        rw [offsetAt_succ, offsetAt_zero] at hle
        omega
    have hsizei := hsize i hi
    have hstop : offsetAt size i + size i = padBegin + inSize + padEnd ∨ offsetAt size i + size i < padBegin + inSize := by
      rw [← offsetAt_succ]
      by_cases hlast : i + 1 = total
      · rw [hlast, hsum]
        exact .inl rfl
      · have hnext := (backInferPadDim_isSome haxis (hall (i + 1) (by omega))).2
        rw [offsetAt_succ] at hnext ⊢
        omega
    refine ⟨hzero, hstart, hstop, ?_⟩
    have hmeets := (backInferPadDim_isSome haxis (hall i hi)).1
    unfold underTile
    split_ifs at hmeets <;> omega

theorem mapM_shift {f g : ℕ → Option ℤ} {v : List ℤ} (h : ∀ d < v.length, (f d).map (· + entry v d) = g d) :
    (List.range v.length).mapM g = ((List.range v.length).mapM f).map fun xs => shift xs v := by
  induction v generalizing f g with
  | nil => rfl
  | cons x v ih =>
    have hrest := @ih (fun d => f (d + 1)) (fun d => g (d + 1)) fun d hd => h (d + 1) (by simpa using hd)
    have hhead := h 0 (by simp)
    rw [length_cons, range_succ_eq_map, mapM_cons, mapM_cons, mapM_map, mapM_map]
    change (g 0).bind _ = ((f 0).bind _).map _
    rw [← hhead]
    cases f 0 with
    | none => rfl
    | some y =>
      change ((List.range v.length).mapM fun d => g (d + 1)).bind _ = (((List.range v.length).mapM fun d => f (d + 1)).bind _).map _
      rw [hrest]
      cases (List.range v.length).mapM fun d => f (d + 1) with
      | none => rfl
      | some ys => rfl

theorem tiledPad_iff (hrank : outShape.length = inShape.length) (hin : ∀ d < inShape.length, 0 < entry inShape d)
    (hbegin : ∀ d < inShape.length, 0 ≤ entry padsBegin d) (hend : ∀ d < inShape.length, 0 ≤ entry padsEnd d)
    (hout : ∀ d < inShape.length, entry outShape d = entry padsBegin d + entry inShape d + entry padsEnd d)
    (hsized : outTile.Sized inShape.length)
    (hone : ∀ d < inShape.length, entry outTile.axis d = 1 →
      entry outTile.offsets d = 0 ∧ entry outTile.shape d = entry outShape d)
    (hmeets : ∀ d < inShape.length, MeetsInput (entry outTile.shape d) (entry outTile.offsets d) (entry inShape d)
      (entry padsBegin d) (entry padsEnd d))
    (h : backInferPadTile outTile inShape outShape padsBegin padsEnd = some inTile) :
    TiledPad mode inShape padsBegin outTile inTile (updatePadOpAttrsAfterTiling outShape outTile padsBegin padsEnd) ↔
      ∀ d < inShape.length, MirrorsFit mode (entry padsBegin d) (entry inShape d) (entry outTile.offsets d)
        (entry outTile.shape d) := by
  obtain ⟨hinSized, hdims⟩ := backInferPadTile_spec hsized h
  have hdim : ∀ d < inShape.length,
      entry inTile.shape d = underTile (entry padsBegin d) (entry inShape d) (entry outTile.offsets d) (entry outTile.shape d) ∧
      entry inTile.offsets d = max (entry outTile.offsets d) (entry padsBegin d) - entry padsBegin d ∧
      entry (updatePadOpAttrsAfterTiling outShape outTile padsBegin padsEnd).1 d =
        max (entry padsBegin d - entry outTile.offsets d) 0 ∧
      entry (updatePadOpAttrsAfterTiling outShape outTile padsBegin padsEnd).2 d =
        max (entry outTile.offsets d + entry outTile.shape d - (entry padsBegin d + entry inShape d)) 0 := by
    intro d hd
    obtain ⟨hback, hpadBegin, hpadEnd⟩ := backInferPadDim_eq (hone d hd) (hout d hd) (hbegin d hd) (hend d hd) (hmeets d hd)
    obtain ⟨hshape, hoffset⟩ := Prod.mk.inj (Option.some.inj ((hdims d hd).symm.trans hback))
    refine ⟨hshape, hoffset, ?_, ?_⟩
    · rw [← hpadBegin, entry_of_lt (by simp [updatePadOpAttrsAfterTiling, hrank, hd])]
      simp [updatePadOpAttrsAfterTiling]
    · rw [← hpadEnd, entry_of_lt (by simp [updatePadOpAttrsAfterTiling, hrank, hd])]
      simp [updatePadOpAttrsAfterTiling]
  constructor
  · intro htiled d hd
    obtain ⟨hshape, hoffset, hpadBegin, -⟩ := hdim d hd
    apply (hmeets d hd).mirrorsFit (hin d hd)
    intro coord hcoord hlt
    have hsources := htiled.sources d hd coord hcoord hlt
    rw [hshape, hoffset, hpadBegin] at hsources
    exact hsources
  · intro hfit
    have hsources : ∀ d < inShape.length, ∀ coord, 0 ≤ coord → coord < entry outTile.shape d →
        (padSource mode (entry (updatePadOpAttrsAfterTiling outShape outTile padsBegin padsEnd).1 d) (entry inTile.shape d)
          coord).map (· + entry inTile.offsets d) =
            padSource mode (entry padsBegin d) (entry inShape d) (coord + entry outTile.offsets d) := by
      intro d hd coord hcoord hlt
      obtain ⟨hshape, hoffset, hpadBegin, -⟩ := hdim d hd
      rw [hshape, hoffset, hpadBegin]
      exact (hmeets d hd).readsAt (hin d hd) (hfit d hd) hcoord hlt
    refine ⟨fun d hd => ?_, fun d hd => ?_, hsources, ?_⟩
    · obtain ⟨hshape, hoffset, -⟩ := hdim d hd
      have hpos := (hmeets d hd).meets
      rw [hshape, hoffset]
      unfold underTile at hpos ⊢
      omega
    · obtain ⟨hshape, -, hpadBegin, hpadEnd⟩ := hdim d hd
      have hpos := (hmeets d hd).meets
      rw [hshape, hpadBegin, hpadEnd]
      unfold underTile at hpos ⊢
      omega
    · intro α input padValue coord hbox
      obtain ⟨hlen, hcoord⟩ := inBox_iff.mp hbox
      have hmap := @mapM_shift (fun d => padSource mode
          (entry (updatePadOpAttrsAfterTiling outShape outTile padsBegin padsEnd).1 d) (entry inTile.shape d) (entry coord d))
        (fun d => padSource mode (entry padsBegin d) (entry inShape d) (entry (shift coord outTile.offsets) d)) inTile.offsets ?_
      · unfold padElement
        rw [hinSized.2] at hmap
        rw [hinSized.1, hmap]
        generalize hsource : (List.range inShape.length).mapM (fun d => padSource mode
          (entry (updatePadOpAttrsAfterTiling outShape outTile padsBegin padsEnd).1 d) (entry inTile.shape d)
            (entry coord d)) = inCoord
        cases inCoord with
        | none => rfl
        | some inCoord => rfl
      · rw [hinSized.2]
        intro d hd
        have hd' : d < outTile.shape.length := hsized.1.symm ▸ hd
        rw [entry_shift (by rw [hlen, hsized.1, hsized.2])]
        exact hsources d hd _ (hcoord d hd').1 (hcoord d hd').2

variable {alignment : Option (List ℤ)} {unrollSpatialFirst : Bool} {customChannelSplit : Option (List ℤ)}

theorem padTiles_iff (hrank : outShape.length = inShape.length) (hdivisors : divisors.length = outShape.length)
    (hdiv : ∀ d ∈ divisors, 1 ≤ d) (hsplit : ValidSplit divisors outShape customChannelSplit)
    (hin : ∀ d < inShape.length, 0 < entry inShape d)
    (hbegin : ∀ d < inShape.length, 0 ≤ entry padsBegin d) (hend : ∀ d < inShape.length, 0 ≤ entry padsEnd d)
    (hout : ∀ d < inShape.length, entry outShape d = entry padsBegin d + entry inShape d + entry padsEnd d)
    (htiles : fillDividedTiles divisors outShape alignment unrollSpatialFirst customChannelSplit = some tiles)
    (hall : ∀ tile ∈ tiles, (backInferPadTile tile inShape outShape padsBegin padsEnd).isSome) :
    (∀ tile ∈ tiles, ∃ inTile, backInferPadTile tile inShape outShape padsBegin padsEnd = some inTile ∧
      TiledPad mode inShape padsBegin tile inTile (updatePadOpAttrsAfterTiling outShape tile padsBegin padsEnd)) ↔
    ∀ tile ∈ tiles, ∀ d < inShape.length,
      MirrorsFit mode (entry padsBegin d) (entry inShape d) (entry tile.offsets d) (entry tile.shape d) := by
  obtain ⟨hpart, -, hsegments⟩ := fillDividedTiles_segments hdivisors hdiv hsplit htiles
  have haxes := fillDividedTiles_axes hdivisors hdiv htiles
  have houtPos : ∀ d < outShape.length, 0 < entry outShape d := by
    intro d hd
    have hsum := hout d (hrank ▸ hd)
    have hposIn := hin d (hrank ▸ hd)
    have hposBegin := hbegin d (hrank ▸ hd)
    have hposEnd := hend d (hrank ▸ hd)
    omega
  have htotal : ∀ d < outShape.length, ((totalAt divisors d : ℕ) : ℤ) = entry divisors d ∧ 1 ≤ entry divisors d := by
    intro d hd
    have hone := hdiv _ (entry_mem (hdivisors.symm ▸ hd))
    exact ⟨Int.toNat_of_nonneg (by omega), hone⟩
  have hmeets : ∀ tile ∈ tiles, ∀ d < inShape.length,
      (entry tile.axis d = 1 → entry tile.offsets d = 0 ∧ entry tile.shape d = entry outShape d) ∧
      MeetsInput (entry tile.shape d) (entry tile.offsets d) (entry inShape d) (entry padsBegin d) (entry padsEnd d) := by
    intro tile htile d hd
    have hd' : d < outShape.length := hrank.symm ▸ hd
    obtain ⟨⟨sizes, hsizes⟩, hsegment⟩ := hsegments d hd'
    obtain ⟨-, hpos, hsum, -⟩ := sizeAt_spec hsizes hd' (htotal d hd').2 hsplit
    obtain ⟨i, hi, hshape, hoffset⟩ := hsegment tile htile
    constructor
    · intro hone
      rw [(haxes tile htile).2 d hd', ← (htotal d hd').1] at hone
      have hone' : totalAt divisors d = 1 := by exact_mod_cast hone
      obtain rfl : i = 0 := by omega
      rw [hone', offsetAt_succ, offsetAt_zero, zero_add] at hsum
      rw [hshape, hoffset, offsetAt_zero]
      exact ⟨rfl, hsum⟩
    · rw [hshape, hoffset]
      refine meetsInput (hbegin d hd) (hin d hd) hpos (hsum.trans (hout d hd)) (hend d hd) (fun j hj => ?_) hi
      obtain ⟨other, hother, hotherShape, hotherOffset⟩ := exists_tile_of_segment hpart houtPos hd' hsegment hpos hsum hj
      obtain ⟨inTile, hinTile⟩ := isSome_iff_exists.mp (hall other hother)
      have hdim := (backInferPadTile_spec (hrank ▸ (haxes other hother).1) hinTile).2 d hd
      rw [(haxes other hother).2 d hd', ← (htotal d hd').1, hotherShape, hotherOffset, hout d hd] at hdim
      rw [hdim]
      rfl
  have htile : ∀ tile ∈ tiles, ∀ inTile, backInferPadTile tile inShape outShape padsBegin padsEnd = some inTile →
      (TiledPad mode inShape padsBegin tile inTile (updatePadOpAttrsAfterTiling outShape tile padsBegin padsEnd) ↔
        ∀ d < inShape.length,
          MirrorsFit mode (entry padsBegin d) (entry inShape d) (entry tile.offsets d) (entry tile.shape d)) :=
    fun tile htile inTile hinTile => tiledPad_iff hrank hin hbegin hend hout (hrank ▸ (haxes tile htile).1)
      (fun d hd => (hmeets tile htile d hd).1) (fun d hd => (hmeets tile htile d hd).2) hinTile
  constructor
  · intro hpads tile hmem
    obtain ⟨inTile, hinTile, hpad⟩ := hpads tile hmem
    exact (htile tile hmem inTile hinTile).mp hpad
  · intro hfit tile hmem
    obtain ⟨inTile, hinTile⟩ := isSome_iff_exists.mp (hall tile hmem)
    exact ⟨inTile, hinTile, (htile tile hmem inTile hinTile).mpr (hfit tile hmem)⟩

theorem padTiles_reflect : ∃ tiles, fillDividedTiles [1, 1, 2, 1] [1, 1, 10, 6] none false none = some tiles ∧
    ∀ tile ∈ tiles, ∃ inTile, backInferPadTile tile [1, 1, 6, 6] [1, 1, 10, 6] [0, 0, 2, 0] [0, 0, 2, 0] = some inTile ∧
      TiledPad .reflect [1, 1, 6, 6] [0, 0, 2, 0] tile inTile
        (updatePadOpAttrsAfterTiling [1, 1, 10, 6] tile [0, 0, 2, 0] [0, 0, 2, 0]) := by
  have htiles : fillDividedTiles [1, 1, 2, 1] [1, 1, 10, 6] none false none =
      some [⟨[1, 1, 5, 6], [0, 0, 0, 0], [1, 1, 2, 1], true⟩, ⟨[1, 1, 5, 6], [0, 0, 5, 0], [1, 1, 2, 1], true⟩] := by decide
  refine ⟨_, htiles, (padTiles_iff (by rfl) (by rfl) (by decide) ?_ (by decide) (by decide) (by decide) (by decide) htiles
    (by decide)).mpr ?_⟩
  · intro split hs
    cases hs
  · unfold MirrorsFit
    decide

/-- Three mirrored elements and a first input tile of one element. -/
theorem padTiles_mirror_lost : ∃ tiles, fillDividedTiles [1, 1, 2, 1] [1, 1, 8, 6] none false none = some tiles ∧
    (∀ tile ∈ tiles, (backInferPadTile tile [1, 1, 5, 6] [1, 1, 8, 6] [0, 0, 3, 0] [0, 0, 0, 0]).isSome) ∧
    ¬∀ tile ∈ tiles, ∃ inTile, backInferPadTile tile [1, 1, 5, 6] [1, 1, 8, 6] [0, 0, 3, 0] [0, 0, 0, 0] = some inTile ∧
      TiledPad .symmetric [1, 1, 5, 6] [0, 0, 3, 0] tile inTile
        (updatePadOpAttrsAfterTiling [1, 1, 8, 6] tile [0, 0, 3, 0] [0, 0, 0, 0]) := by
  refine ⟨_, rfl, by decide, fun hall => ?_⟩
  obtain ⟨inTile, hinTile, htiled⟩ := hall _ (mem_cons_self ..)
  cases hinTile
  have hsource := htiled.sources 2 (by decide) 0 (by decide) (by decide)
  revert hsource
  decide

end

end NpuCompiler.Tiling
