import NpuCompiler.Tiling.DivideTiles
import NpuCompiler.Library.Partition

namespace NpuCompiler.Tiling

open MixedRadix Partition List
open Const (DimsOrder)

namespace TileInfo

def InRange (tile : TileInfo) (d : ℕ) (c : List ℤ) : Prop :=
  entry tile.offsets d ≤ entry c d ∧ entry c d < entry tile.offsets d + entry tile.shape d

def Contains (tile : TileInfo) (c : List ℤ) : Prop :=
  c.length = tile.shape.length ∧ ∀ d < tile.shape.length, tile.InRange d c

def Sized (tile : TileInfo) (rank : ℕ) : Prop := tile.shape.length = rank ∧ tile.offsets.length = rank

variable {tile : TileInfo} {d j rank : ℕ} {shape offset axis : ℤ}

theorem entry_set {l : List ℤ} {x : ℤ} (h : d < l.length) : entry (l.set d x) j = if j = d then x else entry l j := by
  unfold entry
  rw [getD_eq_getElem?_getD, getElem?_set, getD_eq_getElem?_getD]
  by_cases hj : j = d
  · subst hj
    simp [h]
  · rw [if_neg (Ne.symm hj), if_neg hj]

theorem Sized.setDim (h : tile.Sized rank) : (tile.setDim d shape offset axis).Sized rank := by
  constructor
  · exact length_set.trans h.1
  · exact length_set.trans h.2

theorem Sized.setDim_shape (h : tile.Sized rank) (hd : d < rank) :
    entry (tile.setDim d shape offset axis).shape j = if j = d then shape else entry tile.shape j := by
  apply entry_set
  rw [h.1]
  exact hd

theorem Sized.setDim_offsets (h : tile.Sized rank) (hd : d < rank) :
    entry (tile.setDim d shape offset axis).offsets j = if j = d then offset else entry tile.offsets j := by
  apply entry_set
  rw [h.2]
  exact hd

end TileInfo

section

/-- The tiles of one dimension follow each other from `0` to its end; all but the last are multiples of the
alignment. -/
structure Segmented (total : ℕ) (size : ℕ → ℤ) (shapeVal alignmentVal : ℤ) : Prop where
  pos : ∀ i < total, 0 < size i
  sum : ((List.range total).map size).sum = shapeVal
  aligned : ∀ i, i + 1 < total → alignmentVal ∣ size i

variable {total : ℕ} {size : ℕ → ℤ} {shapeVal alignmentVal divisorVal : ℤ}

def offsetAt (size : ℕ → ℤ) (i : ℕ) : ℤ := ((List.range i).map size).sum

@[simp] theorem offsetAt_zero : offsetAt size 0 = 0 := rfl

theorem offsetAt_succ (i : ℕ) : offsetAt size (i + 1) = offsetAt size i + size i := by
  simp [offsetAt, range_succ]

theorem offsetAt_le {i j : ℕ} (hpos : ∀ i < total, 0 < size i) (hij : i ≤ j) (hj : j ≤ total) :
    offsetAt size i ≤ offsetAt size j := by
  induction hij with
  | refl => exact le_refl _
  | @step j hij ih =>
    have hp := hpos j (by omega)
    have hle := ih (by omega)
    rw [Nat.succ_eq_add_one, offsetAt_succ]
    linarith

theorem offsetAt_two_sizes {tileSize remainder : ℤ} {interval : ℕ} (n : ℕ) :
    offsetAt (fun i => if (i : ℤ) < interval then tileSize else remainder) n =
      tileSize * (min n interval : ℕ) + remainder * ((n : ℤ) - (min n interval : ℕ)) := by
  induction n with
  | zero => simp
  | succ n ih =>
    rw [offsetAt_succ, ih]
    by_cases h : n < interval
    · rw [if_pos (by omega), min_eq_left h.le, min_eq_left (by omega : n + 1 ≤ interval)]
      push_cast
      ring
    · rw [if_neg (by omega), min_eq_right (by omega : interval ≤ n), min_eq_right (by omega : interval ≤ n + 1)]
      push_cast
      ring

theorem divUp_eq {a b : ℤ} (ha : 0 < a) (hb : 0 < b) : a ≤ divUp a b * b ∧ 0 < divUp a b := by
  unfold divUp
  rw [Int.tdiv_eq_ediv_of_nonneg (by linarith)]
  have h := Int.ediv_mul_add_emod (a + b - 1) b
  have hlt := Int.emod_lt_of_pos (a + b - 1) hb
  have hle : a ≤ (a + b - 1) / b * b := by linarith
  refine ⟨hle, ?_⟩
  by_contra hneg
  have hmul : (a + b - 1) / b * b ≤ 0 := mul_nonpos_of_nonpos_of_nonneg (by linarith) hb.le
  linarith

theorem alignValUp_spec {a b : ℤ} (ha : 0 < a) (hb : 0 < b) : b ∣ alignValUp a b ∧ a ≤ alignValUp a b := by
  unfold alignValUp
  rw [if_pos ha.le]
  dsimp only
  rw [one_mul, Int.tdiv_eq_ediv_of_nonneg (by linarith)]
  have h := Int.ediv_mul_add_emod (a + (b - 1)) b
  have hlt := Int.emod_lt_of_pos (a + (b - 1)) hb
  exact ⟨Dvd.intro_left _ rfl, by linarith⟩

theorem entry_of_getElem? {l : List ℤ} {d : ℕ} {x : ℤ} (h : l[d]? = some x) : entry l d = x := by
  unfold entry
  rw [getD_eq_getElem?_getD, h]
  rfl

theorem twoSizes_segmented {tileSize remainder interval n : ℤ} (h0 : 0 ≤ interval) (hn : interval ≤ n)
    (hpos : 0 < tileSize) (hrem : interval < n → 0 < remainder)
    (hsum : tileSize * interval + remainder * (n - interval) = shapeVal)
    (haligned : alignmentVal ∣ tileSize) (hlast : interval + 1 < n → alignmentVal ∣ remainder) :
    Segmented n.toNat (fun i => if (i : ℤ) < interval then tileSize else remainder) shapeVal alignmentVal := by
  constructor
  · intro i hi
    split
    · exact hpos
    · exact hrem (by omega)
  · have he := @offsetAt_two_sizes tileSize remainder interval.toNat n.toNat
    have hmin : min n.toNat interval.toNat = interval.toNat := by omega
    have hi : (interval.toNat : ℤ) = interval := by omega
    have hnn : (n.toNat : ℤ) = n := by omega
    rw [hmin, hi, hnn, hsum] at he
    exact he
  · intro i hi
    split
    · exact haligned
    · exact hlast (by omega)

theorem divideTileSizeAndInterval_segmented {d : ℕ} {divisors shape alignment : List ℤ} {sizes : ℤ × ℤ × ℤ}
    (h : divideTileSizeAndInterval d divisors shape alignment = some sizes) (hdiv : 1 ≤ entry divisors d) :
    Segmented (entry divisors d).toNat (fun i => if (i : ℤ) < sizes.2.2 then sizes.1 else sizes.2.1)
      (entry shape d) (max (entry alignment d) 1) := by
  unfold divideTileSizeAndInterval at h
  obtain ⟨shapeVal, hshape, h⟩ := Option.bind_eq_some_iff.mp h
  obtain ⟨divisorVal, hdivisor, h⟩ := Option.bind_eq_some_iff.mp h
  obtain ⟨alignmentVal, halignment, h⟩ := Option.bind_eq_some_iff.mp h
  rw [entry_of_getElem? hdivisor] at hdiv ⊢
  rw [entry_of_getElem? hshape, entry_of_getElem? halignment]
  split at h
  · cases h
  · next hle =>
    have hs : 0 < shapeVal := by linarith
    split at h
    · next hal =>
      -- every tile but the last has the aligned size
      obtain ⟨-, hup⟩ := divUp_eq hs (show 0 < divisorVal by linarith)
      obtain ⟨hdvd, hge⟩ := alignValUp_spec hup (show 0 < alignmentVal by linarith)
      dsimp only at h
      split at h
      · cases h
      · next hrem =>
        cases h
        rw [max_eq_left hal.le]
        apply twoSizes_segmented
        · linarith
        · linarith
        · linarith
        · intro _
          linarith
        · ring
        · exact hdvd
        · intro hlt
          linarith
    · next hal =>
      have hdm := Int.ediv_mul_add_emod shapeVal divisorVal
      have hlt := Int.emod_lt_of_pos shapeVal (show 0 < divisorVal by linarith)
      have hnn := Int.emod_nonneg shapeVal (show divisorVal ≠ 0 by linarith)
      have hq : 0 < shapeVal / divisorVal :=
        lt_of_lt_of_le one_pos (Int.le_ediv_of_mul_le (by linarith) (by linarith))
      rw [max_eq_right (by linarith)]
      dsimp only at h
      rw [Int.tdiv_eq_ediv_of_nonneg hs.le, Int.tmod_eq_emod_of_nonneg hs.le] at h
      split at h
      · cases h
        apply twoSizes_segmented hnn hlt.le (by linarith) (fun _ => hq) _ (one_dvd _) (fun _ => one_dvd _)
        linarith
      · next hzero =>
        cases h
        apply twoSizes_segmented (by linarith) le_rfl hq _ _ (one_dvd _) (fun _ => one_dvd _)
        · intro hlt
          linarith
        · have hz : shapeVal % divisorVal = 0 := not_not.mp hzero
          rw [sub_self, mul_zero, add_zero]
          linarith

variable (order : ℕ → ℕ) (shape : List ℤ)

def Region (k : ℕ) (tile : TileInfo) (c : List ℤ) : Prop := InBox shape c ∧ ∀ j < k, tile.InRange (order j) c

def Agree (k : ℕ) (tile tile' : TileInfo) : Prop :=
  tile'.Sized shape.length ∧
    ∀ j < k, entry tile'.shape (order j) = entry tile.shape (order j) ∧
      entry tile'.offsets (order j) = entry tile.offsets (order j)

def HasSegment (size : ℕ → ℤ) (total d : ℕ) (tile : TileInfo) : Prop :=
  ∃ i < total, entry tile.shape d = size i ∧ entry tile.offsets d = offsetAt size i

structure Unrolled (rank k : ℕ) (size : ℕ → ℕ → ℤ) (total : ℕ → ℕ) (region : List ℤ → Prop) (count : ℕ)
    (tile tile' : TileInfo) (l : List TileInfo) : Prop where
  region : Splits region (Region order shape rank) l
  count : l.length = count
  kept : ∀ t ∈ l, Agree order shape k tile t
  left : Agree order shape k tile tile'
  segments : ∀ t ∈ l, ∀ j, k ≤ j → j < rank → HasSegment (size (order j)) (total (order j)) (order j) t

variable {order shape} {k rank : ℕ} {tile tile' : TileInfo}

theorem Agree.refl (h : tile.Sized shape.length) : Agree order shape k tile tile := ⟨h, fun _ _ => ⟨rfl, rfl⟩⟩

theorem Agree.trans {tile'' : TileInfo} (h : Agree order shape k tile tile') (h' : Agree order shape k tile' tile'') :
    Agree order shape k tile tile'' :=
  ⟨h'.1, fun j hj => ⟨(h'.2 j hj).1.trans (h.2 j hj).1, (h'.2 j hj).2.trans (h.2 j hj).2⟩⟩

theorem Agree.mono {k' : ℕ} (h : Agree order shape k tile tile') (hk : k' ≤ k) : Agree order shape k' tile tile' :=
  ⟨h.1, fun j hj => h.2 j (lt_of_lt_of_le hj hk)⟩

theorem Agree.region (h : Agree order shape k tile tile') {c : List ℤ} :
    Region order shape k tile' c ↔ Region order shape k tile c := by
  apply and_congr Iff.rfl
  apply forall_congr'
  intro j
  apply imp_congr_right
  intro hj
  unfold TileInfo.InRange
  rw [(h.2 j hj).1, (h.2 j hj).2]

theorem Agree.setDim (h : tile.Sized shape.length) (hk : order k < shape.length)
    (hne : ∀ j < k, order j ≠ order k) {size offset axis : ℤ} :
    Agree order shape k tile (tile.setDim (order k) size offset axis) := by
  refine ⟨h.setDim, fun j hj => ?_⟩
  rw [h.setDim_shape hk, h.setDim_offsets hk, if_neg (hne j hj), if_neg (hne j hj)]
  exact ⟨rfl, rfl⟩

theorem region_setDim (h : tile.Sized shape.length) (hk : order k < shape.length)
    (hne : ∀ j < k, order j ≠ order k) {size offset axis : ℤ} {c : List ℤ} :
    Region order shape (k + 1) (tile.setDim (order k) size offset axis) c ↔
      Region order shape k tile c ∧ offset ≤ entry c (order k) ∧ entry c (order k) < offset + size := by
  have hagree := @Agree.setDim order shape k tile h hk hne size offset axis
  have hlast : (tile.setDim (order k) size offset axis).InRange (order k) c ↔
      offset ≤ entry c (order k) ∧ entry c (order k) < offset + size := by
    unfold TileInfo.InRange
    rw [h.setDim_shape hk, h.setDim_offsets hk, if_pos rfl, if_pos rfl]
  rw [← @Agree.region order shape k _ _ hagree c, ← hlast]
  constructor
  · intro hr
    exact ⟨⟨hr.1, fun j hj => hr.2 j (by omega)⟩, hr.2 k (by omega)⟩
  · intro hr
    refine ⟨hr.1.1, fun j hj => ?_⟩
    by_cases hjk : j = k
    · exact hjk ▸ hr.2
    · exact hr.1.2 j (by omega)

variable {size : ℕ → ℕ → ℤ} {total : ℕ → ℕ} {count : ℕ} {region : List ℤ → Prop} {customChannelSplit : Option (List ℤ)}
  {axis : ℤ} {sizes : ℤ × ℤ × ℤ} {next : List TileInfo → TileInfo → Option (List TileInfo × TileInfo)}

theorem unrollDimension_spec (hk : order k < shape.length) (hne : ∀ j < k, order j ≠ order k)
    (hnext : ∀ acc t acc' t', t.Sized shape.length → next acc t = some (acc', t') → ∃ l, acc' = acc ++ l ∧
      Unrolled order shape rank (k + 1) size total (Region order shape (k + 1) t) count t t' l)
    (hshape : ∀ i < total (order k), tileShapeAt customChannelSplit (order k) sizes i = some (size (order k) i))
    (hpos : ∀ i < total (order k), 0 < size (order k) i)
    (hsum : offsetAt (size (order k)) (total (order k)) = entry shape (order k))
    {m i : ℕ} (him : i + m = total (order k)) {acc acc' : List TileInfo} (hsized : tile.Sized shape.length)
    (h : unrollDimension customChannelSplit next (order k) axis sizes (List.range' i m)
      (offsetAt (size (order k)) i) acc tile = some (acc', tile')) :
    ∃ l, acc' = acc ++ l ∧ Unrolled order shape rank k size total
      (fun c => Region order shape k tile c ∧ offsetAt (size (order k)) i ≤ entry c (order k)) (m * count)
      tile tile' l := by
  induction m generalizing i acc tile with
  | zero =>
    cases h
    refine ⟨[], (append_nil _).symm, ?_⟩
    constructor
    · apply Splits.empty
      rintro c ⟨⟨hbox, -⟩, hle⟩
      have hb := (inBox_iff.mp hbox).2 (order k) hk
      rw [show i = total (order k) by omega, hsum] at hle
      omega
    · simp
    · simp
    · exact Agree.refl hsized
    · simp
  | succ m ih =>
    rw [range'_succ] at h
    simp only [unrollDimension, hshape i (by omega), Option.bind_eq_bind, Option.bind_some] at h
    obtain ⟨⟨acc₁, tile₁⟩, hfirst, hrest⟩ := Option.bind_eq_some_iff.mp h
    have hset := @Agree.setDim order shape k tile hsized hk hne (size (order k) i) (offsetAt (size (order k)) i) axis
    obtain ⟨l₁, rfl, h₁⟩ := hnext _ _ _ _ hset.1 hfirst
    have hagree : Agree order shape k tile tile₁ := hset.trans (h₁.left.mono (by omega))
    dsimp only at hrest
    rw [← offsetAt_succ] at hrest
    obtain ⟨l₂, rfl, h₂⟩ := ih (by omega) hagree.1 hrest
    refine ⟨l₁ ++ l₂, append_assoc _ _ _, ?_⟩
    constructor
    · -- the first segment, and what lies behind it
      apply (h₁.region.append h₂.region _).congr
      · intro c
        rw [region_setDim hsized hk hne, hagree.region, offsetAt_succ]
        have hp := hpos i (by omega)
        constructor
        · rintro ⟨hr, hle⟩
          by_cases hlt : entry c (order k) < offsetAt (size (order k)) i + size (order k) i
          · exact Or.inl ⟨hr, hle, hlt⟩
          · exact Or.inr ⟨hr, not_lt.mp hlt⟩
        · intro hc
          cases hc with
          | inl hc => exact ⟨hc.1, hc.2.1⟩
          | inr hc => exact ⟨hc.1, by linarith [hc.2]⟩
      · intro c hc hc'
        have hlt := ((region_setDim hsized hk hne).mp hc).2.2
        rw [offsetAt_succ] at hc'
        linarith [hc'.2]
    · rw [length_append, h₁.count, h₂.count]
      ring
    · intro t ht
      cases mem_append.mp ht with
      | inl ht => exact hset.trans ((h₁.kept t ht).mono (by omega))
      | inr ht => exact hagree.trans (h₂.kept t ht)
    · exact hagree.trans h₂.left
    · intro t ht j hkj hj
      cases mem_append.mp ht with
      | inr ht => exact h₂.segments t ht j hkj hj
      | inl ht =>
        by_cases hjk : j = k
        · subst hjk
          have ha := (h₁.kept t ht).2 j (by omega)
          rw [hsized.setDim_shape hk, hsized.setDim_offsets hk, if_pos rfl, if_pos rfl] at ha
          exact ⟨i, by omega, ha⟩
        · exact h₁.segments t ht j (by omega) hj

theorem unrollDimension_next {indices : List ℕ} {tileOffset : ℤ} {acc acc' : List TileInfo} (hne : indices ≠ [])
    (h : unrollDimension customChannelSplit next k axis sizes indices tileOffset acc tile = some (acc', tile')) :
    ∃ acc t r, next acc t = some r := by
  cases indices with
  | nil => exact absurd rfl hne
  | cons i rest =>
    obtain ⟨_, -, h⟩ := Option.bind_eq_some_iff.mp h
    obtain ⟨r, hr, -⟩ := Option.bind_eq_some_iff.mp h
    exact ⟨_, _, r, hr⟩

end

section
variable {divisors shape alignment : List ℤ} {unrollSpatialFirst : Bool} {customChannelSplit : Option (List ℤ)}

def ValidSplit (divisors shape : List ℤ) (customChannelSplit : Option (List ℤ)) : Prop :=
  ∀ split, customChannelSplit = some split → dimC < shape.length →
    (split.length : ℤ) = entry divisors dimC ∧ (∀ s ∈ split, 0 < s) ∧ split.sum = entry shape dimC

def orderAt (unrollSpatialFirst : Bool) (rank j : ℕ) : ℕ := (dimensionAt unrollSpatialFirst rank j).getD 0

theorem dimensionAt_before {rank j k d : ℕ} (h : dimensionAt unrollSpatialFirst rank k = some d) (hjk : j < k) :
    ∃ d', dimensionAt unrollSpatialFirst rank j = some d' ∧ d' ≠ d := by
  unfold dimensionAt at h ⊢
  cases unrollSpatialFirst with
  | false =>
    have hd : k = d := Option.some.inj h
    exact ⟨j, rfl, by omega⟩
  | true =>
    rw [if_pos rfl] at h ⊢
    generalize (if rank = 5 then GNHWC else DimsOrder.NHWC) = spatialFirstOrder at h ⊢
    obtain ⟨hk, hd⟩ := List.getElem?_eq_some_iff.mp h
    refine ⟨_, getElem?_eq_getElem (by omega), fun he => ?_⟩
    have hi := (DimsOrder.nodup spatialFirstOrder).getElem_inj_iff.mp (he.trans hd.symm)
    omega

def sizeAt (divisors shape alignment : List ℤ) (customChannelSplit : Option (List ℤ)) (d i : ℕ) : ℤ :=
  (tileShapeAt customChannelSplit d ((divideTileSizeAndInterval d divisors shape alignment).getD (0, 0, 0)) i).getD 0

def totalAt (divisors : List ℤ) (d : ℕ) : ℕ := (entry divisors d).toNat

theorem sizeAt_regular {d : ℕ} {sizes : ℤ × ℤ × ℤ}
    (hsizes : divideTileSizeAndInterval d divisors shape alignment = some sizes)
    (hcustom : customChannelSplit = none ∨ d ≠ dimC) (i : ℕ) :
    tileShapeAt customChannelSplit d sizes i = some (sizeAt divisors shape alignment customChannelSplit d i) ∧
      sizeAt divisors shape alignment customChannelSplit d i = if (i : ℤ) < sizes.2.2 then sizes.1 else sizes.2.1 := by
  have htile : tileShapeAt customChannelSplit d sizes i =
      some (if (i : ℤ) < sizes.2.2 then sizes.1 else sizes.2.1) := by
    cases customChannelSplit with
    | none => rfl
    | some split =>
      cases hcustom with
      | inl hn => cases hn
      | inr hn => exact if_neg hn
  have hsize : sizeAt divisors shape alignment customChannelSplit d i =
      if (i : ℤ) < sizes.2.2 then sizes.1 else sizes.2.1 := by
    unfold sizeAt
    rw [hsizes, Option.getD_some, htile, Option.getD_some]
  exact ⟨htile.trans (congrArg some hsize.symm), hsize⟩

theorem sizeAt_custom {sizes : ℤ × ℤ × ℤ} {split : List ℤ} {i : ℕ}
    (hsizes : divideTileSizeAndInterval dimC divisors shape alignment = some sizes) (hi : i < split.length) :
    tileShapeAt (some split) dimC sizes i = some (sizeAt divisors shape alignment (some split) dimC i) ∧
      sizeAt divisors shape alignment (some split) dimC i = split[i] := by
  have htile : tileShapeAt (some split) dimC sizes i = some split[i] := by
    simp [tileShapeAt, hi]
  have hsize : sizeAt divisors shape alignment (some split) dimC i = split[i] := by
    unfold sizeAt
    rw [hsizes, Option.getD_some, htile, Option.getD_some]
  exact ⟨htile.trans (congrArg some hsize.symm), hsize⟩

theorem sizeAt_spec {d : ℕ} {sizes : ℤ × ℤ × ℤ} (hsizes : divideTileSizeAndInterval d divisors shape alignment = some sizes)
    (hd : d < shape.length) (hdiv : 1 ≤ entry divisors d) (hsplit : ValidSplit divisors shape customChannelSplit) :
    (∀ i < totalAt divisors d, tileShapeAt customChannelSplit d sizes i =
      some (sizeAt divisors shape alignment customChannelSplit d i)) ∧
    (∀ i < totalAt divisors d, 0 < sizeAt divisors shape alignment customChannelSplit d i) ∧
    offsetAt (sizeAt divisors shape alignment customChannelSplit d) (totalAt divisors d) = entry shape d ∧
    ((customChannelSplit = none ∨ d ≠ dimC) → ∀ i, i + 1 < totalAt divisors d →
      max (entry alignment d) 1 ∣ sizeAt divisors shape alignment customChannelSplit d i) := by
  have hregular := divideTileSizeAndInterval_segmented hsizes hdiv
  by_cases hcustom : customChannelSplit = none ∨ d ≠ dimC
  · have hsize : sizeAt divisors shape alignment customChannelSplit d =
        fun (i : ℕ) => if (i : ℤ) < sizes.2.2 then sizes.1 else sizes.2.1 :=
      funext fun i => (sizeAt_regular hsizes hcustom i).2
    have htile : ∀ i, tileShapeAt customChannelSplit d sizes i =
        some (sizeAt divisors shape alignment customChannelSplit d i) := fun i => (sizeAt_regular hsizes hcustom i).1
    rw [hsize] at htile ⊢
    exact ⟨fun i _ => htile i, hregular.pos, hregular.sum, fun _ => hregular.aligned⟩
  · push Not at hcustom
    obtain ⟨hsome, rfl⟩ := hcustom
    obtain ⟨split, rfl⟩ := Option.ne_none_iff_exists'.mp hsome
    obtain ⟨hlen, hpos, hsum⟩ := hsplit split rfl hd
    have htotal : totalAt divisors dimC = split.length := by
      unfold totalAt
      omega
    have hsize : ∀ i (hi : i < split.length), sizeAt divisors shape alignment (some split) dimC i = split[i] :=
      fun i hi => (sizeAt_custom hsizes hi).2
    rw [htotal]
    refine ⟨fun i hi => (sizeAt_custom hsizes hi).1, ?_, ?_, ?_⟩
    · intro i hi
      rw [hsize i hi]
      exact hpos _ (getElem_mem hi)
    · rw [← hsum]
      unfold offsetAt
      congr 1
      apply ext_getElem (by simp)
      intro i hi hj
      simp [hsize i hj]
    · intro h
      cases h with
      | inl hn => cases hn
      | inr hn => exact absurd rfl hn

theorem divideTileSizeAndInterval_lt {d : ℕ} {sizes : ℤ × ℤ × ℤ}
    (h : divideTileSizeAndInterval d divisors shape alignment = some sizes) : d < shape.length := by
  obtain ⟨shapeVal, hshape, -⟩ := Option.bind_eq_some_iff.mp h
  exact (List.getElem?_eq_some_iff.mp hshape).1

section
variable (hdiv : ∀ d < shape.length, 1 ≤ entry divisors d)
include hdiv

theorem divideTiles_dimensions {remaining k : ℕ}
    {acc acc' : List TileInfo} {tile tile' : TileInfo}
    (h : divideTiles divisors shape alignment unrollSpatialFirst customChannelSplit remaining k acc tile =
      some (acc', tile')) :
    ∀ j, k ≤ j → j ≤ k + remaining →
      dimensionAt unrollSpatialFirst shape.length j = some (orderAt unrollSpatialFirst shape.length j) ∧
        ∃ sizes, divideTileSizeAndInterval (orderAt unrollSpatialFirst shape.length j) divisors shape alignment =
          some sizes := by
  have hhere : ∀ {k d : ℕ} {sizes : ℤ × ℤ × ℤ}, dimensionAt unrollSpatialFirst shape.length k = some d →
      divideTileSizeAndInterval d divisors shape alignment = some sizes →
      dimensionAt unrollSpatialFirst shape.length k = some (orderAt unrollSpatialFirst shape.length k) ∧
        ∃ sizes, divideTileSizeAndInterval (orderAt unrollSpatialFirst shape.length k) divisors shape alignment =
          some sizes := by
    intro k d sizes hd hsizes
    have he : orderAt unrollSpatialFirst shape.length k = d := by
      unfold orderAt
      rw [hd]
      rfl
    rw [he]
    exact ⟨hd, sizes, hsizes⟩
  induction remaining generalizing k acc acc' tile tile' with
  | zero =>
    obtain ⟨d, hd, h⟩ := Option.bind_eq_some_iff.mp h
    obtain ⟨sizes, hsizes, h⟩ := Option.bind_eq_some_iff.mp h
    intro j hkj hjk
    have hj : j = k := by omega
    rw [hj]
    exact hhere hd hsizes
  | succ remaining ih =>
    obtain ⟨d, hd, h⟩ := Option.bind_eq_some_iff.mp h
    obtain ⟨sizes, hsizes, h⟩ := Option.bind_eq_some_iff.mp h
    obtain ⟨total, htotal, h⟩ := Option.bind_eq_some_iff.mp h
    intro j hkj hjk
    by_cases hj : j = k
    · rw [hj]
      exact hhere hd hsizes
    · have ht := hdiv d (divideTileSizeAndInterval_lt hsizes)
      rw [entry_of_getElem? htotal] at ht
      have hne : List.range total.toNat ≠ [] := by
        rw [Ne, range_eq_nil]
        omega
      obtain ⟨acc₁, t₁, r, hr⟩ := unrollDimension_next hne h
      exact ih hr j (by omega) (by omega)

theorem divideTiles_level (hsplit : ValidSplit divisors shape customChannelSplit) {k d count : ℕ} {sizes : ℤ × ℤ × ℤ} {total : ℤ}
    {next : List TileInfo → TileInfo → Option (List TileInfo × TileInfo)} {acc acc' : List TileInfo}
    {tile tile' : TileInfo} (hsized : tile.Sized shape.length)
    (hd : dimensionAt unrollSpatialFirst shape.length k = some d)
    (hsizes : divideTileSizeAndInterval d divisors shape alignment = some sizes) (htotal : divisors[d]? = some total)
    (hnext : ∀ acc t acc' t', t.Sized shape.length → next acc t = some (acc', t') → ∃ l, acc' = acc ++ l ∧
      Unrolled (orderAt unrollSpatialFirst shape.length) shape shape.length (k + 1)
        (sizeAt divisors shape alignment customChannelSplit) (totalAt divisors)
        (Region (orderAt unrollSpatialFirst shape.length) shape (k + 1) t) count t t' l)
    (h : unrollDimension customChannelSplit next d total sizes (List.range total.toNat) 0 acc tile =
      some (acc', tile')) :
    ∃ l, acc' = acc ++ l ∧ Unrolled (orderAt unrollSpatialFirst shape.length) shape shape.length k
      (sizeAt divisors shape alignment customChannelSplit) (totalAt divisors)
      (Region (orderAt unrollSpatialFirst shape.length) shape k tile)
      (totalAt divisors (orderAt unrollSpatialFirst shape.length k) * count) tile tile' l := by
  have horder : orderAt unrollSpatialFirst shape.length k = d := by
    unfold orderAt
    rw [hd]
    rfl
  have hlt := divideTileSizeAndInterval_lt hsizes
  have hne : ∀ j < k, orderAt unrollSpatialFirst shape.length j ≠ orderAt unrollSpatialFirst shape.length k := by
    intro j hj
    obtain ⟨d', hd', hne⟩ := dimensionAt_before hd hj
    rw [horder]
    unfold orderAt
    rw [hd']
    exact hne
  have htot : totalAt divisors d = total.toNat := by
    unfold totalAt
    rw [entry_of_getElem? htotal]
  obtain ⟨hshape, hpos, hsum, -⟩ := sizeAt_spec hsizes hlt (hdiv d hlt) hsplit
  rw [← horder] at hlt hshape hpos hsum htot h
  rw [range_eq_range', ← htot, ← @offsetAt_zero (sizeAt divisors shape alignment customChannelSplit
    (orderAt unrollSpatialFirst shape.length k))] at h
  obtain ⟨l, hl, hu⟩ := unrollDimension_spec hlt hne hnext hshape hpos hsum (Nat.zero_add _) hsized h
  refine ⟨l, hl, ?_⟩
  constructor
  · apply hu.region.congr
    intro c
    constructor
    · intro hr
      refine ⟨hr, ?_⟩
      rw [offsetAt_zero]
      exact ((inBox_iff.mp hr.1).2 _ hlt).1
    · exact And.left
  · exact hu.count
  · exact hu.kept
  · exact hu.left
  · exact hu.segments

theorem divideTiles_spec (hsplit : ValidSplit divisors shape customChannelSplit) {remaining k : ℕ} (hk : k + remaining + 1 = shape.length)
    {acc acc' : List TileInfo} {tile tile' : TileInfo} (hsized : tile.Sized shape.length)
    (h : divideTiles divisors shape alignment unrollSpatialFirst customChannelSplit remaining k acc tile =
      some (acc', tile')) :
    ∃ l, acc' = acc ++ l ∧ Unrolled (orderAt unrollSpatialFirst shape.length) shape shape.length k
      (sizeAt divisors shape alignment customChannelSplit) (totalAt divisors)
      (Region (orderAt unrollSpatialFirst shape.length) shape k tile)
      ((List.range' k (remaining + 1)).map fun j => totalAt divisors (orderAt unrollSpatialFirst shape.length j)).prod
      tile tile' l := by
  induction remaining generalizing k acc acc' tile tile' with
  | zero =>
    obtain ⟨d, hd, h⟩ := Option.bind_eq_some_iff.mp h
    obtain ⟨sizes, hsizes, h⟩ := Option.bind_eq_some_iff.mp h
    obtain ⟨total, htotal, h⟩ := Option.bind_eq_some_iff.mp h
    apply divideTiles_level hdiv hsplit hsized hd hsizes htotal _ h
    intro acc t acc' t' ht hpush
    cases hpush
    refine ⟨[t], rfl, ?_⟩
    constructor
    · apply Splits.single
      intro c
      rw [show shape.length = k + 1 by omega]
    · rfl
    · intro t' ht'
      rw [mem_singleton.mp ht']
      exact Agree.refl ht
    · exact Agree.refl ht
    · intro t' _ j hkj hj
      omega
  | succ remaining ih =>
    obtain ⟨d, hd, h⟩ := Option.bind_eq_some_iff.mp h
    obtain ⟨sizes, hsizes, h⟩ := Option.bind_eq_some_iff.mp h
    obtain ⟨total, htotal, h⟩ := Option.bind_eq_some_iff.mp h
    rw [range'_succ, map_cons, prod_cons]
    apply divideTiles_level hdiv hsplit hsized hd hsizes htotal _ h
    intro acc t acc' t' ht hnext
    exact ih (by omega) ht hnext

end

structure IsPartition (shape : List ℤ) (tiles : List TileInfo) : Prop where
  sizes : ∀ t ∈ tiles, t.shape.length = shape.length ∧ ∀ s ∈ t.shape, 0 < s
  splits : Splits (InBox shape) TileInfo.Contains tiles

theorem orderAt_perm (h : ∀ j < shape.length, dimensionAt unrollSpatialFirst shape.length j =
      some (orderAt unrollSpatialFirst shape.length j) ∧ orderAt unrollSpatialFirst shape.length j < shape.length) :
    ((List.range shape.length).map (orderAt unrollSpatialFirst shape.length)).Perm (List.range shape.length) := by
  have hnd : ((List.range shape.length).map (orderAt unrollSpatialFirst shape.length)).Nodup := by
    apply List.Nodup.map_on _ nodup_range
    have hlt : ∀ i j, j < shape.length → i < j →
        orderAt unrollSpatialFirst shape.length i ≠ orderAt unrollSpatialFirst shape.length j := by
      intro i j hj hij
      obtain ⟨d', hd', hne⟩ := dimensionAt_before (h j hj).1 hij
      unfold orderAt at hne ⊢
      rw [hd']
      exact hne
    intro i hi j hj he
    by_contra hij
    cases Nat.lt_or_gt_of_ne hij with
    | inl hlt' => exact hlt i j (mem_range.mp hj) hlt' he
    | inr hlt' => exact hlt j i (mem_range.mp hi) hlt' he.symm
  have hsub : (List.range shape.length).map (orderAt unrollSpatialFirst shape.length) ⊆ List.range shape.length := by
    intro d hd
    obtain ⟨j, hj, rfl⟩ := mem_map.mp hd
    exact mem_range.mpr (h j (mem_range.mp hj)).2
  exact (hnd.subperm hsub).perm_of_length_le (by simp)

theorem HasSegment.bounds {size : ℕ → ℤ} {total d : ℕ} {tile : TileInfo} (h : HasSegment size total d tile)
    (hpos : ∀ i < total, 0 < size i) :
    0 ≤ entry tile.offsets d ∧ 0 < entry tile.shape d ∧
      entry tile.offsets d + entry tile.shape d ≤ offsetAt size total := by
  obtain ⟨i, hi, hs, ho⟩ := h
  have h0 := offsetAt_le hpos (Nat.zero_le i) hi.le
  have h1 := offsetAt_le hpos (Nat.succ_le_of_lt hi) le_rfl
  rw [Nat.succ_eq_add_one, offsetAt_succ] at h1
  rw [hs, ho]
  exact ⟨h0, hpos i hi, h1⟩

theorem prod_totalAt (hdiv : ∀ d < shape.length, 1 ≤ entry divisors d) (hrank : divisors.length = shape.length) :
    ((((List.range shape.length).map (totalAt divisors)).prod : ℕ) : ℤ) = divisors.prod := by
  have hcast : ∀ l : List ℕ, (∀ d ∈ l, 1 ≤ entry divisors d) →
      (((l.map (totalAt divisors)).prod : ℕ) : ℤ) = (l.map (entry divisors)).prod := by
    intro l hl
    induction l with
    | nil => rfl
    | cons d l ih =>
      have hd := hl d mem_cons_self
      have hcast : ((totalAt divisors d : ℕ) : ℤ) = entry divisors d := by
        unfold totalAt
        omega
      rw [map_cons, prod_cons, map_cons, prod_cons, Nat.cast_mul, hcast,
        ih fun e he => hl e (mem_cons_of_mem _ he)]
  rw [hcast _ fun d hd => hdiv d (mem_range.mp hd), ← hrank, range_map_entry]

section
variable {alignment : Option (List ℤ)} {tiles : List TileInfo} (hrank : divisors.length = shape.length)
  (hdiv : ∀ d ∈ divisors, 1 ≤ d) (hsplit : ValidSplit divisors shape customChannelSplit)
  (h : fillDividedTiles divisors shape alignment unrollSpatialFirst customChannelSplit = some tiles)
include hrank hdiv hsplit h

theorem fillDividedTiles_segments : IsPartition shape tiles ∧ (tiles.length : ℤ) = divisors.prod ∧
      ∀ d < shape.length, (∃ sizes, divideTileSizeAndInterval d divisors shape
          (alignment.getD (List.replicate shape.length 1)) = some sizes) ∧
        ∀ t ∈ tiles, HasSegment
          (sizeAt divisors shape (alignment.getD (List.replicate shape.length 1)) customChannelSplit d)
          (totalAt divisors d) d t := by
  unfold fillDividedTiles at h
  simp only [Option.bind_eq_bind] at h
  split at h
  · cases h
  · next hnil =>
    obtain ⟨⟨dividedTiles, ongoingTile⟩, hdivide, h⟩ := Option.bind_eq_some_iff.mp h
    cases h
    have hpos : 0 < divisors.length := length_pos_iff.mpr hnil
    have hentry : ∀ d < shape.length, 1 ≤ entry divisors d := by
      intro d hd
      exact hdiv _ (entry_mem (hrank ▸ hd))
    have hsized : ({ TileInfo.ofRank divisors.length with isCompletedTile := true } : TileInfo).Sized shape.length := by
      constructor
      · exact length_replicate.trans hrank
      · exact length_replicate.trans hrank
    have hvalid := divideTiles_dimensions hentry hdivide
    obtain ⟨l, hl, hu⟩ := divideTiles_spec hentry hsplit (by omega) hsized hdivide
    rw [nil_append] at hl
    subst hl
    have hperm := @orderAt_perm shape unrollSpatialFirst fun j hj => by
      obtain ⟨hd, sizes, hsizes⟩ := hvalid j (by omega) (by omega)
      exact ⟨hd, divideTileSizeAndInterval_lt hsizes⟩
    -- every dimension is handled at some position
    have hdims : ∀ d < shape.length, ∃ j < shape.length, orderAt unrollSpatialFirst shape.length j = d := by
      intro d hd
      obtain ⟨j, hj, he⟩ := mem_map.mp (hperm.mem_iff.mpr (mem_range.mpr hd))
      exact ⟨j, mem_range.mp hj, he⟩
    have hsizes : ∀ d < shape.length, ∃ sizes, divideTileSizeAndInterval d divisors shape
        (alignment.getD (List.replicate shape.length 1)) = some sizes := by
      intro d hd
      obtain ⟨j, hj, rfl⟩ := hdims d hd
      exact (hvalid j (by omega) (by omega)).2
    have hsegment : ∀ t ∈ dividedTiles, ∀ d < shape.length, HasSegment
        (sizeAt divisors shape (alignment.getD (List.replicate shape.length 1)) customChannelSplit d)
        (totalAt divisors d) d t := by
      intro t ht d hd
      obtain ⟨j, hj, rfl⟩ := hdims d hd
      exact hu.segments t ht j (Nat.zero_le j) hj
    have hbounds : ∀ t ∈ dividedTiles, ∀ d < shape.length, 0 ≤ entry t.offsets d ∧ 0 < entry t.shape d ∧
        entry t.offsets d + entry t.shape d ≤ entry shape d := by
      intro t ht d hd
      obtain ⟨sizes, hs⟩ := hsizes d hd
      obtain ⟨-, hp, hsum, -⟩ := sizeAt_spec hs hd (hentry d hd) hsplit
      rw [← hsum]
      exact (hsegment t ht d hd).bounds hp
    have hlen : ∀ t ∈ dividedTiles, t.shape.length = shape.length := fun t ht => (hu.kept t ht).1.1
    have hcontains : ∀ t ∈ dividedTiles, ∀ c, Region (orderAt unrollSpatialFirst shape.length) shape shape.length t c ↔
        t.Contains c := by
      intro t ht c
      unfold Region TileInfo.Contains
      rw [hlen t ht]
      constructor
      · rintro ⟨hbox, hr⟩
        refine ⟨hbox.length, fun d hd => ?_⟩
        obtain ⟨j, hj, rfl⟩ := hdims d hd
        exact hr j hj
      · rintro ⟨hc, hr⟩
        refine ⟨inBox_iff.mpr ⟨hc, fun d hd => ?_⟩, fun j hj => ?_⟩
        · have hb := hbounds t ht d hd
          have hd' := hr d hd
          unfold TileInfo.InRange at hd'
          omega
        · exact hr _ (mem_range.mp (hperm.mem_iff.mp (mem_map_of_mem (mem_range.mpr hj))))
    refine ⟨⟨fun t ht => ⟨hlen t ht, fun s hs => ?_⟩, ?_⟩, ?_, ?_⟩
    · obtain ⟨d, hd, rfl⟩ := mem_iff_getElem.mp hs
      rw [← entry_of_lt hd]
      exact (hbounds t ht d (hlen t ht ▸ hd)).2.1
    · apply (hu.region.congr_part hcontains).congr
      intro c
      exact ⟨fun hc => ⟨hc, fun j hj => absurd hj (Nat.not_lt_zero j)⟩, And.left⟩
    · rw [hu.count, ← prod_totalAt hentry hrank, show divisors.length - 1 + 1 = shape.length by omega,
        ← range_eq_range', ← (hperm.map (totalAt divisors)).prod_eq, map_map]
      rfl
    · intro d hd
      exact ⟨hsizes d hd, fun t ht => hsegment t ht d hd⟩

theorem fillDividedTiles_spec : IsPartition shape tiles ∧ (tiles.length : ℤ) = divisors.prod ∧
      ∀ t ∈ tiles, ∀ d < shape.length, (customChannelSplit = none ∨ d ≠ dimC) →
        max (entry (alignment.getD (List.replicate shape.length 1)) d) 1 ∣ entry t.shape d ∨
          entry t.offsets d + entry t.shape d = entry shape d := by
  obtain ⟨hpart, hcount, hsegments⟩ := fillDividedTiles_segments hrank hdiv hsplit h
  refine ⟨hpart, hcount, fun t ht d hd hcustom => ?_⟩
  obtain ⟨⟨sizes, hs⟩, hsegment⟩ := hsegments d hd
  obtain ⟨-, -, hsum, haligned⟩ := sizeAt_spec hs hd (hdiv _ (entry_mem (hrank ▸ hd))) hsplit
  obtain ⟨i, hi, hsi, hoi⟩ := hsegment t ht
  rw [hsi, hoi]
  by_cases hlast : i + 1 < totalAt divisors d
  · exact Or.inl (haligned hcustom i hlast)
  · right
    rw [← offsetAt_succ, ← hsum]
    exact congrArg _ (by omega)

end

end

end NpuCompiler.Tiling
