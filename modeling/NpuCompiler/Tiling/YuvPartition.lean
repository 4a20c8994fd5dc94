import NpuCompiler.Tiling.OutputPartition

namespace NpuCompiler.Tiling

open MixedRadix Partition List Option

section
variable {total d : ℕ} {size : ℕ → ℤ} {shapeVal : ℤ}

theorem exists_segment {x : ℤ} (h0 : 0 ≤ x) (hx : x < offsetAt size total) :
    ∃ i < total, offsetAt size i ≤ x ∧ x < offsetAt size i + size i := by
  induction total with
  | zero =>
    rw [offsetAt_zero] at hx
    omega
  | succ n ih =>
    by_cases hlt : x < offsetAt size n
    · obtain ⟨i, hi, hb⟩ := ih hlt
      exact ⟨i, by omega, hb⟩
    · rw [offsetAt_succ] at hx
      exact ⟨n, by omega, not_lt.mp hlt, hx⟩

theorem segments_split {κ : Type} {region : List ℤ → Prop} {part : κ → List ℤ → Prop} {f : ℕ → κ}
    (hpos : ∀ i < total, 0 < size i) (hsum : offsetAt size total = shapeVal)
    (hregion : ∀ c, region c → 0 ≤ entry c d ∧ entry c d < shapeVal)
    (hpart : ∀ i < total, ∀ c, part (f i) c ↔
      region c ∧ offsetAt size i ≤ entry c d ∧ entry c d < offsetAt size i + size i) :
    Splits region part ((List.range total).map f) where
  inside := by
    intro t ht c hc
    obtain ⟨i, hi, rfl⟩ := mem_map.mp ht
    exact ((hpart i (mem_range.mp hi) c).mp hc).1
  covers := by
    intro c hc
    obtain ⟨h0, hlt⟩ := hregion c hc
    obtain ⟨i, hi, hb⟩ := exists_segment h0 (hsum ▸ hlt)
    exact ⟨f i, mem_map.mpr ⟨i, mem_range.mpr hi, rfl⟩, (hpart i hi c).mpr ⟨hc, hb⟩⟩
  disjoint := by
    apply pairwise_map.mpr
    apply pairwise_lt_range.imp_of_mem
    intro i j hi hj hij c hc hc'
    have hj := mem_range.mp hj
    have hle := offsetAt_le hpos (Nat.succ_le_of_lt hij) hj.le
    rw [Nat.succ_eq_add_one, offsetAt_succ] at hle
    have h1 := ((hpart i (by omega) c).mp hc).2.2
    have h2 := ((hpart j hj c).mp hc').2.1
    omega

end

section
variable {shapeVal divisorVal : ℤ} {sizes : ℤ × ℤ × ℤ} {tile : TileInfo} {d : ℕ}

def yuvSize (sizes : ℤ × ℤ × ℤ) (i : ℕ) : ℤ := if (i : ℤ) < sizes.2.1 then sizes.1 else sizes.2.2

def yuvTotal (sizes : ℤ × ℤ × ℤ) : ℕ := sizes.2.1.toNat + if sizes.2.2 ≠ 0 then 1 else 0

structure YuvSizes (shapeVal : ℤ) (sizes : ℤ × ℤ × ℤ) : Prop where
  tileSize_pos : 0 < sizes.1
  even : 2 ∣ sizes.1
  count_nonneg : 0 ≤ sizes.2.1
  rest_nonneg : 0 ≤ sizes.2.2
  sum : sizes.1 * sizes.2.1 + sizes.2.2 = shapeVal

theorem tileSizeYuvToRgb_spec (h1 : 1 ≤ divisorVal) (hle : divisorVal ≤ shapeVal) :
    ∃ sizes, tileSizeYuvToRgb shapeVal divisorVal = some sizes ∧ YuvSizes shapeVal sizes := by
  have hs : 0 ≤ shapeVal := by linarith
  have hq : 1 ≤ shapeVal / divisorVal := Int.le_ediv_of_mul_le (by linarith) (by linarith)
  unfold tileSizeYuvToRgb checkedDiv
  rw [if_neg (by linarith), Int.tdiv_eq_ediv_of_nonneg hs]
  simp only [bind_eq_bind, bind_some]
  rw [Int.tmod_eq_emod_of_nonneg (by linarith : 0 ≤ shapeVal / divisorVal)]
  -- the size is rounded up to an even number
  have hpos : 0 < shapeVal / divisorVal + shapeVal / divisorVal % 2 := by omega
  rw [if_neg hpos.ne', bind_some, Int.tdiv_eq_ediv_of_nonneg hs, Int.tmod_eq_emod_of_nonneg hs]
  refine ⟨_, rfl, ?_⟩
  constructor
  · exact hpos
  · dsimp only
    omega
  · exact Int.ediv_nonneg hs hpos.le
  · exact Int.emod_nonneg _ hpos.ne'
  · exact Int.mul_ediv_add_emod _ _

theorem YuvSizes.offsetAt_le (n : ℕ) (h : (n : ℤ) ≤ sizes.2.1) : offsetAt (yuvSize sizes) n = sizes.1 * n := by
  induction n with
  | zero => simp
  | succ n ih =>
    push_cast at h
    rw [offsetAt_succ, ih (by linarith), yuvSize, if_pos (by linarith)]
    push_cast
    ring

section
variable (h : YuvSizes shapeVal sizes)
include h

theorem YuvSizes.offsetAt_total : offsetAt (yuvSize sizes) (yuvTotal sizes) = shapeVal := by
  have hn := h.count_nonneg
  have hcast : ((sizes.2.1.toNat : ℕ) : ℤ) = sizes.2.1 := by omega
  have hfull := @YuvSizes.offsetAt_le sizes sizes.2.1.toNat (by omega)
  rw [hcast] at hfull
  unfold yuvTotal
  split
  · rw [offsetAt_succ, hfull, yuvSize, if_neg (by omega)]
    exact h.sum
  · next hz =>
    rw [add_zero, hfull, ← h.sum, not_not.mp hz, add_zero]

theorem YuvSizes.pos : ∀ i < yuvTotal sizes, 0 < yuvSize sizes i := by
  intro i hi
  have hn := h.count_nonneg
  have hr := h.rest_nonneg
  unfold yuvTotal at hi
  unfold yuvSize
  split
  · exact h.tileSize_pos
  · split at hi
    · omega
    · omega

theorem YuvSizes.even_size (heven : 2 ∣ shapeVal) (i : ℕ) : 2 ∣ yuvSize sizes i := by
  have hfull := dvd_mul_of_dvd_left h.even sizes.2.1
  have hsum := h.sum
  unfold yuvSize
  split
  · exact h.even
  · rw [← hsum] at heven
    exact (Int.dvd_add_right hfull).mp heven

theorem unrollYuvToRgb_eq : unrollYuvToRgb d sizes tile =
    (List.range (yuvTotal sizes)).map fun i => setTile tile d (yuvSize sizes i) (offsetAt (yuvSize sizes) i) := by
  have hn := h.count_nonneg
  have hcast : ((sizes.2.1.toNat : ℕ) : ℤ) = sizes.2.1 := by omega
  have hfull : ∀ i ∈ List.range sizes.2.1.toNat, setTile tile d sizes.1 (sizes.1 * i) =
      setTile tile d (yuvSize sizes i) (offsetAt (yuvSize sizes) i) := by
    intro i hi
    have hi := mem_range.mp hi
    rw [YuvSizes.offsetAt_le i (by omega), yuvSize, if_pos (by omega)]
  unfold unrollYuvToRgb yuvTotal
  rw [map_congr_left hfull]
  split
  · rw [range_succ, map_append, map_singleton, YuvSizes.offsetAt_le _ (by omega), yuvSize,
      if_neg (by omega), hcast]
  · rw [append_nil, add_zero]

theorem YuvSizes.segment_le {i : ℕ} (hi : i < yuvTotal sizes) :
    0 ≤ offsetAt (yuvSize sizes) i ∧ offsetAt (yuvSize sizes) i + yuvSize sizes i ≤ shapeVal := by
  have h0 := Tiling.offsetAt_le h.pos (Nat.zero_le i) hi.le
  have h1 := Tiling.offsetAt_le h.pos (Nat.succ_le_of_lt hi) le_rfl
  rw [Nat.succ_eq_add_one, offsetAt_succ, h.offsetAt_total] at h1
  exact ⟨h0, h1⟩

end

def yuvTiles (n w : ℤ) (axis : List ℤ) (sizesC sizesH : ℤ × ℤ × ℤ) : List TileInfo :=
  (List.range (yuvTotal sizesC)).flatMap fun i => (List.range (yuvTotal sizesH)).map fun j =>
    ⟨[n, yuvSize sizesC i, yuvSize sizesH j, w], [0, offsetAt (yuvSize sizesC) i, offsetAt (yuvSize sizesH) j, 0],
      axis, true⟩

theorem yuvTiles_splits {n c h w : ℤ} {axis : List ℤ} {sizesC sizesH : ℤ × ℤ × ℤ} (hC : YuvSizes c sizesC)
    (hH : YuvSizes h sizesH) : Splits (InBox [n, c, h, w]) TileInfo.Contains (yuvTiles n w axis sizesC sizesH) := by
  let inRange : ℕ → List ℤ → Prop := fun i v => InBox [n, c, h, w] v ∧
    offsetAt (yuvSize sizesC) i ≤ entry v dimC ∧ entry v dimC < offsetAt (yuvSize sizesC) i + yuvSize sizesC i
  have houter : Splits (InBox [n, c, h, w]) inRange (List.range (yuvTotal sizesC)) := by
    rw [← map_id (List.range (yuvTotal sizesC))]
    apply segments_split hC.pos hC.offsetAt_total
    · intro v hv
      exact (inBox_iff.mp hv).2 1 (by simp)
    · intro i _ v
      rfl
  apply houter.flatMap
  intro i hi
  obtain ⟨hi0, hi1⟩ := hC.segment_le (mem_range.mp hi)
  apply segments_split hH.pos hH.offsetAt_total
  · intro v hv
    exact (inBox_iff.mp hv.1).2 2 (by simp)
  · intro j hj v
    obtain ⟨hj0, hj1⟩ := hH.segment_le hj
    unfold TileInfo.Contains TileInfo.InRange
    simp only [inRange, inBox_iff, length_cons, length_nil, Nat.reduceAdd, zero_add, forall_lt_four]
    simp only [entry, getD_cons_zero, getD_cons_succ, dimC]
    omega

theorem fillDividedTilesYuvToRgbOp_eq {n c h w dN dC dH dW : ℤ} {sizesC sizesH : ℤ × ℤ × ℤ}
    (hC : tileSizeYuvToRgb c dC = some sizesC) (hH : tileSizeYuvToRgb h dH = some sizesH)
    (hC' : YuvSizes c sizesC) (hH' : YuvSizes h sizesH) :
    fillDividedTilesYuvToRgbOp [dN, dC, dH, dW] [n, c, h, w] = some (yuvTiles n w [dN, dC, dH, dW] sizesC sizesH) := by
  unfold fillDividedTilesYuvToRgbOp divideTilesYuvToRgbOp yuvTiles
  simp only [dimC, dimH, dimW, getElem?_cons_zero, getElem?_cons_succ, bind_eq_bind,
    bind_some, hC, hH]
  rw [unrollYuvToRgb_eq hC', flatMap_map]
  simp only [unrollYuvToRgb_eq hH']
  rfl

theorem fillDividedTilesYuvToRgbOp_spec {divisors shape : List ℤ} (hs : shape.length = 4) (hd : divisors.length = 4)
    (h1 : ∀ d ∈ divisors, 1 ≤ d) (hle : ∀ d < 4, entry divisors d ≤ entry shape d) :
    ∃ tiles, fillDividedTilesYuvToRgbOp divisors shape = some tiles ∧ IsPartition shape tiles ∧
      (2 ∣ entry shape dimC → ∀ t ∈ tiles, 2 ∣ entry t.shape dimC) ∧
      (2 ∣ entry shape dimH → ∀ t ∈ tiles, 2 ∣ entry t.shape dimH) := by
  obtain ⟨n, c, h, w, rfl⟩ := length_eq_four.mp hs
  obtain ⟨dN, dC, dH, dW, rfl⟩ := length_eq_four.mp hd
  simp only [mem_cons, not_mem_nil, or_false, forall_eq_or_imp, forall_eq] at h1
  rw [forall_lt_four] at hle
  simp only [entry, getD_cons_zero, getD_cons_succ] at hle
  obtain ⟨sizesC, hC, hC'⟩ := tileSizeYuvToRgb_spec h1.2.1 hle.2.1
  obtain ⟨sizesH, hH, hH'⟩ := tileSizeYuvToRgb_spec h1.2.2.1 hle.2.2.1
  have hmem : ∀ t ∈ yuvTiles n w [dN, dC, dH, dW] sizesC sizesH, ∃ i < yuvTotal sizesC, ∃ j < yuvTotal sizesH,
      t.shape = [n, yuvSize sizesC i, yuvSize sizesH j, w] := by
    intro t ht
    obtain ⟨i, hi, ht⟩ := mem_flatMap.mp ht
    obtain ⟨j, hj, rfl⟩ := mem_map.mp ht
    exact ⟨i, mem_range.mp hi, j, mem_range.mp hj, rfl⟩
  refine ⟨_, fillDividedTilesYuvToRgbOp_eq hC hH hC' hH', ⟨?_, yuvTiles_splits hC' hH'⟩, ?_, ?_⟩
  · intro t ht
    obtain ⟨i, hi, j, hj, he⟩ := hmem t ht
    have hci := hC'.pos i hi
    have hhj := hH'.pos j hj
    rw [he]
    refine ⟨rfl, ?_⟩
    simp only [mem_cons, not_mem_nil, or_false, forall_eq_or_imp, forall_eq]
    omega
  · intro heven t ht
    obtain ⟨i, -, j, -, he⟩ := hmem t ht
    rw [he]
    exact hC'.even_size heven i
  · intro heven t ht
    obtain ⟨i, -, j, -, he⟩ := hmem t ht
    rw [he]
    exact hH'.even_size heven j

end

/-- The tiles of both divisions partition the shape. -/
theorem dividedTiles_partition : (∀ (divisors shape : List ℤ) (alignment : Option (List ℤ)) (unrollSpatialFirst : Bool)
      (customChannelSplit : Option (List ℤ)) (tiles : List TileInfo), divisors.length = shape.length →
      (∀ d ∈ divisors, 1 ≤ d) → ValidSplit divisors shape customChannelSplit →
      fillDividedTiles divisors shape alignment unrollSpatialFirst customChannelSplit = some tiles →
      IsPartition shape tiles ∧ (tiles.length : ℤ) = divisors.prod ∧
        ∀ alignmentShape, alignment = some alignmentShape → ∀ d < shape.length, 1 < entry alignmentShape d →
          (customChannelSplit = none ∨ d ≠ dimC) → ∀ t ∈ tiles,
            entry alignmentShape d ∣ entry t.shape d ∨ entry t.offsets d + entry t.shape d = entry shape d) ∧
    (∀ divisors shape : List ℤ, shape.length = 4 → divisors.length = 4 → (∀ d ∈ divisors, 1 ≤ d) →
      (∀ d < 4, entry divisors d ≤ entry shape d) →
      ∃ tiles, fillDividedTilesYuvToRgbOp divisors shape = some tiles ∧ IsPartition shape tiles ∧
        (2 ∣ entry shape dimC → ∀ t ∈ tiles, 2 ∣ entry t.shape dimC) ∧
        (2 ∣ entry shape dimH → ∀ t ∈ tiles, 2 ∣ entry t.shape dimH)) := by
  constructor
  · intro divisors shape alignment unrollSpatialFirst customChannelSplit tiles hrank hdiv hsplit h
    obtain ⟨hpart, hcount, haligned⟩ := fillDividedTiles_spec hrank hdiv hsplit h
    refine ⟨hpart, hcount, ?_⟩
    intro alignmentShape hal d hd hlt hcustom t ht
    have ha := haligned t ht d hd hcustom
    rw [hal, getD_some, max_eq_left hlt.le] at ha
    exact ha
  · intro divisors shape hs hd h1 hle
    exact fillDividedTilesYuvToRgbOp_spec hs hd h1 hle

theorem dividedTiles_partition_split :
    ∃ tiles, fillDividedTiles [1, 2, 2, 1] [1, 48, 9, 3] (some [1, 16, 2, 1]) true (some [32, 16]) = some tiles ∧
      IsPartition [1, 48, 9, 3] tiles := by
  refine ⟨_, rfl, (dividedTiles_partition.1 [1, 2, 2, 1] [1, 48, 9, 3] (some [1, 16, 2, 1]) true (some [32, 16]) _ rfl
    (by decide) ?_ rfl).1⟩
  intro split hsplit _
  rw [← Option.some.inj hsplit]
  decide

/-- A custom split sums to the channels, but its tiles need not be aligned, not empty, or as many as the divisor. -/
theorem customChannelSplit_not_aligned :
    (∃ tiles, fillDividedTiles [1, 2, 1, 1] [1, 8, 1, 1] (some [1, 4, 1, 1]) false (some [3, 5]) = some tiles ∧
      ∃ t ∈ tiles, ¬4 ∣ entry t.shape dimC ∧ entry t.offsets dimC + entry t.shape dimC ≠ 8) ∧
    (∃ tiles, fillDividedTiles [1, 2, 1, 1] [1, 8, 1, 1] none false (some [0, 8]) = some tiles ∧
      ∃ t ∈ tiles, entry t.shape dimC = 0) ∧
    (∃ tiles, fillDividedTiles [1, 2, 1, 1] [1, 8, 1, 1] none false (some [4, 2, 2]) = some tiles ∧
      ∀ t ∈ tiles, ¬t.Contains [0, 7, 0, 0]) := by
  refine ⟨⟨_, rfl, _, mem_cons_self, by decide, by decide⟩, ⟨_, rfl, _, mem_cons_self, by decide⟩,
    ⟨_, rfl, ?_⟩⟩
  unfold TileInfo.Contains TileInfo.InRange
  decide

end NpuCompiler.Tiling
