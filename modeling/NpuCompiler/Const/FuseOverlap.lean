import NpuCompiler.Const.FuseSlices

namespace NpuCompiler.Const

open MixedRadix Chunks List

def SliceKept (subViewStart subViewEnd constantStart : ℤ) (c : FusedConstant) : Prop :=
  let constantEnd := constantStart + c.byteSize
  let first := max subViewStart constantStart
  let last := min subViewEnd constantEnd
  first < last →
    (constantStart ≤ subViewStart ∨ subViewEnd < constantEnd) ∧ (c.elemBits : ℤ) ∣ (first - constantStart) * 8 ∧
      (c.elemBits : ℤ) ∣ (last - first) * 8 ∧
      c.InPlace ((first - constantStart) * 8 / c.elemBits) ((last - first) * 8 / c.elemBits)

def newBits (subViewStart subViewEnd constantStart : ℤ) (c : FusedConstant) (raw : List Bool) : List Bool :=
  match getNewConstant subViewStart subViewEnd c constantStart with
  | some (some ts) => foldConstant raw (c, ts)
  | _ => []

def keptBits (subViewStart subViewEnd constantStart : ℤ) (raw : List Bool) : List Bool :=
  cut ((subViewStart - constantStart) * 8).toNat ((subViewEnd - constantStart) * 8).toNat raw

section
variable {c : FusedConstant} {subViewStart subViewEnd constantStart : ℤ}

structure InBuffer (subViewStart subViewEnd constantStart : ℤ) (c : FusedConstant) : Prop where
  start_nonneg : 0 ≤ subViewStart
  start_lt : subViewStart < subViewEnd
  constant_nonneg : 0 ≤ constantStart

/-- For a constant that is taken to overlap the SubView: the ends of the overlap and the element counts fit an `int`. -/
def FitsInt (subViewStart subViewEnd constantStart : ℤ) (c : FusedConstant) : Prop :=
  let constantEnd := constantStart + c.byteSize
  let first := max subViewStart constantStart
  let last := min subViewEnd constantEnd
  constantStart ≤ subViewStart ∧ subViewStart < constantEnd ∨ constantStart < subViewEnd ∧ subViewEnd < constantEnd →
    last < 2 ^ 31 ∧ c.CountsFit ((first - constantStart) * 8 / c.elemBits) ((last - first) * 8 / c.elemBits)

theorem FusedConstant.byteSize_pos (c : FusedConstant) : 0 < c.byteSize := by
  have hbits : (0 : ℤ) < c.elemBits := by exact_mod_cast c.elemBits_pos
  have := mul_pos c.prod_pos hbits
  have := c.bits_eq
  omega

theorem getNewConstant_of_outside (h : ¬ (constantStart ≤ subViewStart ∧ subViewStart < constantStart + c.byteSize ∨
    constantStart < subViewEnd ∧ subViewEnd < constantStart + c.byteSize)) :
    getNewConstant subViewStart subViewEnd c constantStart = some none := by
  have hbounds : getOverlapRegionBounds constantStart (constantStart + c.byteSize) subViewStart subViewEnd = (0, 0) := by
    rw [getOverlapRegionBounds, if_neg fun h' => h h'.2.2]
  rw [getNewConstant, hbounds]
  rfl

theorem getNewConstant_of_overlap (h : InBuffer subViewStart subViewEnd constantStart c)
    (ho : constantStart ≤ subViewStart ∧ subViewStart < constantStart + c.byteSize ∨
      constantStart < subViewEnd ∧ subViewEnd < constantStart + c.byteSize)
    (hsmall : min subViewEnd (constantStart + c.byteSize) < 2 ^ 31) :
    getNewConstant subViewStart subViewEnd c constantStart =
      (sliceConstant c ((max subViewStart constantStart - constantStart) * 8 / c.elemBits)
        ((min subViewEnd (constantStart + c.byteSize) - max subViewStart constantStart) * 8 / c.elemBits)).map some := by
  have hpos := c.byteSize_pos
  have h0 := h.start_nonneg
  have hlt := h.start_lt
  have hc0 := h.constant_nonneg
  have hfirst : (if constantStart ≤ subViewStart then subViewStart else constantStart) =
      max subViewStart constantStart := by
    split <;> omega
  have hlast : (if constantStart + c.byteSize ≤ subViewEnd then constantStart + c.byteSize else subViewEnd) =
      min subViewEnd (constantStart + c.byteSize) := by
    split <;> omega
  have hbounds : getOverlapRegionBounds constantStart (constantStart + c.byteSize) subViewStart subViewEnd =
      (max subViewStart constantStart, min subViewEnd (constantStart + c.byteSize)) := by
    rw [getOverlapRegionBounds, if_pos ⟨by omega, hlt, ho⟩, hfirst, hlast, toInt_of_lt (by omega) (by omega),
      toInt_of_lt (by omega) (by omega)]
  rw [getNewConstant, hbounds]
  dsimp only
  rw [if_neg (by omega), Int.tdiv_eq_ediv_of_nonneg (by omega), Int.tdiv_eq_ediv_of_nonneg (by omega)]

theorem slice_bounds {first last : ℤ} (h0 : 0 ≤ first) (hlt : first < last) (hle : last ≤ c.byteSize) :
    0 ≤ first * 8 / c.elemBits ∧ 0 ≤ (last - first) * 8 / c.elemBits ∧
      (last - first) * 8 / c.elemBits + first * 8 / c.elemBits ≤ c.type.shape.prod ∧
      8 ∣ ((last - first) * 8 / c.elemBits).toNat * c.elemBits := by
  have hbits : (0 : ℤ) < c.elemBits := by exact_mod_cast c.elemBits_pos
  have hcount : 0 ≤ (last - first) * 8 / c.elemBits := Int.ediv_nonneg (by omega) hbits.le
  refine ⟨Int.ediv_nonneg (by omega) hbits.le, hcount, ?_, ?_⟩
  · have h1 := Int.ediv_mul_le (first * 8) hbits.ne'
    have h2 := Int.ediv_mul_le ((last - first) * 8) hbits.ne'
    have hall := c.bits_eq
    apply le_of_mul_le_mul_right _ hbits
    rw [add_mul]
    linarith
  · cases c.elemBits_dvd with
    | inl h => exact Dvd.dvd.mul_left h _
    | inr h =>
      have hdvd : (c.elemBits : ℤ) ∣ (last - first) * 8 := by
        apply Dvd.dvd.mul_left
        exact_mod_cast h
      have hexact := Int.ediv_mul_cancel hdvd
      zify
      rw [Int.toNat_of_nonneg hcount, hexact]
      exact Dvd.intro_left _ rfl

theorem length_raw (c : FusedConstant) : (c.type.shape.prod * (c.elemBits : ℤ)).toNat = (c.byteSize * 8).toNat := by
  rw [c.bits_eq]

theorem rangeBits_iff {first last : ℤ} {d : ℕ} (h0 : 0 ≤ first) (hle : last ≤ c.byteSize)
    (hcount : 0 < (last - first) * 8 / c.elemBits)
    (hd : IsSliced c.type.shape ((last - first) * 8 / c.elemBits + first * 8 / c.elemBits) d) :
    (∀ raw : List Bool, raw.length = (c.byteSize * 8).toNat →
      rangeBits c d (first * 8 / c.elemBits) ((last - first) * 8 / c.elemBits) raw =
        cut (first * 8).toNat (last * 8).toNat raw) ↔
      (c.elemBits : ℤ) ∣ first * 8 ∧ (c.elemBits : ℤ) ∣ (last - first) * 8 ∧
        c.InPlace (first * 8 / c.elemBits) ((last - first) * 8 / c.elemBits) := by
  let start := first * 8 / (c.elemBits : ℤ)
  let count := (last - first) * 8 / (c.elemBits : ℤ)
  let firstRow := start / weight c.type.shape d
  let rows := -(-(count + start) / weight c.type.shape d) - firstRow
  let place := fun k : ℤ => c.rowPlace d firstRow rows (start - firstRow * weight c.type.shape d + k)
  have hbits : (0 : ℤ) < c.elemBits := by exact_mod_cast c.elemBits_pos
  have hstart : 0 ≤ start := Int.ediv_nonneg (by omega) hbits.le
  have hrows : HoldsRange c d start count firstRow rows := holdsRange hd hstart hcount
  have hlt : first < last := by
    by_contra hneg
    have hnonpos := Int.ediv_le_ediv hbits (show (last - first) * 8 ≤ 0 by omega)
    rw [Int.zero_ediv] at hnonpos
    omega
  have hplace0 : ∀ k, 0 ≤ place k := fun k => (rowPlace_bounds hrows _).1
  have hfit : ∀ k < count.toNat, ((place k).toNat + 1) * c.elemBits ≤ (c.byteSize * 8).toNat := by
    intro k _
    have hlen : (List.replicate (c.byteSize * 8).toNat false).length = (c.byteSize * 8).toNat := length_replicate
    rw [← hlen]
    exact place_bits hrows (by rw [hlen, length_raw]) _
  have hiff := gather_eq_cut_iff c.elemBits_pos hfit (show (first * 8).toNat ≤ (last * 8).toNat by omega) (by omega)
  refine hiff.trans ?_
  constructor
  · rintro ⟨hlen, hpos⟩
    have hlen' : count * c.elemBits = (last - first) * 8 := by
      have hcast : ((count.toNat * c.elemBits : ℕ) : ℤ) = ((last * 8).toNat - (first * 8).toNat : ℕ) := by rw [hlen]
      rw [Nat.cast_mul, Int.toNat_of_nonneg hcount.le] at hcast
      refine hcast.trans ?_
      omega
    have hpos' : ∀ k, 0 ≤ k → k < count → place k * c.elemBits = first * 8 + k * c.elemBits := by
      intro k hk0 hk
      have hk' := congrArg (Nat.cast : ℕ → ℤ) (hpos k.toNat (by omega))
      rw [Nat.cast_mul, Nat.cast_add, Nat.cast_mul, Int.toNat_of_nonneg hk0, Int.toNat_of_nonneg (hplace0 k),
        Int.toNat_of_nonneg (by omega)] at hk'
      exact hk'
    have hdvd : (c.elemBits : ℤ) ∣ first * 8 := by
      have hzero := hpos' 0 le_rfl hcount
      rw [zero_mul, add_zero] at hzero
      exact Dvd.intro_left _ hzero
    have hexact : start * c.elemBits = first * 8 := Int.ediv_mul_cancel hdvd
    refine ⟨hdvd, Dvd.intro_left _ hlen', ?_⟩
    intro e he stride firstRow' rows' k hk0 hk
    have hde := he.unique c.type.shape_pos hd
    subst hde
    apply Int.eq_of_mul_eq_mul_right hbits.ne'
    rw [add_mul]
    change place k * c.elemBits = start * c.elemBits + k * c.elemBits
    rw [hexact]
    exact hpos' k hk0 hk
  · rintro ⟨hdvd, hdvd', hin⟩
    have hexact : start * c.elemBits = first * 8 := Int.ediv_mul_cancel hdvd
    have hexact' : count * c.elemBits = (last - first) * 8 := Int.ediv_mul_cancel hdvd'
    constructor
    · zify [show (first * 8).toNat ≤ (last * 8).toNat by omega]
      rw [Int.toNat_of_nonneg hcount.le, Int.toNat_of_nonneg (by omega), Int.toNat_of_nonneg (by omega), hexact']
      ring
    · intro k hk
      have hplace : place k = start + k := hin d hd k (Int.natCast_nonneg k) (by omega)
      rw [hplace]
      zify
      rw [Int.toNat_of_nonneg (by omega), Int.toNat_of_nonneg (by omega), add_mul, hexact]

theorem newBits_iff (h : InBuffer subViewStart subViewEnd constantStart c)
    (hint : FitsInt subViewStart subViewEnd constantStart c) :
    (∃ result, getNewConstant subViewStart subViewEnd c constantStart = some result) ∧
      (∀ raw : List Bool, raw.length = (c.byteSize * 8).toNat →
        (newBits subViewStart subViewEnd constantStart c raw).length ≤
          (keptBits subViewStart subViewEnd constantStart raw).length) ∧
      ((∀ raw : List Bool, raw.length = (c.byteSize * 8).toNat →
        newBits subViewStart subViewEnd constantStart c raw = keptBits subViewStart subViewEnd constantStart raw) ↔
          SliceKept subViewStart subViewEnd constantStart c) := by
  let first := max subViewStart constantStart - constantStart
  let last := min subViewEnd (constantStart + c.byteSize) - constantStart
  have hpos := c.byteSize_pos
  have h0 := h.start_nonneg
  have hlt := h.start_lt
  have hc0 := h.constant_nonneg
  have hkept (raw : List Bool) (hraw : raw.length = (c.byteSize * 8).toNat) :
      keptBits subViewStart subViewEnd constantStart raw = cut (first * 8).toNat (last * 8).toNat raw := by
    have hfirst : ((subViewStart - constantStart) * 8).toNat = (first * 8).toNat := by omega
    have hlast : (last * 8).toNat = min ((subViewEnd - constantStart) * 8).toNat raw.length := by omega
    rw [keptBits, hfirst, hlast, cut_min]
  by_cases ho : constantStart ≤ subViewStart ∧ subViewStart < constantStart + c.byteSize ∨
      constantStart < subViewEnd ∧ subViewEnd < constantStart + c.byteSize
  · have hoverlap : max subViewStart constantStart < min subViewEnd (constantStart + c.byteSize) := by omega
    have hle : last ≤ c.byteSize := by omega
    have hfirst0 : 0 ≤ first := by omega
    have hdiff : min subViewEnd (constantStart + c.byteSize) - max subViewStart constantStart = last - first := by omega
    obtain ⟨hsmall, hfit⟩ := hint ho
    have hnew := getNewConstant_of_overlap h ho hsmall
    rw [hdiff] at hnew hfit
    have hbounds := slice_bounds (c := c) hfirst0 (show first < last by omega) hle
    have hcond : SliceKept subViewStart subViewEnd constantStart c ↔ (c.elemBits : ℤ) ∣ first * 8 ∧
        (c.elemBits : ℤ) ∣ (last - first) * 8 ∧
        c.InPlace (first * 8 / c.elemBits) ((last - first) * 8 / c.elemBits) := by
      unfold SliceKept
      dsimp only
      rw [hdiff]
      constructor
      · intro hs
        exact (hs hoverlap).2
      · intro hs _
        exact ⟨by omega, hs⟩
    rw [hcond]
    by_cases hcount : 0 < (last - first) * 8 / (c.elemBits : ℤ)
    · obtain ⟨d, _, hd⟩ := findDimensionToSlice_spec hbounds.2.2.1 c.type.shape.length le_rfl (.inl ⟨c.rank_pos, rfl⟩)
      obtain ⟨ts, hts, hfold⟩ := sliceConstant_eq hd hbounds.1 hcount hfit hbounds.2.2.2
      change getNewConstant _ _ _ _ = (sliceConstant c (first * 8 / (c.elemBits : ℤ)) _).map some at hnew
      rw [hts, Option.map_some] at hnew
      have hbits (raw : List Bool) (hraw : raw.length = (c.byteSize * 8).toNat) :
          newBits subViewStart subViewEnd constantStart c raw =
            rangeBits c d (first * 8 / c.elemBits) ((last - first) * 8 / c.elemBits) raw := by
        rw [newBits, hnew]
        exact hfold raw (by rw [hraw, length_raw])
      refine ⟨⟨_, hnew⟩, ?_, ?_⟩
      · intro raw hraw
        rw [hbits raw hraw, hkept raw hraw, length_cut, hraw, rangeBits,
          length_gather fun k _ => place_bits (holdsRange hd hbounds.1 hcount) (by rw [hraw, length_raw]) _]
        have hmul := Int.ediv_mul_le ((last - first) * 8) (show (c.elemBits : ℤ) ≠ 0 by have := c.elemBits_pos; omega)
        have hcast : ((((last - first) * 8 / (c.elemBits : ℤ)).toNat * c.elemBits : ℕ) : ℤ) ≤ (last - first) * 8 := by
          rw [Nat.cast_mul, Int.toNat_of_nonneg hcount.le]
          exact hmul
        omega
      · rw [← rangeBits_iff hfirst0 hle hcount hd]
        constructor
        · intro heq raw hraw
          rw [← hbits raw hraw, ← hkept raw hraw]
          exact heq raw hraw
        · intro heq raw hraw
          rw [hbits raw hraw, hkept raw hraw]
          exact heq raw hraw
    · -- less than one element is left of the constant
      have hzero : (last - first) * 8 / (c.elemBits : ℤ) = 0 := le_antisymm (not_lt.1 hcount) hbounds.2.1
      rw [hzero] at hfit
      obtain ⟨ts, hts, hfold⟩ := sliceConstant_zero (c := c) hbounds.1 (by rw [hzero, zero_add] at hbounds; exact hbounds.2.2.1) hfit
      change getNewConstant _ _ _ _ = (sliceConstant c (first * 8 / (c.elemBits : ℤ)) _).map some at hnew
      rw [hzero, hts, Option.map_some] at hnew
      have hempty (raw : List Bool) : newBits subViewStart subViewEnd constantStart c raw = [] := by
        rw [newBits, hnew]
        exact hfold raw
      refine ⟨⟨_, hnew⟩, fun raw _ => by rw [hempty]; exact Nat.zero_le _, ?_⟩
      constructor
      · intro heq
        have hlen := congrArg List.length (heq (List.replicate (c.byteSize * 8).toNat false) length_replicate)
        rw [hempty, hkept _ length_replicate, length_cut, length_replicate, length_nil] at hlen
        omega
      · rintro ⟨_, hdvd, _⟩
        have hexact := Int.ediv_mul_cancel hdvd
        rw [hzero, zero_mul] at hexact
        omega
  · have hnew := getNewConstant_of_outside ho
    have hempty (raw : List Bool) : newBits subViewStart subViewEnd constantStart c raw = [] := by
      rw [newBits, hnew]
    refine ⟨⟨none, hnew⟩, fun raw _ => by rw [hempty]; exact Nat.zero_le _, ?_⟩
    constructor
    · -- a constant strictly inside the SubView is lost
      intro heq hoverlap
      have hlen := congrArg List.length (heq (List.replicate (c.byteSize * 8).toNat false) length_replicate)
      rw [hempty, hkept _ length_replicate, length_cut, length_replicate, length_nil] at hlen
      omega
    · intro hs raw hraw
      have hno : ¬ max subViewStart constantStart < min subViewEnd (constantStart + c.byteSize) := by
        intro hoverlap
        have := (hs hoverlap).1
        omega
      rw [hempty, hkept raw hraw]
      apply length_eq_zero_iff.1 _ |>.symm
      rw [length_cut]
      omega

end

end NpuCompiler.Const
