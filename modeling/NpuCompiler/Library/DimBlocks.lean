import NpuCompiler.Library.MixedRadix

namespace NpuCompiler.MixedRadix

open List

section

theorem stride_eq_of_index {volume n a b : ℤ} (hn : 0 < n) (ha : 0 < a) (hb : 0 < b) (hvolume : n * a ≤ volume) (hvolume' : n * b ≤ volume)
    (h : ∀ idx, 0 ≤ idx → idx < volume → idx / a % n = idx / b % n) : n = 1 ∨ a = b := by
  by_contra hne
  push Not at hne
  have hn2 : 2 ≤ n := by omega
  have hdouble {c : ℤ} (hc : 0 < c) : c < n * c := by nlinarith
  have hone {c : ℤ} (hc : 0 < c) : c / c % n = 1 := by rw [Int.ediv_self hc.ne', Int.emod_eq_of_lt (by omega) (by omega)]
  have hzero {c d : ℤ} (hc : 0 < c) (hcd : c < d) : c / d % n = 0 := by rw [Int.ediv_eq_zero_of_lt hc.le hcd, Int.zero_emod]
  rcases lt_trichotomy a b with hlt | heq | hgt
  · have := h a ha.le (lt_of_lt_of_le (hdouble ha) hvolume)
    rw [hone ha, hzero ha hlt] at this
    omega
  · exact hne.2 heq
  · have := h b hb.le (lt_of_lt_of_le (hdouble hb) hvolume')
    rw [hone hb, hzero hb hgt] at this
    omega

variable {dims dims' c : List ℤ} {x y : ℤ}

theorem encode_append {a b c d : List ℤ} (h : c.length = a.length) : encode (a ++ b) (c ++ d) = encode a c * b.prod + encode b d := by
  induction a generalizing c with
  | nil =>
    rw [length_eq_zero_iff.mp h]
    simp [encode]
  | cons s a ih =>
    cases c with
    | nil => simp at h
    | cons y c =>
      rw [cons_append, cons_append, encode, encode, ih (by simpa using h), prod_append]
      ring

theorem encode_decode_emod (h : ∀ d ∈ dims, 0 < d) : encode dims (decode dims x) = x % dims.prod := by
  have hp := prod_pos h
  rw [← decode_emod h, encode_decode h (Int.emod_nonneg x hp.ne') (Int.emod_lt_of_pos x hp)]

theorem digit_add_mul {d p : ℤ} (hd : 0 < d) (hp : 0 < p) : y / p % d * p + y % p = y % (d * p) := by
  have hpos : ∀ s ∈ [d, p], 0 < s := by
    intro s hs
    rcases mem_pair.mp hs with rfl | rfl
    · exact hd
    · exact hp
  have h := encode_decode_emod (x := y) hpos
  simpa [encode, decode] using h

variable {q m : ℕ} {l l' : List ℕ}

theorem encode_block (hpos : ∀ d ∈ dims, 0 < d) (h : q + m < dims.length) :
    encode ((List.range' q (m + 1)).map (entry dims)) ((List.range' q (m + 1)).map (entry (decode dims x))) =
        x / weight dims (q + m) % ((List.range' q (m + 1)).map (entry dims)).prod ∧
      ((List.range' q (m + 1)).map (entry dims)).prod * weight dims (q + m) = weight dims q * entry dims q := by
  induction m generalizing q with
  | zero =>
    have hdigit := entry_decode (x := x) (show q < dims.length by omega)
    simp [encode, hdigit, mul_comm]
  | succ m ih =>
    obtain ⟨hdigit, hprod⟩ := @ih (q + 1) (by omega)
    rw [show q + 1 + m = q + (m + 1) by omega] at hdigit hprod
    have hbelow : weight dims (q + 1) * entry dims (q + 1) = weight dims q := (prod_drop (by omega)).symm
    have hd : 0 < entry dims q := hpos _ (entry_mem (by omega))
    have hp : 0 < ((List.range' (q + 1) (m + 1)).map (entry dims)).prod := by
      apply prod_pos
      intro d hmem
      obtain ⟨i, hi, rfl⟩ := mem_map.mp hmem
      apply hpos
      apply entry_mem
      have := mem_range'_1.mp hi
      omega
    have hw : 0 < weight dims (q + (m + 1)) := drop_pos hpos
    rw [hbelow] at hprod
    rw [range'_succ, map_cons, map_cons, encode, hdigit, entry_decode (by omega), prod_cons]
    constructor
    · rw [← hprod, mul_comm _ (weight dims (q + (m + 1))), ← Int.ediv_ediv_of_nonneg hw.le]
      exact digit_add_mul hd hp
    · rw [mul_assoc, hprod, mul_comm]

/-- The dimensions of two shapes, taken in blocks of neighbours that cover the same digits. -/
inductive Blocks (dims dims' : List ℤ) : List ℕ → List ℕ → Prop
  | nil : Blocks dims dims' [] []
  | cons {q m o k : ℕ} {l l' : List ℕ} (hq : q + m < dims.length) (ho : o + k < dims'.length)
      (hbottom : weight dims (q + m) = weight dims' (o + k)) (htop : weight dims q * entry dims q = weight dims' o * entry dims' o)
      (h : Blocks dims dims' l l') : Blocks dims dims' (List.range' q (m + 1) ++ l) (List.range' o (k + 1) ++ l')

theorem Blocks.lt_of_mem (h : Blocks dims dims' l l') {i : ℕ} (hi : i ∈ l') : i < dims'.length := by
  induction h with
  | nil => exact absurd hi not_mem_nil
  | cons hq ho hbottom htop _ ih =>
    rcases mem_append.mp hi with hi | hi
    · have := mem_range'_1.mp hi
      omega
    · exact ih hi

theorem Blocks.encode_eq (h : Blocks dims dims' l l') (hpos : ∀ d ∈ dims, 0 < d) (hpos' : ∀ d ∈ dims', 0 < d) :
    encode (l.map (entry dims)) (l.map (entry (decode dims x))) = encode (l'.map (entry dims')) (l'.map (entry (decode dims' x))) ∧
      (l.map (entry dims)).prod = (l'.map (entry dims')).prod := by
  induction h with
  | nil => exact ⟨rfl, rfl⟩
  | @cons q m o k l l' hq ho hbottom htop _ ih =>
    obtain ⟨hdigit, hprod⟩ := @encode_block dims x q m hpos hq
    obtain ⟨hdigit', hprod'⟩ := @encode_block dims' x o k hpos' ho
    have hw : 0 < weight dims (q + m) := drop_pos hpos
    have hsize : ((List.range' q (m + 1)).map (entry dims)).prod = ((List.range' o (k + 1)).map (entry dims')).prod := by
      apply mul_right_cancel₀ hw.ne'
      rw [hprod, htop, hbottom, hprod']
    obtain ⟨hrest, hrestProd⟩ := ih
    constructor
    · rw [map_append, map_append, map_append, map_append, encode_append (by simp), encode_append (by simp), hdigit,
        hdigit', hrest, hrestProd, hbottom, hsize]
    · rw [map_append, map_append, prod_append, prod_append, hsize, hrestProd]

end

end NpuCompiler.MixedRadix
