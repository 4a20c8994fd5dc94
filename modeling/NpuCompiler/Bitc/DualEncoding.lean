import NpuCompiler.Bitc.Residuals

namespace NpuCompiler.Bitc

open BitFields List

def symbolFields (bitLength : ℕ) : List UInt8 → ℕ → List Field
  | [], _ => []
  | symbol :: residual, bitmap =>
    low symbol.toNat (if bitmap % 2 = 1 then 8 else bitLength) :: symbolFields bitLength residual (bitmap / 2)

def SymbolsFit (bitLength : ℕ) : List UInt8 → ℕ → Prop
  | [], _ => True
  | symbol :: residual, bitmap =>
    (bitmap % 2 ≠ 1 → symbol.toNat < 2 ^ bitLength) ∧ SymbolsFit bitLength residual (bitmap / 2)

theorem symbolsFit_zero {bitLength : ℕ} {residual : List UInt8} (h : ∀ byte ∈ residual, byte.toNat < 2 ^ bitLength) :
    SymbolsFit bitLength residual 0 := by
  induction residual with
  | nil => trivial
  | cons symbol residual ih =>
    exact ⟨fun _ => h symbol (mem_cons_self ..), ih (fun byte hb => h byte (mem_cons_of_mem symbol hb))⟩

theorem width_symbolFields_zero (bitLength : ℕ) (residual : List UInt8) :
    width (symbolFields bitLength residual 0) = bitLength * residual.length := by
  induction residual with
  | nil => rfl
  | cons symbol residual ih =>
    rw [symbolFields, width_cons, ih, length_cons, Nat.mul_succ]
    simp [Nat.add_comm]

def ofFlags : List Bool → ℕ
  | [] => 0
  | flag :: flags => flag.toNat + 2 * ofFlags flags

theorem ofFlags_lt (flags : List Bool) : ofFlags flags < 2 ^ flags.length := by
  induction flags with
  | nil => simp [ofFlags]
  | cons flag flags ih =>
    rw [ofFlags, length_cons, pow_succ]
    have := flag.toNat_le
    omega

theorem ofFlags_cons_mod (flag : Bool) (flags : List Bool) :
    (ofFlags (flag :: flags) % 2 = 1 ↔ flag = true) ∧ ofFlags (flag :: flags) / 2 = ofFlags flags := by
  rw [ofFlags]
  cases flag with
  | false => simp
  | true => simp; omega

theorem foldl_zipIdx_flags (flags : List Bool) (k bitmap : ℕ) (h : bitmap < 2 ^ k) :
    (flags.zipIdx k).foldl (fun bitmap use => bitmap ||| use.1.toNat <<< use.2) bitmap =
      bitmap + 2 ^ k * ofFlags flags := by
  induction flags generalizing k bitmap with
  | nil => simp [ofFlags]
  | cons flag flags ih =>
    have hlt : bitmap + 2 ^ k * flag.toNat < 2 ^ (k + 1) := by
      apply add_mul_lt h
      have := flag.toNat_le
      omega
    rw [zipIdx_cons, foldl_cons, or_shiftLeft_eq_add h, ih (k + 1) _ hlt, ofFlags, pow_succ]
    ring

theorem symbolsFit_ofFlags {bitLength : ℕ} {residual : List UInt8} {bits : UInt8 → ℕ}
    (hbits : ∀ byte, byte.toNat < 2 ^ bits byte) :
    SymbolsFit bitLength residual (ofFlags (residual.map (fun byte => decide (bits byte > bitLength)))) := by
  induction residual with
  | nil => trivial
  | cons symbol residual ih =>
    rw [map_cons]
    obtain ⟨hflag, hrest⟩ := ofFlags_cons_mod (decide (bits symbol > bitLength))
      (residual.map (fun byte => decide (bits byte > bitLength)))
    refine ⟨?_, ?_⟩
    · intro hno
      rw [ne_eq, hflag, decide_eq_true_eq, not_lt] at hno
      exact (hbits symbol).trans_le (Nat.pow_le_pow_right (by omega) hno)
    · rw [hrest]
      exact ih

theorem width_symbolFields_ofFlags (bitLength : ℕ) (residual : List UInt8) (flag : UInt8 → Bool) :
    width (symbolFields bitLength residual (ofFlags (residual.map flag))) =
      residual.countP (fun byte => !flag byte) * bitLength + residual.countP flag * 8 := by
  induction residual with
  | nil => simp [symbolFields]
  | cons symbol residual ih =>
    rw [map_cons, symbolFields, width_cons]
    obtain ⟨hflag, hrest⟩ := ofFlags_cons_mod (flag symbol) (residual.map flag)
    rw [hrest, ih, low_width]
    simp only [hflag, countP_cons]
    cases flag symbol <;> simp <;> ring

theorem ofFlags_eq_zero {flags : List Bool} (hall : ∀ flag ∈ flags, flag = false) : ofFlags flags = 0 := by
  induction flags with
  | nil => rfl
  | cons flag flags ih =>
    rw [ofFlags, hall flag (mem_cons_self ..), ih (fun f hf => hall f (mem_cons_of_mem flag hf))]
    rfl

theorem symbolFields_or_one {bitLength : ℕ} (symbol : UInt8) (residual : List UInt8) {flags : List Bool}
    (hall : ∀ flag ∈ flags, flag = false) (hfit : SymbolsFit bitLength (symbol :: residual) (ofFlags flags)) :
    SymbolsFit bitLength (symbol :: residual) (ofFlags flags ||| 1) ∧
      width (symbolFields bitLength (symbol :: residual) (ofFlags flags ||| 1)) = 8 + bitLength * residual.length := by
  rw [ofFlags_eq_zero hall] at hfit ⊢
  refine ⟨⟨by simp, hfit.2⟩, ?_⟩
  rw [symbolFields, width_cons, low_width]
  simp [width_symbolFields_zero]

theorem countP_range_succ (l : List ℕ) (a n : ℕ) :
    l.countP (fun b => decide (a ≤ b ∧ b < a + (n + 1))) =
      l.countP (fun b => decide (a ≤ b ∧ b < a + n)) + l.count (a + n) := by
  induction l with
  | nil => rfl
  | cons b l ih =>
    simp only [countP_cons, count_cons, ih, decide_eq_true_eq, beq_iff_eq]
    split_ifs <;> omega

theorem sum_count_range' (l : List ℕ) (a n : ℕ) :
    ((List.range' a n).map (fun j => l.count j)).sum = l.countP (fun b => decide (a ≤ b ∧ b < a + n)) := by
  induction n with
  | zero =>
    symm
    apply countP_eq_zero.mpr
    intro b _
    simp
  | succ n ih =>
    rw [range'_concat, map_append, sum_append, ih, countP_range_succ]
    simp

theorem cSize_eq {symbolBits : List ℕ} (h : ∀ b ∈ symbolBits, 0 < b ∧ b ≤ 8) {i : ℕ} (hi : i ≤ 8) :
    cSize symbolBits i = symbolBits.countP (fun b => !decide (b > i)) * i + symbolBits.countP (fun b => decide (b > i)) * 8 := by
  unfold cSize
  simp only [sum_count_range']
  congr 2
  · apply countP_congr
    intro b hb
    have := h b hb
    simp
    omega
  · apply countP_congr
    intro b hb
    have := h b hb
    simp
    omega

theorem countP_not_add (l : List ℕ) (p : ℕ → Bool) : l.countP (fun b => !p b) + l.countP p = l.length := by
  induction l with
  | nil => rfl
  | cons b l ih =>
    rw [countP_cons, countP_cons, length_cons, ← ih]
    cases p b with
    | false => simp; omega
    | true => simp; omega

theorem cSize_le {symbolBits : List ℕ} (h : ∀ b ∈ symbolBits, 0 < b ∧ b ≤ 8) {i : ℕ} (hi : i ≤ 8) :
    cSize symbolBits i ≤ symbolBits.length * 8 := by
  rw [cSize_eq h hi, ← countP_not_add symbolBits (fun b => decide (b > i)), Nat.add_mul]
  apply Nat.add_le_add_right
  exact Nat.mul_le_mul_left _ hi

theorem best_spec (symbolBits : List ℕ) :
    let best := (List.range' 2 7).foldl
      (fun best i => if cSize symbolBits i < best.2 then (i, cSize symbolBits i) else best) (1, cSize symbolBits 1)
    0 < best.1 ∧ best.1 ≤ 8 ∧ best.2 = cSize symbolBits best.1 := by
  have keep : ∀ (l : List ℕ) (best : ℕ × ℕ), (∀ i ∈ l, 0 < i ∧ i ≤ 8) →
      (0 < best.1 ∧ best.1 ≤ 8 ∧ best.2 = cSize symbolBits best.1) →
      let best := l.foldl (fun best i => if cSize symbolBits i < best.2 then (i, cSize symbolBits i) else best) best
      0 < best.1 ∧ best.1 ≤ 8 ∧ best.2 = cSize symbolBits best.1 := by
    intro l
    induction l with
    | nil => exact fun _ _ h => h
    | cons i l ih =>
      intro best hl hbest
      obtain ⟨h1, h2⟩ := hl i (mem_cons_self ..)
      apply ih _ (fun j hj => hl j (mem_cons_of_mem i hj))
      dsimp only
      split_ifs
      · exact ⟨h1, h2, rfl⟩
      · exact hbest
  apply keep
  · intro i hi
    have := mem_range'_1.mp hi
    omega
  · exact ⟨Nat.zero_lt_one, by omega, rfl⟩

structure DualFits (residual : List UInt8) (dual : DualEncoding) : Prop where
  pos : 0 < dual.bitLength
  le : dual.bitLength ≤ 8
  bitmap : dual.bitmap < 2 ^ 64
  symbols : SymbolsFit dual.bitLength residual dual.bitmap
  width_eq : width (symbolFields dual.bitLength residual dual.bitmap) = dual.encodingBits
  size : dual.encodingBits ≤ 512

theorem dualEncode_fits (config : BitCompactorConfig) {residual : List UInt8} (hlen : residual.length = blockSize) :
    DualFits residual (dualEncode config residual) := by
  have hbits : ∀ b ∈ residual.map (lookUp (dualLog2Lut config)), 0 < b ∧ b ≤ 8 := by
    intro b hb
    obtain ⟨byte, -, rfl⟩ := mem_map.mp hb
    exact (dualLog2Lut_spec config byte).2
  obtain ⟨hpos, hle, hbest⟩ := best_spec (residual.map (lookUp (dualLog2Lut config)))
  have hsize := cSize_le hbits hle
  rw [← hbest, length_map, hlen] at hsize
  rw [cSize_eq hbits hle] at hbest
  unfold dualEncode
  simp only [map_map, Function.comp_def]
  generalize (List.range' 2 7).foldl _ _ = best at hpos hle hbest hsize ⊢
  have hbitmap := foldl_zipIdx_flags (residual.map (fun byte => decide (lookUp (dualLog2Lut config) byte > best.1))) 0 0
    Nat.zero_lt_one
  rw [pow_zero, Nat.zero_add, Nat.one_mul] at hbitmap
  have hfit := @symbolsFit_ofFlags best.1 residual (lookUp (dualLog2Lut config))
    (fun byte => (dualLog2Lut_spec config byte).1)
  have hwidth := width_symbolFields_ofFlags best.1 residual (fun byte => decide (lookUp (dualLog2Lut config) byte > best.1))
  have hlt := ofFlags_lt (residual.map (fun byte => decide (lookUp (dualLog2Lut config) byte > best.1)))
  rw [length_map, hlen] at hlt
  simp only [countP_map, Function.comp_def] at hbest
  rw [hbitmap]
  generalize hflags : residual.map (fun byte => decide (lookUp (dualLog2Lut config) byte > best.1)) = flags
    at hfit hwidth hlt ⊢
  by_cases hany : flags.any id = true
  · rw [if_pos hany]
    exact ⟨hpos, hle, hlt, hfit, hwidth.trans hbest.symm, hsize⟩
  · rw [if_neg hany]
    have hall : ∀ flag ∈ flags, flag = false := by simpa using hany
    obtain ⟨symbol, rest, rfl⟩ := exists_cons_of_length_pos (by rw [hlen]; decide : 0 < residual.length)
    obtain ⟨hfit', hwidth'⟩ := symbolFields_or_one symbol rest hall hfit
    have hplain := width_symbolFields_zero best.1 (symbol :: rest)
    rw [ofFlags_eq_zero hall, hplain, ← hbest, length_cons, Nat.mul_succ] at hwidth
    rw [length_cons] at hlen
    have hrest : rest.length = 63 := by
      unfold blockSize at hlen
      omega
    rw [hrest] at hwidth hwidth'
    refine ⟨hpos, hle, Nat.or_lt_two_pow hlt (by decide), hfit', ?_, ?_⟩
    · rw [hwidth']
      simp only
      omega
    · simp only
      omega

end NpuCompiler.Bitc
