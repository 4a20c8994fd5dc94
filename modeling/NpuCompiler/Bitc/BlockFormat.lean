import NpuCompiler.Bitc.BitStreamSpec
import NpuCompiler.Bitc.DualEncoding

namespace NpuCompiler.Bitc

open BitFields Encoder

def padField (config : BitCompactorConfig) (bits : ℕ) : Field := low 0 (if config.archType = .npu27 then 0 else bits)

def residualFields (config : BitCompactorConfig) (bitLength : ℕ) (residual : List UInt8) (bitmap : ℕ) : List Field :=
  symbolFields bitLength residual bitmap ++
    [padField config (byteAlign (width (symbolFields bitLength residual bitmap)) -
      width (symbolFields bitLength residual bitmap))]

def minimumFields (param : AlgorithmParam) : List Field :=
  if hasMinimum param.decoder then [low param.minimum.toNat 8] else []

def dualFields (config : BitCompactorConfig) (param : AlgorithmParam) : List Field :=
  [low (createCompressionHeader config .cmprsd { param with bitLength := param.dualBitLength } true) 20,
    padField config 4] ++ minimumFields param ++ [low param.dualBitmap 64] ++
      residualFields config param.dualBitLength param.residual param.dualBitmap

def plainFields (config : BitCompactorConfig) (param : AlgorithmParam) : List Field :=
  [low (createCompressionHeader config .cmprsd param false) 10, padField config 6] ++ minimumFields param ++
    residualFields config param.bitLength param.residual 0

def uncompressedFields (config : BitCompactorConfig) (data : List UInt8) : List Field :=
  [low (headerBits .uncmprsd 0 0 0 0) 2, padField config 6] ++ residualFields config 8 data 0

def lastFields (data : List UInt8) : List Field :=
  low (CompressionType.lastblk.code + 2 ^ 2 * (data.length % 2 ^ 6)) 8 :: symbolFields 8 data 0

def blockFields (config : BitCompactorConfig) (best : BestAlgorithm) (data : List UInt8) : List Field :=
  if isCompressionBetterThanUncompressed config best then
    if usingDualEncoder best then dualFields config best.dualMinParam else plainFields config best.minParam
  else uncompressedFields config data

structure Written (s : BitStream) (fs : List Field) (bits : ℕ) : Prop where
  stores : s.Stores fs
  room : s.Room bits
  fits : bits < 2 ^ 32

section
variable {config : BitCompactorConfig} {s : BitStream} {fs : List Field} {bits : ℕ}

theorem Written.congr (h : Written s fs bits) {gs : List Field} (hpack : pack fs = pack gs)
    (hwidth : width fs = width gs) : Written s gs bits := ⟨h.stores.congr hpack hwidth, h.room, h.fits⟩

theorem Written.field (h : Written s fs bits) (f : Field) (hf : f.width ≤ 64) (hle : width fs + f.width ≤ bits) :
    ∃ s', s.write f.value f.width = some s' ∧ Written s' (fs ++ [f]) bits := by
  obtain ⟨s', hwrite, hstores, hlength⟩ := h.stores.write f hf (h.room.mono (by omega)) (hle.trans_lt h.fits)
  exact ⟨s', hwrite, hstores, h.room.of_length hlength, h.fits⟩

theorem Written.write (h : Written s fs bits) (v : ℕ) {n : ℕ} (hn : n ≤ 64) (hle : width fs + n ≤ bits) :
    ∃ s', s.write v n = some s' ∧ Written s' (fs ++ [low v n]) bits := by
  obtain ⟨s', hwrite, hs'⟩ := h.field (low v n) hn hle
  rw [low_value, low_width, BitStream.write_mod _ _ _ hn] at hwrite
  exact ⟨s', hwrite, hs'⟩

theorem Written.pad (h : Written s fs bits) {n : ℕ} (hn : n ≤ 64) (hle : width fs + (padField config n).width ≤ bits) :
    ∃ s', writePad config s n = some s' ∧ Written s' (fs ++ [padField config n]) bits := by
  unfold writePad padField at *
  by_cases harch : config.archType = .npu27
  · simp only [ne_eq, harch, not_true_eq_false, if_false]
    refine ⟨s, rfl, h.congr ?_ ?_⟩
    · simp [pack_append, pack, Nat.mod_one]
    · simp
  · simp only [ne_eq, harch, not_false_eq_true, if_true, if_false] at hle ⊢
    exact h.write 0 hn hle

theorem writeSymbols_spec {bitLength : ℕ} (hbits : bitLength ≤ 8) (residual : List UInt8) {bitmap total : ℕ}
    {ps : List Field} (h : Written s fs bits) (hps : width ps ≤ 64)
    (hle : width fs + width ps + width (symbolFields bitLength residual bitmap) ≤ bits) :
    ∃ s' gs hs, writeSymbols bitLength residual bitmap s (pack ps) (width ps) total =
        some (s', pack hs, width hs, total + width (symbolFields bitLength residual bitmap)) ∧
      Written s' gs bits ∧ width hs ≤ 64 ∧ gs ++ hs = fs ++ ps ++ symbolFields bitLength residual bitmap := by
  induction residual generalizing bitmap total ps s fs with
  | nil => exact ⟨s, fs, ps, rfl, h, hps, by simp [symbolFields]⟩
  | cons symbol residual ih =>
    rw [writeSymbols]
    simp only [symbolFields, width_cons, low_width] at hle ⊢
    have hlength : (if bitmap % 2 = 1 then 8 else bitLength) ≤ 8 := by split_ifs <;> omega
    generalize hlen : (if bitmap % 2 = 1 then 8 else bitLength) = length at hle hlength ⊢
    by_cases hfull : width ps + length > 64
    · obtain ⟨s', hwrite, hs'⟩ := h.field ⟨width ps, pack ps, pack_lt ps⟩ hps (by simp only; omega)
      have hflushed : Written s' (fs ++ ps) bits := by
        apply hs'.congr
        · rw [pack_append, pack_append, pack_singleton]
        · simp
      have hwidth : width [low symbol.toNat length] = length := by simp
      obtain ⟨s'', gs, hs, heq, hw, hle', happ⟩ := @ih s' (fs ++ ps) (bitmap / 2) (total + length)
        [low symbol.toNat length] hflushed (by rw [hwidth]; omega) (by rw [hwidth, width_append]; omega)
      rw [pack_singleton, low_value, hwidth] at heq
      refine ⟨s'', gs, hs, ?_, hw, hle', ?_⟩
      · rw [if_pos hfull, hwrite]
        simp only [Option.bind_eq_bind, Option.bind_some]
        rw [heq, Nat.add_assoc]
      · rw [happ]
        simp
    · have hwidth : width (ps ++ [low symbol.toNat length]) = width ps + length := by simp
      have hpack : pack ps ||| (symbol.toNat % 2 ^ length) <<< width ps = pack (ps ++ [low symbol.toNat length]) := by
        rw [or_shiftLeft_eq_add (pack_lt ps), pack_append, pack_singleton, low_value]
      obtain ⟨s'', gs, hs, heq, hw, hle', happ⟩ := @ih s fs (bitmap / 2) (total + length)
        (ps ++ [low symbol.toNat length]) h (by rw [hwidth]; omega) (by rw [hwidth]; omega)
      refine ⟨s'', gs, hs, ?_, hw, hle', ?_⟩
      · rw [if_neg hfull, hpack, ← hwidth, heq, Nat.add_assoc]
      · rw [happ]
        simp

theorem byteAlign_sub_le (n : ℕ) : byteAlign n - n ≤ 7 := by
  unfold byteAlign
  omega

theorem writeResidual_spec {bitLength : ℕ} (hbits : bitLength ≤ 8) {residual : List UInt8} {bitmap : ℕ}
    (h : Written s fs bits) (hle : width fs + width (residualFields config bitLength residual bitmap) ≤ bits) :
    ∃ s', writeResidual config s residual bitLength bitmap = some s' ∧
      Written s' (fs ++ residualFields config bitLength residual bitmap) bits := by
  unfold residualFields at hle ⊢
  rw [width_append, width_cons, width_nil, Nat.add_zero] at hle
  have hsymbols := @writeSymbols_spec s fs bits bitLength hbits residual bitmap 0 [] h (by simp) (by simp; omega)
  obtain ⟨s', gs, hs, heq, hw, hhs, happ⟩ := hsymbols
  rw [List.append_nil] at happ
  have hall : width gs + width hs = width fs + width (symbolFields bitLength residual bitmap) := by
    rw [← width_append, ← width_append, happ]
  have hlast : ∃ s'', (if width hs ≠ 0 then s'.write (pack hs) (width hs) else some s') = some s'' ∧
      Written s'' (fs ++ symbolFields bitLength residual bitmap) bits := by
    by_cases hzero : width hs = 0
    · refine ⟨s', if_neg (not_not.mpr hzero), hw.congr ?_ ?_⟩
      · have hpack : pack hs = 0 := by
          have := pack_lt hs
          rw [hzero] at this
          omega
        rw [← happ, pack_append, hpack, Nat.mul_zero, Nat.add_zero]
      · rw [← happ, width_append, hzero, Nat.add_zero]
    · obtain ⟨s'', hwrite, hs''⟩ := hw.field ⟨width hs, pack hs, pack_lt hs⟩ hhs (by simp only; omega)
      refine ⟨s'', by rw [if_pos hzero]; exact hwrite, hs''.congr ?_ ?_⟩
      · rw [← happ, pack_append, pack_append, pack_singleton]
      · rw [← happ]
        simp
  obtain ⟨s'', hflush, hs''⟩ := hlast
  have hpad := byteAlign_sub_le (width (symbolFields bitLength residual bitmap))
  obtain ⟨s₃, hpadded, hs₃⟩ := @Written.pad config s'' _ bits hs''
    (byteAlign (width (symbolFields bitLength residual bitmap)) - width (symbolFields bitLength residual bitmap))
    (by omega) (by rw [width_append]; omega)
  refine ⟨s₃, ?_, ?_⟩
  · unfold writeResidual
    change (writeSymbols bitLength residual bitmap s (pack []) (width []) 0).bind _ = _
    rw [heq]
    simp only [Option.bind_some, Option.bind_eq_bind, Nat.zero_add]
    by_cases hzero : width hs = 0
    · rw [if_neg (not_not.mpr hzero), Option.some.injEq] at hflush
      rw [if_neg (not_not.mpr hzero), hflush]
      exact hpadded
    · rw [if_pos hzero] at hflush
      rw [if_pos hzero, hflush]
      exact hpadded
  · rw [← List.append_assoc]
    exact hs₃

theorem written_allocate (bits : ℕ) (hfits : bits < 2 ^ 32) : Written (BitStream.default.allocateBits bits) [] bits :=
  ⟨(BitStream.allocateBits_stores bits).1, (BitStream.allocateBits_stores bits).2, hfits⟩

end

end NpuCompiler.Bitc
