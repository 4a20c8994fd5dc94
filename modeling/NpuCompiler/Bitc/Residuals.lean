import Mathlib.Data.UInt
import NpuCompiler.Bitc.Encoder

namespace NpuCompiler.Bitc

theorem log2Lut_spec (byte : UInt8) :
    byte.toNat < 2 ^ lookUp log2Lut byte ∧ 0 < lookUp log2Lut byte ∧ lookUp log2Lut byte ≤ 8 := by
  have hall : ∀ n : Fin 256, n.val < 2 ^ log2Lut.getD n.val 0 ∧ 0 < log2Lut.getD n.val 0 ∧ log2Lut.getD n.val 0 ≤ 8 := by
    decide +kernel
  exact hall ⟨byte.toNat, byte.toNat_lt⟩

theorem dualLog2Lut_spec (config : BitCompactorConfig) (byte : UInt8) :
    byte.toNat < 2 ^ lookUp (dualLog2Lut config) byte ∧ 0 < lookUp (dualLog2Lut config) byte ∧
      lookUp (dualLog2Lut config) byte ≤ 8 := by
  have hall : ∀ (first : Fin 2) (n : Fin 256), n.val < 2 ^ (fillLut 256 0 first).getD n.val 0 ∧
      0 < (fillLut 256 0 first).getD n.val 0 ∧ (fillLut 256 0 first).getD n.val 0 ≤ 8 := by
    decide +kernel
  unfold lookUp dualLog2Lut
  by_cases harch : config.archType = .npu27
  · rw [if_pos harch]
    exact hall 0 ⟨byte.toNat, byte.toNat_lt⟩
  · rw [if_neg harch]
    exact hall 1 ⟨byte.toNat, byte.toNat_lt⟩

theorem signedResidual_toUnsigned (byte : UInt8) : Decoder.signedResidual (toUnsigned byte) = byte := by
  have hall : ∀ n : Fin 256, Decoder.signedResidual (toUnsigned (UInt8.ofNat n.val)) = UInt8.ofNat n.val := by
    decide +kernel
  have hbyte := hall ⟨byte.toNat, byte.toNat_lt⟩
  simpa using hbyte

theorem maxBits_spec (residual : List UInt8) :
    0 < maxBits residual ∧ maxBits residual ≤ 8 ∧ ∀ byte ∈ residual, byte.toNat < 2 ^ maxBits residual := by
  have grow : ∀ (l : List UInt8) (bits : ℕ), 0 < bits → bits ≤ 8 →
      let result := l.foldl (fun bitLength byte =>
        if lookUp log2Lut byte > bitLength then lookUp log2Lut byte else bitLength) bits
      bits ≤ result ∧ result ≤ 8 ∧ ∀ byte ∈ l, byte.toNat < 2 ^ result := by
    intro l
    induction l with
    | nil => exact fun bits _ h => ⟨le_refl _, h, by simp⟩
    | cons byte l ih =>
      intro bits h1 h2
      obtain ⟨hbyte, hpos, hle⟩ := log2Lut_spec byte
      obtain ⟨h3, h4, h5⟩ := ih (if lookUp log2Lut byte > bits then lookUp log2Lut byte else bits)
        (by split_ifs <;> omega) (by split_ifs <;> omega)
      have hmax : bits ≤ (if lookUp log2Lut byte > bits then lookUp log2Lut byte else bits) ∧
          lookUp log2Lut byte ≤ (if lookUp log2Lut byte > bits then lookUp log2Lut byte else bits) := by
        split_ifs <;> omega
      refine ⟨hmax.1.trans h3, h4, ?_⟩
      intro b hb
      rcases List.mem_cons.mp hb with rfl | hb
      · exact hbyte.trans_le (Nat.pow_le_pow_right (by omega) (hmax.2.trans h3))
      · exact h5 b hb
  obtain ⟨h1, h2, h3⟩ := grow residual 1 (by omega) (by omega)
  exact ⟨h1, h2, h3⟩

def isSigned (decoder : DecoderAlgorithm) : Bool :=
  decoder = .signshftproc || decoder = .signshftaddproc || decoder = .signshftaddblk

def undo (decoder : DecoderAlgorithm) (minimum : UInt8) (prevBlk residual : List UInt8) : List UInt8 :=
  let residual := if isSigned decoder then residual.map Decoder.signedResidual else residual
  let residual := if decoder = .signshftaddblk then List.zipWith (· + ·) residual prevBlk else residual
  residual.map (· + if Encoder.hasMinimum decoder then minimum else 0)

theorem undo_signedPrdct (data prevBlk : List UInt8) (minimum : UInt8) :
    undo .signshftaddproc minimum prevBlk (signedPrdct data minimum).residual = data := by
  simp [undo, isSigned, Encoder.hasMinimum, signedPrdct, signedResidual_toUnsigned, Function.comp_def]

theorem undo_algorithmEncoder {config : BitCompactorConfig} {algo : EncoderAlgorithm} {data prevBlk : List UInt8}
    (hmem : algo ∈ algorithms config) (hdummy : algo = .minsprdct → config.weightCompressEnable = true)
    (hprev : algo = .prevblkprdct → prevBlk.length = data.length) :
    undo (encoderToDecoderMapping algo) (algorithmEncoder config algo data prevBlk).minimum prevBlk
      (algorithmEncoder config algo data prevBlk).residual = data := by
  cases algo with
  | minprdct =>
    simp [algorithmEncoder, encoderToDecoderMapping, minprdct, undo, isSigned, Encoder.hasMinimum, Function.comp_def]
  | minsprdct =>
    rw [algorithmEncoder, if_pos (hdummy rfl)]
    exact undo_signedPrdct data prevBlk _
  | muprdct => exact undo_signedPrdct data prevBlk _
  | noprdct => simp [algorithmEncoder, encoderToDecoderMapping, noprdct, undo, isSigned, Encoder.hasMinimum]
  | nosprdct =>
    simp [algorithmEncoder, encoderToDecoderMapping, nosprdct, undo, isSigned, Encoder.hasMinimum,
      signedResidual_toUnsigned, Function.comp_def]
  | medprdct => exact undo_signedPrdct data prevBlk _
  | prevblkprdct =>
    have hlen := hprev rfl
    simp only [algorithmEncoder, encoderToDecoderMapping, prevblkprdct, undo, isSigned, Encoder.hasMinimum]
    apply List.ext_getElem
    · simp [hlen]
    · intro i h1 h2
      simp [signedResidual_toUnsigned]
  | bincmpct =>
    unfold algorithms at hmem
    split at hmem <;> simp [encoderAlgorithms] at hmem
  | btmap =>
    unfold algorithms at hmem
    split at hmem <;> simp [encoderAlgorithms] at hmem

theorem algorithmEncoder_length {config : BitCompactorConfig} {algo : EncoderAlgorithm} {data prevBlk : List UInt8}
    (hprev : algo = .prevblkprdct → prevBlk.length = data.length) :
    (algorithmEncoder config algo data prevBlk).residual.length = data.length := by
  cases algo with
  | minsprdct =>
    by_cases hweight : config.weightCompressEnable = true
    · rw [algorithmEncoder, if_pos hweight]
      simp [minsprdct, signedPrdct]
    · rw [algorithmEncoder, if_neg hweight]
      rfl
  | prevblkprdct => simp [algorithmEncoder, prevblkprdct, hprev rfl]
  | _ => simp [algorithmEncoder, minprdct, muprdct, signedPrdct, noprdct, nosprdct, medprdct, dummyprdct]

theorem algorithmEncoder_fits {config : BitCompactorConfig} {algo : EncoderAlgorithm} {data prevBlk : List UInt8} :
    0 < (algorithmEncoder config algo data prevBlk).bitLength ∧
      (algorithmEncoder config algo data prevBlk).bitLength ≤ 8 ∧
      ∀ byte ∈ (algorithmEncoder config algo data prevBlk).residual,
        byte.toNat < 2 ^ (algorithmEncoder config algo data prevBlk).bitLength := by
  have dummy : 0 < (dummyprdct data).bitLength ∧ (dummyprdct data).bitLength ≤ 8 ∧
      ∀ byte ∈ (dummyprdct data).residual, byte.toNat < 2 ^ (dummyprdct data).bitLength :=
    ⟨Nat.zero_lt_succ 7, le_refl 8, fun byte _ => byte.toNat_lt⟩
  cases algo with
  | minsprdct =>
    by_cases hweight : config.weightCompressEnable = true
    · rw [algorithmEncoder, if_pos hweight]
      exact maxBits_spec _
    · rw [algorithmEncoder, if_neg hweight]
      exact dummy
  | bincmpct => exact dummy
  | btmap => exact dummy
  | _ => exact maxBits_spec _

end NpuCompiler.Bitc

namespace NpuCompiler.Bitc

open Encoder Decoder

section

theorem unmove_bit (byte : UInt8) (bit : Fin 2) :
    (byte <<< 1 ||| UInt8.ofNat bit) >>> 1 = byte &&& 0x7F ∧ (byte <<< 1 ||| UInt8.ofNat bit) &&& 1 = UInt8.ofNat bit := by
  have hall : ∀ (n : Fin 256) (bit : Fin 2),
      (UInt8.ofNat n.val <<< 1 ||| UInt8.ofNat bit) >>> 1 = UInt8.ofNat n.val &&& 0x7F ∧
        (UInt8.ofNat n.val <<< 1 ||| UInt8.ofNat bit) &&& 1 = UInt8.ofNat bit := by
    decide +kernel
  have hbyte := hall ⟨byte.toNat, byte.toNat_lt⟩ bit
  simpa using hbyte

theorem sign_bit (byte : UInt8) :
    (∃ bit : Fin 2, (byte &&& (0x80 : UInt8)) >>> 7 = UInt8.ofNat bit) ∧
      byte &&& (0x7F : UInt8) ||| ((byte &&& (0x80 : UInt8)) >>> 7) <<< 7 = byte := by
  have hall : ∀ n : Fin 256, (∃ bit : Fin 2, (UInt8.ofNat n.val &&& (0x80 : UInt8)) >>> 7 = UInt8.ofNat bit) ∧
      UInt8.ofNat n.val &&& (0x7F : UInt8) ||| ((UInt8.ofNat n.val &&& (0x80 : UInt8)) >>> 7) <<< 7 =
        UInt8.ofNat n.val := by
    decide +kernel
  have hbyte := hall ⟨byte.toNat, byte.toNat_lt⟩
  simpa using hbyte

theorem unmove_sign (lower upper : UInt8) :
    (lower <<< 1 ||| (upper &&& 0x80) >>> 7) >>> 1 ||| ((upper <<< 1 ||| (lower &&& 0x80) >>> 7) &&& 1) <<< 7 = lower := by
  obtain ⟨⟨bit, hbit⟩, hlower⟩ := sign_bit lower
  obtain ⟨⟨bit', hbit'⟩, -⟩ := sign_bit upper
  rw [hbit', (unmove_bit lower bit').1, hbit, (unmove_bit upper bit).2, ← hbit]
  exact hlower

variable {src : List UInt8}

theorem interleave_length (hlen : src.length = 2 * blockSize) : (interleave src).length = 2 * blockSize := by
  unfold interleave
  rw [hlen]
  simp [blockSize]

theorem flatMap_pairs (n : ℕ) {l : List UInt8} (hlen : l.length = 2 * n) :
    (List.range n).flatMap (fun i => [l.getD (2 * i) 0, l.getD (2 * i + 1) 0]) = l := by
  induction n generalizing l with
  | zero => exact (List.length_eq_zero_iff.mp hlen).symm
  | succ n ih =>
    obtain ⟨lower, l, rfl⟩ := List.exists_cons_of_length_pos (by omega : 0 < l.length)
    obtain ⟨upper, l, rfl⟩ := List.exists_cons_of_length_pos (by rw [List.length_cons] at hlen; omega : 0 < l.length)
    have hrest := @ih l (by rw [List.length_cons, List.length_cons] at hlen; omega)
    rw [List.range_succ_eq_map, List.flatMap_cons, List.flatMap_map]
    conv_rhs => rw [← hrest]
    rfl

theorem interleave_getD (hlen : src.length = 2 * blockSize) {i : ℕ} (hi : i < blockSize) :
    (interleave src).getD i 0 = src.getD (2 * i) 0 <<< 1 ||| (src.getD (2 * i + 1) 0 &&& 0x80) >>> 7 ∧
      (interleave src).getD (blockSize + i) 0 =
        src.getD (2 * i + 1) 0 <<< 1 ||| (src.getD (2 * i) 0 &&& 0x80) >>> 7 := by
  have hhalf : src.length / 2 = blockSize := by omega
  unfold interleave
  rw [hhalf]
  simp only [List.map_map]
  constructor
  · rw [List.getD_append _ _ _ _ (by simpa using hi), List.getD_eq_getElem _ _ (by simpa using hi)]
    simp
  · rw [List.getD_append_right _ _ _ _ (by simp), List.getD_eq_getElem _ _ (by simpa using hi)]
    simp

theorem deinterleave_interleave (hlen : src.length = 2 * blockSize) : deinterleave (interleave src) = src := by
  unfold deinterleave
  conv_rhs => rw [← flatMap_pairs blockSize hlen]
  apply List.flatMap_congr
  intro i hi
  obtain ⟨hlower, hupper⟩ := interleave_getD hlen (List.mem_range.mp hi)
  simp only [hlower, hupper, unmove_sign]

theorem fp16enprdct_length (chunks : ℕ) (src : List UInt8) : (fp16enprdct chunks src).length = src.length := by
  induction chunks generalizing src with
  | zero => rfl
  | succ chunks ih =>
    rw [fp16enprdct]
    by_cases hlong : 2 * blockSize ≤ src.length
    · rw [if_pos hlong, List.length_append, ih, List.length_drop, interleave_length]
      · omega
      · rw [List.length_take]
        omega
    · rw [if_neg hlong]

theorem fp16Loop_spec {done : List UInt8} (fuel chunks : ℕ) (hchunks : src.length ≤ chunks) (hfuel : src.length < fuel)
    (hlong : 2 * blockSize ≤ done.length + src.length) (hbound : done.length + src.length < 2 ^ 64) :
    fp16Loop fuel done.length (done ++ fp16enprdct chunks src) = some (done ++ src) := by
  induction fuel generalizing chunks done src with
  | zero => exact absurd hfuel (Nat.not_lt_zero _)
  | succ fuel ih =>
    have hlength : (done ++ fp16enprdct chunks src).length = done.length + src.length := by
      rw [List.length_append, fp16enprdct_length]
    have hwrap : (2 ^ 64 + (done.length + src.length) - 2 * blockSize) % 2 ^ 64 =
        done.length + src.length - 2 * blockSize := by
      rw [Nat.add_sub_assoc hlong, Nat.add_mod_left, Nat.mod_eq_of_lt (by omega)]
    rw [fp16Loop, hlength, hwrap]
    by_cases hpair : 2 * blockSize ≤ src.length
    · have htake : (src.take (2 * blockSize)).length = 2 * blockSize := by
        rw [List.length_take]
        omega
      have hinter := interleave_length htake
      obtain ⟨chunks, rfl⟩ : ∃ n, chunks = n + 1 := by
        apply Nat.exists_eq_succ_of_ne_zero
        unfold blockSize at hpair
        omega
      have hstep := @ih (src.drop (2 * blockSize)) (done ++ src.take (2 * blockSize)) chunks
        (by rw [List.length_drop]; unfold blockSize; omega) (by rw [List.length_drop]; unfold blockSize at hpair ⊢; omega)
        (by rw [List.length_append, List.length_drop, htake]; omega)
        (by rw [List.length_append, List.length_drop, htake]; omega)
      rw [List.append_assoc, List.append_assoc, List.take_append_drop, List.length_append, htake] at hstep
      rw [if_pos (by omega), if_pos (by omega), fp16enprdct, if_pos hpair, List.take_left, List.drop_left,
        List.take_left' hinter, deinterleave_interleave htake, ← List.drop_drop, List.drop_left,
        List.drop_left' hinter, List.append_assoc]
      exact hstep
    · rw [if_neg (by omega)]
      cases chunks with
      | zero => rfl
      | succ chunks => rw [fp16enprdct, if_neg hpair]

end

end NpuCompiler.Bitc
