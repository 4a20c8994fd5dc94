import NpuCompiler.Bitc.EncoderCalls

namespace NpuCompiler.Bitc

open BitFields Encoder List

section
variable {config : BitCompactorConfig} {bytes : List UInt8} {fs gs : List Field}

theorem pack_low_pos {v n : ℕ} (hn : 2 ≤ n) (hv : v % 2 ^ 2 ≠ 0) (fs : List Field) : 0 < pack (low v n :: fs) := by
  have hlow : v % 2 ^ n % 2 ^ 2 = v % 2 ^ 2 := mod_pow_mod_pow v hn
  have hne : v % 2 ^ n ≠ 0 := by
    intro hzero
    rw [hzero] at hlow
    exact hv hlow.symm
  rw [pack, low_value]
  omega

theorem pack_append_pos (h : 0 < pack fs) (gs : List Field) : 0 < pack (fs ++ gs) := by
  rw [pack_append]
  omega

theorem headerBits_type (type : CompressionType) (algo bitLength dual len : ℕ) :
    headerBits type algo bitLength dual len % 2 ^ 2 = type.code := by
  unfold headerBits
  rw [Nat.add_mul_mod_self_left]
  cases type <;> rfl

theorem createCompressionHeader_type (param : AlgorithmParam) (dual : Bool) :
    createCompressionHeader config .cmprsd param dual % 2 ^ 2 = CompressionType.cmprsd.code := by
  unfold createCompressionHeader
  split_ifs
  · exact headerBits_type ..
  · exact headerBits_type ..

theorem pack_blockFields_pos (best : BestAlgorithm) (data : List UInt8) : 0 < pack (blockFields config best data) := by
  unfold blockFields
  split_ifs
  · apply pack_low_pos (by decide)
    rw [createCompressionHeader_type]
    decide
  · apply pack_low_pos (by decide)
    rw [createCompressionHeader_type]
    decide
  · apply pack_low_pos (by decide)
    rw [headerBits_type]
    decide

theorem pack_streamFields_pos (hne : bytes ≠ []) : 0 < pack (streamFields config bytes) := by
  unfold streamFields
  cases hblocks : bytes.length / blockSize with
  | zero =>
    have hlast : lastBytes bytes = bytes := by
      unfold lastBytes
      rw [hblocks, Nat.zero_mul, drop_zero]
    rw [range_zero, flatMap_nil, nil_append, hlast, if_neg hne]
    apply pack_low_pos (by decide)
    rw [Nat.add_mul_mod_self_left]
    decide
  | succ blocks =>
    rw [range_succ_eq_map, flatMap_cons, append_assoc]
    exact pack_append_pos (pack_blockFields_pos _ _) _

theorem width_streamFields : 2 ≤ width (streamFields config bytes) := by
  rw [streamFields_eq, width_append, width_cons, width_nil, low_width]
  omega

end

section
variable {s s' : BitStream} {fs : List Field}

theorem BitStream.value_append (a b : List ℕ) :
    BitStream.value (a ++ b) = BitStream.value a + 2 ^ (64 * a.length) * BitStream.value b := by
  induction a with
  | nil => simp [BitStream.value]
  | cons w a ih =>
    rw [cons_append, BitStream.value_cons, BitStream.value_cons, ih, length_cons, Nat.mul_succ, pow_add]
    ring

theorem Stores.allocateBits (hs : s.Stores fs) {bits : ℕ} (hroom : (s.allocateBits bits).Room s.bitPosition) :
    (s.allocateBits bits).Stores fs := by
  obtain ⟨-, hle⟩ := hroom
  rw [BitStream.allocateBits_length, hs.position, Nat.add_sub_cancel] at hle
  refine ⟨?_, ?_, hs.position⟩
  · intro w hw
    cases mem_append.mp hw with
    | inl hold => exact hs.valid w (mem_of_mem_take hold)
    | inr hnew =>
      rw [eq_of_mem_replicate hnew]
      exact Nat.two_pow_pos 64
  · have hdrop : BitStream.value (s.bitArray.drop ((bits + 63) / 64 + 1)) = 0 := by
      rw [← BitStream.value_drop hs.valid, hs.value_eq]
      apply Nat.div_eq_of_lt
      exact (pack_lt fs).trans_le (Nat.pow_le_pow_right (by omega) (by omega))
    have hsplit := BitStream.value_append (s.bitArray.take ((bits + 63) / 64 + 1)) (s.bitArray.drop ((bits + 63) / 64 + 1))
    rw [take_append_drop, hdrop, Nat.mul_zero, Nat.add_zero] at hsplit
    change BitStream.value (_ ++ List.replicate _ 0) = _
    rw [BitStream.value_append, BitStream.value_replicate_zero, Nat.mul_zero, Nat.add_zero, ← hsplit, hs.value_eq]

theorem fits_of_readBytes {out : List UInt8} (h : s.readBytes outputByteAlignment = some out) (hpos : 0 < s.bitPosition)
    (hfit : s.bitPosition + 7 < 2 ^ 32) : s.bitPosition + 256 ≤ 2 ^ 32 := by
  by_contra hlarge
  have hsize : u32 (s.bitPosition + outputByteAlignment * 8 - 1) / (outputByteAlignment * 8) = 0 := by
    unfold u32 outputByteAlignment
    omega
  have hcopy : u32 (s.bitPosition + 7) = s.bitPosition + 7 := Nat.mod_eq_of_lt hfit
  unfold BitStream.readBytes at h
  simp only [hsize, hcopy, Nat.zero_mul, Nat.zero_div, Option.bind_eq_bind, Option.bind_eq_some_iff] at h
  obtain ⟨copied, -, h⟩ := h
  rw [if_neg (by omega)] at h
  exact absurd h (by simp)

variable {call : Call} {calls : List Call}

theorem writeToStream_again {ss : List BitStream} {fss : List (List Field)} (hs : s.Stores fs)
    (hblocks : List.Forall₂ Block ss fss) (hfit : width fss.flatten + 2 + 256 ≤ 2 ^ 32) {out : List UInt8} {s' : BitStream}
    (h : writeToStream s [] ss = some (out, s')) :
    BitStream.ofLittleEndian out = pack (fs ++ (fss.flatten ++ [low 0 2])) ∧
      width fs ≤ 64 * ((width fss.flatten + 63) / 64) := by
  have htotal := totalBitCount_eq hblocks 0 (by omega)
  rw [Nat.zero_add] at htotal
  unfold writeToStream at h
  simp only [htotal, Option.bind_eq_bind, Option.bind_eq_some_iff, readInto_nil] at h
  obtain ⟨s₁, hfold, s₂, hwrite, bytes, hread, hout⟩ := h
  obtain rfl : bytes = out := congrArg Prod.fst (Option.some.inj hout)
  have hroom := room_of_foldlM_append hfold hwrite
  have hlength := BitStream.allocateBits_length s (width fss.flatten)
  obtain ⟨hs₂, hle, hlength'⟩ := foldlM_append_some hblocks (Stores.allocateBits hs hroom) (by omega) hfold hwrite
  have hposition := hs₂.position
  have hfits := fits_of_readBytes hread (by rw [hposition]; simp) (by omega)
  rw [hposition] at hfits hle
  obtain ⟨out', hread', hvalue, -⟩ := BitStream.readBytes_spec hs₂ (by omega) (show 0 < outputByteAlignment by decide)
    (by simpa [outputByteAlignment] using hfits)
  rw [hread] at hread'
  obtain rfl := Option.some.inj hread'
  refine ⟨hvalue, ?_⟩
  have hle' := hroom.2
  rw [hlength] at hle'
  have hsame : (s.allocateBits (width fss.flatten)).bitPosition = width fs := hs.position
  omega

theorem not_fresh_again (hs : s.Stores fs) (hwidth : 2 ≤ width fs) (h : Fitting call)
    (hbypass : call.config.bypassCompression = false) (hout : call.out = []) {out : List UInt8} {s' : BitStream}
    (hrun : encodeInto s call.config call.input call.out = .ok (out, s')) : ¬ Fresh out call := by
  rintro ⟨t, hfresh⟩
  obtain ⟨out', t', hfresh', -, hvalue⟩ := encodeInto_fresh h hbypass
  rw [hfresh] at hfresh'
  obtain rfl : out = out' := congrArg Prod.fst (Except.ok.inj hfresh')
  obtain ⟨ss, hblocks, hrun'⟩ := encodeInto_blocks h hbypass
  rw [hrun', hout] at hrun
  have hwrite : writeToStream s [] ss = some (out, s') := by
    cases hcase : writeToStream s [] ss with
    | none => exact absurd (hcase ▸ hrun) (by simp [bounds])
    | some r =>
      rw [hcase] at hrun
      exact congrArg some (Except.ok.inj hrun)
  have hfit := (bits_fit hbypass h.fits).1
  obtain ⟨hagain, hroom⟩ := writeToStream_again hs hblocks hfit hwrite
  rw [hvalue hout, ← streamFields_eq, pack_append] at hagain
  by_cases hempty : preprocess call.config call.input = []
  · -- nothing but the end of the stream is to be written, and its one word is used up
    have hnone : width (blockFieldLists call.config (preprocess call.config call.input)).flatten = 0 := by
      rw [hempty]
      rfl
    rw [hnone] at hroom
    omega
  · have hpos := @pack_streamFields_pos call.config _ hempty
    have hpow : 2 ^ 2 ≤ 2 ^ width fs := Nat.pow_le_pow_right (by omega) hwidth
    have hmul := Nat.mul_le_mul_right (pack (streamFields call.config (preprocess call.config call.input))) hpow
    omega

theorem encodeAll_cons {calls : List Call} {outs : List (List UInt8)} (h : encodeAll s (call :: calls) = .ok outs) :
    ∃ out s' outs', encodeInto s call.config call.input call.out = .ok (out, s') ∧ encodeAll s' calls = .ok outs' ∧
      outs = out :: outs' := by
  rw [encodeAll] at h
  cases hcall : encodeInto s call.config call.input call.out with
  | error failure =>
    rw [hcall] at h
    exact absurd h (by simp [bind, Except.bind])
  | ok r =>
    rw [hcall] at h
    change (encodeAll r.2 calls >>= fun outs => pure (r.1 :: outs)) = .ok outs at h
    cases hcalls : encodeAll r.2 calls with
    | error failure =>
      rw [hcalls] at h
      exact absurd h (by simp [bind, Except.bind])
    | ok outs' =>
      rw [hcalls] at h
      exact ⟨r.1, r.2, outs', rfl, hcalls, (Except.ok.inj h).symm⟩

theorem bypass_of_fresh (hs : s.Stores fs) (hwidth : 2 ≤ width fs) (hfit : ∀ call ∈ calls, Fitting call)
    (hempty : ∀ call ∈ calls, call.out = []) {outs : List (List UInt8)} (hrun : encodeAll s calls = .ok outs)
    (hfresh : List.Forall₂ Fresh outs calls) : ∀ call ∈ calls, call.config.bypassCompression = true := by
  induction calls generalizing outs with
  | nil => simp
  | cons call calls ih =>
    obtain ⟨hcall, hfit⟩ := forall_mem_cons.mp hfit
    obtain ⟨hout, hempty⟩ := forall_mem_cons.mp hempty
    obtain ⟨out, s', outs, hfirst, hrest, rfl⟩ := encodeAll_cons hrun
    obtain ⟨hfreshCall, hfresh⟩ := forall₂_cons.mp hfresh
    by_cases hbypass : call.config.bypassCompression = true
    · rw [encodeInto_bypass hcall hbypass] at hfirst
      obtain rfl : s = s' := congrArg Prod.snd (Except.ok.inj hfirst)
      exact forall_mem_cons.mpr ⟨hbypass, ih hfit hempty hrest hfresh⟩
    · exact absurd hfreshCall (not_fresh_again hs hwidth hcall (by simpa using hbypass) hout hfirst)

theorem compressesOnce_of_independent (hfit : ∀ call ∈ calls, Fitting call) (hempty : ∀ call ∈ calls, call.out = [])
    (h : Independent calls) : CompressesOnce calls := by
  obtain ⟨outs, hrun, hfresh⟩ := h
  induction calls generalizing outs with
  | nil => exact Nat.zero_le 1
  | cons call calls ih =>
    obtain ⟨hcall, hfit⟩ := forall_mem_cons.mp hfit
    obtain ⟨-, hempty⟩ := forall_mem_cons.mp hempty
    obtain ⟨out, s, outs, hfirst, hrest, rfl⟩ := encodeAll_cons hrun
    obtain ⟨-, hfresh⟩ := forall₂_cons.mp hfresh
    rw [compressesOnce_cons]
    by_cases hbypass : call.config.bypassCompression = true
    · rw [encodeInto_bypass hcall hbypass] at hfirst
      obtain rfl : BitStream.default = s := congrArg Prod.snd (Except.ok.inj hfirst)
      rw [if_pos hbypass]
      exact ih hfit hempty outs hrest hfresh
    · obtain ⟨out', s', hfirst', hs, -⟩ := encodeInto_fresh hcall (by simpa using hbypass)
      rw [hfirst] at hfirst'
      obtain rfl : s = s' := congrArg Prod.snd (Except.ok.inj hfirst')
      rw [if_neg hbypass]
      exact bypass_of_fresh hs width_streamFields hfit hempty hrest hfresh

/-- `write_to_output` never empties `bit_stream_out_`, and an encoder compresses once only. -/
theorem independent_iff (haccept : ∀ call ∈ calls, Accepted call) :
    ((∀ call ∈ calls, encodedBits call.config call.input < 2 ^ 32) ∧ CompressesOnce calls → Independent calls) ∧
      ((∀ call ∈ calls, encodedBits call.config call.input < 2 ^ 32 ∧ call.out = []) → Independent calls →
        CompressesOnce calls) := by
  constructor
  · rintro ⟨hfits, honce⟩
    exact independent_of_compressesOnce (fun call hcall => ⟨haccept call hcall, hfits call hcall⟩) honce
  · intro hfits
    apply compressesOnce_of_independent
    · intro call hcall
      exact ⟨haccept call hcall, (hfits call hcall).1⟩
    · intro call hcall
      exact (hfits call hcall).2

def compressThree : Call := ⟨weights false, [7, 1, 200], []⟩

theorem fitting_compressThree : Fitting compressThree := ⟨⟨rfl, rfl⟩, by decide⟩

def bypassTwo : Call := ⟨{ weights false with bypassCompression := true }, [9, 250], []⟩

theorem fitting_bypassTwo : Fitting bypassTwo := ⟨⟨rfl, rfl⟩, by decide⟩

/-- Bypass, compress, bypass. -/
theorem independent_iff_once : Independent [bypassTwo, compressThree, bypassTwo] ∧
    CompressesOnce [bypassTwo, compressThree, bypassTwo] := by
  have hfitting : ∀ call ∈ [bypassTwo, compressThree, bypassTwo], Fitting call := by
    simp [fitting_bypassTwo, fitting_compressThree]
  have hempty : ∀ call ∈ [bypassTwo, compressThree, bypassTwo], call.out = [] := by
    simp [bypassTwo, compressThree]
  have hiff := independent_iff (fun call hcall => (hfitting call hcall).toAccepted)
  have honce : CompressesOnce [bypassTwo, compressThree, bypassTwo] := by
    unfold CompressesOnce
    decide
  have hindependent := hiff.1 ⟨fun call hcall => (hfitting call hcall).fits, honce⟩
  exact ⟨hindependent, hiff.2 (fun call hcall => ⟨(hfitting call hcall).fits, hempty call hcall⟩) hindependent⟩

theorem second_call_dependent : ¬ ∀ calls : List Call, (∀ call ∈ calls, Accepted call) → Independent calls := by
  intro hall
  have hfit : ∀ call ∈ [compressThree, compressThree], Fitting call := by
    simpa using fitting_compressThree
  have honce := compressesOnce_of_independent hfit (by simp [compressThree])
    (hall _ (fun call hcall => (hfit call hcall).toAccepted))
  exact absurd honce (by unfold CompressesOnce; decide)

end

end NpuCompiler.Bitc
