import NpuCompiler.Bitc.BlockDecoder
import NpuCompiler.Bitc.BlockEncoder

namespace NpuCompiler.Bitc

open BitFields Encoder Decoder List

section

theorem type_code_lt (type : CompressionType) : type.code < 4 := by
  cases type <;> decide

theorem ofBits_headerBits {type : CompressionType} {algo bitLength dual len bits n : ℕ} (hn : 10 ≤ n)
    (h : bits % 2 ^ n = headerBits type algo bitLength dual len % 2 ^ n) :
    Header.ofBits bits = ⟨type.code, algo % 8, bitLength % 8, dual % 4⟩ := by
  have hlow : bits % 2 ^ 10 = headerBits type algo bitLength dual len % 2 ^ 10 := by
    rw [← mod_pow_mod_pow bits hn, h, mod_pow_mod_pow _ hn]
  have htype := type_code_lt type
  unfold headerBits at hlow
  unfold Header.ofBits
  rw [Header.mk.injEq]
  refine ⟨?_, ?_, ?_, ?_⟩ <;> omega

theorem compressionType_ofBits (bits : ℕ) : (Header.ofBits bits).compressionType = bits % 4 := rfl

theorem code_le_four {config : BitCompactorConfig} {algo : EncoderAlgorithm} (hmem : algo ∈ algorithms config) :
    (encoderToDecoderMapping algo).code ≤ 4 := by
  cases algo with
  | bincmpct =>
    unfold algorithms at hmem
    split at hmem <;> simp [encoderAlgorithms] at hmem
  | btmap =>
    unfold algorithms at hmem
    split at hmem <;> simp [encoderAlgorithms] at hmem
  | _ => decide

variable {config : BitCompactorConfig} {stream : BitStream} {total blk : ℕ} {fs : List Field} {d : State}
  {data prevBlk : List UInt8} {algo : EncoderAlgorithm}

theorem undo_congr {decoder : DecoderAlgorithm} (hdec : decoder ≠ .signshftaddblk) (minimum : UInt8)
    (prev prev' residual : List UInt8) : undo decoder minimum prev residual = undo decoder minimum prev' residual := by
  unfold undo
  simp only [hdec, if_false]

theorem undo_blockParam (hlen : data.length = blockSize) (hu : Usable config data prevBlk algo)
    (hlast : prevBlk.length = blockSize → lastBlock d.outputStream = prevBlk) :
    undo (blockParam config data prevBlk algo).decoder (blockParam config data prevBlk algo).minimum
      (lastBlock d.outputStream) (blockParam config data prevBlk algo).residual = data := by
  obtain ⟨hres, hmin, -, hdec⟩ := blockParam_residual config data prevBlk algo
  have hundo := undo_algorithmEncoder hu.mem hu.weight hu.prev
  rw [hres, hmin, hdec]
  by_cases halgo : algo = .prevblkprdct
  · rw [hlast ((hu.prev halgo).trans hlen)]
    exact hundo
  · have hno : encoderToDecoderMapping algo ≠ .signshftaddblk := by
      cases algo <;> first | exact absurd rfl halgo | decide
    rw [undo_congr hno _ _ prevBlk]
    exact hundo

theorem needs_prevBlk (hu : Usable config data prevBlk algo) (hlen : data.length = blockSize)
    (hout : prevBlk.length = blockSize → blockSize ≤ d.outputStream.length) :
    (blockParam config data prevBlk algo).decoder = .signshftaddblk → blockSize ≤ d.outputStream.length := by
  intro hdec
  apply hout
  rw [(blockParam_residual config data prevBlk algo).2.2.2] at hdec
  have halgo : algo = .prevblkprdct := by
    cases algo <;> first | rfl | exact absurd hdec (by decide)
  exact (hu.prev halgo).trans hlen

def decodeBlk (config : BitCompactorConfig) (stream : BitStream) (bits : ℕ) (d : State) : Option State :=
  if (Header.ofBits bits).compressionType = CompressionType.cmprsd.code then
    cmprsdHp config stream (Header.ofBits bits) d
  else if (Header.ofBits bits).compressionType = CompressionType.lastblk.code then lastblkHp config stream bits d
  else uncmprsdHp config stream d

def Decodes (config : BitCompactorConfig) (stream : BitStream) (d : State) (size bits : ℕ) (block : List UInt8) : Prop :=
  ∃ word, stream.readBits d.streamBitOffset = some word ∧
    (Header.ofBits word).compressionType ≠ CompressionType.eofr.code ∧
    ∃ d', decodeBlk config stream word d = some d' ∧ Decoded d d' size bits block

theorem decodeBlocks_succ {size bits : ℕ} {block : List UInt8}
    (h : Decodes config stream { d with blockOffset := 0 } size bits block) :
    ∃ d', Decoded d d' size bits block ∧ ∀ fuel decompressionLength,
      decodeBlocks config stream (fuel + 1) d decompressionLength =
        decodeBlocks config stream fuel d' (u32 (decompressionLength + size)) := by
  obtain ⟨word, hread, htype, d', heq, hdecoded⟩ := h
  refine ⟨d', ⟨hdecoded.offset, hdecoded.output, hdecoded.size_eq⟩, ?_⟩
  intro fuel decompressionLength
  have hstep : decodeBlocks config stream (fuel + 1) d decompressionLength =
      (decodeBlk config stream word { d with blockOffset := 0 }).bind
        (fun d => decodeBlocks config stream fuel d (u32 (decompressionLength + d.blockSize))) := by
    rw [decodeBlocks]
    simp only at hread
    simp only [Option.bind_eq_bind, hread, Option.bind_some, htype, if_false]
    unfold decodeBlk
    split_ifs <;> rfl
  rw [hstep, heq, Option.bind_some, hdecoded.size_eq]

theorem decodes_plain (hlen : data.length = blockSize) (hu : Usable config data prevBlk algo)
    (hlast : prevBlk.length = blockSize → blockSize ≤ d.outputStream.length ∧ lastBlock d.outputStream = prevBlk)
    (hoffset : d.blockOffset = 0) (haligned : Aligned config d.streamBitOffset)
    (h : Reads stream total d.streamBitOffset (plainFields config (blockParam config data prevBlk algo) ++ fs)) :
    Decodes config stream d blockSize (width (plainFields config (blockParam config data prevBlk algo))) data := by
  obtain ⟨hres, -, hbl, hdec⟩ := blockParam_residual config data prevBlk algo
  obtain ⟨hpos, hle, hbits⟩ := @algorithmEncoder_fits config algo data prevBlk
  rw [← hbl] at hpos hle hbits
  rw [← hres] at hbits
  have hcode : (blockParam config data prevBlk algo).decoder.code ≤ 4 := by
    rw [hdec]
    exact code_le_four hu.mem
  have hfields := h
  unfold plainFields at hfields
  simp only [cons_append] at hfields
  obtain ⟨word, hread, hword⟩ := hfields.field (by rw [low_width]; omega)
  have hheader := ofBits_headerBits (le_refl 10) hword
  rw [Nat.mod_eq_of_lt (by omega : (blockParam config data prevBlk algo).decoder.code < 8)] at hheader
  obtain ⟨d', heq, hdecoded⟩ := cmprsdHp_plain hcode hpos hle (symbolsFit_zero hbits)
    (by rw [hres]; exact blockParam_residual_length hlen hu.prev) hoffset haligned
    (needs_prevBlk hu hlen (fun hp => (hlast hp).1)) h
  rw [undo_blockParam hlen hu (fun hp => (hlast hp).2)] at hdecoded
  refine ⟨word, hread, ?_, d', ?_, hdecoded⟩
  · rw [hheader]
    exact show CompressionType.cmprsd.code ≠ CompressionType.eofr.code by decide
  · unfold decodeBlk
    rw [hheader, if_pos rfl]
    exact heq

theorem decodes_dual (hlen : data.length = blockSize) (hu : Usable config data prevBlk algo)
    (hdual : isAlgoDualEncodeCompatible config algo = true)
    (hlast : prevBlk.length = blockSize → blockSize ≤ d.outputStream.length ∧ lastBlock d.outputStream = prevBlk)
    (hoffset : d.blockOffset = 0) (haligned : Aligned config d.streamBitOffset)
    (h : Reads stream total d.streamBitOffset (dualFields config (blockParam config data prevBlk algo) ++ fs)) :
    Decodes config stream d blockSize (width (dualFields config (blockParam config data prevBlk algo))) data := by
  obtain ⟨hres, -, -, hdec⟩ := blockParam_residual config data prevBlk algo
  obtain ⟨hbl, hbm, -⟩ := @dual_eq config data prevBlk algo hdual
  have hfits := dualEncode_fits config (@blockParam_residual_length config data prevBlk algo hlen hu.prev)
  rw [← hres] at hfits hbl hbm
  have hcode : (blockParam config data prevBlk algo).decoder.code ≤ 4 := by
    rw [hdec]
    exact code_le_four hu.mem
  have hfields := h
  unfold dualFields at hfields
  simp only [cons_append] at hfields
  obtain ⟨word, hread, hword⟩ := hfields.field (by rw [low_width]; omega)
  have hheader := ofBits_headerBits (by rw [low_width]; omega) hword
  rw [Nat.mod_eq_of_lt (by omega : (blockParam config data prevBlk algo).decoder.code < 8)] at hheader
  obtain ⟨d', heq, hdecoded⟩ := cmprsdHp_dual hcode (by rw [hbl]; exact hfits.pos) (by rw [hbl]; exact hfits.le)
    (by rw [hbl, hbm]; exact hfits.symbols) (by rw [hbm]; exact hfits.bitmap)
    (by rw [hres]; exact blockParam_residual_length hlen hu.prev) hoffset haligned
    (needs_prevBlk hu hlen (fun hp => (hlast hp).1)) h
  rw [undo_blockParam hlen hu (fun hp => (hlast hp).2)] at hdecoded
  refine ⟨word, hread, ?_, d', ?_, hdecoded⟩
  · rw [hheader]
    exact show CompressionType.cmprsd.code ≠ CompressionType.eofr.code by decide
  · unfold decodeBlk
    rw [hheader, if_pos rfl]
    exact heq

theorem decodes_uncompressed (hlen : data.length = blockSize) (haligned : Aligned config d.streamBitOffset)
    (h : Reads stream total d.streamBitOffset (uncompressedFields config data ++ fs)) :
    Decodes config stream d blockSize (width (uncompressedFields config data)) data := by
  have hfields := h
  unfold uncompressedFields at hfields
  simp only [cons_append] at hfields
  obtain ⟨word, hread, hword⟩ := hfields.field (by rw [low_width]; omega)
  have htype : (Header.ofBits word).compressionType = CompressionType.uncmprsd.code := hword
  obtain ⟨d', heq, hdecoded⟩ := uncmprsdHp_spec hlen haligned h
  refine ⟨word, hread, ?_, d', ?_, hdecoded⟩
  · rw [htype]
    decide
  · unfold decodeBlk
    rw [htype, if_neg (by decide), if_neg (by decide)]
    exact heq

theorem decodes_last (hlen : data.length < blockSize) (hoffset : d.blockOffset = 0)
    (haligned : Aligned config d.streamBitOffset) (h : Reads stream total d.streamBitOffset (lastFields data ++ fs)) :
    Decodes config stream d data.length (width (lastFields data))
      (data ++ List.replicate (blockSize - data.length) 0) := by
  have hfields := h
  unfold lastFields at hfields
  rw [cons_append] at hfields
  obtain ⟨word, hread, hword⟩ := hfields.field (by rw [low_width]; omega)
  have hcode : CompressionType.lastblk.code = 1 := rfl
  rw [low_width, low_value] at hword
  have hword' : word % 2 ^ 8 = CompressionType.lastblk.code + 2 ^ 2 * data.length := by
    unfold blockSize at hlen
    omega
  have htype : (Header.ofBits word).compressionType = CompressionType.lastblk.code := by
    rw [compressionType_ofBits]
    omega
  obtain ⟨d', heq, hdecoded⟩ := lastblkHp_spec hword' hoffset haligned h
  refine ⟨word, hread, ?_, d', ?_, hdecoded⟩
  · rw [htype]
    decide
  · unfold decodeBlk
    rw [htype, if_neg (by decide), if_pos rfl]
    exact heq

theorem decodes_block (hlen : data.length = blockSize) (hprev : blk ≠ 0 → prevBlk.length = data.length)
    (hlast : prevBlk.length = blockSize → blockSize ≤ d.outputStream.length ∧ lastBlock d.outputStream = prevBlk)
    (hoffset : d.blockOffset = 0) (haligned : Aligned config d.streamBitOffset)
    (h : Reads stream total d.streamBitOffset
      (blockFields config (getBestAlgorithm config blk data prevBlk) data ++ fs)) :
    Decodes config stream d blockSize
      (width (blockFields config (getBestAlgorithm config blk data prevBlk) data)) data := by
  obtain ⟨algo, hu, hparam, -⟩ := @best_plain config data prevBlk blk hprev
  obtain ⟨algo', hu', hdual, hparam', -⟩ := @best_dual config data prevBlk blk hlen hprev
  unfold blockFields at h ⊢
  by_cases hbetter : isCompressionBetterThanUncompressed config (getBestAlgorithm config blk data prevBlk) = true
  · rw [if_pos hbetter] at h ⊢
    by_cases husing : usingDualEncoder (getBestAlgorithm config blk data prevBlk) = true
    · rw [if_pos husing, hparam'] at h ⊢
      exact decodes_dual hlen hu' hdual hlast hoffset haligned h
    · rw [if_neg husing, hparam] at h ⊢
      exact decodes_plain hlen hu hlast hoffset haligned h
  · rw [if_neg hbetter] at h ⊢
    exact decodes_uncompressed hlen haligned h

theorem aligned_block (best : BestAlgorithm) (data : List UInt8) {p : ℕ} (h : Aligned config p) :
    Aligned config (p + width (blockFields config best data)) := by
  intro harch
  have hp := h harch
  unfold blockFields
  by_cases hbetter : isCompressionBetterThanUncompressed config best = true
  · rw [if_pos hbetter]
    by_cases husing : usingDualEncoder best = true
    · rw [if_pos husing, width_dualFields, if_neg harch, if_neg harch]
      unfold byteAlign
      split_ifs <;> omega
    · rw [if_neg husing, width_plainFields, if_neg harch, if_neg harch]
      unfold byteAlign
      split_ifs <;> omega
  · rw [if_neg hbetter]
    unfold uncompressedFields residualFields
    simp only [width_append, width_cons, width_nil, low_width, width_padField, if_neg harch]
    unfold byteAlign
    omega

def chunk (bytes : List UInt8) (blk : ℕ) : List UInt8 := (bytes.drop (blk * blockSize)).take blockSize

def prevChunk (bytes : List UInt8) (blk : ℕ) : List UInt8 := if blk = 0 then [] else chunk bytes (blk - 1)

def fieldsAt (config : BitCompactorConfig) (bytes : List UInt8) (blk : ℕ) : List Field :=
  blockFields config (getBestAlgorithm config blk (chunk bytes blk) (prevChunk bytes blk)) (chunk bytes blk)

def lastBytes (bytes : List UInt8) : List UInt8 := bytes.drop (bytes.length / blockSize * blockSize)

def streamFields (config : BitCompactorConfig) (bytes : List UInt8) : List Field :=
  (List.range (bytes.length / blockSize)).flatMap (fieldsAt config bytes) ++
    ((if lastBytes bytes = [] then [] else lastFields (lastBytes bytes)) ++ [low 0 2])

variable {config : BitCompactorConfig} {stream : BitStream} {total : ℕ} {fs : List Field} {bytes : List UInt8}

theorem chunk_length {blk : ℕ} (h : (blk + 1) * blockSize ≤ bytes.length) : (chunk bytes blk).length = blockSize := by
  unfold chunk
  rw [length_take, length_drop]
  rw [Nat.add_mul] at h
  omega

theorem prevChunk_length {blk : ℕ} (h : (blk + 1) * blockSize ≤ bytes.length) (hblk : blk ≠ 0) :
    (prevChunk bytes blk).length = blockSize := by
  rw [prevChunk, if_neg hblk]
  apply chunk_length
  rw [Nat.add_mul] at h
  rw [Nat.sub_add_cancel (by omega)]
  omega

theorem take_succ_chunk (bytes : List UInt8) (blk : ℕ) :
    bytes.take ((blk + 1) * blockSize) = bytes.take (blk * blockSize) ++ chunk bytes blk := by
  rw [Nat.add_mul, Nat.one_mul, take_add]
  rfl

theorem lastBlock_take {blk : ℕ} (h : (blk + 1) * blockSize ≤ bytes.length) (hblk : blk ≠ 0) :
    lastBlock (bytes.take (blk * blockSize)) = prevChunk bytes blk := by
  obtain ⟨blk, rfl⟩ := Nat.exists_eq_succ_of_ne_zero hblk
  have hlen := @chunk_length bytes blk (by rw [Nat.succ_eq_add_one, Nat.add_mul] at h; omega)
  rw [Nat.succ_eq_add_one, take_succ_chunk, lastBlock, length_append, hlen, Nat.add_sub_cancel, drop_left]
  rfl

theorem decodeBlocks_run (hbound : bytes.length < 2 ^ 32) (left blk : ℕ)
    (hcount : (blk + left) * blockSize ≤ bytes.length) {d : State}
    (houtput : d.outputStream = bytes.take (blk * blockSize)) (haligned : Aligned config d.streamBitOffset)
    (h : Reads stream total d.streamBitOffset ((List.range' blk left).flatMap (fieldsAt config bytes) ++ fs)) :
    ∃ d', d'.outputStream = bytes.take ((blk + left) * blockSize) ∧ Aligned config d'.streamBitOffset ∧
      Reads stream total d'.streamBitOffset fs ∧
      ∀ fuel, decodeBlocks config stream (fuel + left) d (blk * blockSize) =
        decodeBlocks config stream fuel d' ((blk + left) * blockSize) := by
  induction left generalizing blk d with
  | zero => exact ⟨d, houtput, haligned, h, fun fuel => rfl⟩
  | succ left ih =>
    have hnext : (blk + 1) * blockSize ≤ bytes.length := by
      apply le_trans _ hcount
      exact Nat.mul_le_mul_right _ (by omega)
    have hlen := chunk_length hnext
    rw [range'_succ, flatMap_cons, append_assoc] at h
    have hprevlen : blk ≠ 0 → (prevChunk bytes blk).length = (chunk bytes blk).length := by
      intro hblk
      rw [prevChunk_length hnext hblk, hlen]
    have hlast : (prevChunk bytes blk).length = blockSize →
        blockSize ≤ d.outputStream.length ∧ lastBlock d.outputStream = prevChunk bytes blk := by
      intro hp
      have hblk : blk ≠ 0 := by
        rintro rfl
        exact absurd hp (show (prevChunk bytes 0).length ≠ blockSize from Nat.zero_ne_add_one 63)
      rw [houtput, length_take]
      refine ⟨?_, lastBlock_take hnext hblk⟩
      have hmul : 1 * blockSize ≤ blk * blockSize := Nat.mul_le_mul_right _ (by omega)
      rw [Nat.add_mul] at hnext
      omega
    obtain ⟨d', hdecoded, hstep⟩ := decodeBlocks_succ (@decodes_block config stream total blk _
      { d with blockOffset := 0 } _ _ hlen hprevlen hlast rfl haligned h)
    have hreads := h.append
    have haligned' := aligned_block (getBestAlgorithm config blk (chunk bytes blk) (prevChunk bytes blk))
      (chunk bytes blk) haligned
    have hoffset : d'.streamBitOffset = d.streamBitOffset + width (fieldsAt config bytes blk) := hdecoded.offset
    have houtput' : d'.outputStream = bytes.take ((blk + 1) * blockSize) := by
      rw [hdecoded.output, take_succ_chunk, ← houtput]
    have hlength : blk + (left + 1) = blk + 1 + left := by omega
    obtain ⟨d'', hout, hal, hrd, hrun⟩ := ih (blk + 1) (by rwa [hlength] at hcount) houtput'
      (by rw [hoffset]; exact haligned') (by rw [hoffset]; exact hreads)
    rw [hlength]
    refine ⟨d'', hout, hal, hrd, ?_⟩
    intro fuel
    have hsum : u32 (blk * blockSize + blockSize) = (blk + 1) * blockSize := by
      rw [← Nat.succ_mul]
      exact Nat.mod_eq_of_lt (hnext.trans_lt hbound)
    rw [← Nat.add_assoc, hstep, hsum]
    exact hrun fuel

theorem decodeBlocks_end (d : State) (decompressionLength fuel : ℕ) (h : Reads stream total d.streamBitOffset [low 0 2]) :
    decodeBlocks config stream (fuel + 1) d decompressionLength =
      some (eofrHp { d with blockOffset := 0 }, decompressionLength) := by
  obtain ⟨word, hread, hword⟩ := h.field (by rw [low_width]; omega)
  have htype : (Header.ofBits word).compressionType = CompressionType.eofr.code := hword
  rw [decodeBlocks]
  simp only [Option.bind_eq_bind, hread, Option.bind_some, htype, if_true]
  rfl

theorem take_append_lastBytes (bytes : List UInt8) :
    bytes.take (bytes.length / blockSize * blockSize) ++ lastBytes bytes = bytes := take_append_drop ..

theorem lastBytes_length (bytes : List UInt8) :
    (lastBytes bytes).length < blockSize ∧
      bytes.length / blockSize * blockSize + (lastBytes bytes).length = bytes.length := by
  unfold lastBytes blockSize
  rw [length_drop]
  omega

theorem decodeBlocks_spec (hbound : bytes.length < 2 ^ 32) (h : Reads stream total 0 (streamFields config bytes))
    {fuel : ℕ} (hfuel : bytes.length / blockSize + 2 ≤ fuel) :
    ∃ d pad, decodeBlocks config stream fuel Decoder.init 0 = some (d, bytes.length) ∧ d.outputStream = bytes ++ pad := by
  obtain ⟨hshort, hsum⟩ := lastBytes_length bytes
  unfold streamFields at h
  rw [range_eq_range'] at h
  obtain ⟨d, houtput, haligned, hreads, hrun⟩ := @decodeBlocks_run config stream total _ bytes hbound
    (bytes.length / blockSize) 0 (by rw [Nat.zero_add]; omega) Decoder.init (by rw [Nat.zero_mul]; rfl)
    (fun _ => rfl) h
  rw [Nat.zero_add] at houtput hrun
  obtain ⟨fuel, rfl⟩ := Nat.exists_eq_add_of_le' hfuel
  have hstart := hrun (fuel + 2)
  rw [Nat.zero_mul, Nat.add_assoc, Nat.add_comm 2] at hstart
  rw [hstart]
  by_cases hnone : lastBytes bytes = []
  · rw [if_pos hnone, nil_append] at hreads
    have hall := take_append_lastBytes bytes
    rw [hnone, append_nil] at hall
    rw [hnone, length_nil, Nat.add_zero] at hsum
    refine ⟨eofrHp { d with blockOffset := 0 }, [], ?_, ?_⟩
    · rw [decodeBlocks_end d _ (fuel + 1) hreads, hsum]
    · rw [append_nil]
      exact houtput.trans hall
  · rw [if_neg hnone] at hreads
    obtain ⟨d', hdecoded, hstep⟩ := decodeBlocks_succ (@decodes_last config stream total _ { d with blockOffset := 0 } _
      hshort rfl haligned hreads)
    have hrest := hreads.append
    have hoffset : d'.streamBitOffset = d.streamBitOffset + width (lastFields (lastBytes bytes)) := hdecoded.offset
    rw [← hoffset] at hrest
    refine ⟨eofrHp { d' with blockOffset := 0 }, List.replicate (blockSize - (lastBytes bytes).length) 0, ?_, ?_⟩
    · rw [hstep, hsum, u32, Nat.mod_eq_of_lt hbound, decodeBlocks_end d' _ fuel hrest]
    · have hall := take_append_lastBytes bytes
      calc d'.outputStream = d.outputStream ++ (lastBytes bytes ++ List.replicate _ 0) := hdecoded.output
        _ = bytes ++ List.replicate _ 0 := by rw [houtput, ← append_assoc, hall]

end

end NpuCompiler.Bitc
