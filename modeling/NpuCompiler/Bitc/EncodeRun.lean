import NpuCompiler.Bitc.DecodeRun

namespace NpuCompiler.Bitc

open BitFields Encoder List Option

structure HoldsBytes (stream : BitStream) (bytes : List UInt8) : Prop where
  valid : BitStream.Valid stream.bitArray
  value_eq : BitStream.value stream.bitArray = BitStream.ofLittleEndian bytes
  room : stream.Room (8 * bytes.length)
  count : stream.sourceByteCount = bytes.length

theorem ofBytes_holds {bytes : List UInt8} (hlen : bytes.length + 7 < 2 ^ 32) :
    ∃ stream, BitStream.ofBytes bytes = some stream ∧ HoldsBytes stream bytes := by
  obtain ⟨stream, heq, hvalid, hvalue, hlength, hcount⟩ := BitStream.ofBytes_spec hlen
  refine ⟨stream, heq, hvalid, hvalue, ⟨by omega, by omega⟩, hcount⟩

theorem mapM_forall₂ {α β γ : Type} {R : β → γ → Prop} {f : α → Option β} {g : α → γ} {l : List α}
    (h : ∀ a ∈ l, ∃ b, f a = some b ∧ R b (g a)) : ∃ bs, l.mapM f = some bs ∧ List.Forall₂ R bs (l.map g) := by
  induction l with
  | nil => exact ⟨[], rfl, .nil⟩
  | cons a l ih =>
    obtain ⟨b, hb, hR⟩ := h a (mem_cons_self ..)
    obtain ⟨bs, hbs, hRs⟩ := ih (fun a' ha' => h a' (mem_cons_of_mem a ha'))
    refine ⟨b :: bs, ?_, .cons hR hRs⟩
    rw [mapM_cons, hb, hbs]
    rfl

def Block (s : BitStream) (fs : List Field) : Prop := s.Stores fs ∧ s.Room (width fs)

section
variable {config : BitCompactorConfig} {stream : BitStream} {bytes : List UInt8}

theorem HoldsBytes.bytesAt (h : HoldsBytes stream bytes) {start count : ℕ} (hle : start + count ≤ bytes.length) :
    stream.bytesAt start count = some ((bytes.drop start).take count) := by
  have hroom := h.room.2
  exact BitStream.bytesAt_ofLittleEndian h.valid h.value_eq (by omega) hle

theorem HoldsBytes.encodeBlk (h : HoldsBytes stream bytes) {blk : ℕ} (hle : (blk + 1) * blockSize ≤ bytes.length) :
    ∃ s, Encoder.encodeBlk config stream blk = some s ∧ Block s (fieldsAt config bytes blk) := by
  have hlen := chunk_length hle
  have hdata : stream.bytesAt (blk * blockSize) blockSize = some (chunk bytes blk) :=
    h.bytesAt (by rwa [Nat.add_mul, Nat.one_mul] at hle)
  have hprev : (if blk = 0 then some [] else stream.bytesAt (blk * blockSize - blockSize) blockSize) =
      some (prevChunk bytes blk) := by
    unfold prevChunk
    by_cases hblk : blk = 0
    · rw [if_pos hblk, if_pos hblk]
    · have hstart : blk * blockSize - blockSize = (blk - 1) * blockSize := by rw [Nat.sub_mul, Nat.one_mul]
      rw [if_neg hblk, if_neg hblk, hstart]
      apply h.bytesAt
      rw [Nat.sub_mul, Nat.one_mul]
      rw [Nat.add_mul] at hle
      omega
  obtain ⟨s, hs, hwritten, hwidth⟩ := @encodeBlk_spec config (chunk bytes blk) (prevChunk bytes blk) blk hlen
    (fun hblk => (prevChunk_length hle hblk).trans hlen.symm)
  refine ⟨s, ?_, hwritten.stores, hwritten.room.mono hwidth.le⟩
  unfold Encoder.encodeBlk
  simp only [hdata, bind_eq_bind, bind_some]
  by_cases hblk : blk = 0
  · rw [if_pos hblk, Option.some.injEq] at hprev
    rw [if_pos hblk, hprev]
    exact hs
  · rw [if_neg hblk] at hprev
    rw [if_neg hblk, hprev]
    exact hs

def preprocess (config : BitCompactorConfig) (input : List UInt8) : List UInt8 :=
  if config.modeFp16Enable then fp16enprdct input.length input else input

def blockFieldLists (config : BitCompactorConfig) (bytes : List UInt8) : List (List Field) :=
  (List.range (bytes.length / blockSize)).map (fieldsAt config bytes) ++
    if lastBytes bytes = [] then [] else [lastFields (lastBytes bytes)]

theorem streamFields_eq (config : BitCompactorConfig) (bytes : List UInt8) :
    streamFields config bytes = (blockFieldLists config bytes).flatten ++ [low 0 2] := by
  unfold streamFields blockFieldLists
  rw [flatten_append, append_assoc, flatMap_def]
  split_ifs <;> simp

theorem writeLastBlk_block (hlen : bytes.length < blockSize) :
    ∃ s, writeLastBlk bytes = some s ∧ Block s (lastFields bytes) := by
  unfold blockSize at hlen
  obtain ⟨s, hs, hwritten⟩ := @writeLastBlk_spec bytes (by omega)
  exact ⟨s, hs, hwritten.stores, hwritten.room.mono (width_lastFields bytes).le⟩

theorem encodeBlocks_eq (config : BitCompactorConfig) (stream : BitStream) :
    encodeBlocks config stream =
      (if config.modeFp16Enable then fp16Preprocess stream else some stream).bind (fun stream' =>
        ((List.range (stream.sourceByteCount / 64)).mapM (Encoder.encodeBlk config stream')).bind (fun blockStream =>
          if stream.sourceByteCount - stream.sourceByteCount / 64 * 64 > 0 then
            (stream'.bytesAt (stream.sourceByteCount / 64 * blockSize)
              (stream.sourceByteCount - stream.sourceByteCount / 64 * 64)).bind (fun data =>
                (writeLastBlk data).bind (fun last => some (blockStream ++ [last])))
          else some blockStream)) := by
  unfold encodeBlocks
  by_cases hmode : config.modeFp16Enable = true
  · rw [if_pos hmode]
    simp only [if_pos hmode]
    rfl
  · rw [if_neg hmode]
    simp only [if_neg hmode]
    rfl

theorem encodeBlocks_spec {input : List UInt8} (hlength : (preprocess config input).length = input.length)
    (hbound : input.length + 7 < 2 ^ 32) (h : HoldsBytes stream input) :
    ∃ ss, encodeBlocks config stream = some ss ∧
      List.Forall₂ Block ss (blockFieldLists config (preprocess config input)) := by
  have hstream : ∃ stream', (if config.modeFp16Enable then fp16Preprocess stream else some stream) = some stream' ∧
      HoldsBytes stream' (preprocess config input) := by
    unfold preprocess at hlength ⊢
    by_cases hmode : config.modeFp16Enable = true
    · rw [if_pos hmode] at hlength ⊢
      obtain ⟨stream', heq, hholds⟩ := @ofBytes_holds (fp16enprdct input.length input) (by omega)
      refine ⟨stream', ?_, by rwa [if_pos hmode]⟩
      unfold fp16Preprocess
      rw [h.count, h.bytesAt (by omega)]
      simpa using heq
    · rw [if_neg hmode, if_neg hmode]
      exact ⟨stream, rfl, h⟩
  obtain ⟨stream', heq, hholds⟩ := hstream
  generalize preprocess config input = bytes at hlength hholds ⊢
  obtain ⟨hshort, hsum⟩ := lastBytes_length bytes
  obtain ⟨ss, hss, hblocks⟩ := @mapM_forall₂ _ _ _ Block (Encoder.encodeBlk config stream') (fieldsAt config bytes)
    (List.range (bytes.length / blockSize)) (by
      intro blk hblk
      apply hholds.encodeBlk
      have hlt := mem_range.mp hblk
      have hmul : (blk + 1) * blockSize ≤ bytes.length / blockSize * blockSize := Nat.mul_le_mul_right _ hlt
      omega)
  have hcount : input.length / 64 = bytes.length / blockSize := by
    rw [hlength]
    rfl
  have hlast : input.length - bytes.length / blockSize * 64 = (lastBytes bytes).length := by
    unfold blockSize at hsum ⊢
    omega
  rw [encodeBlocks_eq, heq, bind_some, h.count, hcount, hss, bind_some, hlast]
  unfold blockFieldLists
  by_cases hnone : lastBytes bytes = []
  · rw [hnone, length_nil, if_neg (Nat.lt_irrefl 0), if_pos rfl, append_nil]
    exact ⟨ss, rfl, hblocks⟩
  · have hdata : stream'.bytesAt (bytes.length / blockSize * blockSize) (lastBytes bytes).length =
        some (lastBytes bytes) := by
      rw [hholds.bytesAt hsum.le]
      exact congrArg some take_length
    obtain ⟨last, hwrite, hblock⟩ := writeLastBlk_block hshort
    rw [if_pos (length_pos_iff.mpr hnone), if_neg hnone, hdata, bind_some, hwrite, bind_some]
    exact ⟨ss ++ [last], rfl, rel_append hblocks (.cons hblock .nil)⟩

section
variable {ss : List BitStream} {fss : List (List Field)} (hblocks : List.Forall₂ Block ss fss)
include hblocks

theorem foldlM_append {s : BitStream} {fs : List Field} (hs : s.Stores fs) (hroom : s.Room (width fs + width fss.flatten))
    (hfit : width fs + width fss.flatten < 2 ^ 32) :
    ∃ s', ss.foldlM BitStream.append s = some s' ∧ s'.Stores (fs ++ fss.flatten) ∧
      s'.bitArray.length = s.bitArray.length := by
  induction hblocks generalizing s fs with
  | nil => exact ⟨s, rfl, by simpa using hs, rfl⟩
  | @cons t gs ts gss hblock hblocks ih =>
    obtain ⟨ht, hroom'⟩ := hblock
    rw [flatten_cons, width_append] at hroom hfit
    obtain ⟨s', heq, hs', hlength⟩ := hs.append ht (hroom.mono (by omega)) hroom' (by omega)
    obtain ⟨s'', heq', hs'', hlength'⟩ := ih hs'
      (by rw [width_append, Nat.add_assoc]; exact hroom.of_length hlength) (by rw [width_append]; omega)
    refine ⟨s'', ?_, ?_, hlength'.trans hlength⟩
    · rw [foldlM_cons, heq]
      exact heq'
    · rwa [append_assoc, ← flatten_cons] at hs''

theorem totalBitCount_eq (n : ℕ)
    (hfit : n + width fss.flatten < 2 ^ 32) :
    ss.foldl (fun total stream => u32 (total + stream.bitPosition)) n = n + width fss.flatten := by
  induction hblocks generalizing n with
  | nil => rfl
  | @cons t gs ts gss hblock hblocks ih =>
    rw [flatten_cons, width_append] at hfit ⊢
    have hsum : u32 (n + t.bitPosition) = n + width gs := by
      rw [hblock.1.position]
      exact Nat.mod_eq_of_lt (by omega)
    rw [foldl_cons, hsum, ih _ (by omega), Nat.add_assoc]

theorem writeToOutput_spec (hfit : width fss.flatten + 2 + 256 ≤ 2 ^ 32) :
    ∃ out, writeToOutput ss = some out ∧ BitStream.ofLittleEndian out = pack (fss.flatten ++ [low 0 2]) ∧
      out.length = (width fss.flatten + 2 + 255) / 256 * 32 := by
  have htotal := totalBitCount_eq hblocks 0 (by omega)
  rw [Nat.zero_add] at htotal
  obtain ⟨hstart, hroom⟩ := BitStream.allocateBits_stores (width fss.flatten)
  obtain ⟨s, heq, hs, hlength⟩ := foldlM_append hblocks hstart (by simpa using hroom) (by simp; omega)
  rw [nil_append] at hs
  have hroom' := hroom.of_length hlength
  obtain ⟨s', hwrite, hs', hlength'⟩ := hs.write (low 0 2) (by simp) hroom' (by simp; omega)
  obtain ⟨hpos, hle⟩ := hroom'
  obtain ⟨out, hread, hvalue, hout⟩ := BitStream.readBytes_spec hs' (by simp; omega) (show 0 < outputByteAlignment by decide)
    (by simp [outputByteAlignment]; omega)
  refine ⟨out, ?_, hvalue, ?_⟩
  · unfold writeToOutput
    simp only [htotal, heq, bind_eq_bind, bind_some]
    rw [show s.write 0 2 = some s' from hwrite, bind_some]
    exact hread
  · rw [hout]
    simp [outputByteAlignment]

end

end

end NpuCompiler.Bitc

namespace NpuCompiler.Bitc

open BitFields Encoder

/-- The bits of the encoding, counted without a bound: those of the bypassed bytes, or those of the blocks, of the bytes
behind them and of the end of the stream, in whole lines of 32 bytes. -/
def encodedBits (config : BitCompactorConfig) (input : List UInt8) : ℕ :=
  if config.bypassCompression then 8 * input.length
  else
    let bytes := preprocess config input
    let blocks := (List.range (bytes.length / blockSize)).map (fun blk =>
      blockBits config blk (chunk bytes blk) (prevChunk bytes blk))
    let last := if lastBytes bytes = [] then 0 else ((lastBytes bytes).length + 1) * 8
    (blocks.sum + last + 2 + 255) / 256 * 256

section
variable {config : BitCompactorConfig} {bytes input : List UInt8}

theorem width_fieldsAt {blk : ℕ} (hle : (blk + 1) * blockSize ≤ bytes.length) :
    width (fieldsAt config bytes blk) = blockBits config blk (chunk bytes blk) (prevChunk bytes blk) := by
  have hlen := chunk_length hle
  obtain ⟨-, -, -, hwidth⟩ := @encodeBlk_spec config (chunk bytes blk) (prevChunk bytes blk) blk hlen
    (fun hblk => (prevChunk_length hle hblk).trans hlen.symm)
  exact hwidth

theorem blockSize_le_width {blk : ℕ} (hle : (blk + 1) * blockSize ≤ bytes.length) :
    blockSize ≤ width (fieldsAt config bytes blk) := by
  have hlen := chunk_length hle
  obtain ⟨algo, hu, hparam, -⟩ := @best_plain config (chunk bytes blk) (prevChunk bytes blk) blk
    (fun hblk => (prevChunk_length hle hblk).trans hlen.symm)
  obtain ⟨hres, -, hbl, -⟩ := blockParam_residual config (chunk bytes blk) (prevChunk bytes blk) algo
  have hpos := (@algorithmEncoder_fits config algo (chunk bytes blk) (prevChunk bytes blk)).1
  have hresidual := @blockParam_residual_length config _ (prevChunk bytes blk) algo hlen hu.prev
  unfold fieldsAt blockFields
  split_ifs
  · rw [width_dualFields]
    unfold blockSize
    omega
  · have hsymbols : blockSize ≤ (algorithmEncoder config algo (chunk bytes blk) (prevChunk bytes blk)).bitLength * blockSize :=
      Nat.le_mul_of_pos_left _ hpos
    rw [width_plainFields, hparam, hbl, hres, hresidual]
    omega
  · rw [width_uncompressedFields hlen]
    unfold maxBlockCompressionBits
    omega

theorem width_blocks (blocks : ℕ) (hle : blocks * blockSize ≤ bytes.length) :
    width ((List.range blocks).map (fieldsAt config bytes)).flatten =
      ((List.range blocks).map (fun blk => blockBits config blk (chunk bytes blk) (prevChunk bytes blk))).sum ∧
    blocks * blockSize ≤ width ((List.range blocks).map (fieldsAt config bytes)).flatten := by
  rw [width_flatten, List.map_map]
  induction blocks with
  | zero => exact ⟨rfl, Nat.le_refl 0⟩
  | succ blocks ih =>
    obtain ⟨heq, hge⟩ := ih (by rw [Nat.add_mul] at hle; omega)
    have hwidth := @width_fieldsAt config _ blocks hle
    have hblock := @blockSize_le_width config _ blocks hle
    rw [List.range_succ, List.map_append, List.map_append, List.sum_append, List.sum_append, heq]
    refine ⟨by simp [hwidth], ?_⟩
    rw [← heq, Nat.add_mul]
    simp
    omega

theorem width_blockFieldLists (config : BitCompactorConfig) (bytes : List UInt8) :
    width (blockFieldLists config bytes).flatten =
      ((List.range (bytes.length / blockSize)).map (fun blk =>
        blockBits config blk (chunk bytes blk) (prevChunk bytes blk))).sum +
          (if lastBytes bytes = [] then 0 else ((lastBytes bytes).length + 1) * 8) ∧
    bytes.length ≤ width (blockFieldLists config bytes).flatten := by
  obtain ⟨-, hsum⟩ := lastBytes_length bytes
  obtain ⟨heq, hge⟩ := @width_blocks config bytes (bytes.length / blockSize) (by omega)
  unfold blockFieldLists
  rw [List.flatten_append, width_append, heq]
  rw [heq] at hge
  by_cases hnone : lastBytes bytes = []
  · rw [hnone, List.length_nil] at hsum
    rw [if_pos hnone, if_pos hnone]
    exact ⟨rfl, by simp; omega⟩
  · rw [if_neg hnone, if_neg hnone, List.flatten_singleton, width_lastFields]
    exact ⟨rfl, by omega⟩

theorem preprocess_length (config : BitCompactorConfig) (input : List UInt8) :
    (preprocess config input).length = input.length := by
  unfold preprocess
  split_ifs
  · exact fp16enprdct_length _ _
  · rfl

theorem bits_fit (hbypass : config.bypassCompression = false) (hfits : encodedBits config input < 2 ^ 32) :
    width (blockFieldLists config (preprocess config input)).flatten + 2 + 256 ≤ 2 ^ 32 ∧ input.length + 7 < 2 ^ 32 := by
  obtain ⟨hwidth, hge⟩ := width_blockFieldLists config (preprocess config input)
  rw [preprocess_length] at hge
  unfold encodedBits at hfits
  rw [if_neg (by simp [hbypass])] at hfits
  simp only at hfits
  rw [← hwidth] at hfits
  omega

theorem bypass_roundTrip (hconfig : verifyConfig config = .ok ()) (hsparse : config.sparseModeEnable = false)
    (hbypass : config.bypassCompression = true) (hfits : encodedBits config input < 2 ^ 32) (fuel : ℕ) :
    encode config input = .ok input ∧ Decoder.decode config fuel input = .ok input := by
  unfold encodedBits at hfits
  rw [if_pos hbypass] at hfits
  obtain ⟨stream, heq, hholds⟩ := @ofBytes_holds input (by omega)
  have hbytes := hholds.bytesAt (show 0 + input.length ≤ input.length by omega)
  rw [List.drop_zero, List.take_length] at hbytes
  have hstream : bounds (BitStream.ofBytes input) = .ok stream := by rw [heq]; rfl
  have hcopy : bounds (stream.bytesAt 0 stream.sourceByteCount) = .ok input := by rw [hholds.count, hbytes]; rfl
  constructor
  · unfold encode
    rw [hstream, hconfig]
    simp only [hsparse, hbypass]
    exact hcopy
  · unfold Decoder.decode
    rw [hstream, hconfig]
    simp only [hbypass]
    exact hcopy

theorem encode_decodeBlocks (hconfig : verifyConfig config = .ok ()) (hsparse : config.sparseModeEnable = false)
    (hbypass : config.bypassCompression = false) (hfits : encodedBits config input < 2 ^ 32) :
    ∃ out stream, encode config input = .ok out ∧ BitStream.ofBytes out = some stream ∧
      ∀ fuel ≥ input.length / blockSize + 2, ∃ d pad,
        Decoder.decodeBlocks config stream fuel Decoder.init 0 = some (d, input.length) ∧
          d.outputStream = preprocess config input ++ pad := by
  obtain ⟨hfit, hlen⟩ := bits_fit hbypass hfits
  have hlength := preprocess_length config input
  obtain ⟨source, hsource, hholds⟩ := @ofBytes_holds input hlen
  obtain ⟨ss, hblocks, hall⟩ := encodeBlocks_spec hlength hlen hholds
  obtain ⟨out, hout, hvalue, houtlen⟩ := writeToOutput_spec hall hfit
  obtain ⟨stream, hstream, hencoded⟩ := @ofBytes_holds out (by omega)
  refine ⟨out, stream, ?_, hstream, ?_⟩
  · have hsource' : bounds (BitStream.ofBytes input) = .ok source := by rw [hsource]; rfl
    have hblocks' : bounds (encodeBlocks config source) = .ok ss := by rw [hblocks]; rfl
    unfold encode
    rw [hsource', hconfig]
    simp only [hsparse, hbypass]
    change (bounds (encodeBlocks config source) >>= fun blockStream => bounds (writeToOutput blockStream)) = .ok out
    rw [hblocks']
    change bounds (writeToOutput ss) = .ok out
    rw [hout]
    rfl
  · intro fuel hfuel
    have hreads : Reads stream (8 * out.length) 0 (streamFields config (preprocess config input)) := by
      refine ⟨hencoded.valid, ?_, hencoded.room, ?_⟩
      · unfold Holds
        rw [pow_zero, Nat.div_one, hencoded.value_eq, hvalue, streamFields_eq]
      · rw [streamFields_eq, width_append, width_cons, width_nil, low_width, houtlen]
        omega
    have hrun := @decodeBlocks_spec config stream _ (preprocess config input) (by omega) hreads fuel (by rwa [hlength])
    rwa [hlength] at hrun

theorem decode_eq {stream : BitStream} {out : List UInt8} (hconfig : verifyConfig config = .ok ())
    (hbypass : config.bypassCompression = false) (hstream : BitStream.ofBytes out = some stream) {fuel : ℕ}
    {d : Decoder.State} {bytes pad : List UInt8}
    (hrun : Decoder.decodeBlocks config stream fuel Decoder.init 0 = some (d, bytes.length))
    (houtput : d.outputStream = bytes ++ pad) :
    Decoder.decode config fuel out =
      if config.modeFp16Enable then bounds (Decoder.fp16Loop (bytes.length + 1) 0 bytes) else .ok bytes := by
  have hstream' : bounds (BitStream.ofBytes out) = .ok stream := by rw [hstream]; rfl
  have hrun' : bounds (Decoder.decodeBlocks config stream fuel Decoder.init 0) = .ok (d, bytes.length) := by
    rw [hrun]
    rfl
  have hcut : d.outputStream.take bytes.length ++ List.replicate (bytes.length - d.outputStream.length) 0 = bytes := by
    rw [houtput, List.take_left, List.length_append, Nat.sub_add_eq, Nat.sub_self, Nat.zero_sub, List.replicate_zero,
      List.append_nil]
  unfold Decoder.decode
  rw [hstream', hconfig]
  simp only [hbypass]
  change (bounds (Decoder.decodeBlocks config stream fuel Decoder.init 0) >>= fun r => _) = _
  rw [hrun']
  change (if config.modeFp16Enable then bounds (Decoder.fp16Loop _ 0 _) else .ok _) = _
  rw [hcut]

def RoundTrips (config : BitCompactorConfig) (input : List UInt8) : Prop :=
  ∃ out, encode config input = .ok out ∧ ∃ bound, ∀ fuel ≥ bound, Decoder.decode config fuel out = .ok input

theorem encode_decode (hconfig : verifyConfig config = .ok ()) (hsparse : config.sparseModeEnable = false)
    (hbypass : config.bypassCompression = false) (hfits : encodedBits config input < 2 ^ 32) :
    ∃ out, encode config input = .ok out ∧ ∀ fuel ≥ input.length / blockSize + 2,
      Decoder.decode config fuel out =
        if config.modeFp16Enable then bounds (Decoder.fp16Loop (input.length + 1) 0 (fp16enprdct input.length input))
        else .ok input := by
  obtain ⟨out, stream, hencode, hstream, hrun⟩ := encode_decodeBlocks hconfig hsparse hbypass hfits
  have hlength := preprocess_length config input
  refine ⟨out, hencode, ?_⟩
  intro fuel hfuel
  obtain ⟨d, pad, heq, houtput⟩ := hrun fuel hfuel
  rw [← hlength] at heq
  rw [decode_eq hconfig hbypass hstream heq houtput, hlength]
  unfold preprocess
  by_cases hmode : config.modeFp16Enable = true
  · rw [if_pos hmode, if_pos hmode, if_pos hmode]
  · rw [if_neg hmode, if_neg hmode, if_neg hmode]

theorem fp16Loop_short (hshort : input.length < 2 * blockSize) :
    Decoder.fp16Loop (input.length + 1) 0 (fp16enprdct input.length input) = none := by
  rw [Decoder.fp16Loop, if_pos (Nat.zero_le _), fp16enprdct_length, if_neg (by omega)]

theorem not_roundTrips_short (hconfig : verifyConfig config = .ok ()) (hsparse : config.sparseModeEnable = false)
    (hbypass : config.bypassCompression = false) (hmode : config.modeFp16Enable = true)
    (hfits : encodedBits config input < 2 ^ 32) (hshort : input.length < 2 * blockSize) : ¬ RoundTrips config input := by
  rintro ⟨out, hencode, bound, hall⟩
  obtain ⟨out', hencode', hdecode⟩ := encode_decode hconfig hsparse hbypass hfits
  obtain rfl : out' = out := by
    rw [hencode] at hencode'
    exact (Except.ok.inj hencode').symm
  have hfuel := hall (bound + (input.length / blockSize + 2)) (Nat.le_add_right _ _)
  rw [hdecode _ (Nat.le_add_left _ _), if_pos hmode, fp16Loop_short hshort] at hfuel
  exact absurd hfuel (by simp [bounds])

theorem roundTrips_long (hconfig : verifyConfig config = .ok ()) (hsparse : config.sparseModeEnable = false)
    (hbypass : config.bypassCompression = false) (hfits : encodedBits config input < 2 ^ 32)
    (hlong : config.modeFp16Enable = false ∨ 2 * blockSize ≤ input.length) : RoundTrips config input := by
  obtain ⟨out, hencode, hdecode⟩ := encode_decode hconfig hsparse hbypass hfits
  refine ⟨out, hencode, input.length / blockSize + 2, ?_⟩
  intro fuel hfuel
  rw [hdecode fuel hfuel]
  by_cases hmode : config.modeFp16Enable = true
  · have hlong' : 2 * blockSize ≤ input.length := hlong.resolve_left (by simp [hmode])
    have hbound := (bits_fit hbypass hfits).2
    have hloop := @fp16Loop_spec input [] (input.length + 1) input.length (le_refl _) (Nat.lt_succ_self _)
      (by simpa using hlong') (by simp; omega)
    rw [List.length_nil, List.nil_append, List.nil_append] at hloop
    rw [if_pos hmode, hloop]
    rfl
  · rw [if_neg hmode]

/-- Decoding returns what was encoded, unless FP16 bytes shorter than two blocks have to be de-interleaved. -/
theorem roundTrips_iff (hconfig : verifyConfig config = .ok ()) (hsparse : config.sparseModeEnable = false)
    (hfits : encodedBits config input < 2 ^ 32) :
    RoundTrips config input ↔
      config.bypassCompression = true ∨ config.modeFp16Enable = false ∨ 2 * blockSize ≤ input.length := by
  by_cases hbypass : config.bypassCompression = true
  · have hrun := bypass_roundTrip hconfig hsparse hbypass hfits
    constructor
    · intro _
      exact .inl hbypass
    · intro _
      exact ⟨input, (hrun 0).1, 0, fun fuel _ => (hrun fuel).2⟩
  · have hno : config.bypassCompression = false := by simpa using hbypass
    constructor
    · intro hround
      apply Or.inr
      by_contra hneither
      rw [not_or, not_le] at hneither
      exact not_roundTrips_short hconfig hsparse hno (by simpa using hneither.1) hfits hneither.2 hround
    · intro hcases
      exact roundTrips_long hconfig hsparse hno hfits (hcases.resolve_left hbypass)

def weights (modeFp16Enable : Bool) : BitCompactorConfig := ⟨.npu4, false, true, false, modeFp16Enable, [], 0⟩

theorem roundTrips_iff_three : RoundTrips (weights false) [7, 1, 200] ↔
      (weights false).bypassCompression = true ∨ (weights false).modeFp16Enable = false ∨ 2 * blockSize ≤ 3 :=
  roundTrips_iff rfl rfl (by decide)

theorem roundTrips_fails : ¬ ∀ (config : BitCompactorConfig) (input : List UInt8), verifyConfig config = .ok () →
      config.sparseModeEnable = false → encodedBits config input < 2 ^ 32 → RoundTrips config input := by
  intro hall
  have hfits : encodedBits (weights true) [7, 1] < 2 ^ 32 := by decide
  exact not_roundTrips_short rfl rfl rfl rfl hfits (by decide) (hall (weights true) [7, 1] rfl rfl hfits)

end

end NpuCompiler.Bitc
