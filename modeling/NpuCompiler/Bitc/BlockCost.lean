import NpuCompiler.Bitc.BlockEncoder

namespace NpuCompiler.Bitc

open BitFields Encoder Option

section

theorem BitStream.length_write {s s' : BitStream} {v n : ℕ} (h : s.write v n = some s') :
    s'.bitArray.length = s.bitArray.length := by
  unfold BitStream.write at h
  generalize (if n > 64 then 64 else n) = m at h
  simp only [bind_eq_bind, bind_eq_some_iff] at h
  obtain ⟨word, -, h⟩ := h
  split_ifs at h
  · obtain rfl := Option.some.inj h
    simp
  · obtain ⟨next, -, h⟩ := bind_eq_some_iff.mp h
    obtain rfl := Option.some.inj h
    simp

variable {config : BitCompactorConfig} {s s' : BitStream}

theorem length_writePad {n : ℕ} (h : writePad config s n = some s') : s'.bitArray.length = s.bitArray.length := by
  unfold writePad at h
  split_ifs at h
  · exact BitStream.length_write h
  · rw [Option.some.inj h]

theorem length_writeSymbols {bitLength : ℕ} (residual : List UInt8) {bitmap bits bitCount total : ℕ} {rest : ℕ × ℕ × ℕ}
    (h : writeSymbols bitLength residual bitmap s bits bitCount total = some (s', rest)) :
    s'.bitArray.length = s.bitArray.length := by
  induction residual generalizing bitmap s bits bitCount total with
  | nil =>
    rw [writeSymbols, Option.some.injEq, Prod.mk.injEq] at h
    rw [h.1]
  | cons symbol residual ih =>
    rw [writeSymbols] at h
    generalize (if bitmap % 2 = 1 then 8 else bitLength) = length at h
    split_ifs at h
    · obtain ⟨s₁, hwrite, h⟩ := bind_eq_some_iff.mp h
      exact (ih h).trans (BitStream.length_write hwrite)
    · exact ih h

theorem length_writeIf {c : Prop} [Decidable c] {v n : ℕ} (h : (if c then s.write v n else some s) = some s') :
    s'.bitArray.length = s.bitArray.length := by
  split_ifs at h
  · exact BitStream.length_write h
  · rw [Option.some.inj h]

theorem writeResidual_eq (residual : List UInt8) (bitLength bitmap : ℕ) :
    writeResidual config s residual bitLength bitmap =
      (writeSymbols bitLength residual bitmap s 0 0 0).bind (fun written =>
        (if written.2.2.1 ≠ 0 then written.1.write written.2.1 written.2.2.1 else some written.1).bind (fun stream =>
          writePad config stream (byteAlign written.2.2.2 - written.2.2.2))) := by
  unfold writeResidual
  cases writeSymbols bitLength residual bitmap s 0 0 0 with
  | none => rfl
  | some written =>
    by_cases hlast : written.2.2.1 = 0
    · simp [hlast]
    · simp [hlast]

theorem length_writeResidual {residual : List UInt8} {bitLength bitmap : ℕ}
    (h : writeResidual config s residual bitLength bitmap = some s') : s'.bitArray.length = s.bitArray.length := by
  rw [writeResidual_eq] at h
  obtain ⟨written, hsymbols, h⟩ := bind_eq_some_iff.mp h
  obtain ⟨s₂, hlast, hpad⟩ := bind_eq_some_iff.mp h
  rw [length_writePad hpad, length_writeIf hlast, length_writeSymbols residual hsymbols]

theorem length_writeDualEncodeHeader {best : BestAlgorithm} {param : AlgorithmParam}
    (h : writeDualEncodeHeader config best = some (s', param)) :
    s'.bitArray.length = (best.dualMinParam.dualEncodingBits + 63) / 64 + 1 := by
  unfold writeDualEncodeHeader at h
  obtain ⟨s₁, hheader, h⟩ := bind_eq_some_iff.mp h
  obtain ⟨s₂, hpad, h⟩ := bind_eq_some_iff.mp h
  obtain ⟨rfl, -⟩ := Prod.mk.inj (Option.some.inj h)
  rw [length_writePad hpad, BitStream.length_write hheader, BitStream.allocateBits_length]

theorem length_writeCompressedHeader {best : BestAlgorithm} {param : AlgorithmParam}
    (h : writeCompressedHeader config best = some (s', param)) :
    s'.bitArray.length = (best.minParam.encodingBits + 63) / 64 + 1 := by
  unfold writeCompressedHeader at h
  obtain ⟨s₁, hheader, h⟩ := bind_eq_some_iff.mp h
  obtain ⟨s₂, hpad, h⟩ := bind_eq_some_iff.mp h
  obtain ⟨rfl, -⟩ := Prod.mk.inj (Option.some.inj h)
  rw [length_writePad hpad, BitStream.length_write hheader, BitStream.allocateBits_length]

theorem writeCompressedBlk_eq (config : BitCompactorConfig) (best : BestAlgorithm) :
    writeCompressedBlk config best =
      (if usingDualEncoder best then writeDualEncodeHeader config best else writeCompressedHeader config best).bind
        (fun header => (if hasMinimum header.2.decoder then header.1.write header.2.minimum.toNat 8 else some header.1).bind
          (fun stream => (if usingDualEncoder best then stream.write header.2.dualBitmap 64 else some stream).bind
            (fun stream => writeResidual config stream header.2.residual header.2.bitLength header.2.dualBitmap))) := by
  unfold writeCompressedBlk
  cases usingDualEncoder best with
  | true =>
    simp only [if_true, bind_eq_bind]
    congr 1
    funext header
    split_ifs <;> rfl
  | false =>
    simp only [Bool.false_eq_true, if_false, bind_eq_bind]
    congr 1
    funext header
    split_ifs <;> rfl

theorem length_writeCompressedBlk {best : BestAlgorithm} (h : writeCompressedBlk config best = some s') :
    s'.bitArray.length = ((if usingDualEncoder best then best.dualMinParam.dualEncodingBits
      else best.minParam.encodingBits) + 63) / 64 + 1 := by
  rw [writeCompressedBlk_eq] at h
  obtain ⟨header, hheader, h⟩ := bind_eq_some_iff.mp h
  obtain ⟨s₁, hminimum, h⟩ := bind_eq_some_iff.mp h
  obtain ⟨s₂, hbitmap, h⟩ := bind_eq_some_iff.mp h
  rw [length_writeResidual h, length_writeIf hbitmap, length_writeIf hminimum]
  by_cases hdual : usingDualEncoder best = true
  · rw [if_pos hdual] at hheader ⊢
    exact length_writeDualEncodeHeader hheader
  · rw [if_neg hdual] at hheader ⊢
    exact length_writeCompressedHeader hheader

theorem length_writeUncompressedBlk {data : List UInt8} (h : writeUncompressedBlk config data = some s') :
    s'.bitArray.length = (maxBlockCompressionBits config + 63) / 64 + 1 := by
  unfold writeUncompressedBlk at h
  obtain ⟨s₁, hheader, h⟩ := bind_eq_some_iff.mp h
  obtain ⟨s₂, hpad, h⟩ := bind_eq_some_iff.mp h
  rw [length_writeResidual h, length_writePad hpad, BitStream.length_write hheader, BitStream.allocateBits_length]

end

def selectedBits (config : BitCompactorConfig) (best : BestAlgorithm) : ℕ :=
  if isCompressionBetterThanUncompressed config best then
    if usingDualEncoder best then best.dualMinParam.dualEncodingBits else best.minParam.encodingBits
  else maxBlockCompressionBits config

def triedAlgorithms (config : BitCompactorConfig) (blk : ℕ) : List EncoderAlgorithm :=
  (algorithms config).filter (isAlgoValid · blk)

/-- The block stream has as many bits as the cost said, in the words reserved for them, and no layout has fewer. -/
structure CostExact (config : BitCompactorConfig) (blk : ℕ) (data prevBlk : List UInt8) (s : BitStream) : Prop where
  bits_eq : s.bitPosition = selectedBits config (getBestAlgorithm config blk data prevBlk)
  words_eq : s.bitArray.length = (s.bitPosition + 63) / 64 + 1
  le_max : s.bitPosition ≤ maxBlockCompressionBits config
  le_plain : ∀ algo ∈ triedAlgorithms config blk, s.bitPosition ≤ (blockParam config data prevBlk algo).encodingBits
  le_dual : ∀ algo ∈ triedAlgorithms config blk, s.bitPosition ≤ (blockParam config data prevBlk algo).dualEncodingBits
  attained : s.bitPosition = maxBlockCompressionBits config ∨
    ∃ algo ∈ triedAlgorithms config blk, s.bitPosition = (blockParam config data prevBlk algo).encodingBits ∨
      isAlgoDualEncodeCompatible config algo ∧ s.bitPosition = (blockParam config data prevBlk algo).dualEncodingBits

section
variable {config : BitCompactorConfig} {data prevBlk : List UInt8} {blk : ℕ}

theorem search_spec {size : AlgorithmParam → ℕ} {kept : BestAlgorithm → ℕ × AlgorithmParam}
    (hkept : ∀ b p, kept (keepBest b p) = if size p < (kept b).1 then (size p, p) else kept b)
    (hstart : (kept ⟨2 ^ 32 - 1, emptyParam, 2 ^ 32 - 1, emptyParam⟩).1 = 2 ^ 32 - 1)
    (config : BitCompactorConfig) (data prevBlk : List UInt8) (blk : ℕ) :
    (∀ algo ∈ triedAlgorithms config blk,
        (kept (getBestAlgorithm config blk data prevBlk)).1 ≤ size (blockParam config data prevBlk algo)) ∧
      ((kept (getBestAlgorithm config blk data prevBlk)).1 = 2 ^ 32 - 1 ∨ ∃ algo ∈ triedAlgorithms config blk,
        kept (getBestAlgorithm config blk data prevBlk) =
          (size (blockParam config data prevBlk algo), blockParam config data prevBlk algo)) := by
  obtain ⟨-, hall, hfrom⟩ := foldl_smallest hkept ((triedAlgorithms config blk).map (blockParam config data prevBlk))
    ⟨2 ^ 32 - 1, emptyParam, 2 ^ 32 - 1, emptyParam⟩
  refine ⟨fun algo hmem => hall _ (List.mem_map_of_mem hmem), ?_⟩
  rcases hfrom with heq | ⟨p, hp, heq⟩
  · exact .inl ((congrArg Prod.fst heq).trans hstart)
  · obtain ⟨algo, hmem, rfl⟩ := List.mem_map.mp hp
    exact .inr ⟨algo, hmem, heq⟩

theorem plain_search (config : BitCompactorConfig) (data prevBlk : List UInt8) (blk : ℕ) :
    let best := getBestAlgorithm config blk data prevBlk
    (∀ algo ∈ triedAlgorithms config blk, best.minEncoderBits ≤ (blockParam config data prevBlk algo).encodingBits) ∧
      (best.minEncoderBits = 2 ^ 32 - 1 ∨ ∃ algo ∈ triedAlgorithms config blk,
        (best.minEncoderBits, best.minParam) =
          ((blockParam config data prevBlk algo).encodingBits, blockParam config data prevBlk algo)) :=
  @search_spec AlgorithmParam.encodingBits (fun b => (b.minEncoderBits, b.minParam)) keepBest_plain rfl config data
    prevBlk blk

theorem dual_search (config : BitCompactorConfig) (data prevBlk : List UInt8) (blk : ℕ) :
    let best := getBestAlgorithm config blk data prevBlk
    (∀ algo ∈ triedAlgorithms config blk,
        best.dualMinEncoderBits ≤ (blockParam config data prevBlk algo).dualEncodingBits) ∧
      (best.dualMinEncoderBits = 2 ^ 32 - 1 ∨ ∃ algo ∈ triedAlgorithms config blk,
        (best.dualMinEncoderBits, best.dualMinParam) =
          ((blockParam config data prevBlk algo).dualEncodingBits, blockParam config data prevBlk algo)) :=
  @search_spec AlgorithmParam.dualEncodingBits (fun b => (b.dualMinEncoderBits, b.dualMinParam)) keepBest_dual rfl config
    data prevBlk blk

theorem maxBlockCompressionBits_le (config : BitCompactorConfig) : maxBlockCompressionBits config ≤ 520 := by
  unfold maxBlockCompressionBits blockSize
  split_ifs <;> omega

theorem incompatible_dual {algo : EncoderAlgorithm} (h : isAlgoDualEncodeCompatible config algo = false) :
    maxBlockCompressionBits config < (blockParam config data prevBlk algo).dualEncodingBits := by
  have hexcluded : config.archType = .npu27 ∧ algo = .minsprdct := by
    simpa [isAlgoDualEncodeCompatible] using h
  obtain ⟨harch, rfl⟩ := hexcluded
  simp [blockParam, addOverheadAndPadding, isAlgoDualEncodeCompatible, harch, maxBlockCompressionBits, blockSize,
    algorithmOverheadBits]

theorem selectedBits_spec (config : BitCompactorConfig) (data prevBlk : List UInt8) (blk : ℕ) :
    let best := getBestAlgorithm config blk data prevBlk
    blockBits config blk data prevBlk = selectedBits config best ∧
      (selectedBits config best = maxBlockCompressionBits config ∨ ∃ algo ∈ triedAlgorithms config blk,
        selectedBits config best = (blockParam config data prevBlk algo).encodingBits ∨
          isAlgoDualEncodeCompatible config algo ∧
            selectedBits config best = (blockParam config data prevBlk algo).dualEncodingBits) := by
  have hmax := maxBlockCompressionBits_le config
  obtain ⟨-, hplain⟩ := plain_search config data prevBlk blk
  obtain ⟨-, hdual⟩ := dual_search config data prevBlk blk
  unfold blockBits selectedBits
  generalize getBestAlgorithm config blk data prevBlk = best at *
  dsimp only
  by_cases hbetter : isCompressionBetterThanUncompressed config best = true
  · rw [if_pos hbetter, if_pos hbetter]
    have hsmall : best.minEncoderBits < maxBlockCompressionBits config ∨
        best.dualMinEncoderBits < maxBlockCompressionBits config := by
      simpa [isCompressionBetterThanUncompressed] using hbetter
    by_cases husing : usingDualEncoder best = true
    · rw [if_pos husing]
      have hlt : best.dualMinEncoderBits < best.minEncoderBits := of_decide_eq_true husing
      obtain ⟨algo, hmem, heq⟩ := hdual.resolve_left (by omega)
      obtain ⟨hbits, hparam⟩ := Prod.mk.inj heq
      rw [hparam, min_eq_left hlt.le]
      refine ⟨hbits, .inr ⟨algo, hmem, .inr ⟨?_, rfl⟩⟩⟩
      by_contra hno
      have hcharged := @incompatible_dual config data prevBlk algo (by simpa using hno)
      omega
    · rw [if_neg husing]
      have hle : best.minEncoderBits ≤ best.dualMinEncoderBits := by
        simpa [usingDualEncoder] using husing
      obtain ⟨algo, hmem, heq⟩ := hplain.resolve_left (by omega)
      obtain ⟨hbits, hparam⟩ := Prod.mk.inj heq
      rw [hparam, min_eq_right hle]
      exact ⟨hbits, .inr ⟨algo, hmem, .inl rfl⟩⟩
  · rw [if_neg hbetter, if_neg hbetter]
    exact ⟨rfl, .inl rfl⟩

theorem blockBits_le (config : BitCompactorConfig) (data prevBlk : List UInt8) (blk : ℕ) :
    blockBits config blk data prevBlk ≤ maxBlockCompressionBits config ∧
      blockBits config blk data prevBlk ≤ (getBestAlgorithm config blk data prevBlk).minEncoderBits ∧
      blockBits config blk data prevBlk ≤ (getBestAlgorithm config blk data prevBlk).dualMinEncoderBits := by
  unfold blockBits
  generalize getBestAlgorithm config blk data prevBlk = best
  dsimp only
  by_cases hbetter : isCompressionBetterThanUncompressed config best = true
  · rw [if_pos hbetter]
    have hsmall : best.minEncoderBits < maxBlockCompressionBits config ∨
        best.dualMinEncoderBits < maxBlockCompressionBits config := by
      simpa [isCompressionBetterThanUncompressed] using hbetter
    exact ⟨by omega, min_le_right _ _, min_le_left _ _⟩
  · rw [if_neg hbetter]
    have hlarge : maxBlockCompressionBits config ≤ best.minEncoderBits ∧
        maxBlockCompressionBits config ≤ best.dualMinEncoderBits := by
      simpa [isCompressionBetterThanUncompressed] using hbetter
    exact ⟨le_refl _, hlarge.1, hlarge.2⟩

theorem bytesAt_length {stream : BitStream} {start count : ℕ} {bytes : List UInt8}
    (h : stream.bytesAt start count = some bytes) : bytes.length = count := by
  rw [(mapM_some_inv h).1, List.length_range]

/-- Every block is written, with exactly the bits of the cost that decided for its layout. -/
theorem encodeBlk_costExact {stream : BitStream} (hdata : stream.bytesAt (blk * blockSize) blockSize = some data)
    (hprev : (if blk = 0 then some [] else stream.bytesAt (blk * blockSize - blockSize) blockSize) = some prevBlk) :
    ∃ s, encodeBlk config stream blk = some s ∧ CostExact config blk data prevBlk s := by
  have hlen := bytesAt_length hdata
  have hprevlen : blk ≠ 0 → prevBlk.length = data.length := by
    intro hblk
    rw [if_neg hblk] at hprev
    rw [bytesAt_length hprev, hlen]
  obtain ⟨s, hs, hwritten, hwidth⟩ := @encodeBlk_spec config data prevBlk blk hlen hprevlen
  obtain ⟨hselected, hattained⟩ := selectedBits_spec config data prevBlk blk
  obtain ⟨hmax, hplain, hdual⟩ := blockBits_le config data prevBlk blk
  have hposition : s.bitPosition = blockBits config blk data prevBlk := hwritten.stores.position.trans hwidth
  have hblk : encodeBlk config stream blk = some s := by
    unfold encodeBlk
    simp only [hdata, bind_eq_bind, bind_some]
    by_cases hblk : blk = 0
    · rw [if_pos hblk, Option.some.injEq] at hprev
      rw [if_pos hblk, hprev]
      exact hs
    · rw [if_neg hblk] at hprev
      rw [if_neg hblk, hprev]
      exact hs
  have hwords : s.bitArray.length = (selectedBits config (getBestAlgorithm config blk data prevBlk) + 63) / 64 + 1 := by
    unfold selectedBits
    split_ifs at hs ⊢ with hbetter husing
    · rw [length_writeCompressedBlk hs, if_pos husing]
    · rw [length_writeCompressedBlk hs, if_neg husing]
    · exact length_writeUncompressedBlk hs
  refine ⟨s, hblk, ⟨hposition.trans hselected, ?_, ?_, ?_, ?_, ?_⟩⟩
  · rw [hwords, hposition, hselected]
  · rw [hposition]
    exact hmax
  · intro algo hmem
    rw [hposition]
    exact hplain.trans ((plain_search config data prevBlk blk).1 algo hmem)
  · intro algo hmem
    rw [hposition]
    exact hdual.trans ((dual_search config data prevBlk blk).1 algo hmem)
  · rw [hposition, hselected]
    exact hattained

theorem encodeBlk_costExact_zeros :
    ∃ s, encodeBlk ⟨.npu4, false, true, false, false, [], 0⟩ ⟨List.replicate 17 0, 0, 128⟩ 1 = some s ∧
      CostExact ⟨.npu4, false, true, false, false, [], 0⟩ 1 (List.replicate 64 0) (List.replicate 64 0) s :=
  encodeBlk_costExact (by decide) (by decide)

end

end NpuCompiler.Bitc
