import NpuCompiler.Bitc.BlockFormat

namespace NpuCompiler.Bitc

open BitFields Encoder Decoder List Option

structure Reads (stream : BitStream) (total p : ℕ) (fs : List Field) : Prop where
  valid : BitStream.Valid stream.bitArray
  holds : Holds (BitStream.value stream.bitArray) p fs
  room : stream.Room total
  le : p + width fs ≤ total

section
variable {stream : BitStream} {total p : ℕ} {f : Field} {fs gs : List Field}

theorem Reads.tail (h : Reads stream total p (f :: fs)) : Reads stream total (p + f.width) fs := by
  have hle := h.le
  rw [width_cons] at hle
  exact ⟨h.valid, h.holds.tail, h.room, by omega⟩

theorem Reads.append (h : Reads stream total p (fs ++ gs)) : Reads stream total (p + width fs) gs := by
  have hle := h.le
  rw [width_append] at hle
  exact ⟨h.valid, h.holds.append, h.room, by omega⟩

theorem Reads.congr (h : Reads stream total p fs) (hpack : pack gs = pack fs) (hwidth : width gs = width fs) :
    Reads stream total p gs := ⟨h.valid, h.holds.trans hpack.symm, h.room, hwidth ▸ h.le⟩

theorem Reads.readBits (h : Reads stream total p fs) :
    stream.readBits p = some (BitStream.value stream.bitArray / 2 ^ p % 2 ^ 64) := by
  apply BitStream.readBits_spec h.valid
  exact h.room.mono ((Nat.le_add_right _ _).trans h.le)

theorem Reads.field (h : Reads stream total p (f :: fs)) (hwidth : f.width ≤ 64) :
    ∃ bits, stream.readBits p = some bits ∧ bits % 2 ^ f.width = f.value := by
  refine ⟨_, h.readBits, ?_⟩
  rw [mod_pow_mod_pow _ hwidth]
  exact h.holds.low

theorem readSymbols_spec {bitLength : ℕ} (hle : bitLength ≤ 8) {residual : List UInt8} {bitmap bits bitCount offset : ℕ}
    (hfit : SymbolsFit bitLength residual bitmap)
    (h : Reads stream total p (symbolFields bitLength residual bitmap ++ fs))
    (hbits : bits = BitStream.value stream.bitArray / 2 ^ p % 2 ^ bitCount) (hoffset : offset = p + bitCount) :
    ∃ bitCount', readSymbols stream bitLength residual.length bitmap bits bitCount offset =
      some (residual, bitCount', p + width (symbolFields bitLength residual bitmap) + bitCount') := by
  induction residual generalizing bitmap bits bitCount offset p with
  | nil => exact ⟨bitCount, by rw [hoffset]; rfl⟩
  | cons symbol residual ih =>
    obtain ⟨hsymbol, hrest⟩ := hfit
    unfold symbolFields at h ⊢
    rw [cons_append] at h
    generalize hlen : (if bitmap % 2 = 1 then 8 else bitLength) = bitlen at h ⊢
    have hbitlen : bitlen ≤ 8 := by
      rw [← hlen]
      split_ifs <;> omega
    have hvalue : symbol.toNat < 2 ^ bitlen := by
      rw [← hlen]
      by_cases hflag : bitmap % 2 = 1
      · rw [if_pos hflag]
        exact symbol.toNat_lt
      · rw [if_neg hflag]
        exact hsymbol hflag
    have hlow := h.holds.low
    rw [low_width, low_value, Nat.mod_eq_of_lt hvalue] at hlow
    -- the rest of a round that has `count` bits at hand
    have hround : ∀ count, bitlen ≤ count → ∃ bitCount',
        (readSymbols stream bitLength residual.length (bitmap / 2)
          (BitStream.value stream.bitArray / 2 ^ p % 2 ^ count / 2 ^ bitlen) (count - bitlen) (p + count)).bind
            (fun r => some (UInt8.ofNat (BitStream.value stream.bitArray / 2 ^ p % 2 ^ count % 2 ^ bitlen) :: r.1, r.2)) =
          some (symbol :: residual, bitCount', p + (bitlen + width (symbolFields bitLength residual (bitmap / 2))) +
            bitCount') := by
      intro count hcount
      have hbits' : BitStream.value stream.bitArray / 2 ^ p % 2 ^ count / 2 ^ bitlen =
          BitStream.value stream.bitArray / 2 ^ (p + bitlen) % 2 ^ (count - bitlen) := by
        conv_lhs => rw [← Nat.add_sub_cancel' hcount, pow_add, Nat.mod_mul_right_div_self, div_pow_div_pow]
      obtain ⟨bitCount', heq⟩ := ih hrest h.tail hbits' (show p + count = p + bitlen + (count - bitlen) by omega)
      refine ⟨bitCount', ?_⟩
      rw [heq, bind_some, mod_pow_mod_pow _ hcount, hlow, UInt8.ofNat_toNat, low_width, Nat.add_assoc p]
    rw [length_cons, readSymbols, hlen, width_cons, low_width]
    by_cases hfew : bitlen > bitCount
    · obtain ⟨bitCount', heq⟩ := hround 64 (by omega)
      refine ⟨bitCount', ?_⟩
      rw [if_pos hfew, hoffset, Nat.add_sub_cancel, h.readBits]
      exact heq
    · obtain ⟨bitCount', heq⟩ := hround bitCount (by omega)
      refine ⟨bitCount', ?_⟩
      rw [if_neg hfew, hbits, hoffset]
      exact heq

end

def Aligned (config : BitCompactorConfig) (p : ℕ) : Prop := config.archType ≠ .npu27 → p % 8 = 0

structure Decoded (d d' : State) (size bits : ℕ) (block : List UInt8) : Prop where
  offset : d'.streamBitOffset = d.streamBitOffset + bits
  output : d'.outputStream = d.outputStream ++ block
  size_eq : d'.blockSize = size

def lastBlock (output : List UInt8) : List UInt8 := output.drop (output.length - blockSize)

section
variable {config : BitCompactorConfig} {stream : BitStream} {total : ℕ} {fs : List Field} {d : State}
  {residual : List UInt8}

theorem residual_end (config : BitCompactorConfig) {bitLength bitmap p : ℕ} (haligned : Aligned config p) :
    (if config.archType ≠ .npu27 then byteAlign (p + width (symbolFields bitLength residual bitmap))
      else p + width (symbolFields bitLength residual bitmap)) =
      p + width (residualFields config bitLength residual bitmap) := by
  unfold residualFields padField byteAlign
  rw [width_append, width_cons, width_nil, low_width]
  by_cases harch : config.archType = .npu27
  · simp [harch]
  · have hp := haligned harch
    simp only [harch, ne_eq, not_false_eq_true, if_true, if_false]
    omega

theorem readResidual_spec (hsize : d.blockSize = residual.length) (hle : d.bitLength ≤ 8)
    (hfit : SymbolsFit d.bitLength residual d.dualBitmap)
    (haligned : Aligned config d.streamBitOffset) (hprev : d.prevBlock = true → Bitc.blockSize ≤ d.outputStream.length)
    (h : Reads stream total d.streamBitOffset (residualFields config d.bitLength residual d.dualBitmap ++ fs)) :
    ∃ d', readResidual config stream d = some d' ∧
      Decoded d d' residual.length (width (residualFields config d.bitLength residual d.dualBitmap))
        (let residual := residual ++ List.replicate (Bitc.blockSize - residual.length) 0
         let residual := if d.signedResidual then residual.map Decoder.signedResidual else residual
         let residual := if d.prevBlock then List.zipWith (· + ·) residual (lastBlock d.outputStream) else residual
         residual.map (· + d.blockOffset)) := by
  have hsymbols := h
  unfold residualFields at hsymbols
  rw [append_assoc] at hsymbols
  obtain ⟨bitCount, heq⟩ := readSymbols_spec hle hfit hsymbols rfl
    (show d.streamBitOffset + 64 = d.streamBitOffset + 64 from rfl)
  have hend := @residual_end residual config d.bitLength d.dualBitmap _ haligned
  unfold readResidual
  simp only [h.readBits, hsize, heq, bind_eq_bind, bind_some, Nat.add_sub_cancel, hend]
  by_cases hp : d.prevBlock = true
  · simp only [hp, if_true, if_pos (hprev hp), Option.pure_def, Option.some.injEq, exists_eq_left']
    exact ⟨rfl, rfl, rfl⟩
  · have hp' : d.prevBlock = false := by simpa using hp
    simp only [hp', Bool.false_eq_true, if_false, Option.pure_def, Option.some.injEq, exists_eq_left']
    exact ⟨rfl, rfl, rfl⟩

theorem readResidual_undo {decoder : DecoderAlgorithm} {minimum : UInt8} (hlen : residual.length = Bitc.blockSize)
    (hsize : d.blockSize = Bitc.blockSize) (hle : d.bitLength ≤ 8) (hfit : SymbolsFit d.bitLength residual d.dualBitmap)
    (haligned : Aligned config d.streamBitOffset) (hsigned : d.signedResidual = isSigned decoder)
    (hprev : d.prevBlock = decide (decoder = .signshftaddblk))
    (hoffset : d.blockOffset = if hasMinimum decoder then minimum else 0)
    (houtput : decoder = .signshftaddblk → Bitc.blockSize ≤ d.outputStream.length)
    (h : Reads stream total d.streamBitOffset (residualFields config d.bitLength residual d.dualBitmap ++ fs)) :
    ∃ d', readResidual config stream d = some d' ∧
      Decoded d d' Bitc.blockSize (width (residualFields config d.bitLength residual d.dualBitmap))
        (undo decoder minimum (lastBlock d.outputStream) residual) := by
  obtain ⟨d', heq, hdecoded⟩ := readResidual_spec (hsize.trans hlen.symm) hle hfit haligned
    (by rw [hprev]; exact fun hdec => houtput (of_decide_eq_true hdec)) h
  refine ⟨d', heq, ?_⟩
  rw [hlen, Nat.sub_self, replicate_zero, append_nil, hsigned, hprev, hoffset] at hdecoded
  simpa [undo] using hdecoded

variable {param : AlgorithmParam} {data : List UInt8}

theorem Reads.byte {byte : UInt8} {p : ℕ} (h : Reads stream total p (low byte.toNat 8 :: fs)) :
    ∃ bits, stream.readBits p = some bits ∧ UInt8.ofNat bits = byte := by
  obtain ⟨bits, hread, hbits⟩ := h.field (by rw [low_width]; omega)
  refine ⟨bits, hread, ?_⟩
  apply UInt8.toNat_inj.mp
  rw [UInt8.toNat_ofNat']
  exact hbits.trans (Nat.mod_eq_of_lt byte.toNat_lt)

theorem decodeAddproc_spec {byte : UInt8} (h : Reads stream total d.streamBitOffset (low byte.toNat 8 :: fs)) :
    decodeAddproc stream d = some { d with blockOffset := byte, streamBitOffset := d.streamBitOffset + 8 } := by
  obtain ⟨bits, hread, hbits⟩ := h.byte
  unfold decodeAddproc
  rw [hread, ← hbits]
  rfl

theorem algorithmDecoder_spec (hdec : param.decoder.code ≤ 4) (hoffset : d.blockOffset = 0)
    (hsigned : d.signedResidual = false) (hprev : d.prevBlock = false)
    (h : Reads stream total d.streamBitOffset (minimumFields param ++ fs)) :
    algorithmDecoder stream param.decoder.code d = some { d with
      signedResidual := isSigned param.decoder
      prevBlock := decide (param.decoder = .signshftaddblk)
      blockOffset := if hasMinimum param.decoder then param.minimum else 0
      streamBitOffset := d.streamBitOffset + width (minimumFields param) } := by
  unfold minimumFields at h ⊢
  obtain ⟨offset, bitLength, size, bitmap, blockOffset, output, signed, prev⟩ := d
  subst hoffset hsigned hprev
  cases hdecoder : param.decoder with
  | noproc => rfl
  | signshftproc => rfl
  | signshftaddproc =>
    rw [hdecoder] at h
    exact decodeAddproc_spec h
  | addproc =>
    rw [hdecoder] at h
    exact decodeAddproc_spec h
  | signshftaddblk => rfl
  | _ =>
    rw [hdecoder] at hdec
    exact absurd hdec (by decide)

theorem width_minimumFields_mod (param : AlgorithmParam) : width (minimumFields param) % 8 = 0 := by
  unfold minimumFields
  split_ifs <;> simp

theorem cmprsdHp_plain (hdec : param.decoder.code ≤ 4) (hpos : 0 < param.bitLength) (hle : param.bitLength ≤ 8)
    (hfit : SymbolsFit param.bitLength param.residual 0) (hlen : param.residual.length = Bitc.blockSize)
    (hoffset : d.blockOffset = 0) (haligned : Aligned config d.streamBitOffset)
    (hprev : param.decoder = .signshftaddblk → Bitc.blockSize ≤ d.outputStream.length) {type : ℕ}
    (h : Reads stream total d.streamBitOffset (plainFields config param ++ fs)) :
    ∃ d', cmprsdHp config stream ⟨type, param.decoder.code, param.bitLength % 8, 0⟩ d = some d' ∧
      Decoded d d' Bitc.blockSize (width (plainFields config param))
        (undo param.decoder param.minimum (lastBlock d.outputStream) param.residual) := by
  have hlength : (if param.bitLength % 8 = 0 then 8 else param.bitLength % 8) = param.bitLength := by
    split_ifs <;> omega
  have hpad : (if config.archType ≠ .npu27 then 6 else 0) = (padField config 6).width := by
    unfold padField
    by_cases harch : config.archType = .npu27 <;> simp [harch]
  unfold plainFields at h ⊢
  rw [append_assoc, append_assoc] at h
  have hminimum := h.append
  rw [width_cons, width_cons, width_nil, low_width, Nat.add_zero, ← hpad] at hminimum
  unfold cmprsdHp
  simp only [ne_eq, not_true_eq_false, if_false, hlength, Nat.add_zero, bind_eq_bind]
  generalize hd₁ : State.mk _ _ _ _ _ _ _ _ = d₁
  have hstart : d₁.streamBitOffset = d.streamBitOffset + (10 + if config.archType ≠ .npu27 then 6 else 0) := by
    rw [← hd₁, Nat.add_assoc]
  rw [← hstart] at hminimum
  rw [algorithmDecoder_spec hdec (by rw [← hd₁]; exact hoffset) (by rw [← hd₁]) (by rw [← hd₁]) hminimum,
    bind_some]
  generalize hd₂ : State.mk _ _ _ _ _ _ _ _ = d₂
  subst hd₁
  have hresidual := hminimum.append
  have hend : d₂.streamBitOffset =
      d.streamBitOffset + (10 + if config.archType ≠ .npu27 then 6 else 0) + width (minimumFields param) := by
    rw [← hd₂, ← hstart]
  obtain ⟨d', heq, hdecoded⟩ := @readResidual_undo config stream total fs d₂ param.residual param.decoder param.minimum hlen
    (by rw [← hd₂]) (by rw [← hd₂]; exact hle) (by rw [← hd₂]; exact hfit) (by
      intro harch
      have hp := haligned harch
      have hw := width_minimumFields_mod param
      rw [hend, if_pos harch]
      omega) (by rw [← hd₂]) (by rw [← hd₂]) (by rw [← hd₂]) (by rw [← hd₂]; exact hprev)
    (by rw [← hd₂]; exact hresidual)
  refine ⟨d', heq, ?_, ?_, hdecoded.size_eq⟩
  · rw [hdecoded.offset, hend, hpad, ← hd₂]
    simp
    omega
  · rw [hdecoded.output, ← hd₂]

theorem cmprsdHp_dual (hdec : param.decoder.code ≤ 4) (hpos : 0 < param.dualBitLength) (hle : param.dualBitLength ≤ 8)
    (hfit : SymbolsFit param.dualBitLength param.residual param.dualBitmap) (hbitmap : param.dualBitmap < 2 ^ 64)
    (hlen : param.residual.length = Bitc.blockSize) (hoffset : d.blockOffset = 0)
    (haligned : Aligned config d.streamBitOffset)
    (hprev : param.decoder = .signshftaddblk → Bitc.blockSize ≤ d.outputStream.length) {type : ℕ}
    (h : Reads stream total d.streamBitOffset (dualFields config param ++ fs)) :
    ∃ d', cmprsdHp config stream ⟨type, param.decoder.code, param.dualBitLength % 8, 1⟩ d = some d' ∧
      Decoded d d' Bitc.blockSize (width (dualFields config param))
        (undo param.decoder param.minimum (lastBlock d.outputStream) param.residual) := by
  have hlength : (if param.dualBitLength % 8 = 0 then 8 else param.dualBitLength % 8) = param.dualBitLength := by
    split_ifs <;> omega
  have hpad : (if config.archType ≠ .npu27 then 4 else 0) = (padField config 4).width := by
    unfold padField
    by_cases harch : config.archType = .npu27 <;> simp [harch]
  unfold dualFields at h ⊢
  rw [append_assoc, append_assoc, append_assoc] at h
  have hminimum := h.append
  rw [width_cons, width_cons, width_nil, low_width, Nat.add_zero, ← hpad] at hminimum
  unfold cmprsdHp
  simp only [ne_eq, one_ne_zero, not_false_eq_true, if_true, hlength, bind_eq_bind]
  generalize hd₁ : State.mk _ _ _ _ _ _ _ _ = d₁
  have hstart : d₁.streamBitOffset = d.streamBitOffset + (20 + if config.archType ≠ .npu27 then 4 else 0) := by
    rw [← hd₁]
    simp only [ne_eq]
    omega
  rw [← hstart] at hminimum
  rw [algorithmDecoder_spec hdec (by rw [← hd₁]; exact hoffset) (by rw [← hd₁]) (by rw [← hd₁]) hminimum,
    bind_some]
  have hmap := hminimum.append
  have hresidual := hmap.append
  obtain ⟨bitmap, hread, hbits⟩ := hmap.field (by rw [low_width])
  rw [low_width, low_value, Nat.mod_eq_of_lt hbitmap] at hbits
  have hword : bitmap = param.dualBitmap := by
    have hvalue := hmap.readBits
    rw [hread, Option.some.injEq] at hvalue
    rw [← hbits, hvalue, Nat.mod_mod]
  rw [hread, bind_some, hword]
  rw [width_cons, width_nil, low_width, Nat.add_zero] at hresidual
  generalize hd₂ : State.mk _ _ _ _ _ _ _ _ = d₂
  subst hd₁
  have hend : d₂.streamBitOffset =
      d.streamBitOffset + (20 + if config.archType ≠ .npu27 then 4 else 0) + width (minimumFields param) + 64 := by
    rw [← hd₂, ← hstart]
    rfl
  obtain ⟨d', heq, hdecoded⟩ := @readResidual_undo config stream total fs d₂ param.residual param.decoder param.minimum hlen
    (by rw [← hd₂]) (by rw [← hd₂]; exact hle) (by rw [← hd₂]; exact hfit) (by
      intro harch
      have hp := haligned harch
      have hw := width_minimumFields_mod param
      rw [hend, if_pos harch]
      omega) (by rw [← hd₂]) (by rw [← hd₂]) (by rw [← hd₂]) (by rw [← hd₂]; exact hprev)
    (by rw [← hd₂]; exact hresidual)
  refine ⟨d', heq, ?_, ?_, hdecoded.size_eq⟩
  · rw [hdecoded.offset, hend, hpad, ← hd₂]
    simp
    omega
  · rw [hdecoded.output, ← hd₂]

theorem uncmprsdHp_spec (hlen : data.length = Bitc.blockSize) (haligned : Aligned config d.streamBitOffset)
    (h : Reads stream total d.streamBitOffset (uncompressedFields config data ++ fs)) :
    ∃ d', uncmprsdHp config stream d = some d' ∧
      Decoded d d' Bitc.blockSize (width (uncompressedFields config data)) data := by
  have hpad : (if config.archType ≠ .npu27 then 6 else 0) = (padField config 6).width := by
    unfold padField
    by_cases harch : config.archType = .npu27 <;> simp [harch]
  unfold uncompressedFields at h ⊢
  rw [append_assoc] at h
  have hresidual := h.append
  rw [width_cons, width_cons, width_nil, low_width, Nat.add_zero, ← hpad, ← Nat.add_assoc] at hresidual
  unfold uncmprsdHp
  generalize hd₁ : State.mk _ _ _ _ _ _ _ _ = d₁
  have hstart : d₁.streamBitOffset = d.streamBitOffset + 2 + if config.archType ≠ .npu27 then 6 else 0 := by
    rw [← hd₁]
  obtain ⟨d', heq, hdecoded⟩ := @readResidual_undo config stream total fs d₁ data .noproc 0 hlen (by rw [← hd₁])
    (by rw [← hd₁]) (by rw [← hd₁]; exact symbolsFit_zero (fun byte _ => byte.toNat_lt)) (by
      intro harch
      have hp := haligned harch
      rw [hstart, if_pos harch]
      omega) (by rw [← hd₁]; rfl) (by rw [← hd₁]; rfl) (by rw [← hd₁]; rfl) (by simp)
    (by rw [← hd₁]; exact hresidual)
  refine ⟨d', heq, ?_, ?_, hdecoded.size_eq⟩
  · rw [hdecoded.offset, hstart, hpad, ← hd₁]
    simp
    omega
  · rw [hdecoded.output, ← hd₁]
    simp [undo, isSigned, hasMinimum]

theorem lastblkHp_spec {bits : ℕ}
    (hbits : bits % 2 ^ 8 = CompressionType.lastblk.code + 2 ^ 2 * data.length)
    (hoffset : d.blockOffset = 0) (haligned : Aligned config d.streamBitOffset)
    (h : Reads stream total d.streamBitOffset (lastFields data ++ fs)) :
    ∃ d', lastblkHp config stream bits d = some d' ∧
      Decoded d d' data.length (width (lastFields data)) (data ++ List.replicate (Bitc.blockSize - data.length) 0) := by
  have hpadded : residualFields config 8 data 0 = symbolFields 8 data 0 ++ [low 0 0] := by
    have halign : byteAlign (8 * data.length) = 8 * data.length := by
      unfold byteAlign
      omega
    unfold residualFields padField
    rw [width_symbolFields_zero, halign, Nat.sub_self, ite_self]
  have hcode : CompressionType.lastblk.code = 1 := rfl
  have hcount : lastBlockLength bits = data.length := by
    unfold lastBlockLength
    omega
  unfold lastFields at h ⊢
  rw [cons_append] at h
  have hresidual := h.tail
  rw [low_width] at hresidual
  unfold lastblkHp
  generalize hd₁ : State.mk _ _ _ _ _ _ _ _ = d₁
  have hreads : Reads stream total d₁.streamBitOffset (residualFields config d₁.bitLength data d₁.dualBitmap ++ fs) := by
    rw [← hd₁, hpadded]
    apply hresidual.congr
    · simp [pack_append, pack, Nat.mod_one]
    · simp
  obtain ⟨d', heq, hdecoded⟩ := @readResidual_spec config stream total fs d₁ data (by rw [← hd₁]; exact hcount)
    (by rw [← hd₁]) (by rw [← hd₁]; exact symbolsFit_zero (fun byte _ => byte.toNat_lt)) (by
      intro harch
      have hp := haligned harch
      rw [← hd₁]
      simp only
      omega) (by rw [← hd₁]; simp) hreads
  refine ⟨d', heq, ?_, ?_, hdecoded.size_eq⟩
  · rw [hdecoded.offset, ← hd₁, hpadded]
    simp
    omega
  · rw [hdecoded.output, ← hd₁]
    simp [hoffset]

end

end NpuCompiler.Bitc
