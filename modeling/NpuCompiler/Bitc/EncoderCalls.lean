import NpuCompiler.Bitc.EncodeRun

namespace NpuCompiler.Bitc

open BitFields Encoder List Option

namespace BitStream

def readInto (s : BitStream) (out : List UInt8) (byteAlignment : ℕ) : Option (List UInt8) := do
  let alignmentBits := byteAlignment * 8
  let size := u32 (s.bitPosition + alignmentBits - 1) / alignmentBits * alignmentBits / 8
  let copyBytes := u32 (s.bitPosition + 7) / 8
  let copied ← s.bytesAt 0 copyBytes
  let resized := out.take size ++ List.replicate (size - out.length) 0
  if copyBytes ≤ size then return copied ++ resized.drop copyBytes else none

end BitStream

namespace Encoder

def writeToStream (bitStreamOut : BitStream) (out : List UInt8) (blockStream : List BitStream) :
    Option (List UInt8 × BitStream) := do
  let totalBitCount := blockStream.foldl (fun total stream => u32 (total + stream.bitPosition)) 0
  let bitStreamOut := bitStreamOut.allocateBits totalBitCount
  let bitStreamOut ← blockStream.foldlM BitStream.append bitStreamOut
  let bitStreamOut ← bitStreamOut.write 0 2
  let out ← bitStreamOut.readInto out outputByteAlignment
  return (out, bitStreamOut)

def encodeInto (bitStreamOut : BitStream) (config : BitCompactorConfig) (input out : List UInt8) :
    Except Failure (List UInt8 × BitStream) := do
  let stream ← bounds (BitStream.ofBytes input)
  verifyConfig config
  let stream ← if config.sparseModeEnable then packSparseData config stream else pure stream
  if config.bypassCompression then
    let bytes ← bounds (stream.bytesAt 0 stream.sourceByteCount)
    return (bytes, bitStreamOut)
  else
    let blockStream ← bounds (encodeBlocks config stream)
    bounds (writeToStream bitStreamOut out blockStream)

structure Call where
  config : BitCompactorConfig
  input : List UInt8
  out : List UInt8

def encodeAll : BitStream → List Call → Except Failure (List (List UInt8))
  | _, [] => return []
  | bitStreamOut, call :: calls => do
    let (out, bitStreamOut) ← encodeInto bitStreamOut call.config call.input call.out
    let outs ← encodeAll bitStreamOut calls
    return out :: outs

end Encoder

def Fresh (out : List UInt8) (call : Call) : Prop :=
  ∃ bitStreamOut, encodeInto BitStream.default call.config call.input call.out = .ok (out, bitStreamOut)

def Independent (calls : List Call) : Prop :=
  ∃ outs, encodeAll BitStream.default calls = .ok outs ∧ List.Forall₂ Fresh outs calls

def CompressesOnce (calls : List Call) : Prop :=
  (calls.filter (fun call => !call.config.bypassCompression)).length ≤ 1

structure Accepted (call : Call) : Prop where
  config : verifyConfig call.config = .ok ()
  dense : call.config.sparseModeEnable = false

structure Fitting (call : Call) : Prop extends Accepted call where
  fits : encodedBits call.config call.input < 2 ^ 32

section
variable {s : BitStream}

theorem readInto_nil (s : BitStream) (align : ℕ) : s.readInto [] align = s.readBytes align := by
  unfold BitStream.readInto BitStream.readBytes
  simp only [take_nil, nil_append, length_nil, Nat.sub_zero, drop_replicate]

theorem readInto_isSome {align : ℕ} {bytes : List UInt8} (h : s.readBytes align = some bytes) (out : List UInt8) :
    ∃ bytes', s.readInto out align = some bytes' := by
  unfold BitStream.readBytes at h
  unfold BitStream.readInto
  simp only [bind_eq_bind, bind_eq_some_iff] at h
  obtain ⟨copied, hcopied, h⟩ := h
  simp only [hcopied, bind_eq_bind, bind_some]
  split_ifs at h ⊢ with hle
  exact ⟨_, rfl⟩

variable {config : BitCompactorConfig} {input : List UInt8} {call : Call}

theorem encodeInto_bypass (h : Fitting call) (hbypass : call.config.bypassCompression = true) (bitStreamOut : BitStream) :
    encodeInto bitStreamOut call.config call.input call.out = .ok (call.input, bitStreamOut) := by
  obtain ⟨⟨hconfig, hsparse⟩, hfits⟩ := h
  unfold encodedBits at hfits
  rw [if_pos hbypass] at hfits
  obtain ⟨stream, heq, hholds⟩ := @ofBytes_holds call.input (by omega)
  have hbytes := hholds.bytesAt (show 0 + call.input.length ≤ call.input.length by omega)
  rw [drop_zero, take_length] at hbytes
  have hstream : bounds (BitStream.ofBytes call.input) = .ok stream := by rw [heq]; rfl
  unfold encodeInto
  rw [hstream, hconfig]
  simp only [hsparse, hbypass]
  change (bounds (stream.bytesAt 0 stream.sourceByteCount) >>= fun bytes => _) = _
  rw [hholds.count, hbytes]
  rfl

theorem encodeInto_blocks (h : Fitting call) (hbypass : call.config.bypassCompression = false) :
    ∃ ss, List.Forall₂ Block ss (blockFieldLists call.config (preprocess call.config call.input)) ∧
      ∀ bitStreamOut, encodeInto bitStreamOut call.config call.input call.out =
        bounds (writeToStream bitStreamOut call.out ss) := by
  obtain ⟨hfit, hlen⟩ := bits_fit hbypass h.fits
  obtain ⟨source, hsource, hholds⟩ := @ofBytes_holds call.input hlen
  obtain ⟨ss, hblocks, hall⟩ := encodeBlocks_spec (preprocess_length call.config call.input) hlen hholds
  refine ⟨ss, hall, ?_⟩
  intro bitStreamOut
  have hsource' : bounds (BitStream.ofBytes call.input) = .ok source := by rw [hsource]; rfl
  have hblocks' : bounds (encodeBlocks call.config source) = .ok ss := by rw [hblocks]; rfl
  unfold encodeInto
  rw [hsource', h.config]
  simp only [h.dense, hbypass]
  change (bounds (encodeBlocks call.config source) >>= fun blockStream =>
    bounds (writeToStream bitStreamOut call.out blockStream)) = _
  rw [hblocks']
  rfl

theorem writeToStream_fresh {ss : List BitStream} {fss : List (List Field)} (hblocks : List.Forall₂ Block ss fss)
    (hfit : width fss.flatten + 2 + 256 ≤ 2 ^ 32) (out : List UInt8) :
    ∃ out' s, writeToStream BitStream.default out ss = some (out', s) ∧ s.Stores (fss.flatten ++ [low 0 2]) ∧
      (out = [] → BitStream.ofLittleEndian out' = pack (fss.flatten ++ [low 0 2])) := by
  have htotal := totalBitCount_eq hblocks 0 (by omega)
  rw [Nat.zero_add] at htotal
  obtain ⟨hstart, hroom⟩ := BitStream.allocateBits_stores (width fss.flatten)
  obtain ⟨s, heq, hs, hlength⟩ := foldlM_append hblocks hstart (by simpa using hroom) (by simp; omega)
  rw [nil_append] at hs
  have hroom' := hroom.of_length hlength
  obtain ⟨s', hwrite, hs', hlength'⟩ := hs.write (low 0 2) (by simp) hroom' (by simp; omega)
  obtain ⟨hpos, hle⟩ := hroom'
  obtain ⟨bytes, hread, hvalue, -⟩ := BitStream.readBytes_spec hs' (by simp; omega)
    (show 0 < outputByteAlignment by decide) (by simp [outputByteAlignment]; omega)
  obtain ⟨out', hinto⟩ := readInto_isSome hread out
  refine ⟨out', s', ?_, hs', ?_⟩
  · unfold writeToStream
    simp only [htotal, heq, bind_eq_bind, bind_some]
    rw [show s.write 0 2 = some s' from hwrite, bind_some, hinto]
    rfl
  · rintro rfl
    rw [readInto_nil, hread] at hinto
    obtain rfl := Option.some.inj hinto
    exact hvalue

theorem encodeInto_fresh (h : Fitting call) (hbypass : call.config.bypassCompression = false) :
    ∃ out s, encodeInto BitStream.default call.config call.input call.out = .ok (out, s) ∧
      s.Stores (streamFields call.config (preprocess call.config call.input)) ∧
      (call.out = [] → BitStream.ofLittleEndian out =
        pack (streamFields call.config (preprocess call.config call.input))) := by
  obtain ⟨ss, hblocks, hrun⟩ := encodeInto_blocks h hbypass
  obtain ⟨out, s, heq, hs, hvalue⟩ := writeToStream_fresh hblocks (bits_fit hbypass h.fits).1 call.out
  rw [← streamFields_eq] at hs hvalue
  refine ⟨out, s, ?_, hs, hvalue⟩
  rw [hrun, heq]
  rfl

theorem encodeAll_bypass {calls : List Call} (hfit : ∀ call ∈ calls, Fitting call)
    (hbypass : ∀ call ∈ calls, call.config.bypassCompression = true) (bitStreamOut : BitStream) :
    ∃ outs, encodeAll bitStreamOut calls = .ok outs ∧ List.Forall₂ Fresh outs calls := by
  induction calls with
  | nil => exact ⟨[], rfl, .nil⟩
  | cons call calls ih =>
    obtain ⟨hcall, hfit⟩ := forall_mem_cons.mp hfit
    obtain ⟨hcallBypass, hbypass⟩ := forall_mem_cons.mp hbypass
    obtain ⟨outs, heq, hfresh⟩ := ih hfit hbypass
    refine ⟨call.input :: outs, ?_, .cons ⟨_, encodeInto_bypass hcall hcallBypass _⟩ hfresh⟩
    rw [encodeAll, encodeInto_bypass hcall hcallBypass]
    change (encodeAll bitStreamOut calls >>= fun outs => _) = _
    rw [heq]
    rfl

theorem compressesOnce_cons {calls : List Call} (call : Call) :
    CompressesOnce (call :: calls) ↔
      if call.config.bypassCompression then CompressesOnce calls
      else ∀ call ∈ calls, call.config.bypassCompression = true := by
  unfold CompressesOnce
  by_cases hbypass : call.config.bypassCompression = true
  · simp [hbypass]
  · rw [if_neg hbypass, filter_cons_of_pos (by simpa using hbypass), length_cons]
    simp [filter_eq_nil_iff]

theorem independent_of_compressesOnce {calls : List Call} (hfit : ∀ call ∈ calls, Fitting call)
    (honce : CompressesOnce calls) : Independent calls := by
  induction calls with
  | nil => exact ⟨[], rfl, .nil⟩
  | cons call calls ih =>
    obtain ⟨hcall, hfit⟩ := forall_mem_cons.mp hfit
    rw [compressesOnce_cons] at honce
    by_cases hbypass : call.config.bypassCompression = true
    · rw [if_pos hbypass] at honce
      obtain ⟨outs, heq, hfresh⟩ := ih hfit honce
      refine ⟨call.input :: outs, ?_, .cons ⟨_, encodeInto_bypass hcall hbypass _⟩ hfresh⟩
      rw [encodeAll, encodeInto_bypass hcall hbypass]
      change (encodeAll BitStream.default calls >>= fun outs => _) = _
      rw [heq]
      rfl
    · rw [if_neg hbypass] at honce
      obtain ⟨out, s, hrun, -, -⟩ := encodeInto_fresh hcall (by simpa using hbypass)
      obtain ⟨outs, heq, hfresh⟩ := encodeAll_bypass hfit honce s
      refine ⟨out :: outs, ?_, .cons ⟨s, hrun⟩ hfresh⟩
      rw [encodeAll, hrun]
      change (encodeAll s calls >>= fun outs => _) = _
      rw [heq]
      rfl

variable {s' t : BitStream} {fs gs : List Field}

theorem room_of_write {bits bitCount : ℕ} (h : s.write bits bitCount = some s') : s.Room s.bitPosition := by
  unfold BitStream.write at h
  simp only [bind_eq_bind, bind_eq_some_iff, List.getElem?_eq_some_iff] at h
  obtain ⟨word, ⟨hk, -⟩, h⟩ := h
  unfold BitStream.Room
  by_cases hbs : s.bitPosition % 64 = 0
  · omega
  · rw [if_neg hbs] at h
    simp only [bind_eq_some_iff, List.getElem?_eq_some_iff] at h
    obtain ⟨next, ⟨hk', -⟩, -⟩ := h
    rw [length_set] at hk'
    omega

theorem Stores.write_some (hs : s.Stores fs) (hsize : 64 * s.bitArray.length < 2 ^ 32) (f : Field) (hf : f.width ≤ 64)
    (h : s.write f.value f.width = some s') : s'.Stores (fs ++ [f]) ∧ s'.bitArray.length = s.bitArray.length := by
  have hroom := room_of_write h
  rw [hs.position] at hroom
  have hle := hroom.2
  have hpos := hroom.1
  obtain ⟨s'', heq, hs'', hlength⟩ := hs.write f hf hroom (by omega)
  obtain rfl : s'' = s' := by
    rw [h] at heq
    exact (Option.some.inj heq).symm
  exact ⟨hs'', hlength⟩

theorem appendFrom_some (ht : t.Stores gs) (hroom : t.Room (width gs)) (fuel : ℕ) {bits : ℕ} (hfuel : bits ≤ fuel)
    (hbits : bits ≤ width gs) (hsize : 64 * s.bitArray.length < 2 ^ 32)
    (hs : s.Stores (fs ++ [low (pack gs) (width gs - bits)]))
    (h : t.appendFrom fuel s bits (width gs - bits) = some s') :
    s'.Stores (fs ++ gs) ∧ s'.bitArray.length = s.bitArray.length := by
  have finish {s : BitStream} (hs : s.Stores (fs ++ [low (pack gs) (width gs - 0)])) : s.Stores (fs ++ gs) := by
    apply hs.congr
    · rw [pack_append, pack_append, pack_singleton, low_value, Nat.sub_zero, Nat.mod_eq_of_lt (pack_lt gs)]
    · simp
  induction fuel generalizing s bits with
  | zero =>
    obtain rfl : bits = 0 := by omega
    obtain rfl := Option.some.inj h
    exact ⟨finish hs, rfl⟩
  | succ fuel ih =>
    rw [BitStream.appendFrom] at h
    by_cases hzero : bits > 0
    · have hread : t.readBits (width gs - bits) = some (pack gs / 2 ^ (width gs - bits) % 2 ^ 64) := by
        rw [BitStream.readBits_spec ht.valid (hroom.mono (Nat.sub_le _ _)), ht.value_eq]
      rw [if_pos hzero, hread] at h
      simp only [bind_eq_bind, bind_some] at h
      generalize hadd : (if bits ≥ 64 then 64 else bits) = addBits at h
      have hle : addBits ≤ 64 ∧ addBits ≤ bits ∧ 0 < addBits := by
        rw [← hadd]
        split_ifs <;> omega
      rw [bind_eq_some_iff] at h
      obtain ⟨s₁, hwrite, hrest⟩ := h
      have hwrite' : s.write (low (pack gs / 2 ^ (width gs - bits)) addBits).value addBits = some s₁ := by
        rw [low_value, ← mod_pow_mod_pow _ hle.1, BitStream.write_mod _ _ _ hle.1]
        exact hwrite
      obtain ⟨hs₁, hlength⟩ := Stores.write_some hs hsize (low (pack gs / 2 ^ (width gs - bits)) addBits) hle.1 hwrite'
      have hnext : width gs - bits + addBits = width gs - (bits - addBits) := by omega
      have hs₁' : s₁.Stores (fs ++ [low (pack gs) (width gs - (bits - addBits))]) := by
        apply hs₁.congr
        · rw [append_assoc, singleton_append, pack_append, pack_append, pack_low_append, pack_singleton, low_value,
            hnext]
        · simp
          omega
      rw [hnext] at hrest
      obtain ⟨hs', hlength'⟩ := ih (by omega) (by omega) (by rwa [hlength]) hs₁' hrest
      exact ⟨hs', hlength'.trans hlength⟩
    · obtain rfl : bits = 0 := by omega
      rw [if_neg hzero] at h
      obtain rfl := Option.some.inj h
      exact ⟨finish hs, rfl⟩

theorem Stores.append_some (hs : s.Stores fs) (hsize : 64 * s.bitArray.length < 2 ^ 32) (ht : Block t gs)
    (h : s.append t = some s') : s'.Stores (fs ++ gs) ∧ s'.bitArray.length = s.bitArray.length := by
  unfold BitStream.append at h
  rw [ht.1.position] at h
  apply appendFrom_some ht.1 ht.2 (width gs) (le_refl _) (le_refl _) hsize
  · apply hs.congr
    · simp [pack_append, pack, Nat.mod_one]
    · simp
  · rwa [Nat.sub_self]

theorem foldlM_append_some {ss : List BitStream} {fss : List (List Field)} (hblocks : List.Forall₂ Block ss fss)
    (hs : s.Stores fs) (hsize : 64 * s.bitArray.length < 2 ^ 32) {s'' : BitStream}
    (h : ss.foldlM BitStream.append s = some s') (hend : s'.write 0 2 = some s'') :
    s''.Stores (fs ++ (fss.flatten ++ [low 0 2])) ∧ s''.bitPosition ≤ 64 * s.bitArray.length ∧
      s''.bitArray.length = s.bitArray.length := by
  induction hblocks generalizing s fs with
  | nil =>
    obtain rfl := Option.some.inj h
    obtain ⟨hs'', hlength⟩ := Stores.write_some hs hsize (low 0 2) (by simp) hend
    obtain ⟨hpos, hle⟩ := room_of_write hend
    rw [hs.position] at hle
    refine ⟨hs'', ?_, hlength⟩
    rw [hs''.position, width_append, width_cons, width_nil, low_width]
    omega
  | @cons t gs ts gss hblock hblocks ih =>
    rw [foldlM_cons] at h
    simp only [bind_eq_bind, bind_eq_some_iff] at h
    obtain ⟨s₁, happend, hrest⟩ := h
    obtain ⟨hs₁, hlength⟩ := Stores.append_some hs hsize hblock happend
    obtain ⟨hs'', hle, hlength'⟩ := ih hs₁ (by rwa [hlength]) hrest
    rw [hlength] at hle
    rw [append_assoc, ← append_assoc gs, ← flatten_cons] at hs''
    exact ⟨hs'', hle, hlength'.trans hlength⟩

theorem room_of_append (h : s.append t = some s') : s' = s ∨ s.Room s.bitPosition := by
  unfold BitStream.append at h
  cases hbits : t.bitPosition with
  | zero =>
    rw [hbits] at h
    exact .inl (Option.some.inj h).symm
  | succ bits =>
    rw [hbits, BitStream.appendFrom, if_pos (Nat.succ_pos bits)] at h
    simp only [bind_eq_bind, bind_eq_some_iff] at h
    obtain ⟨streamBits, -, s₁, hwrite, -⟩ := h
    exact .inr (room_of_write hwrite)

theorem room_of_foldlM_append {ss : List BitStream} {s'' : BitStream} (h : ss.foldlM BitStream.append s = some s')
    (hend : s'.write 0 2 = some s'') : s.Room s.bitPosition := by
  induction ss generalizing s with
  | nil =>
    obtain rfl := Option.some.inj h
    exact room_of_write hend
  | cons t ss ih =>
    rw [foldlM_cons] at h
    simp only [bind_eq_bind, bind_eq_some_iff] at h
    obtain ⟨s₁, happend, hrest⟩ := h
    cases room_of_append happend with
    | inl hsame =>
      rw [hsame] at hrest
      exact ih hrest
    | inr hroom => exact hroom

end

end NpuCompiler.Bitc
