import NpuCompiler.Bitc.BitStream
import NpuCompiler.Library.FoldRules

namespace NpuCompiler.Bitc

open BitFields List Option

namespace BitStream

def value (words : List ℕ) : ℕ := words.foldr (fun word rest => word + 2 ^ 64 * rest) 0

def Valid (words : List ℕ) : Prop := ∀ w ∈ words, w < 2 ^ 64

section
variable {words : List ℕ}

theorem value_cons (w : ℕ) (words : List ℕ) : value (w :: words) = w + 2 ^ 64 * value words := rfl

theorem value_replicate_zero (n : ℕ) : value (List.replicate n 0) = 0 := by
  induction n with
  | zero => rfl
  | succ n ih => rw [replicate_succ, value_cons, ih, Nat.mul_zero, Nat.add_zero]

theorem Valid.tail {w : ℕ} (h : Valid (w :: words)) : Valid words := fun x hx => h x (mem_cons_of_mem w hx)

theorem value_drop (h : Valid words) (k : ℕ) : value words / 2 ^ (64 * k) = value (words.drop k) := by
  induction k generalizing words with
  | zero => simp
  | succ k ih =>
    cases words with
    | nil => simp [value]
    | cons w words =>
      have hw := h w (mem_cons_self ..)
      rw [Nat.mul_succ, Nat.add_comm, pow_add, ← Nat.div_div_eq_div_mul, value_cons,
        Nat.add_mul_div_left _ _ (Nat.two_pow_pos _), Nat.div_eq_of_lt hw, Nat.zero_add, ih h.tail]
      rfl

theorem value_drop_succ {k : ℕ} (hk : k < words.length) :
    value (words.drop k) = words[k] + 2 ^ 64 * value (words.drop (k + 1)) := by
  rw [drop_eq_getElem_cons hk, value_cons]

theorem value_set {k : ℕ} (hk : k < words.length) (d : ℕ) :
    value (words.set k (words[k] + d)) = value words + 2 ^ (64 * k) * d := by
  induction words generalizing k with
  | nil => exact absurd hk (Nat.not_lt_zero k)
  | cons w words ih =>
    cases k with
    | zero =>
      simp only [set_cons_zero, getElem_cons_zero, value_cons]
      ring
    | succ k =>
      have hk' : k < words.length := by simpa using hk
      simp only [set_cons_succ, getElem_cons_succ, value_cons, ih hk']
      rw [Nat.mul_succ, pow_add]
      ring

theorem Valid.set (h : Valid words) {k w : ℕ} (hw : w < 2 ^ 64) : Valid (words.set k w) := by
  intro x hx
  rcases mem_or_eq_of_mem_set hx with hx | rfl
  · exact h x hx
  · exact hw

theorem word_lt (h : Valid words) {p : ℕ} (hv : value words < 2 ^ p) (hk : p / 64 < words.length) :
    words[p / 64] < 2 ^ (p % 64) ∧ value (words.drop (p / 64 + 1)) = 0 := by
  have hrest : value (words.drop (p / 64)) < 2 ^ (p % 64) := by
    rw [← value_drop h]
    apply Nat.div_lt_of_lt_mul
    rwa [← pow_add, Nat.div_add_mod]
  rw [value_drop_succ hk] at hrest
  have hlt : 2 ^ (p % 64) ≤ 2 ^ 64 := Nat.pow_le_pow_right (by omega) (by omega)
  have hzero : value (words.drop (p / 64 + 1)) = 0 := by
    by_contra hne
    have : 2 ^ 64 * 1 ≤ 2 ^ 64 * value (words.drop (p / 64 + 1)) := Nat.mul_le_mul_left _ (by omega)
    omega
  exact ⟨by omega, hzero⟩

end

structure Stores (s : BitStream) (fs : List Field) : Prop where
  valid : Valid s.bitArray
  value_eq : value s.bitArray = pack fs
  position : s.bitPosition = width fs

def Room (s : BitStream) (bits : ℕ) : Prop := 0 < s.bitArray.length ∧ bits ≤ 64 * (s.bitArray.length - 1)

theorem Room.mono {s : BitStream} {m n : ℕ} (h : s.Room n) (hm : m ≤ n) : s.Room m := ⟨h.1, hm.trans h.2⟩

theorem Room.of_length {s t : BitStream} {n : ℕ} (h : s.Room n) (hl : t.bitArray.length = s.bitArray.length) :
    t.Room n := by
  unfold Room
  rwa [hl]

theorem readBits_spec {s : BitStream} (h : Valid s.bitArray) {start : ℕ} (hroom : s.Room start) :
    s.readBits start = some (value s.bitArray / 2 ^ start % 2 ^ 64) := by
  obtain ⟨hpos, hle⟩ := hroom
  have hk : start / 64 < s.bitArray.length := by omega
  have hsplit : value s.bitArray / 2 ^ start = value (s.bitArray.drop (start / 64)) / 2 ^ (start % 64) := by
    rw [← value_drop h, div_pow_div_pow, Nat.div_add_mod]
  have hlow := h _ (getElem_mem hk)
  unfold readBits
  simp only [ge_iff_le, not_le.mpr hk, if_false, getElem?_eq_getElem hk, bind_eq_bind, bind_some]
  rw [hsplit, value_drop_succ hk]
  by_cases hbs : start % 64 = 0
  · rw [if_pos hbs, hbs, pow_zero, Nat.div_one, Nat.add_mul_mod_self_left, Nat.mod_eq_of_lt hlow]
    rfl
  · have hk' : start / 64 + 1 < s.bitArray.length := by omega
    have hpow : 2 ^ 64 = 2 ^ (start % 64) * 2 ^ (64 - start % 64) := by
      rw [← pow_add]
      congr 1
      omega
    have hshort : s.bitArray[start / 64] / 2 ^ (start % 64) < 2 ^ (64 - start % 64) := by
      apply Nat.div_lt_of_lt_mul
      rwa [← hpow]
    rw [if_neg hbs, getElem?_eq_getElem hk', bind_some, value_drop_succ hk']
    generalize s.bitArray[start / 64] = low at hlow hshort ⊢
    generalize s.bitArray[start / 64 + 1] = high
    generalize value (s.bitArray.drop (start / 64 + 1 + 1)) = rest
    have hhigh : high * 2 ^ (64 - start % 64) % 2 ^ 64 = (high % 2 ^ (start % 64)) <<< (64 - start % 64) := by
      rw [hpow, Nat.shiftLeft_eq, Nat.mul_comm (2 ^ (start % 64)), Nat.mul_comm high, Nat.mul_mod_mul_left]
      ring
    rw [hhigh, or_shiftLeft_eq_add hshort]
    have hdiv : (low + 2 ^ 64 * (high + 2 ^ 64 * rest)) / 2 ^ (start % 64) =
        low / 2 ^ (start % 64) + 2 ^ (64 - start % 64) * (high + 2 ^ 64 * rest) := by
      rw [show low + 2 ^ 64 * (high + 2 ^ 64 * rest) =
          low + 2 ^ (start % 64) * (2 ^ (64 - start % 64) * (high + 2 ^ 64 * rest)) by rw [← Nat.mul_assoc, ← hpow],
        Nat.add_mul_div_left _ _ (Nat.two_pow_pos _)]
    rw [hdiv]
    have hmod : (high + 2 ^ 64 * rest) % 2 ^ (start % 64) = high % 2 ^ (start % 64) := by
      rw [hpow, Nat.mul_assoc, Nat.add_mul_mod_self_left]
    have hcut := add_mul_mod hshort (high + 2 ^ 64 * rest) (start % 64)
    rw [Nat.sub_add_cancel (by omega : start % 64 ≤ 64)] at hcut
    rw [hcut, hmod]
    rfl

theorem write_spec {s : BitStream} {fs : List Field} (h : s.Stores fs) {bits bitCount : ℕ} (hbits : bits < 2 ^ bitCount)
    (hcount : bitCount ≤ 64) (hroom : s.Room (width fs)) (hfit : width fs + bitCount < 2 ^ 32) :
    ∃ s', s.write bits bitCount = some s' ∧ Valid s'.bitArray ∧ s'.bitArray.length = s.bitArray.length ∧
      value s'.bitArray = pack fs + 2 ^ width fs * bits ∧ s'.bitPosition = width fs + bitCount := by
  obtain ⟨hvalid, hvalue, hposition⟩ := h
  obtain ⟨hpos, hle⟩ := hroom
  have hk : width fs / 64 < s.bitArray.length := by omega
  have hlt : value s.bitArray < 2 ^ width fs := by
    rw [hvalue]
    exact pack_lt fs
  obtain ⟨hword, hrest⟩ := word_lt hvalid hlt hk
  have hbits64 : bits < 2 ^ 64 := hbits.trans_le (Nat.pow_le_pow_right (by omega) hcount)
  have hpow : 2 ^ width fs = 2 ^ (64 * (width fs / 64)) * 2 ^ (width fs % 64) := by
    rw [← pow_add, Nat.div_add_mod]
  have hor : s.bitArray[width fs / 64] ||| bits * 2 ^ (width fs % 64) % 2 ^ 64 =
      s.bitArray[width fs / 64] + bits * 2 ^ (width fs % 64) % 2 ^ 64 := by
    have hshift : bits * 2 ^ (width fs % 64) % 2 ^ 64 = (bits % 2 ^ (64 - width fs % 64)) <<< (width fs % 64) := by
      have hsplit : 2 ^ 64 = 2 ^ (64 - width fs % 64) * 2 ^ (width fs % 64) := by
        rw [← pow_add, Nat.sub_add_cancel (by omega)]
      rw [hsplit, Nat.shiftLeft_eq, Nat.mul_mod_mul_right]
    rw [hshift, or_shiftLeft_eq_add hword, Nat.shiftLeft_eq]
    ring
  have hfirst : value (s.bitArray.set (width fs / 64)
      (s.bitArray[width fs / 64] + bits * 2 ^ (width fs % 64) % 2 ^ 64)) =
      pack fs + 2 ^ (64 * (width fs / 64)) * (bits * 2 ^ (width fs % 64) % 2 ^ 64) := by
    rw [value_set hk, hvalue]
  have hsum : s.bitArray[width fs / 64] + bits * 2 ^ (width fs % 64) % 2 ^ 64 < 2 ^ 64 := by
    rw [← hor]
    exact Nat.or_lt_two_pow (hvalid _ (getElem_mem hk)) (Nat.mod_lt _ (Nat.two_pow_pos _))
  have hvalid' := hvalid.set (k := width fs / 64) hsum
  unfold write
  simp only [hposition, Nat.not_lt.mpr hcount, if_false, Nat.mod_eq_of_lt hbits, getElem?_eq_getElem hk,
    bind_eq_bind, bind_some, u32, Nat.mod_eq_of_lt hfit, hor]
  by_cases hbs : width fs % 64 = 0
  · rw [if_pos hbs]
    refine ⟨_, rfl, hvalid', length_set .., ?_, rfl⟩
    rw [hfirst, hbs, pow_zero, Nat.mul_one, Nat.mod_eq_of_lt hbits64, hpow, hbs, pow_zero, Nat.mul_one]
  · have hk' : width fs / 64 + 1 < s.bitArray.length := by omega
    rw [value_drop_succ hk'] at hrest
    have hnext : s.bitArray[width fs / 64 + 1] = 0 := by omega
    have hk'' : width fs / 64 + 1 < (s.bitArray.set (width fs / 64)
        (s.bitArray[width fs / 64] + bits * 2 ^ (width fs % 64) % 2 ^ 64)).length := by
      rwa [length_set]
    have hnext' : (s.bitArray.set (width fs / 64)
        (s.bitArray[width fs / 64] + bits * 2 ^ (width fs % 64) % 2 ^ 64))[width fs / 64 + 1] = 0 := by
      rw [getElem_set, if_neg (by omega)]
      exact hnext
    have hsplit : 2 ^ 64 = 2 ^ (64 - width fs % 64) * 2 ^ (width fs % 64) := by
      rw [← pow_add, Nat.sub_add_cancel (by omega)]
    have hcarry : bits / 2 ^ (64 - width fs % 64) < 2 ^ (width fs % 64) := by
      apply Nat.div_lt_of_lt_mul
      rwa [← hsplit]
    have hdiv : bits * 2 ^ (width fs % 64) / 2 ^ 64 = bits / 2 ^ (64 - width fs % 64) := by
      rw [hsplit, Nat.mul_div_mul_right _ _ (Nat.two_pow_pos _)]
    rw [if_neg hbs, getElem?_eq_getElem hk'', bind_some, hnext', Nat.zero_or, Nat.mod_eq_of_lt hcarry]
    have hsecond := value_set hk'' (bits / 2 ^ (64 - width fs % 64))
    rw [hnext', Nat.zero_add, hfirst] at hsecond
    refine ⟨_, rfl, hvalid'.set (hcarry.trans_le (Nat.pow_le_pow_right (by omega) (by omega))), ?_, ?_, rfl⟩
    · rw [length_set, length_set]
    · rw [hsecond, Nat.add_assoc, Nat.mul_succ, pow_add, Nat.mul_assoc, ← Nat.mul_add, ← hdiv, Nat.mod_add_div, hpow]
      ring

theorem Stores.write {s : BitStream} {fs : List Field} (h : s.Stores fs) (f : Field) (hwidth : f.width ≤ 64)
    (hroom : s.Room (width fs)) (hfit : width fs + f.width < 2 ^ 32) :
    ∃ s', s.write f.value f.width = some s' ∧ s'.Stores (fs ++ [f]) ∧ s'.bitArray.length = s.bitArray.length := by
  obtain ⟨s', heq, hvalid, hlength, hvalue, hposition⟩ := write_spec h f.fits hwidth hroom hfit
  refine ⟨s', heq, ⟨hvalid, ?_, ?_⟩, hlength⟩
  · rw [hvalue, pack_append, pack, pack, Nat.mul_zero, Nat.add_zero]
  · rw [hposition, width_append, width_cons, width_nil, Nat.add_zero]

theorem Stores.congr {s : BitStream} {fs gs : List Field} (h : s.Stores fs) (hpack : pack fs = pack gs)
    (hwidth : width fs = width gs) : s.Stores gs :=
  ⟨h.valid, h.value_eq.trans hpack, h.position.trans hwidth⟩

theorem write_mod (s : BitStream) (bits bitCount : ℕ) (hcount : bitCount ≤ 64) :
    s.write (bits % 2 ^ bitCount) bitCount = s.write bits bitCount := by
  unfold BitStream.write
  simp only [Nat.not_lt.mpr hcount, if_false, Nat.mod_mod]

theorem appendFrom_spec {t : BitStream} {gs : List Field} (ht : t.Stores gs) (hroom' : t.Room (width gs)) {fs : List Field}
    (hfit : width fs + width gs < 2 ^ 32) (fuel : ℕ) {s : BitStream} {bits : ℕ} (hfuel : bits ≤ fuel)
    (hbits : bits ≤ width gs) (hroom : s.Room (width fs + width gs))
    (hs : s.Stores (fs ++ [low (pack gs) (width gs - bits)])) :
    ∃ s', t.appendFrom fuel s bits (width gs - bits) = some s' ∧ s'.Stores (fs ++ gs) ∧
      s'.bitArray.length = s.bitArray.length := by
  have finish {s : BitStream} (hs : s.Stores (fs ++ [low (pack gs) (width gs - 0)])) : s.Stores (fs ++ gs) := by
    apply hs.congr
    · rw [pack_append, pack_append, pack_singleton, low_value, Nat.sub_zero, Nat.mod_eq_of_lt (pack_lt gs)]
    · simp
  induction fuel generalizing s bits with
  | zero =>
    obtain rfl : bits = 0 := by omega
    exact ⟨s, rfl, finish hs, rfl⟩
  | succ fuel ih =>
    rw [appendFrom]
    by_cases hzero : bits > 0
    · have hread : t.readBits (width gs - bits) = some (pack gs / 2 ^ (width gs - bits) % 2 ^ 64) := by
        rw [readBits_spec ht.valid (hroom'.mono (Nat.sub_le _ _)), ht.value_eq]
      have hwidth : width (fs ++ [low (pack gs) (width gs - bits)]) = width fs + (width gs - bits) := by simp
      rw [if_pos hzero, hread]
      simp only [bind_eq_bind, bind_some]
      generalize hadd : (if bits ≥ 64 then 64 else bits) = addBits
      have hle : addBits ≤ 64 ∧ addBits ≤ bits ∧ 0 < addBits := by
        rw [← hadd]
        split_ifs <;> omega
      obtain ⟨s', hwrite, hs', hlength⟩ := hs.write (low (pack gs / 2 ^ (width gs - bits)) addBits) hle.1
        (hroom.mono (by omega)) (by rw [hwidth, low_width]; omega)
      have hwrite' : s.write (pack gs / 2 ^ (width gs - bits) % 2 ^ 64) addBits = some s' := by
        rw [← write_mod _ _ _ hle.1, mod_pow_mod_pow _ hle.1]
        exact hwrite
      have hs'' : s'.Stores (fs ++ [low (pack gs) (width gs - (bits - addBits))]) := by
        apply hs'.congr
        · rw [append_assoc, singleton_append, pack_append, pack_append, pack_low_append, pack_singleton, low_value,
            show width gs - bits + addBits = width gs - (bits - addBits) by omega]
        · simp
          omega
      obtain ⟨s'', heq, hstores, hlength'⟩ := ih (by omega) (by omega) (hroom.of_length hlength) hs''
      refine ⟨s'', ?_, hstores, hlength'.trans hlength⟩
      rw [hwrite', bind_some, show width gs - bits + addBits = width gs - (bits - addBits) by omega]
      exact heq
    · obtain rfl : bits = 0 := by omega
      rw [if_neg hzero]
      exact ⟨s, rfl, finish hs, rfl⟩

theorem Stores.append {s t : BitStream} {fs gs : List Field} (hs : s.Stores fs) (ht : t.Stores gs)
    (hroom : s.Room (width fs + width gs)) (hroom' : t.Room (width gs)) (hfit : width fs + width gs < 2 ^ 32) :
    ∃ s', s.append t = some s' ∧ s'.Stores (fs ++ gs) ∧ s'.bitArray.length = s.bitArray.length := by
  have hstart : s.Stores (fs ++ [low (pack gs) (width gs - width gs)]) := by
    apply hs.congr
    · simp [pack_append, pack, Nat.mod_one]
    · simp
  have hrun := appendFrom_spec ht hroom' hfit (width gs) (le_refl _) (le_refl _) hroom hstart
  rw [Nat.sub_self] at hrun
  unfold BitStream.append
  rw [ht.position]
  exact hrun

section
variable {bytes : List UInt8}

theorem ofLittleEndian_append (a b : List UInt8) :
    ofLittleEndian (a ++ b) = ofLittleEndian a + 2 ^ (8 * a.length) * ofLittleEndian b := by
  induction a with
  | nil => simp [ofLittleEndian]
  | cons byte a ih =>
    have hcons (byte : UInt8) (a : List UInt8) : ofLittleEndian (byte :: a) = byte.toNat + 2 ^ 8 * ofLittleEndian a := rfl
    rw [cons_append, hcons, hcons, ih, length_cons, Nat.mul_succ, pow_add]
    ring

theorem ofLittleEndian_lt (bytes : List UInt8) : ofLittleEndian bytes < 2 ^ (8 * bytes.length) := by
  induction bytes with
  | nil => simp [ofLittleEndian]
  | cons byte bytes ih =>
    rw [length_cons, Nat.mul_succ, Nat.add_comm]
    exact add_mul_lt byte.toNat_lt ih

theorem ofLittleEndian_replicate_zero (n : ℕ) : ofLittleEndian (List.replicate n 0) = 0 := by
  induction n with
  | zero => rfl
  | succ n ih =>
    change (0 : UInt8).toNat + 2 ^ 8 * ofLittleEndian (List.replicate n 0) = 0
    rw [ih]
    rfl

theorem toWords_length (n : ℕ) (bytes : List UInt8) : (toWords n bytes).length = n := by
  induction n generalizing bytes with
  | zero => rfl
  | succ n ih => rw [toWords, length_cons, ih]

theorem toWords_valid (n : ℕ) (bytes : List UInt8) : Valid (toWords n bytes) := by
  induction n generalizing bytes with
  | zero => exact fun w hw => absurd hw not_mem_nil
  | succ n ih =>
    intro w hw
    rcases mem_cons.mp hw with rfl | hw
    · apply (ofLittleEndian_lt _).trans_le
      apply Nat.pow_le_pow_right (by omega)
      rw [length_take]
      omega
    · exact ih _ w hw

theorem value_toWords {n : ℕ} (h : bytes.length ≤ 8 * n) : value (toWords n bytes) = ofLittleEndian bytes := by
  induction n generalizing bytes with
  | zero =>
    obtain rfl : bytes = [] := length_eq_zero_iff.mp (by omega)
    rfl
  | succ n ih =>
    rw [toWords, value_cons, ih (by rw [length_drop]; omega)]
    conv_rhs => rw [← take_append_drop 8 bytes, ofLittleEndian_append]
    by_cases hlen : 8 ≤ bytes.length
    · rw [length_take, min_eq_left hlen]
    · rw [drop_eq_nil_of_le (by omega)]
      rfl

def byteOf (v k : ℕ) : UInt8 := UInt8.ofNat (v / 2 ^ (8 * k))

theorem byteOf_ofLittleEndian {k : ℕ} (hk : k < bytes.length) : byteOf (ofLittleEndian bytes) k = bytes[k] := by
  have hsplit : bytes = bytes.take k ++ (bytes[k] :: bytes.drop (k + 1)) := by
    rw [← drop_eq_getElem_cons hk, take_append_drop]
  have hlen : (bytes.take k).length = k := by
    rw [length_take]
    omega
  have hlt := ofLittleEndian_lt (bytes.take k)
  rw [hlen] at hlt
  unfold byteOf
  conv_lhs => rw [hsplit]
  rw [ofLittleEndian_append, hlen, Nat.add_mul_div_left _ _ (Nat.two_pow_pos _), Nat.div_eq_of_lt hlt, Nat.zero_add]
  change UInt8.ofNat (bytes[k].toNat + 2 ^ 8 * ofLittleEndian (bytes.drop (k + 1))) = bytes[k]
  apply UInt8.toNat_inj.mp
  rw [UInt8.toNat_ofNat', Nat.add_mul_mod_self_left]
  exact Nat.mod_eq_of_lt bytes[k].toNat_lt

theorem ofLittleEndian_byteOf (v n : ℕ) : ofLittleEndian ((List.range n).map (byteOf v)) = v % 2 ^ (8 * n) := by
  induction n with
  | zero => simp [ofLittleEndian, Nat.mod_one]
  | succ n ih =>
    rw [range_succ, map_append, ofLittleEndian_append, ih, length_map, length_range, Nat.mul_succ,
      pow_add, Nat.mod_mul]
    have hbyte : (byteOf v n).toNat = v / 2 ^ (8 * n) % 2 ^ 8 := UInt8.toNat_ofNat' ..
    simp [ofLittleEndian, hbyte]

theorem byteAt_spec {s : BitStream} (h : Valid s.bitArray) {k : ℕ} (hk : k < 8 * s.bitArray.length) :
    s.byteAt k = some (byteOf (value s.bitArray) k) := by
  have hword : k / 8 < s.bitArray.length := by omega
  have hsplit : value s.bitArray / 2 ^ (8 * k) = value (s.bitArray.drop (k / 8)) / 2 ^ (8 * (k % 8)) := by
    rw [← value_drop h, div_pow_div_pow]
    congr 2
    omega
  unfold byteAt byteOf
  rw [getElem?_eq_getElem hword, map_some, hsplit, value_drop_succ hword]
  congr 1
  apply UInt8.toNat_inj.mp
  rw [UInt8.toNat_ofNat', UInt8.toNat_ofNat']
  have hpow : 2 ^ 64 = 2 ^ (8 * (k % 8)) * (2 ^ 8 * 2 ^ (64 - 8 * (k % 8) - 8)) := by
    rw [← pow_add, ← pow_add]
    congr 1
    omega
  rw [hpow, Nat.mul_assoc, Nat.add_mul_div_left _ _ (Nat.two_pow_pos _), Nat.mul_assoc, Nat.add_mul_mod_self_left]

theorem bytesAt_spec {s : BitStream} (h : Valid s.bitArray) {start count : ℕ}
    (hcount : start + count ≤ 8 * s.bitArray.length) :
    s.bytesAt start count = some ((List.range count).map (fun i => byteOf (value s.bitArray) (start + i))) := by
  apply mapM_eq_some
  intro i hi
  exact byteAt_spec h (by have := mem_range.mp hi; omega)

theorem bytesAt_ofLittleEndian {s : BitStream} (h : Valid s.bitArray) (hv : value s.bitArray = ofLittleEndian bytes)
    (hroom : bytes.length ≤ 8 * s.bitArray.length) {start count : ℕ} (hcount : start + count ≤ bytes.length) :
    s.bytesAt start count = some ((bytes.drop start).take count) := by
  rw [bytesAt_spec h (hcount.trans hroom), hv]
  congr 1
  apply ext_getElem
  · rw [length_map, length_range, length_take, length_drop]
    omega
  · intro i h1 h2
    have hi : start + i < bytes.length := by
      rw [length_map, length_range] at h1
      omega
    rw [getElem_map, getElem_range, byteOf_ofLittleEndian hi, getElem_take, getElem_drop]

theorem ofBytes_spec (hlen : bytes.length + 7 < 2 ^ 32) :
    ∃ s, ofBytes bytes = some s ∧ Valid s.bitArray ∧ value s.bitArray = ofLittleEndian bytes ∧
      s.bitArray.length = (bytes.length + 7) / 8 + 1 ∧ s.sourceByteCount = bytes.length := by
  have hcount : u32 bytes.length = bytes.length := Nat.mod_eq_of_lt (by omega)
  have hsize : u32 (bytes.length + 7) = bytes.length + 7 := Nat.mod_eq_of_lt hlen
  unfold ofBytes
  simp only [hcount, hsize]
  rw [if_pos (by omega)]
  refine ⟨_, rfl, toWords_valid _ _, value_toWords (by omega), toWords_length _ _, rfl⟩

theorem allocateBits_length (s : BitStream) (bits : ℕ) : (s.allocateBits bits).bitArray.length = (bits + 63) / 64 + 1 := by
  simp [BitStream.allocateBits]
  omega

theorem allocateBits_stores (bits : ℕ) :
    (default.allocateBits bits).Stores [] ∧ (default.allocateBits bits).Room bits := by
  refine ⟨⟨?_, ?_, rfl⟩, ?_, ?_⟩
  · intro w hw
    have hzero : w = 0 := by simpa [allocateBits, default] using hw
    rw [hzero]
    exact Nat.two_pow_pos 64
  · simp only [allocateBits, default, take_nil, nil_append, value_replicate_zero]
    rfl
  · simp [allocateBits, default]
  · simp [allocateBits, default]
    omega

theorem readBytes_spec {s : BitStream} {fs : List Field} (h : s.Stores fs) (hroom : width fs ≤ 64 * s.bitArray.length) {align : ℕ}
    (halign : 0 < align) (hfit : width fs + align * 8 ≤ 2 ^ 32) :
    ∃ out, s.readBytes align = some out ∧ ofLittleEndian out = pack fs ∧
      out.length = (width fs + align * 8 - 1) / (align * 8) * align := by
  have hpos : u32 (width fs + align * 8 - 1) = width fs + align * 8 - 1 := Nat.mod_eq_of_lt (by omega)
  have hcopy : u32 (width fs + 7) = width fs + 7 := Nat.mod_eq_of_lt (by omega)
  have hsize : (width fs + align * 8 - 1) / (align * 8) * (align * 8) / 8 =
      (width fs + align * 8 - 1) / (align * 8) * align := by
    rw [← Nat.mul_assoc, Nat.mul_div_cancel _ (by omega)]
  have hbig : (width fs + 7) / 8 ≤ (width fs + align * 8 - 1) / (align * 8) * align := by
    have hdiv := Nat.div_add_mod (width fs + align * 8 - 1) (align * 8)
    have hmod := Nat.mod_lt (width fs + align * 8 - 1) (by omega : align * 8 > 0)
    have hcomm : align * 8 * ((width fs + align * 8 - 1) / (align * 8)) =
        8 * ((width fs + align * 8 - 1) / (align * 8) * align) := by ring
    omega
  have hbytes := bytesAt_spec h.valid (show 0 + (width fs + 7) / 8 ≤ 8 * s.bitArray.length by omega)
  simp only [Nat.zero_add] at hbytes
  unfold readBytes
  simp only [h.position, hpos, hcopy, hsize, hbytes, bind_eq_bind, bind_some, if_pos hbig]
  refine ⟨_, rfl, ?_, ?_⟩
  · have hlow : pack fs < 2 ^ (8 * ((width fs + 7) / 8)) :=
      (pack_lt fs).trans_le (Nat.pow_le_pow_right (by omega) (by omega))
    rw [ofLittleEndian_append, ofLittleEndian_replicate_zero, Nat.mul_zero, Nat.add_zero,
      show (fun i => byteOf (value s.bitArray) i) = byteOf (value s.bitArray) from rfl, ofLittleEndian_byteOf, h.value_eq,
      Nat.mod_eq_of_lt hlow]
  · rw [length_append, length_map, length_range, length_replicate]
    omega

end

end BitStream

end NpuCompiler.Bitc
