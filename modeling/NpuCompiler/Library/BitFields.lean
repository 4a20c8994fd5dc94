import Mathlib.Data.List.Induction
import Mathlib.Data.Nat.Bitwise
import Mathlib.Tactic.Ring

namespace NpuCompiler.BitFields

open List

structure Field where
  width : ℕ
  value : ℕ
  fits : value < 2 ^ width

def width (fs : List Field) : ℕ := (fs.map Field.width).sum

def pack : List Field → ℕ
  | [] => 0
  | f :: fs => f.value + 2 ^ f.width * pack fs

@[simp] theorem width_nil : width [] = 0 := rfl

@[simp] theorem width_cons (f : Field) (fs : List Field) : width (f :: fs) = f.width + width fs := by
  simp [width]

@[simp] theorem width_append (fs gs : List Field) : width (fs ++ gs) = width fs + width gs := by
  simp [width]

theorem width_flatten (fss : List (List Field)) : width fss.flatten = (fss.map width).sum := by
  induction fss with
  | nil => rfl
  | cons fs fss ih => rw [flatten_cons, width_append, ih, map_cons, sum_cons]

theorem pack_append (fs gs : List Field) : pack (fs ++ gs) = pack fs + 2 ^ width fs * pack gs := by
  induction fs with
  | nil => simp [pack]
  | cons f fs ih =>
    rw [cons_append, pack, pack, ih, width_cons, pow_add]
    ring

theorem add_mul_lt {a b m n : ℕ} (ha : a < 2 ^ m) (hb : b < 2 ^ n) : a + 2 ^ m * b < 2 ^ (m + n) := by
  rw [pow_add]
  calc a + 2 ^ m * b < 2 ^ m + 2 ^ m * b := Nat.add_lt_add_right ha _
    _ = 2 ^ m * (b + 1) := by ring
    _ ≤ 2 ^ m * 2 ^ n := Nat.mul_le_mul_left _ hb

theorem add_mul_mod {a m : ℕ} (ha : a < 2 ^ m) (b n : ℕ) : (a + 2 ^ m * b) % 2 ^ (m + n) = a + 2 ^ m * (b % 2 ^ n) := by
  have hsplit : a + 2 ^ m * b = a + 2 ^ m * (b % 2 ^ n) + 2 ^ (m + n) * (b / 2 ^ n) := by
    conv_lhs => rw [← Nat.mod_add_div b (2 ^ n)]
    rw [pow_add]
    ring
  rw [hsplit, Nat.add_mul_mod_self_left, Nat.mod_eq_of_lt (add_mul_lt ha (Nat.mod_lt b (Nat.two_pow_pos n)))]

theorem pack_lt (fs : List Field) : pack fs < 2 ^ width fs := by
  induction fs with
  | nil => simp [pack]
  | cons f fs ih =>
    rw [width_cons]
    exact add_mul_lt f.fits ih

def low (v n : ℕ) : Field := ⟨n, v % 2 ^ n, Nat.mod_lt v (Nat.two_pow_pos n)⟩

@[simp] theorem low_width (v n : ℕ) : (low v n).width = n := rfl

@[simp] theorem low_value (v n : ℕ) : (low v n).value = v % 2 ^ n := rfl

theorem pack_singleton (f : Field) : pack [f] = f.value := by simp [pack]

theorem pack_low_append (v m n : ℕ) : pack [low v m, low (v / 2 ^ m) n] = v % 2 ^ (m + n) := by
  rw [pow_add, Nat.mod_mul, pack, pack_singleton]
  rfl

def Holds (v p : ℕ) (fs : List Field) : Prop := v / 2 ^ p = pack fs

section
variable {v p : ℕ} {f : Field} {fs gs : List Field}

theorem Holds.low (h : Holds v p (f :: fs)) : v / 2 ^ p % 2 ^ f.width = f.value := by
  unfold Holds at h
  rw [h, pack, Nat.add_mul_mod_self_left, Nat.mod_eq_of_lt f.fits]

theorem Holds.append (h : Holds v p (fs ++ gs)) : Holds v (p + width fs) gs := by
  unfold Holds at h ⊢
  rw [pow_add, ← Nat.div_div_eq_div_mul, h, pack_append, Nat.add_mul_div_left _ _ (Nat.two_pow_pos _),
    Nat.div_eq_of_lt (pack_lt fs), Nat.zero_add]

theorem Holds.tail (h : Holds v p (f :: fs)) : Holds v (p + f.width) fs := by
  have h' : Holds v p ([f] ++ fs) := h
  simpa using h'.append

end

theorem or_shiftLeft_eq_add {a p : ℕ} (ha : a < 2 ^ p) (b : ℕ) : a ||| b <<< p = a + 2 ^ p * b := by
  rw [Nat.lor_comm, ← Nat.shiftLeft_add_eq_or_of_lt ha, Nat.shiftLeft_eq, Nat.mul_comm, Nat.add_comm]

theorem mod_pow_mod_pow {m n : ℕ} (v : ℕ) (h : m ≤ n) : v % 2 ^ n % 2 ^ m = v % 2 ^ m :=
  Nat.mod_mod_of_dvd v (pow_dvd_pow 2 h)

theorem div_pow_div_pow (v m n : ℕ) : v / 2 ^ m / 2 ^ n = v / 2 ^ (m + n) := by
  rw [Nat.div_div_eq_div_mul, pow_add]

end NpuCompiler.BitFields

namespace NpuCompiler.SubBytes

def bitAt (bytes : List (BitVec 8)) (p : ℕ) : Bool := (bytes.getD (p / 8) 0).getLsbD (p % 8)

def maskOf (bits : ℕ) : BitVec 8 := BitVec.ofNat 8 (2 ^ bits - 1)

def placed (bits : ℕ) (value : BitVec 8) (r : ℕ) : BitVec 8 := (value &&& maskOf bits) <<< (r * bits)

def packByte (bits : ℕ) (values : List (BitVec 8)) : BitVec 8 :=
  (values.foldl (fun (st : BitVec 8 × ℕ) value => (st.1 ||| ((value &&& maskOf bits) <<< st.2), st.2 + bits)) (0, 0)).1

def repeatByte (bits : ℕ) (value : BitVec 8) : ℕ → BitVec 8
  | 0 => 0
  | count + 1 => (repeatByte bits value count <<< bits) + value

variable {bits r i j count : ℕ} {value : BitVec 8} {values : List (BitVec 8)}

theorem getLsbD_maskOf (hi : i < 8) : (maskOf bits).getLsbD i = decide (i < bits) := by
  unfold maskOf
  rw [BitVec.getLsbD_ofNat, Nat.testBit_two_pow_sub_one]
  simp [hi]

theorem getLsbD_placed (hbits : 0 < bits) (hi : i < 8) :
    (placed bits value r).getLsbD i = (decide (i / bits = r) && value.getLsbD (i % bits)) := by
  unfold placed
  rw [BitVec.getLsbD_shiftLeft, BitVec.getLsbD_and, decide_eq_true hi]
  have hdiv := Nat.div_add_mod i bits
  have hmod := Nat.mod_lt i hbits
  rcases Nat.lt_trichotomy (i / bits) r with hlt | heq | hgt
  · have hbelow : i < r * bits := by
      have := Nat.mul_le_mul_right bits (Nat.succ_le_of_lt hlt)
      rw [Nat.succ_mul, Nat.mul_comm] at this
      omega
    simp [hbelow, hlt.ne]
  · have hrest : i - r * bits = i % bits := by
      rw [← heq, Nat.mul_comm]
      omega
    have hge : r * bits ≤ i := by
      rw [← heq, Nat.mul_comm]
      omega
    rw [hrest, getLsbD_maskOf (by omega)]
    simp [heq, hmod, Nat.not_lt.mpr hge]
  · have habove : bits ≤ i - r * bits := by
      have := Nat.mul_le_mul_right bits (Nat.succ_le_of_lt hgt)
      rw [Nat.succ_mul, Nat.mul_comm (i / bits)] at this
      omega
    rw [getLsbD_maskOf (by omega)]
    simp [hgt.ne', Nat.not_lt.mpr habove]

theorem packByte_append : packByte bits (values ++ [value]) = packByte bits values ||| placed bits value values.length := by
  have hshift (l : List (BitVec 8)) : (l.foldl (fun (st : BitVec 8 × ℕ) value =>
      (st.1 ||| ((value &&& maskOf bits) <<< st.2), st.2 + bits)) (0, 0)).2 = l.length * bits := by
    induction l using List.reverseRecOn with
    | nil => simp
    | append_singleton l v ih =>
      rw [List.foldl_append, List.foldl_cons, List.foldl_nil, ih, List.length_append, List.length_singleton, Nat.succ_mul]
  unfold packByte placed
  rw [List.foldl_append, List.foldl_cons, List.foldl_nil, hshift]

theorem getLsbD_packByte (hbits : 0 < bits) (hi : i < 8) :
    (packByte bits values).getLsbD i = (values.getD (i / bits) 0).getLsbD (i % bits) := by
  induction values using List.reverseRecOn with
  | nil => simp [packByte]
  | append_singleton values value ih =>
    rw [packByte_append, BitVec.getLsbD_or, ih, getLsbD_placed hbits hi]
    rcases Nat.lt_trichotomy (i / bits) values.length with hlt | heq | hgt
    · rw [List.getD_append _ _ _ _ hlt]
      simp [hlt.ne]
    · rw [List.getD_append_right _ _ _ _ heq.ge, heq, List.getD_eq_default _ _ (Nat.le_refl _)]
      simp
    · rw [List.getD_eq_default _ _ hgt.le, @List.getD_eq_default _ (values ++ [value]) _ _ (by simpa using Nat.succ_le_of_lt hgt)]
      simp [hgt.ne']

theorem getLsbD_repeatByte (hbits : 0 < bits) (hvalue : ∀ j, bits ≤ j → value.getLsbD j = false) (hi : i < 8) :
    (repeatByte bits value count).getLsbD i = (decide (i < count * bits) && value.getLsbD (i % bits)) := by
  induction count generalizing i with
  | zero => simp [repeatByte]
  | succ count ih =>
    have hdisjoint : repeatByte bits value count <<< bits &&& value = 0 := by
      apply BitVec.eq_of_getLsbD_eq
      intro j hj
      rw [BitVec.getLsbD_and, BitVec.getLsbD_shiftLeft]
      by_cases hlow : j < bits
      · simp [hlow]
      · simp [hvalue j (Nat.le_of_not_lt hlow)]
    unfold repeatByte
    rw [BitVec.add_eq_or_of_and_eq_zero _ _ hdisjoint, BitVec.getLsbD_or, BitVec.getLsbD_shiftLeft, decide_eq_true hi]
    by_cases hlow : i < bits
    · rw [Nat.mod_eq_of_lt hlow]
      have hin : i < (count + 1) * bits := by
        rw [Nat.succ_mul]
        omega
      simp [hlow, hin]
    · have hge := Nat.le_of_not_lt hlow
      have hcount : i - bits < count * bits ↔ i < (count + 1) * bits := by
        rw [Nat.succ_mul]
        omega
      rw [ih (by omega), hvalue i hge, ← Nat.mod_eq_sub_mod hge]
      simp [hlow, hcount]

end NpuCompiler.SubBytes
