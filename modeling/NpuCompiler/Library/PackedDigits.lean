import Mathlib.Data.Nat.Digits.Lemmas

namespace NpuCompiler.PackedDigits

open List

variable {w bits fuel code i : ℕ} {ds : List ℕ}

def read (w : ℕ) : ℕ → ℕ → List ℕ
  | 0, _ => []
  | fuel + 1, code =>
    let digit := code &&& (2 ^ w - 1)
    if digit = 0 then [] else digit :: read w fuel (code >>> w)

def push (w bits code digit : ℕ) : ℕ := ((code <<< w) % 2 ^ bits) ||| digit

theorem mask_eq : code &&& (2 ^ w - 1) = code % 2 ^ w := Nat.and_two_pow_sub_one_eq_mod code w

theorem read_eq (hw : 0 < w) : read w fuel code = ((Nat.digits (2 ^ w) code).take fuel).takeWhile (· ≠ 0) := by
  induction fuel generalizing code with
  | zero => rfl
  | succ fuel ih =>
    unfold read
    rw [mask_eq, Nat.shiftRight_eq_div_pow]
    rcases Nat.eq_zero_or_pos code with rfl | hpos
    · simp
    · rw [Nat.digits_def' (Nat.one_lt_two_pow hw.ne') hpos, take_succ_cons, takeWhile_cons, ih]
      by_cases hdigit : code % 2 ^ w = 0
      · simp [hdigit]
      · simp [hdigit]

theorem read_ofDigits (hds : ∀ d ∈ ds, 0 < d ∧ d < 2 ^ w) (hfuel : ds.length ≤ fuel) : read w fuel (Nat.ofDigits (2 ^ w) ds) = ds := by
  induction ds generalizing fuel with
  | nil =>
    cases fuel with
    | zero => rfl
    | succ fuel =>
      unfold read
      simp
  | cons d ds ih =>
    obtain ⟨⟨hpos, hlt⟩, hds'⟩ := forall_mem_cons.mp hds
    cases fuel with
    | zero => exact absurd hfuel (Nat.not_succ_le_zero _)
    | succ fuel =>
      unfold read
      rw [mask_eq, Nat.shiftRight_eq_div_pow, Nat.ofDigits_cons, Nat.add_mul_mod_self_left, Nat.mod_eq_of_lt hlt,
        Nat.add_mul_div_left _ _ (Nat.two_pow_pos w), Nat.div_eq_of_lt hlt, Nat.zero_add]
      dsimp only
      rw [if_neg hpos.ne', ih hds' (Nat.le_of_succ_le_succ hfuel)]

theorem ofDigits_lt (hds : ∀ d ∈ ds, d < 2 ^ w) : Nat.ofDigits (2 ^ w) ds < 2 ^ (w * ds.length) := by
  induction ds with
  | nil => simp
  | cons d ds ih =>
    obtain ⟨hd, hds'⟩ := forall_mem_cons.mp hds
    rw [Nat.ofDigits_cons, length_cons, Nat.mul_succ, Nat.pow_add]
    have := ih hds'
    have : 2 ^ w * (Nat.ofDigits (2 ^ w) ds + 1) ≤ 2 ^ w * 2 ^ (w * ds.length) := Nat.mul_le_mul_left _ this
    nlinarith

theorem push_ofDigits {d : ℕ} (hd : d < 2 ^ w) (hds : ∀ d ∈ ds, d < 2 ^ w) (hbits : w * (ds.length + 1) ≤ bits) :
    push w bits (Nat.ofDigits (2 ^ w) ds) d = Nat.ofDigits (2 ^ w) (d :: ds) := by
  have hlt : Nat.ofDigits (2 ^ w) ds <<< w < 2 ^ bits := by
    rw [Nat.shiftLeft_eq]
    calc Nat.ofDigits (2 ^ w) ds * 2 ^ w < 2 ^ (w * ds.length) * 2 ^ w := Nat.mul_lt_mul_of_pos_right (ofDigits_lt hds) (Nat.two_pow_pos w)
      _ = 2 ^ (w * (ds.length + 1)) := by rw [Nat.mul_succ, Nat.pow_add]
      _ ≤ 2 ^ bits := Nat.pow_le_pow_right Nat.two_pos hbits
  unfold push
  rw [Nat.mod_eq_of_lt hlt, Nat.ofDigits_cons, ← Nat.shiftLeft_add_eq_or_of_lt hd, Nat.shiftLeft_eq]
  ring

theorem foldl_push (hds : ∀ d ∈ ds, d < 2 ^ w) (hbits : w * ds.length ≤ bits) :
    ds.foldl (push w bits) 0 = Nat.ofDigits (2 ^ w) ds.reverse := by
  induction ds using List.reverseRecOn with
  | nil => rfl
  | append_singleton ds d ih =>
    rw [length_append, length_singleton] at hbits
    have hds' : ∀ d ∈ ds, d < 2 ^ w := fun e he => hds e (mem_append_left _ he)
    rw [foldl_append, ih hds' (Nat.le_trans (Nat.mul_le_mul_left w (Nat.le_succ _)) hbits), reverse_append]
    apply push_ofDigits (hds d (mem_append_right _ (mem_singleton_self d)))
    · exact fun e he => hds' e (mem_reverse.mp he)
    · rwa [length_reverse]

theorem digit_ofDigits (hds : ∀ d ∈ ds, d < 2 ^ w) : (Nat.ofDigits (2 ^ w) ds >>> (w * i)) &&& (2 ^ w - 1) = ds.getD i 0 := by
  rw [mask_eq]
  induction i generalizing ds with
  | zero =>
    cases ds with
    | nil => simp
    | cons d ds =>
      rw [Nat.mul_zero, Nat.shiftRight_zero, Nat.ofDigits_cons, Nat.add_mul_mod_self_left]
      exact Nat.mod_eq_of_lt (hds d mem_cons_self)
  | succ i ih =>
    cases ds with
    | nil => simp
    | cons d ds =>
      obtain ⟨hd, hds'⟩ := forall_mem_cons.mp hds
      rw [Nat.mul_succ, Nat.add_comm, Nat.shiftRight_add, Nat.shiftRight_eq_div_pow _ w, Nat.ofDigits_cons,
        Nat.add_mul_div_left _ _ (Nat.two_pow_pos w), Nat.div_eq_of_lt hd, Nat.zero_add, ih hds']
      rfl

theorem digit_eq (hw : 0 < w) : (code >>> (w * i)) &&& (2 ^ w - 1) = (Nat.digits (2 ^ w) code).getD i 0 := by
  rw [mask_eq, Nat.shiftRight_eq_div_pow, Nat.getD_digits _ _ (Nat.one_lt_two_pow hw.ne'), Nat.pow_mul]

end NpuCompiler.PackedDigits
