import Mathlib.Order.Basic
import Mathlib.Data.Nat.Find

namespace NpuCompiler

section
variable {f : ℕ → ℕ} {n : ℕ}

theorem exists_first {p : ℕ} (hn : 0 < n) (hp : p ≤ f (n - 1)) : ∃ i < n, p ≤ f i ∧ ∀ j < i, f j < p := by
  have hexists : ∃ i, p ≤ f i := ⟨n - 1, hp⟩
  refine ⟨Nat.find hexists, ?_, Nat.find_spec hexists, ?_⟩
  · exact Nat.lt_of_le_of_lt (Nat.find_min' hexists hp) (Nat.sub_lt hn Nat.zero_lt_one)
  · intro j hj
    exact Nat.lt_of_not_le (Nat.find_min hexists hj)

theorem levels_covered_iff (hmono : ∀ i j, i ≤ j → j < n → f i ≤ f j) (hn : 0 < n) :
    (∀ p ≤ f (n - 1), ∃ i < n, f i = p) ↔ f 0 = 0 ∧ ∀ i, i + 1 < n → f (i + 1) ≤ f i + 1 := by
  constructor
  · intro hcovered
    constructor
    · obtain ⟨i, hi, hzero⟩ := hcovered 0 (Nat.zero_le _)
      exact Nat.le_zero.mp (hzero ▸ hmono 0 i (Nat.zero_le i) hi)
    · intro i hi
      by_contra hskip
      have hlast : f (i + 1) ≤ f (n - 1) := hmono (i + 1) (n - 1) (Nat.le_sub_one_of_lt hi) (Nat.sub_lt hn Nat.zero_lt_one)
      obtain ⟨j, hj, hlevel⟩ := hcovered (f i + 1) (by omega)
      cases Nat.lt_or_ge i j with
      | inl hlt =>
        have hle := hmono (i + 1) j hlt hj
        omega
      | inr hge =>
        have hle := hmono j i hge (Nat.lt_of_succ_lt hi)
        omega
  · rintro ⟨hzero, hstep⟩ p hp
    obtain ⟨i, hi, hle, hfirst⟩ := exists_first hn hp
    refine ⟨i, hi, ?_⟩
    cases i with
    | zero => omega
    | succ i =>
      have hnext := hstep i hi
      have hbefore := hfirst i (Nat.lt_succ_self i)
      omega

end

end NpuCompiler
