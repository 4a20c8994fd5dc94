import Mathlib.Data.Nat.ModEq
import Mathlib.Data.List.Nodup
import Mathlib.Data.List.Perm.Subperm
import Mathlib.Data.Set.Function

namespace NpuCompiler.BlockRotation

open List

def rotate (R : ℕ) (amount : ℕ → ℕ) (a : ℕ) : ℕ := a / R * R + (a + amount (a / R)) % R

variable {R w a j size : ℕ} {amount amount' : ℕ → ℕ}

theorem rotate_div (hR : 0 < R) : rotate R amount a / R = a / R := by
  unfold rotate
  rw [Nat.mul_comm, Nat.mul_add_div hR, Nat.div_eq_of_lt (Nat.mod_lt _ hR), Nat.add_zero]

theorem rotate_mod : rotate R amount a % R = (a + amount (a / R)) % R := by
  unfold rotate
  rw [Nat.mul_comm, Nat.mul_add_mod, Nat.mod_mod]

theorem rotate_rotate (hR : 0 < R) : rotate R amount' (rotate R amount a) = rotate R (fun b => amount b + amount' b) a := by
  have hmod : (rotate R amount a + amount' (a / R)) % R = (a + (amount (a / R) + amount' (a / R))) % R := by
    rw [Nat.add_mod, rotate_mod, ← Nat.add_mod, Nat.add_assoc]
  change rotate R amount a / R * R + (rotate R amount a + amount' (rotate R amount a / R)) % R = _
  rw [rotate_div hR, hmod]
  rfl

theorem rotate_of_dvd (h : R ∣ amount (a / R)) : rotate R amount a = a := by
  unfold rotate
  rw [Nat.add_mod, Nat.mod_eq_zero_of_dvd h, Nat.add_zero, Nat.mod_mod, Nat.mul_comm, Nat.div_add_mod]

theorem rotate_back (hR : 0 < R) (hle : ∀ b, amount b ≤ R) :
    rotate R (fun b => R - amount b) (rotate R amount a) = a ∧ rotate R amount (rotate R (fun b => R - amount b) a) = a := by
  rw [rotate_rotate hR, rotate_rotate hR]
  constructor
  · apply rotate_of_dvd
    rw [Nat.add_sub_cancel' (hle _)]
  · apply rotate_of_dvd
    rw [Nat.sub_add_cancel (hle _)]

theorem rotate_injective (hR : 0 < R) (hle : ∀ b, amount b ≤ R) : Function.Injective (rotate R amount) := by
  apply Function.LeftInverse.injective (g := rotate R fun b => R - amount b)
  intro a
  exact (rotate_back hR hle).1

theorem rotate_add (hw : w ∣ R) (hamount : w ∣ amount (a / R)) (ha : w ∣ a) (hj : j < w) : rotate R amount (a + j) = rotate R amount a + j := by
  obtain ⟨n, rfl⟩ := hw
  obtain ⟨b, rfl⟩ := ha
  have hpos : 0 < w := by omega
  have hpart (c : ℕ) : (w * c + j) / w = c := by rw [Nat.mul_add_div hpos, Nat.div_eq_of_lt hj, Nat.add_zero]
  have hdiv : (w * b + j) / (w * n) = w * b / (w * n) := by rw [← Nat.div_div_eq_div_mul, ← Nat.div_div_eq_div_mul, hpart,
    Nat.mul_div_cancel_left b hpos]
  obtain ⟨s, hs⟩ := hamount
  have hmod : (w * b + j + w * s) % (w * n) = (w * b + w * s) % (w * n) + j := by
    rw [show w * b + j + w * s = w * (b + s) + j by rw [Nat.mul_add]; omega, show w * b + w * s = w * (b + s) by rw [Nat.mul_add], Nat.mod_mul, hpart,
      Nat.mul_add_mod, Nat.mod_eq_of_lt hj, Nat.mul_mod_mul_left, Nat.add_comm]
  unfold rotate
  rw [hdiv, hs, hmod, Nat.add_assoc]

theorem dvd_rotate (hw : w ∣ R) (hamount : w ∣ amount (a / R)) (ha : w ∣ a) : w ∣ rotate R amount a := by
  unfold rotate
  exact Nat.dvd_add (Dvd.dvd.mul_left hw _) ((Nat.dvd_mod_iff hw).mpr (Nat.dvd_add ha hamount))

theorem rotate_lt (hR : 0 < R) (hsize : R ∣ size) (ha : a < size) : rotate R amount a < size := by
  obtain ⟨n, rfl⟩ := hsize
  have hblock : rotate R amount a / R < n := by
    rw [rotate_div hR]
    exact Nat.div_lt_of_lt_mul ha
  rw [Nat.mul_comm]
  exact Nat.lt_mul_of_div_lt hblock hR

theorem bijOn_rotate (hR : 0 < R) (hle : ∀ b, amount b ≤ R) (hw : w ∣ R) (hamount : ∀ b, w ∣ amount b) (hsize : R ∣ size) :
    Set.BijOn (rotate R amount) {a | w ∣ a ∧ a < size} {a | w ∣ a ∧ a < size} := by
  refine ⟨?_, (rotate_injective hR hle).injOn, ?_⟩
  · rintro a ⟨ha, hlt⟩
    exact ⟨dvd_rotate hw (hamount _) ha, rotate_lt hR hsize hlt⟩
  · rintro a ⟨ha, hlt⟩
    refine ⟨rotate R (fun b => R - amount b) a, ⟨?_, rotate_lt hR hsize hlt⟩, (rotate_back hR hle).2⟩
    exact @dvd_rotate R w a (fun b => R - amount b) hw (Nat.dvd_sub hw (hamount _)) ha

theorem perm_rotate (hR : 0 < R) (hle : ∀ b, amount b ≤ R) (hsize : R ∣ size) :
    ((List.range size).map (rotate R amount)).Perm (List.range size) := by
  have hnodup : ((List.range size).map (rotate R amount)).Nodup := nodup_range.map (rotate_injective hR hle)
  have hsub : (List.range size).map (rotate R amount) ⊆ List.range size := by
    intro b hb
    obtain ⟨a, ha, rfl⟩ := mem_map.mp hb
    exact mem_range.mpr (rotate_lt hR hsize (mem_range.mp ha))
  apply (subperm_of_subset hnodup hsub).perm_of_length_le
  rw [length_map]

end NpuCompiler.BlockRotation
