import Mathlib.Algebra.Order.Ring.Nat
import Mathlib.Data.List.Basic

namespace NpuCompiler.Placement

open List

variable {ι : Type*} (position : ι → ℕ → ℕ) (size : ι → ℕ)

def endOf (start : ℕ) (l : List ι) : ℕ := l.foldl (fun free i => position i free + size i) start

def place (start : ℕ) : List ι → List ℕ
  | [] => []
  | i :: l => position i start :: place (position i start + size i) l

variable {position size} {start : ℕ} {l m : List ι} {i j : ι} {n k : ℕ}

@[simp] theorem endOf_nil : endOf position size start [] = start := rfl

@[simp] theorem place_nil : place position size start [] = [] := rfl

theorem endOf_append : endOf position size start (l ++ m) = endOf position size (endOf position size start l) m := by
  unfold endOf
  exact foldl_append

theorem endOf_concat : endOf position size start (l ++ [i]) = position i (endOf position size start l) + size i := by
  rw [endOf_append]
  rfl

theorem place_append :
    place position size start (l ++ m) = place position size start l ++ place position size (endOf position size start l) m := by
  induction l generalizing start with
  | nil => rfl
  | cons i l ih =>
    rw [cons_append, place, ih]
    rfl

theorem place_concat :
    place position size start (l ++ [i]) = place position size start l ++ [position i (endOf position size start l)] := by
  rw [place_append]
  rfl

@[simp] theorem length_place : (place position size start l).length = l.length := by
  induction l generalizing start with
  | nil => rfl
  | cons i l ih => rw [place, length_cons, ih, length_cons]

theorem getElem?_place (h : l[n]? = some i) :
    (place position size start l)[n]? = some (position i (endOf position size start (l.take n))) := by
  induction l generalizing start n with
  | nil => simp at h
  | cons j l ih =>
    cases n with
    | zero =>
      rw [getElem?_cons_zero, Option.some_inj] at h
      rw [h]
      rfl
    | succ n =>
      rw [getElem?_cons_succ] at h
      exact ih h

theorem endOf_take_succ (h : l[n]? = some i) :
    position i (endOf position size start (l.take n)) + size i = endOf position size start (l.take (n + 1)) := by
  rw [take_add_one, h]
  exact endOf_concat.symm

section
variable (hpos : ∀ i free, free ≤ position i free)

include hpos

theorem le_endOf : start ≤ endOf position size start l := by
  induction l generalizing start with
  | nil => exact le_refl _
  | cons i l ih => exact (hpos i start).trans ((Nat.le_add_right _ _).trans ih)

theorem endOf_mono (h : l <+: m) : endOf position size start l ≤ endOf position size start m := by
  obtain ⟨t, rfl⟩ := h
  rw [endOf_append]
  exact le_endOf hpos

theorem end_le_endOf (hn : l[n]? = some i) :
    position i (endOf position size start (l.take n)) + size i ≤ endOf position size start l := by
  rw [endOf_take_succ hn]
  exact endOf_mono hpos (List.take_prefix _ _)

theorem bounds_of_mem_place {p : ℕ} (h : p ∈ place position size start l) : start ≤ p ∧ p ≤ endOf position size start l := by
  induction l generalizing start with
  | nil => exact absurd h not_mem_nil
  | cons i l ih =>
    have hend : position i start + size i ≤ endOf position size start (i :: l) := le_endOf hpos
    cases mem_cons.mp h with
    | inl heq =>
      rw [heq]
      exact ⟨hpos i start, (Nat.le_add_right _ _).trans hend⟩
    | inr h =>
      obtain ⟨hstart, hp⟩ := ih h
      exact ⟨(hpos i start).trans ((Nat.le_add_right _ _).trans hstart), hp⟩

theorem pairwise_place : (place position size start l).Pairwise (· ≤ ·) := by
  induction l generalizing start with
  | nil => exact Pairwise.nil
  | cons i l ih =>
    refine pairwise_cons.mpr ⟨?_, ih⟩
    intro p hp
    exact (Nat.le_add_right _ _).trans (bounds_of_mem_place hpos hp).1

end

end NpuCompiler.Placement
