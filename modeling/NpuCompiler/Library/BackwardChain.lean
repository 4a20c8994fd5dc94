import Mathlib.Data.List.GetD

namespace NpuCompiler.BackwardChain

open List

variable {α β : Type*}

def buildBack (first : ℕ → α) (step : ℕ → α → β → α) : ℕ → List β → List α
  | _, [] => []
  | k, [_] => [first k]
  | k, _ :: b :: rest =>
    match buildBack first step (k + 1) (b :: rest) with
    | [] => []
    | a :: built => step k a b :: a :: built

section
variable {first : ℕ → α} {step : ℕ → α → β → α} {items : List β} {b : β} {k i : ℕ}

@[simp] theorem length_buildBack : (buildBack first step k items).length = items.length := by
  induction items generalizing k with
  | nil => rfl
  | cons item items ih =>
    cases items with
    | nil => rfl
    | cons b items =>
      have hlen := @ih (k + 1)
      rw [buildBack]
      split
      · next hbuilt => simp [hbuilt] at hlen
      · next a built hbuilt =>
        rw [hbuilt] at hlen
        exact congrArg (· + 1) hlen

theorem buildBack_cons_cons {item : β} (d : α) :
    buildBack first step k (item :: b :: items) =
      step k ((buildBack first step (k + 1) (b :: items)).getD 0 d) b :: buildBack first step (k + 1) (b :: items) := by
  have hlen := @length_buildBack α β first step (b :: items) (k + 1)
  rw [buildBack]
  split
  · next hbuilt => simp [hbuilt] at hlen
  · next a built hbuilt => rw [hbuilt, getD_cons_zero]

theorem getD_buildBack_last (d : α) (hi : i + 1 = items.length) : (buildBack first step k items).getD i d = first (k + i) := by
  induction items generalizing k i with
  | nil => simp at hi
  | cons item items ih =>
    cases items with
    | nil =>
      have hzero : i = 0 := by simpa using hi
      rw [hzero]
      rfl
    | cons b items =>
      obtain ⟨j, rfl⟩ : ∃ j, i = j + 1 := ⟨i - 1, by simp at hi; omega⟩
      rw [buildBack_cons_cons d, getD_cons_succ, ih (by simpa using hi), Nat.add_assoc, Nat.add_comm 1 j]

theorem getD_buildBack (d : α) (e : β) (hi : i + 1 < items.length) :
    (buildBack first step k items).getD i d =
      step (k + i) ((buildBack first step k items).getD (i + 1) d) (items.getD (i + 1) e) := by
  induction items generalizing k i with
  | nil => simp at hi
  | cons item items ih =>
    cases items with
    | nil => simp at hi
    | cons b items =>
      rw [buildBack_cons_cons d]
      cases i with
      | zero => rfl
      | succ j =>
        rw [getD_cons_succ, getD_cons_succ, getD_cons_succ, ih (by simpa using hi), Nat.add_assoc,
          Nat.add_comm 1 j]

end

end NpuCompiler.BackwardChain
