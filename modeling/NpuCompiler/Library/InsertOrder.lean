import Mathlib.Data.List.Nodup
import Mathlib.Data.List.Range
import Mathlib.Data.List.InsertIdx

namespace NpuCompiler.InsertOrder

open List

variable {α β : Type} {v w : List α} {positions rest : List ℕ} {n i j a b : ℕ} {x : α}

def insertAt (v : List α) (i : ℕ) (x : α) : Option (List α) :=
  if i ≤ v.length then some (v.insertIdx i x) else none

def insertAll (value : ℕ → α) : List ℕ → List α → Option (List α)
  | [], v => some v
  | a :: positions, v => do
    let v ← insertAt v a (value a)
    insertAll value positions v

theorem insertAt_map (f : α → β) : insertAt (v.map f) i (f x) = (insertAt v i x).map (List.map f) := by
  unfold insertAt
  rw [length_map]
  by_cases h : i ≤ v.length
  · rw [if_pos h, if_pos h, Option.map_some, map_insertIdx]
  · rw [if_neg h, if_neg h, Option.map_none]

theorem insertAt_eq_some (h : insertAt v i x = some w) : i ≤ v.length ∧ w = v.insertIdx i x := by
  unfold insertAt at h
  split at h
  · rename_i hi
    exact ⟨hi, (Option.some.inj h).symm⟩
  · cases h

theorem insertAll_cons {value : ℕ → α} (h : insertAll value (a :: rest) v = some w) :
    a ≤ v.length ∧ insertAll value rest (v.insertIdx a (value a)) = some w := by
  obtain ⟨u, hu, h⟩ := Option.bind_eq_some_iff.mp h
  obtain ⟨ha, rfl⟩ := insertAt_eq_some hu
  exact ⟨ha, h⟩

theorem length_insertAll {value : ℕ → α} (h : insertAll value positions v = some w) :
    w.length = v.length + positions.length := by
  induction positions generalizing v with
  | nil =>
    cases h
    rfl
  | cons a rest ih =>
    obtain ⟨ha, h⟩ := insertAll_cons h
    rw [ih h, length_insertIdx_of_le_length ha, length_cons]
    omega

theorem insertAll_moves {value : ℕ → α} (h : insertAll value positions v = some w) (hx : v[i]? = some x) :
    ∃ j, i ≤ j ∧ w[j]? = some x ∧ ((∃ b ∈ positions, b ≤ i) → i < j) := by
  induction positions generalizing v i with
  | nil =>
    cases h
    exact ⟨i, le_refl i, hx, by simp⟩
  | cons a rest ih =>
    obtain ⟨ha, h⟩ := insertAll_cons h
    by_cases hi : a ≤ i
    · have hnext : (v.insertIdx a (value a))[i + 1]? = some x := by
        rw [getElem?_insertIdx_of_gt (by omega)]
        exact hx
      obtain ⟨j, hj, hw, _⟩ := ih h hnext
      exact ⟨j, by omega, hw, fun _ => by omega⟩
    · have hnext : (v.insertIdx a (value a))[i]? = some x := by
        rw [getElem?_insertIdx_of_lt (by omega)]
        exact hx
      obtain ⟨j, hj, hw, hlt⟩ := ih h hnext
      refine ⟨j, hj, hw, ?_⟩
      rintro ⟨b, hb, hbi⟩
      apply hlt
      cases mem_cons.mp hb with
      | inl he => omega
      | inr hb => exact ⟨b, hb, hbi⟩

def others (n : ℕ) (positions : List ℕ) : List ℕ := (List.range n).filter (· ∉ positions)

theorem nodup_others : (others n positions).Nodup := nodup_range.filter _

theorem mem_others : a ∈ others n positions ↔ a < n ∧ a ∉ positions := by
  simp [others]

theorem length_others (hnodup : positions.Nodup) (hlt : ∀ a ∈ positions, a < n) :
    (others n positions).length + positions.length = n := by
  have hperm : (List.range n).filter (· ∈ positions) |>.Perm positions := by
    apply (perm_ext_iff_of_nodup (nodup_range.filter _) hnodup).mpr
    intro a
    simp only [mem_filter, mem_range, decide_eq_true_eq]
    exact ⟨fun h => h.2, fun h => ⟨hlt a h, h⟩⟩
  have hsplit := (filter_append_perm (· ∈ positions) (List.range n)).length_eq
  rw [length_append, hperm.length_eq, length_range] at hsplit
  have hother : (List.range n).filter (fun a => !decide (a ∈ positions)) = others n positions := by
    simp [others]
  rw [hother] at hsplit
  omega

theorem others_eq_append (ha : a < n) (h : ∀ b ∈ positions, a < b) :
    others n positions = List.range a ++ a :: (others n (a :: positions)).drop a ∧
      others n (a :: positions) = List.range a ++ (others n (a :: positions)).drop a := by
  obtain ⟨k, rfl⟩ := Nat.exists_eq_add_of_lt ha
  have hrange : List.range (a + k + 1) = List.range a ++ a :: (List.range k).map (a + 1 + ·) := by
    rw [show a + k + 1 = a + 1 + k by omega, range_add, range_succ, append_assoc]
    rfl
  have hlow : ∀ l : List ℕ, (∀ b ∈ l, a ≤ b) → (List.range a).filter (· ∉ l) = List.range a := by
    intro l hl
    apply filter_eq_self.mpr
    intro b hb
    have hba := mem_range.mp hb
    exact decide_eq_true fun hm => absurd (hl b hm) (by omega)
  have hhigh : ((List.range k).map (a + 1 + ·)).filter (· ∉ a :: positions) =
      ((List.range k).map (a + 1 + ·)).filter (· ∉ positions) := by
    apply filter_congr
    intro b hb
    obtain ⟨c, _, rfl⟩ := mem_map.mp hb
    have hne : a + 1 + c ≠ a := by omega
    simp [hne]
  have hcons : others (a + k + 1) (a :: positions) =
      List.range a ++ ((List.range k).map (a + 1 + ·)).filter (· ∉ positions) := by
    unfold others
    rw [hrange, filter_append, hlow _ (by grind), filter_cons_of_neg (by simp), hhigh]
  have hdrop : (others (a + k + 1) (a :: positions)).drop a =
      ((List.range k).map (a + 1 + ·)).filter (· ∉ positions) := by
    rw [hcons, drop_append_of_le_length (by simp), drop_of_length_le (by simp)]
    rfl
  rw [hdrop]
  refine ⟨?_, hcons⟩
  have hself : a ∉ positions := fun hm => absurd (h a hm) (lt_irrefl a)
  unfold others
  rw [hrange, filter_append, hlow _ (fun b hb => (h b hb).le), filter_cons_of_pos (by simpa using hself)]

theorem insertIdx_append : ∀ (before after : List α), (before ++ after).insertIdx before.length x = before ++ x :: after
  | [], _ => rfl
  | b :: before, after => congrArg (b :: ·) (insertIdx_append before after)

theorem insertAll_ascending (h : positions.Pairwise (· < ·)) (hlt : ∀ a ∈ positions, a < n) :
    insertAll id positions (others n positions) = some (List.range n) := by
  induction positions with
  | nil => simp [insertAll, others]
  | cons a rest ih =>
    obtain ⟨hhead, htail⟩ := pairwise_cons.mp h
    obtain ⟨hrest, hcons⟩ := others_eq_append (hlt a mem_cons_self) hhead
    have hlen : a ≤ (others n (a :: rest)).length := by
      rw [hcons]
      simp
    have hinsert : insertAt (others n (a :: rest)) a a = some (others n rest) := by
      unfold insertAt
      rw [if_pos hlen, hrest]
      congr 1
      conv_lhs => rw [hcons]
      have hput := insertIdx_append (x := a) (List.range a) ((others n (a :: rest)).drop a)
      rwa [length_range] at hput
    rw [insertAll, id, hinsert]
    exact ih htail fun b hb => hlt b (mem_cons_of_mem a hb)

theorem ascending_of_insertAll {v : List ℕ} (hnodup : positions.Nodup) (h : insertAll id positions v = some (List.range n)) :
    positions.Pairwise (· < ·) := by
  induction positions generalizing v with
  | nil => exact List.Pairwise.nil
  | cons a rest ih =>
    obtain ⟨ha, h⟩ := insertAll_cons h
    obtain ⟨hhead, htail⟩ := nodup_cons.mp hnodup
    apply List.Pairwise.cons _ (ih htail h)
    intro b hb
    have hself : (v.insertIdx a (id a))[a]? = some a := by
      rw [getElem?_insertIdx_self, if_pos ha]
      rfl
    obtain ⟨j, _, hj, hmoved⟩ := insertAll_moves h hself
    have hja : j = a := by
      obtain ⟨hlt, he⟩ := List.getElem?_eq_some_iff.mp hj
      simpa using he
    by_contra hab
    have := hmoved ⟨b, hb, by omega⟩
    omega

theorem insertAll_eq_range_iff (hnodup : positions.Nodup) (hlt : ∀ a ∈ positions, a < n) :
    insertAll id positions (others n positions) = some (List.range n) ↔ positions.Pairwise (· < ·) := by
  constructor
  · exact ascending_of_insertAll hnodup
  · exact fun h => insertAll_ascending h hlt

end NpuCompiler.InsertOrder
