import Mathlib.Order.Lattice
import Mathlib.Data.List.Perm.Subperm

namespace NpuCompiler

open List

variable {α : Type} [LinearOrder α] {n : ℕ}

def insertSorted (a : α) (l : List α) : List α := l.filter (· < a) ++ a :: l.filter (a < ·)

theorem mem_insertSorted {a b : α} {l : List α} : b ∈ insertSorted a l ↔ b = a ∨ b ∈ l := by
  unfold insertSorted
  simp only [mem_append, mem_cons, mem_filter, decide_eq_true_eq]
  constructor
  · rintro (⟨h, -⟩ | rfl | ⟨h, -⟩)
    · exact .inr h
    · exact .inl rfl
    · exact .inr h
  · rintro (rfl | h)
    · exact .inr (.inl rfl)
    · cases lt_trichotomy b a with
      | inl hlt => exact .inl ⟨h, hlt⟩
      | inr hge =>
        cases hge with
        | inl heq => exact .inr (.inl heq)
        | inr hgt => exact .inr (.inr ⟨h, hgt⟩)

theorem pairwise_insertSorted {l : List α} (h : l.Pairwise (· < ·)) (a : α) : (insertSorted a l).Pairwise (· < ·) := by
  unfold insertSorted
  rw [pairwise_append, pairwise_cons]
  refine ⟨h.filter _, ⟨?_, h.filter _⟩, ?_⟩
  · intro b hb
    simpa using (mem_filter.mp hb).2
  · intro b hb c hc
    have hba : b < a := by simpa using (mem_filter.mp hb).2
    cases mem_cons.mp hc with
    | inl heq => rwa [heq]
    | inr hc =>
      have hac : a < c := by simpa using (mem_filter.mp hc).2
      exact lt_trans hba hac

theorem length_insertSorted_le {a : α} {l : List α} (h : l.Pairwise (· < ·)) : (insertSorted a l).length ≤ l.length + 1 := by
  have hsub : insertSorted a l ⊆ a :: l := by
    intro b hb
    exact mem_cons.mpr (mem_insertSorted.mp hb)
  have hnodup : (insertSorted a l).Nodup := (pairwise_insertSorted h a).imp ne_of_lt
  exact (subperm_of_subset hnodup hsub).length_le

def sortedOf (l : List α) : List α := l.foldr insertSorted []

theorem mem_sortedOf {a : α} {l : List α} : a ∈ sortedOf l ↔ a ∈ l := by
  unfold sortedOf
  induction l with
  | nil => rfl
  | cons b l ih => rw [foldr_cons, mem_insertSorted, ih, mem_cons]

theorem pairwise_sortedOf (l : List α) : (sortedOf l).Pairwise (· < ·) := by
  unfold sortedOf
  induction l with
  | nil => exact .nil
  | cons b l ih => exact pairwise_insertSorted ih b

/-- A set of up to `n` values in the order of their insertion, and in increasing order once it has grown larger. -/
structure SmallSet (α : Type) [LinearOrder α] (n : ℕ) where
  vector : List α
  set : List α
  vector_nodup : vector.Nodup
  vector_length : vector.length ≤ n
  set_sorted : set.Pairwise (· < ·)
  /-- The vector is not used while there is a `set`. -/
  vector_empty : set ≠ [] → vector = []
  deriving DecidableEq

namespace SmallSet

def toList (s : SmallSet α n) : List α := s.vector ++ s.set

instance : Membership α (SmallSet α n) := ⟨fun s a => a ∈ s.toList⟩

instance (a : α) (s : SmallSet α n) : Decidable (a ∈ s) := inferInstanceAs (Decidable (a ∈ s.toList))

def empty : SmallSet α n := ⟨[], [], .nil, Nat.zero_le n, .nil, fun _ => rfl⟩

instance : EmptyCollection (SmallSet α n) := ⟨empty⟩

instance : Inhabited (SmallSet α n) := ⟨empty⟩

def size (s : SmallSet α n) : ℕ := s.toList.length

def insert (s : SmallSet α n) (a : α) : SmallSet α n :=
  if hset : s.set = [] then
    if hmem : a ∈ s.vector then s
    else if hlen : s.vector.length < n then
      { s with
        vector := s.vector ++ [a]
        vector_nodup := by simpa [List.nodup_append] using ⟨s.vector_nodup, fun b hb => ne_of_mem_of_not_mem hb hmem⟩
        vector_length := by rw [List.length_append, List.length_singleton]; exact hlen
        vector_empty := fun h => absurd hset h }
    else ⟨[], insertSorted a (sortedOf s.vector), .nil, Nat.zero_le n, pairwise_insertSorted (pairwise_sortedOf _) a,
      fun _ => rfl⟩
  else
    { s with
      set := insertSorted a s.set
      set_sorted := pairwise_insertSorted s.set_sorted a
      vector_empty := fun _ => s.vector_empty hset }

def erase (s : SmallSet α n) (a : α) : SmallSet α n where
  vector := s.vector.erase a
  set := s.set.erase a
  vector_nodup := s.vector_nodup.erase a
  vector_length := Nat.le_trans List.length_erase_le s.vector_length
  set_sorted := s.set_sorted.sublist List.erase_sublist
  vector_empty := by
    intro h
    rw [s.vector_empty (fun hset => h (by rw [hset]; rfl))]
    rfl

def union (s t : SmallSet α n) : SmallSet α n := t.toList.foldl insert s

def ofList (l : List α) : SmallSet α n := l.foldl insert ∅

def beq (s t : SmallSet α n) : Bool := s.size == t.size && s.toList.all (fun a => a ∈ t)

variable {s t : SmallSet α n} {a b : α}

theorem mem_iff : a ∈ s ↔ a ∈ s.toList := Iff.rfl

@[simp] theorem not_mem_empty : ¬ a ∈ (∅ : SmallSet α n) := not_mem_nil

theorem toList_nodup (s : SmallSet α n) : s.toList.Nodup := by
  unfold toList
  by_cases hset : s.set = []
  · rw [hset, append_nil]
    exact s.vector_nodup
  · rw [s.vector_empty hset, nil_append]
    exact s.set_sorted.imp ne_of_lt

@[simp] theorem mem_insert : b ∈ s.insert a ↔ b = a ∨ b ∈ s := by
  rw [mem_iff, mem_iff]
  unfold insert toList
  by_cases hset : s.set = []
  · rw [dif_pos hset]
    split_ifs with hmem hlen
    · constructor
      · exact .inr
      · rintro (rfl | h)
        · exact mem_append_left _ hmem
        · exact h
    · simp only [hset, append_nil, mem_append, mem_singleton]
      exact or_comm
    · rw [nil_append, mem_insertSorted, mem_sortedOf, hset, append_nil]
  · rw [dif_neg hset]
    simp only [s.vector_empty hset, nil_append, mem_insertSorted]

@[simp] theorem mem_erase : b ∈ s.erase a ↔ b ≠ a ∧ b ∈ s := by
  rw [mem_iff, mem_iff]
  unfold erase toList
  have hset : s.set.Nodup := s.set_sorted.imp ne_of_lt
  rw [mem_append, mem_append, s.vector_nodup.mem_erase_iff, hset.mem_erase_iff, and_or_left]

theorem mem_foldl_insert {l : List α} : b ∈ l.foldl insert s ↔ b ∈ s ∨ b ∈ l := by
  induction l generalizing s with
  | nil => simp
  | cons a l ih =>
    rw [foldl_cons, ih, mem_insert, mem_cons, or_comm (a := b = a), or_assoc]

@[simp] theorem mem_union : b ∈ s.union t ↔ b ∈ s ∨ b ∈ t := mem_foldl_insert

@[simp] theorem mem_ofList {l : List α} : b ∈ (ofList l : SmallSet α n) ↔ b ∈ l := by
  unfold ofList
  rw [mem_foldl_insert]
  simp

theorem beq_iff : s.beq t = true ↔ ∀ a, a ∈ s ↔ a ∈ t := by
  unfold beq size
  rw [Bool.and_eq_true, beq_iff_eq, all_eq_true]
  constructor
  · rintro ⟨hsize, hsub⟩ a
    have hsubset : s.toList ⊆ t.toList := fun b hb => of_decide_eq_true (hsub b hb)
    have hperm := (subperm_of_subset s.toList_nodup hsubset).perm_of_length_le (Nat.le_of_eq hsize.symm)
    exact hperm.mem_iff
  · intro h
    have hperm : s.toList.Perm t.toList := (perm_ext_iff_of_nodup s.toList_nodup t.toList_nodup).mpr h
    exact ⟨hperm.length_eq, fun a ha => decide_eq_true ((h a).mp ha)⟩

theorem toList_eq_nil : s.toList = [] ↔ ∀ a, ¬ a ∈ s := eq_nil_iff_forall_not_mem

theorem size_eq_zero : s.size = 0 ↔ ∀ a, ¬ a ∈ s := length_eq_zero_iff.trans toList_eq_nil

end SmallSet

end NpuCompiler
