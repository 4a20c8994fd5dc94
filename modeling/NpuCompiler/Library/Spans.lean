import Mathlib.Data.List.Pairwise
import Mathlib.Order.Interval.Set.Basic
import Mathlib.Tactic.Common

namespace NpuCompiler.Spans

open List

variable {ι α : Type*} [LinearOrder α] (lo hi : ι → α)

def cover (l : List ι) : Set α := {x | ∃ i ∈ l, lo i ≤ x ∧ x < hi i}

structure Canonical (l : List ι) : Prop where
  proper : ∀ i ∈ l, lo i < hi i
  separated : l.Pairwise (fun i j => hi i < lo j)

variable {lo hi}

@[simp] theorem mem_cover {l : List ι} {x : α} : x ∈ cover lo hi l ↔ ∃ i ∈ l, lo i ≤ x ∧ x < hi i := Iff.rfl

@[simp] theorem cover_nil : cover lo hi [] = ∅ := by ext; simp

theorem cover_cons (i : ι) (l : List ι) : cover lo hi (i :: l) = Set.Ico (lo i) (hi i) ∪ cover lo hi l := by
  ext x; simp

theorem cover_append (l m : List ι) : cover lo hi (l ++ m) = cover lo hi l ∪ cover lo hi m := by
  ext x
  simp only [mem_cover, mem_append, Set.mem_union]
  constructor
  · rintro ⟨i, hi | hi, hx⟩
    · exact .inl ⟨i, hi, hx⟩
    · exact .inr ⟨i, hi, hx⟩
  · rintro (⟨i, hi, hx⟩ | ⟨i, hi, hx⟩)
    · exact ⟨i, .inl hi, hx⟩
    · exact ⟨i, .inr hi, hx⟩

theorem canonical_nil : Canonical lo hi [] := ⟨by simp, List.Pairwise.nil⟩

theorem canonical_cons {i : ι} {l : List ι} :
    Canonical lo hi (i :: l) ↔ lo i < hi i ∧ (∀ j ∈ l, hi i < lo j) ∧ Canonical lo hi l := by
  constructor
  · rintro ⟨hp, hs⟩
    rw [pairwise_cons] at hs
    exact ⟨hp i (by simp), hs.1, fun j hj => hp j (by simp [hj]), hs.2⟩
  · rintro ⟨hi', hj, hp, hs⟩
    refine ⟨?_, pairwise_cons.mpr ⟨hj, hs⟩⟩
    intro j hm
    rcases mem_cons.mp hm with rfl | hm
    · exact hi'
    · exact hp j hm

theorem canonical_append {l m : List ι} :
    Canonical lo hi (l ++ m) ↔
      Canonical lo hi l ∧ Canonical lo hi m ∧ ∀ i ∈ l, ∀ j ∈ m, hi i < lo j := by
  constructor
  · rintro ⟨hp, hs⟩
    rw [pairwise_append] at hs
    exact ⟨⟨fun i h => hp i (by simp [h]), hs.1⟩, ⟨fun i h => hp i (by simp [h]), hs.2.1⟩, hs.2.2⟩
  · rintro ⟨hl, hm, hlm⟩
    refine ⟨?_, pairwise_append.mpr ⟨hl.separated, hm.separated, hlm⟩⟩
    intro i hi'
    rcases mem_append.mp hi' with h | h
    · exact hl.proper i h
    · exact hm.proper i h

section
variable {i : ι} {l : List ι} (h : Canonical lo hi (i :: l))
include h

theorem Canonical.lt_of_mem_tail {x : α}
    (hx : x ∈ cover lo hi l) : hi i < x := by
  obtain ⟨j, hj, hjx, -⟩ := hx
  exact ((canonical_cons.mp h).2.1 j hj).trans_le hjx

theorem Canonical.lo_le {x : α}
    (hx : x ∈ cover lo hi (i :: l)) : lo i ≤ x := by
  rw [cover_cons] at hx
  rcases hx with hx | hx
  · exact hx.1
  · exact (canonical_cons.mp h).1.le.trans (h.lt_of_mem_tail hx).le

theorem Canonical.lo_mem : lo i ∈ cover lo hi (i :: l) := ⟨i, by simp, le_refl _, (canonical_cons.mp h).1⟩

end

theorem Canonical.hi_notMem {l : List ι} (h : Canonical lo hi l) {i : ι} (hi' : i ∈ l) :
    hi i ∉ cover lo hi l := by
  induction l with
  | nil => simp at hi'
  | cons j l ih =>
    obtain ⟨hj, hjl, hl⟩ := canonical_cons.mp h
    rw [cover_cons]
    rintro (hx | hx)
    · rcases mem_cons.mp hi' with rfl | hm
      · exact lt_irrefl _ hx.2
      · exact absurd hx.2 (not_lt.mpr ((hjl i hm).le.trans (hl.proper i hm).le))
    · rcases mem_cons.mp hi' with rfl | hm
      · exact lt_irrefl _ (h.lt_of_mem_tail hx)
      · exact ih hl hm hx

theorem Canonical.head_hi_le {i j : ι} {l m : List ι} (hl : Canonical lo hi (i :: l))
    (hm : Canonical lo hi (j :: m)) (h : cover lo hi (i :: l) = cover lo hi (j :: m))
    (hlo : lo i = lo j) : hi i ≤ hi j := by
  by_contra hlt
  have hx : hi j ∈ cover lo hi (i :: l) :=
    ⟨i, by simp, hlo.le.trans (canonical_cons.mp hm).1.le, not_le.mp hlt⟩
  exact hm.hi_notMem (by simp) (h ▸ hx)

theorem Canonical.eq_of_cover (hext : ∀ i j : ι, lo i = lo j → hi i = hi j → i = j) {l m : List ι}
    (hl : Canonical lo hi l) (hm : Canonical lo hi m) (h : cover lo hi l = cover lo hi m) : l = m := by
  induction l generalizing m with
  | nil =>
    cases m with
    | nil => rfl
    | cons j m => exact absurd (h ▸ hm.lo_mem) (by simp)
  | cons i l ih =>
    cases m with
    | nil => exact absurd (h.symm ▸ hl.lo_mem) (by simp)
    | cons j m =>
      have hlo : lo i = lo j := le_antisymm (hl.lo_le (h.symm ▸ hm.lo_mem)) (hm.lo_le (h ▸ hl.lo_mem))
      have hhi : hi i = hi j :=
        le_antisymm (hl.head_hi_le hm h hlo) (hm.head_hi_le hl h.symm hlo.symm)
      obtain rfl := hext i j hlo hhi
      congr 1
      apply ih (canonical_cons.mp hl).2.2 (canonical_cons.mp hm).2.2
      have side (l m : List ι) (hl : Canonical lo hi (i :: l))
          (h : cover lo hi (i :: l) = cover lo hi (i :: m)) : cover lo hi l ⊆ cover lo hi m := by
        intro x hx
        have hx' : x ∈ cover lo hi (i :: m) := by rw [← h, cover_cons]; exact .inr hx
        rw [cover_cons] at hx'
        exact hx'.resolve_left (fun hc => absurd hc.2 (not_lt.mpr (hl.lt_of_mem_tail hx).le))
      exact (side l m hl h).antisymm (side m l hm h.symm)

theorem Canonical.exists_of_subset {l : List ι} (h : Canonical lo hi l) {a b : α} (hab : a < b)
    (hs : Set.Ico a b ⊆ cover lo hi l) : ∃ i ∈ l, lo i ≤ a ∧ b ≤ hi i := by
  obtain ⟨i, hi', hlo, hhi⟩ := hs (Set.left_mem_Ico.mpr hab)
  refine ⟨i, hi', hlo, ?_⟩
  by_contra hlt
  exact h.hi_notMem hi' (hs ⟨hhi.le, not_le.mp hlt⟩)

end NpuCompiler.Spans
