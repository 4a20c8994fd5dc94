import Mathlib.Data.List.Sort
import NpuCompiler.Library.AlignedRuns

namespace NpuCompiler.Memory

open AlignedRuns List

def offsetDelta (buff offsetAlignment : ℤ) : ℤ :=
  if buff.tmod offsetAlignment = 0 then 0 else offsetAlignment - buff.tmod offsetAlignment

def nextStart (offset offsetAlignment : ℤ) : ℤ :=
  if offset.tmod offsetAlignment ≠ 0 then offset + (offsetAlignment - offset.tmod offsetAlignment) else offset

def requiredSize (buffSize sizeAlignment : ℤ) : ℤ :=
  if buffSize.tmod sizeAlignment = 0 then buffSize else (buffSize.tdiv sizeAlignment + 1) * sizeAlignment

/-- A failed check is `none`; `sort` is the library's sort by the second component, from the largest to the smallest. -/
def calculateAlignedBuffersMemoryRequirement (sort : List (ℤ × ℤ) → List (ℤ × ℤ)) (bufferSizes : List ℤ)
    (offsetAlignment sizeAlignment : ℤ) : Option ℤ :=
  if ¬0 < offsetAlignment then none
  else if ¬0 < sizeAlignment then none
  else if ∃ buffSize ∈ bufferSizes, ¬0 < buffSize then none
  else if offsetAlignment = 1 ∧ sizeAlignment = 1 then some bufferSizes.sum
  else
    let buffersAlignments := sort (bufferSizes.map fun buff => (buff, offsetDelta buff offsetAlignment))
    let bufferSizesSorted := buffersAlignments.map Prod.fst
    some (bufferSizesSorted.foldl
      (fun offset buffSize => nextStart offset offsetAlignment + requiredSize buffSize sizeAlignment) 0)

variable {bufferSizes order : List ℤ} {offsetAlignment sizeAlignment x : ℤ}

theorem offsetDelta_eq (ha : 0 < offsetAlignment) (hx : 0 ≤ x) : offsetDelta x offsetAlignment = padding offsetAlignment x := by
  have habs : (offsetAlignment.natAbs : ℤ) = offsetAlignment := Int.natAbs_of_nonneg ha.le
  rw [offsetDelta, padding, Int.tmod_eq_emod_of_nonneg hx, Int.neg_emod, habs]
  by_cases h : x % offsetAlignment = 0
  · rw [if_pos h, if_pos (Int.dvd_of_emod_eq_zero h)]
  · rw [if_neg h, if_neg fun hd => h (Int.emod_eq_zero_of_dvd hd)]

theorem nextStart_eq (ha : 0 < offsetAlignment) (hx : 0 ≤ x) : nextStart x offsetAlignment = alignUp offsetAlignment x := by
  rw [alignUp, ← offsetDelta_eq ha hx, nextStart, offsetDelta]
  by_cases h : x.tmod offsetAlignment = 0
  · rw [if_neg (not_not.mpr h), if_pos h, add_zero]
  · rw [if_pos h, if_neg h]

theorem requiredSize_eq (ha : 0 < sizeAlignment) (hx : 0 ≤ x) : requiredSize x sizeAlignment = alignUp sizeAlignment x := by
  rw [alignUp, ← offsetDelta_eq ha hx, requiredSize, offsetDelta]
  by_cases h : x.tmod sizeAlignment = 0
  · rw [if_pos h, if_pos h, add_zero]
  · rw [if_neg h, if_neg h, Int.add_mul, one_mul]
    linarith [Int.mul_tdiv_add_tmod x sizeAlignment]

theorem foldl_allocate (ha : 0 < offsetAlignment) (hs : 0 < sizeAlignment) (hpos : ∀ buff ∈ order, 0 < buff) (hx : 0 ≤ x) :
    order.foldl (fun offset buffSize => nextStart offset offsetAlignment + requiredSize buffSize sizeAlignment) x =
      endOf offsetAlignment x (order.map (alignUp sizeAlignment)) := by
  induction order generalizing x with
  | nil => rfl
  | cons buff order ih =>
    have hb := hpos buff mem_cons_self
    have hstart := le_alignUp (x := x) ha
    have hsize := le_alignUp (x := buff) hs
    rw [foldl_cons, nextStart_eq ha hx, requiredSize_eq hs hb.le, map_cons, endOf]
    exact ih (fun b hm => hpos b (mem_cons_of_mem buff hm)) (by omega)

def SortsByOffset (sort : List (ℤ × ℤ) → List (ℤ × ℤ)) : Prop :=
  ∀ l, (sort l).Perm l ∧ (sort l).Pairwise fun a b => b.2 ≤ a.2

def sortByOffset (l : List (ℤ × ℤ)) : List (ℤ × ℤ) := l.insertionSort fun a b => b.2 ≤ a.2

theorem sortsByOffset_sortByOffset : SortsByOffset sortByOffset := by
  have htotal : Std.Total (fun a b : ℤ × ℤ => b.2 ≤ a.2) := ⟨fun a b => le_total b.2 a.2⟩
  have htrans : IsTrans (ℤ × ℤ) (fun a b : ℤ × ℤ => b.2 ≤ a.2) := ⟨fun a b c hab hbc => le_trans hbc hab⟩
  intro l
  exact ⟨perm_insertionSort _ l, pairwise_insertionSort _ l⟩

variable {sort : List (ℤ × ℤ) → List (ℤ × ℤ)}

theorem exists_sorted (hsort : SortsByOffset sort) (bufferSizes : List ℤ) (offsetAlignment : ℤ) : ∃ order : List ℤ,
    order = (sort (bufferSizes.map fun buff => (buff, offsetDelta buff offsetAlignment))).map Prod.fst ∧
    order.Perm bufferSizes ∧
    order.Pairwise fun a b => offsetDelta b offsetAlignment ≤ offsetDelta a offsetAlignment := by
  obtain ⟨hperm, hsorted⟩ := hsort (bufferSizes.map fun buff => (buff, offsetDelta buff offsetAlignment))
  refine ⟨_, rfl, ?_, ?_⟩
  · have hfst := hperm.map Prod.fst
    rwa [map_map, show Prod.fst ∘ (fun buff => (buff, offsetDelta buff offsetAlignment)) = id from rfl,
      map_id] at hfst
  · apply pairwise_map.mpr
    apply hsorted.imp_of_mem
    intro p q hp hq hle
    obtain ⟨a, _, rfl⟩ := mem_map.mp (hperm.mem_iff.mp hp)
    obtain ⟨b, _, rfl⟩ := mem_map.mp (hperm.mem_iff.mp hq)
    exact hle

theorem padding_last_le (ha : 0 < offsetAlignment) (hpos : ∀ buff ∈ order, 0 < buff)
    (hsorted : order.Pairwise fun a b => offsetDelta b offsetAlignment ≤ offsetDelta a offsetAlignment) (hne : order ≠ []) :
    ∀ buff ∈ order, padding offsetAlignment (order.getLast hne) ≤ padding offsetAlignment buff := by
  intro buff hb
  rw [← offsetDelta_eq ha (hpos _ hb).le, ← offsetDelta_eq ha (hpos _ (getLast_mem hne)).le]
  rw [← dropLast_append_getLast hne] at hsorted hb
  rcases mem_append.mp hb with hb | hb
  · exact (pairwise_append.mp hsorted).2.2 buff hb _ (mem_singleton.mpr rfl)
  · rw [mem_singleton.mp hb]

theorem sum_eq_endOf_one (start : ℤ) : endOf 1 start (order.map (alignUp 1)) = start + order.sum := by
  induction order generalizing start with
  | nil => simp [endOf]
  | cons buff order ih =>
    rw [map_cons, endOf, ih, alignUp_of_dvd (one_dvd _), alignUp_of_dvd (one_dvd _), sum_cons, add_assoc]

/-- The buffers are placed from the largest to the smallest padding of their own sizes. That is the smallest of all orders
exactly when the last one leaves the largest padding once its size is rounded up, and it is the largest of all orders
whenever one alignment divides the other. -/
theorem calculateAlignedBuffersMemoryRequirement_spec (hsort : SortsByOffset sort) (ha : 0 < offsetAlignment)
    (hs : 0 < sizeAlignment) (hpos : ∀ buff ∈ bufferSizes, 0 < buff) : ∃ order : List ℤ, order.Perm bufferSizes ∧
      order.Pairwise (fun a b => offsetDelta b offsetAlignment ≤ offsetDelta a offsetAlignment) ∧
      calculateAlignedBuffersMemoryRequirement sort bufferSizes offsetAlignment sizeAlignment =
        some (endOf offsetAlignment 0 (order.map (alignUp sizeAlignment))) ∧
      (IsLeast {stop | ∃ other : List ℤ, other.Perm bufferSizes ∧
          Placed offsetAlignment 0 (other.map (alignUp sizeAlignment)) stop}
          (endOf offsetAlignment 0 (order.map (alignUp sizeAlignment))) ↔
        ∀ last ∈ order.getLast?, ∀ buff ∈ bufferSizes, padding offsetAlignment (alignUp sizeAlignment buff) ≤
          padding offsetAlignment (alignUp sizeAlignment last)) ∧
      ((sizeAlignment ∣ offsetAlignment ∨ offsetAlignment ∣ sizeAlignment) → ∀ other : List ℤ, other.Perm bufferSizes →
        endOf offsetAlignment 0 (other.map (alignUp sizeAlignment)) ≤
          endOf offsetAlignment 0 (order.map (alignUp sizeAlignment))) := by
  obtain ⟨order, horder, hperm, hsorted⟩ := exists_sorted hsort bufferSizes offsetAlignment
  have hposOrder : ∀ buff ∈ order, 0 < buff := fun buff hb => hpos buff (hperm.mem_iff.mp hb)
  refine ⟨order, hperm, hsorted, ?_, ?_, ?_⟩
  · unfold calculateAlignedBuffersMemoryRequirement
    rw [if_neg (not_not.mpr ha), if_neg (not_not.mpr hs), if_neg (by simpa using hpos)]
    by_cases hone : offsetAlignment = 1 ∧ sizeAlignment = 1
    · rw [if_pos hone, hone.1, hone.2, sum_eq_endOf_one, zero_add, hperm.sum_eq]
    · rw [if_neg hone, ← foldl_allocate ha hs hposOrder (le_refl 0), horder]
  · by_cases hne : order = []
    · subst hne
      rw [nil_perm.mp hperm]
      refine ⟨fun _ => by simp, fun _ => ⟨⟨[], List.Perm.refl _, rfl⟩, ?_⟩⟩
      rintro stop ⟨other, hother, hplaced⟩
      rw [perm_nil.mp hother] at hplaced
      exact le_of_eq hplaced
    · have hiff := @isLeast_endOf_iff offsetAlignment 0 _ (alignUp sizeAlignment) _ ha hne
      rw [getLast?_eq_some_getLast hne]
      simp only [hperm.mem_iff, Option.mem_def, Option.some.injEq, forall_eq'] at hiff ⊢
      rw [← hiff]
      have hset : ∀ other : List ℤ, other.Perm order ↔ other.Perm bufferSizes :=
        fun other => ⟨fun h => h.trans hperm, fun h => h.trans hperm.symm⟩
      simp only [hset]
  · intro hd other hother
    by_cases hne : order = []
    · subst hne
      rw [perm_nil.mp (hother.trans hperm.symm)]
    · apply endOf_le_of_padding_last (hother.trans hperm.symm) hne
      intro buff hb
      apply padding_alignUp_mono ha hs hd
      exact padding_last_le ha hposOrder hsorted hne buff hb

theorem calculateAlignedBuffersMemoryRequirement_spec_twoBuffers : ∃ order : List ℤ, order.Perm [40, 1000] ∧
    calculateAlignedBuffersMemoryRequirement sortByOffset [40, 1000] 64 16 =
      some (endOf 64 0 (order.map (alignUp 16))) := by
  obtain ⟨order, hperm, _, hreq, _⟩ := @calculateAlignedBuffersMemoryRequirement_spec [40, 1000] 64 16 sortByOffset
    sortsByOffset_sortByOffset (by decide) (by decide) (by decide)
  exact ⟨order, hperm, hreq⟩

/-- The buffer of one byte is placed first and filled up to 64; placed last it needs no more than its byte. -/
theorem calculateAlignedBuffersMemoryRequirement_notLeast :
    calculateAlignedBuffersMemoryRequirement sortByOffset [1, 64] 64 1 = some 128 ∧
      Placed 64 0 ([64, 1].map (alignUp 1)) 65 ∧
      ¬∀ (sort : List (ℤ × ℤ) → List (ℤ × ℤ)) (bufferSizes : List ℤ) (offsetAlignment sizeAlignment : ℤ),
        SortsByOffset sort → 0 < offsetAlignment → 0 < sizeAlignment → (∀ buff ∈ bufferSizes, 0 < buff) →
        ∃ requirement, calculateAlignedBuffersMemoryRequirement sort bufferSizes offsetAlignment sizeAlignment =
            some requirement ∧
          IsLeast {stop | ∃ other : List ℤ, other.Perm bufferSizes ∧
            Placed offsetAlignment 0 (other.map (alignUp sizeAlignment)) stop} requirement := by
  have hreq : calculateAlignedBuffersMemoryRequirement sortByOffset [1, 64] 64 1 = some 128 := by decide
  have hplaced : Placed 64 0 ([64, 1].map (alignUp 1)) 65 :=
    ⟨0, by decide, by decide, 64, by decide, by decide, rfl⟩
  refine ⟨hreq, hplaced, ?_⟩
  intro hall
  obtain ⟨requirement, hrun, _, hleast⟩ :=
    hall sortByOffset [1, 64] 64 1 sortsByOffset_sortByOffset (by decide) (by decide) (by decide)
  rw [hreq] at hrun
  cases hrun
  have hle := hleast ⟨[64, 1], List.Perm.swap _ _ _, hplaced⟩
  omega

end NpuCompiler.Memory
