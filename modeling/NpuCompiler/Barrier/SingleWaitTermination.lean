import Mathlib.Combinatorics.Colex
import NpuCompiler.Barrier.SingleWaitOrder

namespace NpuCompiler.Barrier

open BarrierInfo List SmallSet

section
variable {config : LegalizationConfig} {s : BarrierInfo} {b t : ℕ}

theorem not_mem_unlinkTasksFromBarrier {tasks : TaskSet} (ht : t ∈ tasks) :
    t ∉ (unlinkTasksFromBarrier tasks s b).getBarrierConsumers b := by
  have hremove : ∀ (taskInds : List ℕ) (s : BarrierInfo), t ∈ taskInds ∨ t ∉ s.getBarrierConsumers b →
      t ∉ (taskInds.foldl (fun s taskInd => s.removeConsumer b taskInd) s).getBarrierConsumers b := by
    intro taskInds
    induction taskInds with
    | nil => exact fun s hout => hout.resolve_left not_mem_nil
    | cons u taskInds ih =>
      intro s hout
      apply ih
      by_cases heq : t = u
      · right
        simp [heq]
      · apply hout.imp
        · exact fun hmem => (mem_cons.mp hmem).resolve_left heq
        · simp only [mem_consumers_removeConsumer, not_and]
          exact fun hold _ => hold
  unfold unlinkTasksFromBarrier
  split_ifs
  · simp
  · exact hremove _ s (.inl ht)

theorem mem_consumers_of_unlinkTasksFromBarrier {tasks : TaskSet} {b' : ℕ}
    (ht : t ∈ (unlinkTasksFromBarrier tasks s b').getBarrierConsumers b) : t ∈ s.getBarrierConsumers b := by
  have hremove : ∀ (taskInds : List ℕ) (s : BarrierInfo),
      t ∈ (taskInds.foldl (fun s taskInd => s.removeConsumer b' taskInd) s).getBarrierConsumers b →
      t ∈ s.getBarrierConsumers b := by
    intro taskInds
    induction taskInds with
    | nil => exact fun _ ht => ht
    | cons u taskInds ih =>
      intro s ht
      exact (mem_consumers_removeConsumer.mp (ih _ ht)).2
  unfold unlinkTasksFromBarrier at ht
  split_ifs at ht
  · exact (mem_consumers_resetBarrier.mp ht).2
  · exact hremove _ s ht

theorem mem_consumers_of_unlinked {waitBarriers : List ℕ} {tasks : TaskSet}
    (ht : t ∈ (waitBarriers.foldl (unlinkTasksFromBarrier tasks) s).getBarrierConsumers b) : t ∈ s.getBarrierConsumers b := by
  induction waitBarriers generalizing s with
  | nil => exact ht
  | cons first waitBarriers ih => exact mem_consumers_of_unlinkTasksFromBarrier (ih ht)

theorem not_mem_unlinked {waitBarriers : List ℕ} {tasks : TaskSet} (h : s.Consistent) (hnodup : waitBarriers.Nodup)
    (hsub : ∀ b ∈ waitBarriers, ∀ t ∈ tasks, t ∈ s.getBarrierConsumers b) (hb : b ∈ waitBarriers) (ht : t ∈ tasks) :
    t ∉ (waitBarriers.foldl (unlinkTasksFromBarrier tasks) s).getBarrierConsumers b := by
  induction waitBarriers generalizing s with
  | nil => exact absurd hb not_mem_nil
  | cons first waitBarriers ih =>
    obtain ⟨hfirst, hnodup⟩ := nodup_cons.mp hnodup
    obtain ⟨hsubFirst, hsub⟩ := forall_mem_cons.mp hsub
    have hstep := unlinkTasksFromBarrier_unlinked h hsubFirst
    have hsub' : ∀ b ∈ waitBarriers, ∀ t ∈ tasks, t ∈ (unlinkTasksFromBarrier tasks s first).getBarrierConsumers b := by
      intro b hb t ht
      have hne : b ∉ [first] := fun hmem => hfirst (mem_singleton.mp hmem ▸ hb)
      exact (hstep.consumers b hne t).mpr (hsub b hb t ht)
    rw [foldl_cons]
    cases mem_cons.mp hb with
    | inr hb => exact ih hstep.consistent hnodup hsub' hb
    | inl heq =>
      have hrest := unlink_unlinked hstep.consistent hnodup hsub'
      rw [hrest.consumers b (heq ▸ hfirst), heq]
      exact not_mem_unlinkTasksFromBarrier ht

theorem exists_selectConsumers {waitBarriers : TaskSet} {slots : ℕ} {consumers : List ℕ} (ht : t ∈ consumers)
    (hsame : waitBarriers.beq (s.getWaitBarriers t) = true)
    (hslots : ∀ c ∈ consumers, waitBarriers.beq (s.getWaitBarriers c) = true → (config.taskOp c).numOfSlotsUsed ≤ slots) :
    ∃ c, c ∈ selectConsumers config s waitBarriers slots consumers 0 ∅ := by
  have hkeeps : ∀ (consumers : List ℕ) (slotCount : ℕ) (selected : TaskSet) (c : ℕ), c ∈ selected →
      c ∈ selectConsumers config s waitBarriers slots consumers slotCount selected := by
    intro consumers
    induction consumers with
    | nil => exact fun _ _ _ hc => hc
    | cons consumer consumers ih =>
      intro slotCount selected c hc
      unfold selectConsumers
      dsimp only
      split_ifs
      · exact ih _ _ _ hc
      · exact hc
      · exact ih _ _ _ (mem_insert.mpr (.inr hc))
  induction consumers with
  | nil => exact absurd ht not_mem_nil
  | cons consumer consumers ih =>
    obtain ⟨hslot, hslots⟩ := forall_mem_cons.mp hslots
    unfold selectConsumers
    dsimp only
    by_cases hconsumer : waitBarriers.beq (s.getWaitBarriers consumer) = true
    · rw [if_neg (by simp [hconsumer]), if_neg (by have := hslot hconsumer; omega)]
      exact ⟨consumer, hkeeps _ _ _ _ (mem_insert.mpr (.inl rfl))⟩
    · rw [if_pos (by simpa using hconsumer)]
      apply ih _ hslots
      apply (mem_cons.mp ht).resolve_left
      rintro rfl
      exact hconsumer hsame

end

/-- The last of the rewritten tasks is left with a single wait barrier, and no later task gets a new one. -/
def Decreases (s s' : BarrierInfo) : Prop :=
  ∃ last, 2 ≤ (s.getWaitBarriers last).size ∧ (s'.getWaitBarriers last).size ≤ 1 ∧
    ∀ t, last < t → (s'.getWaitBarriers t).size ≤ (s.getWaitBarriers t).size

theorem Decreases.trans {s s' s'' : BarrierInfo} (h : Decreases s s') (h' : Decreases s' s'') : Decreases s s'' := by
  obtain ⟨last, hbefore, hafter, hlater⟩ := h
  obtain ⟨last', hbefore', hafter', hlater'⟩ := h'
  rcases lt_trichotomy last last' with hlt | rfl | hlt
  · refine ⟨last', Nat.le_trans hbefore' (hlater last' hlt), hafter', ?_⟩
    intro t ht
    exact Nat.le_trans (hlater' t ht) (hlater t (Nat.lt_trans hlt ht))
  · refine ⟨last, hbefore, hafter', ?_⟩
    intro t ht
    exact Nat.le_trans (hlater' t ht) (hlater t ht)
  · refine ⟨last, hbefore, Nat.le_trans (hlater' last hlt) hafter, ?_⟩
    intro t ht
    exact Nat.le_trans (hlater' t (Nat.lt_trans hlt ht)) (hlater t ht)

section
variable {s s' : BarrierInfo}

def parallelTasks (s : BarrierInfo) : Finset ℕ := (getTasksWithParallelWaitBarriers s).toList.toFinset

theorem mem_parallelTasks {t : ℕ} : t ∈ parallelTasks s ↔ t ∈ getTasksWithParallelWaitBarriers s := mem_toFinset

def parallelMeasure (s : BarrierInfo) : ℕ := ∑ t ∈ parallelTasks s, 2 ^ t

theorem parallelMeasure_lt : parallelMeasure s < 2 ^ s.getNumOfTasks := by
  unfold parallelMeasure
  apply Nat.geomSum_lt (Nat.le_refl 2)
  intro t ht
  exact (mem_getTasksWithParallelWaitBarriers.mp (mem_parallelTasks.mp ht)).1

theorem Decreases.parallelMeasure_lt (h : Decreases s s') (hconsistent : s.Consistent)
    (htasks : s'.getNumOfTasks = s.getNumOfTasks) : parallelMeasure s' < parallelMeasure s := by
  obtain ⟨last, hbefore, hafter, hlater⟩ := h
  have hlast : last < s.getNumOfTasks := by
    obtain ⟨b, hb⟩ := exists_mem_of_length_pos (Nat.lt_of_lt_of_le Nat.zero_lt_two hbefore)
    exact (hconsistent.consumer_lt (hconsistent.wait_iff.mp hb)).2
  unfold parallelMeasure
  apply (Finset.geomSum_lt_geomSum_iff_toColex_lt_toColex (Nat.le_refl 2)).mpr
  apply Finset.Colex.toColex_lt_toColex_iff_exists_forall_lt.mpr
  refine ⟨last, ?_, ?_, ?_⟩
  · exact mem_parallelTasks.mpr (mem_getTasksWithParallelWaitBarriers.mpr ⟨hlast, hbefore⟩)
  · intro hmem
    have hmore := (mem_getTasksWithParallelWaitBarriers.mp (mem_parallelTasks.mp hmem)).2
    omega
  · intro t ht hout
    obtain ⟨hlt, hmore⟩ := mem_getTasksWithParallelWaitBarriers.mp (mem_parallelTasks.mp ht)
    rw [htasks] at hlt
    by_contra hge
    apply hout
    apply mem_parallelTasks.mpr
    apply mem_getTasksWithParallelWaitBarriers.mpr ⟨hlt, _⟩
    cases Nat.eq_or_lt_of_le (Nat.le_of_not_lt hge) with
    | inl heq =>
      rw [← heq]
      exact hbefore
    | inr hgt => exact Nat.le_trans hmore (hlater t hgt)

end

section
variable {config : LegalizationConfig} {s s' : BarrierInfo} {b taskInd : ℕ}

theorem exists_eliminateParallelWaitBarriers (h : s.Consistent)
    (hslots : ∀ t < s.getNumOfTasks, (config.taskOp t).numOfSlotsUsed ≤ config.availableSlots)
    (hb : b ∈ s.getWaitBarriers taskInd) : ∃ s', eliminateParallelWaitBarriers config s taskInd = .ok s' := by
  have hmem : ∀ c, c ∈ getBarriersConsumerTasks s (s.getWaitBarriers taskInd) ↔
      ∃ b ∈ (s.getWaitBarriers taskInd).toList, c ∈ s.getBarrierConsumers b := by
    intro c
    unfold getBarriersConsumerTasks
    rw [mem_foldl_union]
    simp
  have hselected : ∃ c, c ∈ selectConsumers config s (s.getWaitBarriers taskInd)
      (availableSlotsForConsumer config s (s.getWaitBarriers taskInd)
        (getBarriersProducerTasks s (s.getWaitBarriers taskInd)) (getBarriersConsumerTasks s (s.getWaitBarriers taskInd)))
      (getBarriersConsumerTasks s (s.getWaitBarriers taskInd)).toList 0 ∅ := by
    apply exists_selectConsumers ((hmem taskInd).mpr ⟨b, hb, h.wait_iff.mp hb⟩)
    · exact beq_iff.mpr (fun _ => Iff.rfl)
    · intro c hc hsame
      unfold availableSlotsForConsumer
      dsimp only
      split_ifs with huneven
      · exact huneven.2.2 c hc hsame
      · obtain ⟨b, -, hconsumer⟩ := (hmem c).mp hc
        exact hslots c (h.consumer_lt hconsumer).2
  obtain ⟨c, hc⟩ := hselected
  unfold eliminateParallelWaitBarriers
  dsimp only
  rw [if_neg]
  · exact ⟨_, rfl⟩
  · intro hempty
    exact toList_eq_nil.mp (length_eq_zero_iff.mp hempty) c hc

theorem eliminateParallelWaitBarriers_decreases (h : s.Consistent) (htopological : s.Topological)
    (hslots : ∀ t < s.getNumOfTasks, (config.taskOp t).numOfSlotsUsed ≤ config.availableSlots)
    (hparallel : 2 ≤ (s.getWaitBarriers taskInd).size) (hresult : eliminateParallelWaitBarriers config s taskInd = .ok s') :
    Decreases s s' := by
  obtain ⟨b, hb⟩ := exists_mem_of_length_pos (Nat.lt_of_lt_of_le Nat.zero_lt_two hparallel)
  obtain ⟨producers, consumers, linked, links, ⟨c, hc⟩, hsame, hat, hreplaces, rfl⟩ :=
    eliminateParallelWaitBarriers_replaces h htopological hslots hb hresult
  obtain ⟨hwait, hsub, hunlinked⟩ := unlinked_of_replaces h hat hreplaces
  have hperm : ∀ c ∈ consumers, (s.getWaitBarriers c).size = (s.getWaitBarriers taskInd).size := by
    intro c hc
    apply List.Perm.length_eq
    apply (perm_ext_iff_of_nodup (toList_nodup _) (toList_nodup _)).mpr
    exact fun b => (hsame c hc b).symm
  obtain ⟨last, hlast⟩ : ∃ last, consumers.toList.max? = some last := by
    cases hmax : consumers.toList.max? with
    | none => exact absurd (max?_eq_none_iff.mp hmax ▸ hc : c ∈ ([] : List ℕ)) not_mem_nil
    | some last => exact ⟨last, rfl⟩
  obtain ⟨hmem, hmax⟩ := max?_eq_some_iff.mp hlast
  refine ⟨last, ?_, ?_, ?_⟩
  · rw [hperm last hmem]
    exact hparallel
  · have hsingle : (((s.getWaitBarriers taskInd).toList.foldl (unlinkTasksFromBarrier consumers) linked).getWaitBarriers
        last).toList ⊆ [s.getNumOfBarrierOps] := by
      intro b hb
      have hconsumer := hunlinked.consistent.wait_iff.mp hb
      rcases hreplaces.newConsumers b last (mem_consumers_of_unlinked hconsumer) with hold | ⟨rfl, -⟩ | hproducer
      · have hwaits : b ∈ s.getWaitBarriers taskInd := (hsame last hmem b).mpr (h.wait_iff.mpr hold)
        exact absurd hconsumer (not_mem_unlinked hreplaces.withLinks.consistent (toList_nodup _) hsub hwaits hmem)
      · exact mem_singleton_self _
      · exact absurd (hat.lt htopological hproducer hmem) (Nat.lt_irrefl _)
    exact (subperm_of_subset (toList_nodup _) hsingle).length_le
  · intro t ht
    apply (subperm_of_subset (toList_nodup _) _).length_le
    intro b hb
    have hconsumer := hunlinked.consistent.wait_iff.mp hb
    rcases hreplaces.newConsumers b t (mem_consumers_of_unlinked hconsumer) with hold | ⟨-, hnew⟩ | hproducer
    · exact h.wait_iff.mpr hold
    · exact absurd (hmax t hnew) (Nat.not_le.mpr ht)
    · exact absurd (hat.lt htopological hproducer hmem) (Nat.lt_asymm ht)

theorem walkTasks_decreases {taskInds : List ℕ} (h : s.Consistent) (htopological : s.Topological)
    (hslots : ∀ t < s.getNumOfTasks, (config.taskOp t).numOfSlotsUsed ≤ config.availableSlots) :
    ∃ s', taskInds.foldlM (fun s taskInd =>
      if (s.getWaitBarriers taskInd).size < 2 then .ok s else eliminateParallelWaitBarriers config s taskInd) s = .ok s' ∧
      (Decreases s s' ∨ (s' = s ∧ ∀ t ∈ taskInds, (s.getWaitBarriers t).size < 2)) := by
  induction taskInds generalizing s with
  | nil => exact ⟨s, rfl, .inr ⟨rfl, fun t ht => absurd ht not_mem_nil⟩⟩
  | cons taskInd taskInds ih =>
    simp only [foldlM_cons]
    by_cases hsize : (s.getWaitBarriers taskInd).size < 2
    · rw [if_pos hsize]
      obtain ⟨s', hwalk, hresult⟩ := ih h htopological hslots
      refine ⟨s', hwalk, hresult.imp_right ?_⟩
      rintro ⟨heq, hnone⟩
      exact ⟨heq, forall_mem_cons.mpr ⟨hsize, hnone⟩⟩
    · rw [if_neg hsize]
      have hparallel := Nat.le_of_not_lt hsize
      obtain ⟨b, hb⟩ := exists_mem_of_length_pos (Nat.lt_of_lt_of_le Nat.zero_lt_two hparallel)
      obtain ⟨next, hnext⟩ := exists_eliminateParallelWaitBarriers h hslots hb
      have hkept := eliminateParallelWaitBarriers_orderKept h htopological hslots hb hnext
      have hdecreases := eliminateParallelWaitBarriers_decreases h htopological hslots hparallel hnext
      obtain ⟨s', hwalk, hresult⟩ := ih hkept.consistent hkept.topological (hkept.numOfTasks.symm ▸ hslots)
      rw [hnext]
      refine ⟨s', hwalk, .inl ?_⟩
      cases hresult with
      | inl hlater => exact hdecreases.trans hlater
      | inr hsame =>
        rw [hsame.1]
        exact hdecreases

theorem ensureTasksDrivenBySingleBarrier_returns {mergeWaitBarriersIteratively : Bool} {fuel : ℕ} (h : s.Consistent)
    (htopological : s.Topological)
    (hslots : ∀ t < s.getNumOfTasks, (config.taskOp t).numOfSlotsUsed ≤ config.availableSlots)
    (hfuel : parallelMeasure s < fuel) :
    ∃ s', ensureTasksDrivenBySingleBarrier config mergeWaitBarriersIteratively fuel s = .ok s' := by
  induction fuel generalizing s with
  | zero => exact absurd hfuel (Nat.not_lt_zero _)
  | succ fuel ih =>
    unfold ensureTasksDrivenBySingleBarrier
    dsimp only
    by_cases hnone : (getTasksWithParallelWaitBarriers s).size = 0
    · rw [if_pos hnone]
      exact ⟨s, rfl⟩
    · rw [if_neg hnone]
      obtain ⟨walked, hwalk, hresult⟩ := @walkTasks_decreases config s (List.range s.getNumOfTasks) h htopological hslots
      have hkept := walkTasks_orderKept h htopological hslots hwalk
      have hdecreases : Decreases s walked := by
        apply hresult.resolve_right
        rintro ⟨-, hall⟩
        obtain ⟨t, ht⟩ := exists_mem_of_length_pos (Nat.pos_of_ne_zero hnone)
        obtain ⟨hlt, hmore⟩ := mem_getTasksWithParallelWaitBarriers.mp ht
        exact absurd (hall t (mem_range.mpr hlt)) (Nat.not_lt.mpr hmore)
      have hmeasure := hdecreases.parallelMeasure_lt h hkept.numOfTasks
      have hdifferent : (getTasksWithParallelWaitBarriers walked).beq (getTasksWithParallelWaitBarriers s) ≠ true := by
        intro hsame
        apply Nat.ne_of_lt hmeasure
        unfold parallelMeasure
        congr 1
        ext t
        rw [mem_parallelTasks, mem_parallelTasks]
        exact beq_iff.mp hsame t
      rw [show walkTasks config s = .ok walked from hwalk]
      simp only [bind, Except.bind, if_neg hdifferent]
      cases mergeWaitBarriersIteratively with
      | false => exact ⟨walked, rfl⟩
      | true =>
        apply ih hkept.consistent hkept.topological (hkept.numOfTasks.symm ▸ hslots)
        exact Nat.lt_of_lt_of_le hmeasure (Nat.le_of_lt_succ hfuel)

/-- The elimination always succeeds, and the loop ends as the set of the tasks with parallel wait barriers, ordered by its
    last tasks, decreases. -/
theorem ensureTasksDrivenBySingleBarrier_terminates (h : s.Consistent) (htopological : s.Topological)
    (hslots : ∀ t < s.getNumOfTasks, (config.taskOp t).numOfSlotsUsed ≤ config.availableSlots) :
    (∀ taskInd, 2 ≤ (s.getWaitBarriers taskInd).size → ∃ s', eliminateParallelWaitBarriers config s taskInd = .ok s') ∧
      ∀ mergeWaitBarriersIteratively fuel, 2 ^ s.getNumOfTasks ≤ fuel →
        ∃ s', ensureTasksDrivenBySingleBarrier config mergeWaitBarriersIteratively fuel s = .ok s' := by
  constructor
  · intro taskInd hparallel
    obtain ⟨b, hb⟩ := exists_mem_of_length_pos (Nat.lt_of_lt_of_le Nat.zero_lt_two hparallel)
    exact exists_eliminateParallelWaitBarriers h hslots hb
  · intro mergeWaitBarriersIteratively fuel hfuel
    exact ensureTasksDrivenBySingleBarrier_returns h htopological hslots (Nat.lt_of_lt_of_le parallelMeasure_lt hfuel)

theorem ensureTasksDrivenBySingleBarrier_terminates_twoWaits :
    ∃ s', ensureTasksDrivenBySingleBarrier twoSlots true 8 twoWaits = .ok s' :=
  (@ensureTasksDrivenBySingleBarrier_terminates twoSlots twoWaits twoWaits_consistent twoWaits_topological
    (fun _ _ => Nat.le_succ 1)).2 true 8 (by decide)

end

end NpuCompiler.Barrier
