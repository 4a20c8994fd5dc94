import NpuCompiler.Barrier.SplitRuns
import NpuCompiler.Barrier.VariantSplit

namespace NpuCompiler.Barrier

open BarrierInfo List SmallSet

section
variable (config : LegalizationConfig)

def chainBatches : BarrierInfo → TaskSet → List TaskSet → BarrierInfo
  | s, _, [] => s
  | s, prevBatch, batch :: batches =>
    chainBatches (if prevBatch.size = 0 then s else addBarrier s prevBatch batch) batch batches

def barrierTasks (waitBarriers : Bool) (s : BarrierInfo) (barrierIdn : ℕ) : TaskSet :=
  if waitBarriers then s.getBarrierConsumers barrierIdn else s.getBarrierProducers barrierIdn

def taskBarriers (waitBarriers : Bool) (s : BarrierInfo) (taskInd : ℕ) : TaskSet :=
  if waitBarriers then s.getWaitBarriers taskInd else s.getUpdateBarriers taskInd

def linkTasksToBarrier (tasksToAdd : TaskSet) (waitBarriers : Bool) (s : BarrierInfo) (barrierIdn : ℕ) : BarrierInfo :=
  let batches := variantBatches config ((barrierTasks waitBarriers s barrierIdn).union tasksToAdd)
  if batches.length > 1 then
    let chained := if waitBarriers then chainBatches s (s.getBarrierProducers barrierIdn) batches
      else chainBatches s ∅ (batches ++ [s.getBarrierConsumers barrierIdn])
    chained.resetBarrier barrierIdn
  else if waitBarriers then s.addConsumers barrierIdn tasksToAdd.toList
  else s.addProducers barrierIdn tasksToAdd.toList

def linkTasksToBarriers (s : BarrierInfo) (tasksToAdd newBarriers : TaskSet) (waitBarriers : Bool) : BarrierInfo :=
  newBarriers.toList.foldl (linkTasksToBarrier config tasksToAdd waitBarriers) s

def shareBarriers (waitBarriers : Bool) (state : BarrierInfo × TaskSet) (taskInd : ℕ) : BarrierInfo × TaskSet :=
  let (s, tasksNoBarrier) := state
  let barriers := taskBarriers waitBarriers s taskInd
  if barriers.size = 0 then (s, tasksNoBarrier.insert taskInd)
  else if tasksNoBarrier.size ≠ 0 then (linkTasksToBarriers config s tasksNoBarrier barriers waitBarriers, ∅)
  else state

def shareUpdateBarriers : BarrierInfo × TaskSet → ℕ → BarrierInfo × TaskSet := shareBarriers config false

def shareWaitBarriers : BarrierInfo × TaskSet → ℕ → BarrierInfo × TaskSet := shareBarriers config true

def shareQueue (s : BarrierInfo) (dmaQueue : List ℕ) : BarrierInfo :=
  let updated := (dmaQueue.foldl (shareUpdateBarriers config) (s, ∅)).1
  (dmaQueue.reverse.foldl (shareWaitBarriers config) (updated, ∅)).1

def shareWaitAndUpdateBarriers (taskQueueTypeMap : List (TaskQueueType × List ℕ)) (s : BarrierInfo) :
    Except String BarrierInfo :=
  if taskQueueTypeMap = [] then .error "TaskQueueTypeMap has not been created"
  else .ok (taskQueueTypeMap.foldl (fun s entry => shareQueue config s entry.2) s)

end

def ChainLinks : TaskSet → List TaskSet → ℕ → ℕ → Prop
  | _, [], _, _ => False
  | prevBatch, batch :: batches, p, c => (p ∈ prevBatch ∧ c ∈ batch) ∨ ChainLinks batch batches p c

section
variable {s : BarrierInfo} {prevBatch last : TaskSet} {batches : List TaskSet} {p c t b : ℕ}

theorem ChainLinks.lt (hincreasing : (prevBatch :: batches).Pairwise (fun batch later => ∀ t ∈ batch, ∀ u ∈ later, t < u))
    (h : ChainLinks prevBatch batches p c) : p < c := by
  induction batches generalizing prevBatch with
  | nil => exact h.elim
  | cons batch batches ih =>
    obtain ⟨hprev, hincreasing⟩ := pairwise_cons.mp hincreasing
    cases h with
    | inl h => exact hprev batch mem_cons_self p h.1 c h.2
    | inr h => exact ih hincreasing h

theorem chainLinks_first (hinhabited : Inhabited batches.dropLast) {batch : TaskSet} (hbatch : batch ∈ batches)
    (hp : p ∈ prevBatch) (hc : c ∈ batch) : Relation.TransGen (ChainLinks prevBatch batches) p c := by
  induction batches generalizing prevBatch p with
  | nil => exact absurd hbatch not_mem_nil
  | cons next batches ih =>
    cases mem_cons.mp hbatch with
    | inl heq => exact .single (.inl ⟨hp, heq ▸ hc⟩)
    | inr hbatch =>
      rw [dropLast_cons_of_ne_nil (ne_nil_of_mem hbatch)] at hinhabited
      obtain ⟨u, hu⟩ := hinhabited next mem_cons_self
      have hpath := ih (fun batch hmem => hinhabited batch (mem_cons_of_mem _ hmem)) hbatch hu
      apply Relation.TransGen.head (.inl ⟨hp, hu⟩)
      exact Relation.TransGen.mono (fun _ _ hlink => Or.inr hlink) u c hpath

theorem chainLinks_last (hinhabited : Inhabited batches) {batch : TaskSet} (hbatch : batch ∈ prevBatch :: batches)
    (hp : p ∈ batch) (hc : c ∈ last) : Relation.TransGen (ChainLinks prevBatch (batches ++ [last])) p c := by
  induction batches generalizing prevBatch with
  | nil =>
    rw [mem_singleton.mp hbatch] at hp
    exact .single (.inl ⟨hp, hc⟩)
  | cons next batches ih =>
    cases mem_cons.mp hbatch with
    | inl heq =>
      apply chainLinks_first _ (mem_append_right _ (mem_singleton_self last)) (heq ▸ hp) hc
      rw [dropLast_concat]
      exact hinhabited
    | inr hbatch =>
      have hpath := ih (fun batch hmem => hinhabited batch (mem_cons_of_mem _ hmem)) hbatch
      exact Relation.TransGen.mono (fun _ _ hlink => Or.inr hlink) p c hpath

theorem chainBatches_withLinks (h : s.Consistent) (hlt : ∀ batch ∈ prevBatch :: batches, ∀ t ∈ batch, t < s.getNumOfTasks) :
    WithLinks s (chainBatches s prevBatch batches) (ChainLinks prevBatch batches) := by
  induction batches generalizing s prevBatch with
  | nil => exact withLinks_refl h
  | cons batch batches ih =>
    obtain ⟨hprev, hlt⟩ := forall_mem_cons.mp hlt
    unfold chainBatches
    split_ifs with hempty
    · have hnone (t : ℕ) : t ∉ prevBatch := toList_eq_nil.mp (length_eq_zero_iff.mp hempty) t
      have hlinks : ChainLinks prevBatch (batch :: batches) = ChainLinks batch batches := by
        funext p c
        apply propext
        constructor
        · exact fun hlink => hlink.resolve_left (fun hmem => hnone p hmem.1)
        · exact .inr
      rw [hlinks]
      exact ih h hlt
    · have hadd := addBarrier_withLinks h hprev (hlt batch mem_cons_self)
      exact hadd.trans (ih hadd.consistent (hadd.tasks.symm ▸ hlt))

theorem producers_addBarrier (h : s.Consistent) {producers consumers : TaskSet} (hp : ∀ t ∈ producers, t < s.getNumOfTasks)
    (hc : ∀ t ∈ consumers, t < s.getNumOfTasks) : t ∈ (addBarrier s producers consumers).getBarrierProducers b ↔
      (b = s.getNumOfBarrierOps ∧ t ∈ producers) ∨ t ∈ s.getBarrierProducers b := (addBarrier_spec h hp hc).producers b t

theorem lt_addBarrier (h : s.Consistent) {producers consumers : TaskSet} (hp : ∀ t ∈ producers, t < s.getNumOfTasks)
    (hc : ∀ t ∈ consumers, t < s.getNumOfTasks) : s.getNumOfBarrierOps < (addBarrier s producers consumers).getNumOfBarrierOps := by
  rw [(addBarrier_spec h hp hc).barriers]
  exact Nat.lt_succ_self _

theorem size_ne_zero (h : t ∈ prevBatch) : prevBatch.size ≠ 0 := fun hempty =>
  toList_eq_nil.mp (length_eq_zero_iff.mp hempty) t h

theorem chainBatches_producers (h : s.Consistent) (hlt : ∀ batch ∈ prevBatch :: batches, ∀ t ∈ batch, t < s.getNumOfTasks)
    {batch : TaskSet} (hbatch : batch ∈ (prevBatch :: batches).dropLast) (ht : t ∈ batch) :
    ∃ b, s.getNumOfBarrierOps ≤ b ∧ t ∈ (chainBatches s prevBatch batches).getBarrierProducers b := by
  induction batches generalizing s prevBatch with
  | nil => exact absurd hbatch not_mem_nil
  | cons next batches ih =>
    obtain ⟨hprev, hlt⟩ := forall_mem_cons.mp hlt
    have hnext := hlt next mem_cons_self
    rw [dropLast_cons_of_ne_nil (cons_ne_nil _ _)] at hbatch
    unfold chainBatches
    cases mem_cons.mp hbatch with
    | inl heq =>
      rw [if_neg (size_ne_zero (heq ▸ ht))]
      have hadd := addBarrier_withLinks h hprev hnext
      have hrest := chainBatches_withLinks hadd.consistent (hadd.tasks.symm ▸ hlt)
      refine ⟨s.getNumOfBarrierOps, Nat.le_refl _, ?_⟩
      rw [hrest.producers _ (lt_addBarrier h hprev hnext), producers_addBarrier h hprev hnext]
      exact .inl ⟨rfl, heq ▸ ht⟩
    | inr hbatch =>
      split_ifs
      · exact ih h hlt hbatch
      · have hadd := addBarrier_withLinks h hprev hnext
        obtain ⟨b, hb, hmem⟩ := ih hadd.consistent (hadd.tasks.symm ▸ hlt) hbatch
        exact ⟨b, Nat.le_trans hadd.barriers hb, hmem⟩

theorem chainBatches_consumers (h : s.Consistent) (hlt : ∀ batch ∈ prevBatch :: batches, ∀ t ∈ batch, t < s.getNumOfTasks)
    (hfirst : ∃ u, u ∈ prevBatch) (hinhabited : Inhabited batches.dropLast) {batch : TaskSet} (hbatch : batch ∈ batches)
    (ht : t ∈ batch) : ∃ b, s.getNumOfBarrierOps ≤ b ∧ t ∈ (chainBatches s prevBatch batches).getBarrierConsumers b := by
  induction batches generalizing s prevBatch with
  | nil => exact absurd hbatch not_mem_nil
  | cons next batches ih =>
    obtain ⟨hprev, hlt⟩ := forall_mem_cons.mp hlt
    have hnext := hlt next mem_cons_self
    obtain ⟨u, hu⟩ := hfirst
    have hadd := addBarrier_withLinks h hprev hnext
    unfold chainBatches
    rw [if_neg (size_ne_zero hu)]
    cases mem_cons.mp hbatch with
    | inl heq =>
      have hrest := chainBatches_withLinks hadd.consistent (hadd.tasks.symm ▸ hlt)
      refine ⟨s.getNumOfBarrierOps, Nat.le_refl _, ?_⟩
      rw [hrest.consumers _ (lt_addBarrier h hprev hnext), consumers_addBarrier h hprev hnext]
      exact .inl ⟨rfl, heq ▸ ht⟩
    | inr hbatch =>
      rw [dropLast_cons_of_ne_nil (ne_nil_of_mem hbatch)] at hinhabited
      obtain ⟨b, hb, hmem⟩ := ih hadd.consistent (hadd.tasks.symm ▸ hlt) (hinhabited next mem_cons_self)
        (fun batch hmem => hinhabited batch (mem_cons_of_mem _ hmem)) hbatch
      exact ⟨b, Nat.le_trans hadd.barriers hb, hmem⟩

def WaitsProduced (s : BarrierInfo) : Prop := ∀ b c, c ∈ s.getBarrierConsumers b → ∃ p, p ∈ s.getBarrierProducers b

theorem WaitsProduced.chainBatches (h : s.Consistent) (hproduced : WaitsProduced s)
    (hlt : ∀ batch ∈ prevBatch :: batches, ∀ t ∈ batch, t < s.getNumOfTasks) :
    WaitsProduced (chainBatches s prevBatch batches) := by
  induction batches generalizing s prevBatch with
  | nil => exact hproduced
  | cons next batches ih =>
    obtain ⟨hprev, hlt⟩ := forall_mem_cons.mp hlt
    have hnext := hlt next mem_cons_self
    unfold Barrier.chainBatches
    split_ifs with hempty
    · exact ih h hproduced hlt
    · have hadd := addBarrier_withLinks h hprev hnext
      apply ih hadd.consistent _ (hadd.tasks.symm ▸ hlt)
      intro b c hc
      simp only [producers_addBarrier h hprev hnext]
      cases (consumers_addBarrier h hprev hnext).mp hc with
      | inl hnew =>
        by_contra hnone
        push Not at hnone
        apply hempty
        apply length_eq_zero_iff.mpr
        exact toList_eq_nil.mpr (fun p hp => (hnone p).1 hnew.1 hp)
      | inr hold =>
        obtain ⟨p, hp⟩ := hproduced b c hold
        exact ⟨p, .inr hp⟩

end

structure SharedAt (s s' : BarrierInfo) (barriers : List ℕ) : Prop where
  kept : OrderKept s s'
  produced : WaitsProduced s'
  updates : ∀ b t, t ∈ s.getBarrierProducers b → ∃ b', t ∈ s'.getBarrierProducers b'
  waits : ∀ b t, t ∈ s.getBarrierConsumers b → ∃ b', t ∈ s'.getBarrierConsumers b'
  grows : s.getNumOfBarrierOps ≤ s'.getNumOfBarrierOps
  others : ∀ b < s.getNumOfBarrierOps, b ∉ barriers →
    (∀ t, t ∈ s'.getBarrierProducers b ↔ t ∈ s.getBarrierProducers b) ∧
      ∀ t, t ∈ s'.getBarrierConsumers b ↔ t ∈ s.getBarrierConsumers b

section
variable {s s' s'' : BarrierInfo} {config : LegalizationConfig} {barriers barriers' : List ℕ} {b taskInd : ℕ} {tasksToAdd : TaskSet}

theorem sharedAt_refl (h : s.Consistent) (htopological : s.Topological) (hproduced : WaitsProduced s) : SharedAt s s [] :=
  ⟨⟨h, rfl, htopological, fun _ _ => id⟩, hproduced, fun b _ ht => ⟨b, ht⟩, fun b _ ht => ⟨b, ht⟩, Nat.le_refl _,
    fun _ _ _ => ⟨fun _ => Iff.rfl, fun _ => Iff.rfl⟩⟩

theorem SharedAt.trans (h : SharedAt s s' barriers) (h' : SharedAt s' s'' barriers') : SharedAt s s'' (barriers ++ barriers') := by
  refine ⟨h.kept.trans h'.kept, h'.produced, ?_, ?_, Nat.le_trans h.grows h'.grows, ?_⟩
  · intro b t ht
    obtain ⟨b', ht'⟩ := h.updates b t ht
    exact h'.updates b' t ht'
  · intro b t ht
    obtain ⟨b', ht'⟩ := h.waits b t ht
    exact h'.waits b' t ht'
  · intro b hb hout
    rw [mem_append, not_or] at hout
    obtain ⟨hproducers, hconsumers⟩ := h.others b hb hout.1
    obtain ⟨hproducers', hconsumers'⟩ := h'.others b (Nat.lt_of_lt_of_le hb h.grows) hout.2
    exact ⟨fun t => (hproducers' t).trans (hproducers t), fun t => (hconsumers' t).trans (hconsumers t)⟩

theorem chainBatches_sharedAt (h : s.Consistent) (htopological : s.Topological) (hproduced : WaitsProduced s)
    (hb : b < s.getNumOfBarrierOps) {first : TaskSet} {batches : List TaskSet}
    (hlt : ∀ batch ∈ first :: batches, ∀ t ∈ batch, t < s.getNumOfTasks)
    (hincreasing : (first :: batches).Pairwise (fun batch later => ∀ t ∈ batch, ∀ u ∈ later, t < u))
    (hfirst : ∃ u, u ∈ first) (hinhabited : Inhabited batches.dropLast)
    (hpath : ∀ p ∈ s.getBarrierProducers b, ∀ c ∈ s.getBarrierConsumers b, Relation.TransGen (ChainLinks first batches) p c)
    (hproducers : ∀ p ∈ s.getBarrierProducers b, ∃ batch ∈ (first :: batches).dropLast, p ∈ batch)
    (hconsumers : ∀ c ∈ s.getBarrierConsumers b, ∃ batch ∈ batches, c ∈ batch) :
    SharedAt s ((chainBatches s first batches).resetBarrier b) [b] ∧
      (∀ batch ∈ (first :: batches).dropLast, ∀ t ∈ batch,
        ∃ b', t ∈ ((chainBatches s first batches).resetBarrier b).getBarrierProducers b') ∧
      ∀ batch ∈ batches, ∀ t ∈ batch, ∃ b', t ∈ ((chainBatches s first batches).resetBarrier b).getBarrierConsumers b' := by
  have hlinked := chainBatches_withLinks h hlt
  have hunlinked := @unlinkTasksFromBarrier_unlinked _ ((chainBatches s first batches).getBarrierConsumers b) b hlinked.consistent
    (fun t ht => ht)
  unfold unlinkTasksFromBarrier at hunlinked
  rw [if_pos rfl] at hunlinked
  have hupdates : ∀ batch ∈ (first :: batches).dropLast, ∀ t ∈ batch,
      ∃ b', t ∈ ((chainBatches s first batches).resetBarrier b).getBarrierProducers b' := by
    intro batch hbatch t ht
    obtain ⟨b', hb', hmem⟩ := chainBatches_producers h hlt hbatch ht
    exact ⟨b', mem_producers_resetBarrier.mpr ⟨Nat.ne_of_gt (Nat.lt_of_lt_of_le hb hb'), hmem⟩⟩
  have hwaits : ∀ batch ∈ batches, ∀ t ∈ batch,
      ∃ b', t ∈ ((chainBatches s first batches).resetBarrier b).getBarrierConsumers b' := by
    intro batch hbatch t ht
    obtain ⟨b', hb', hmem⟩ := chainBatches_consumers h hlt hfirst hinhabited hbatch ht
    exact ⟨b', mem_consumers_resetBarrier.mpr ⟨Nat.ne_of_gt (Nat.lt_of_lt_of_le hb hb'), hmem⟩⟩
  refine ⟨⟨?_, ?_, ?_, ?_, ?_, ?_⟩, hupdates, hwaits⟩
  · apply orderKept_of_links h htopological hlinked hunlinked
    · intro b' hb'
      rw [mem_singleton.mp hb']
      exact hb
    · exact fun p c hlink => hlink.lt hincreasing
    · intro b' hb' p hp c hc
      rw [mem_singleton.mp hb'] at hp
      exact hpath p hp c ((hlinked.consumers b hb c).mp hc)
  · intro b' c hc
    obtain ⟨hne, hc⟩ := mem_consumers_resetBarrier.mp hc
    obtain ⟨p, hp⟩ := hproduced.chainBatches h hlt b' c hc
    exact ⟨p, mem_producers_resetBarrier.mpr ⟨hne, hp⟩⟩
  · intro b' t ht
    by_cases heq : b' = b
    · obtain ⟨batch, hbatch, ht⟩ := hproducers t (heq ▸ ht)
      exact hupdates batch hbatch t ht
    · exact ⟨b', mem_producers_resetBarrier.mpr ⟨heq, (hlinked.producers b' (h.producer_lt ht).1 t).mpr ht⟩⟩
  · intro b' t ht
    by_cases heq : b' = b
    · obtain ⟨batch, hbatch, ht⟩ := hconsumers t (heq ▸ ht)
      exact hwaits batch hbatch t ht
    · exact ⟨b', mem_consumers_resetBarrier.mpr ⟨heq, (hlinked.consumers b' (h.consumer_lt ht).1 t).mpr ht⟩⟩
  · rw [numOfBarrierOps_resetBarrier]
    exact hlinked.barriers
  · intro b' hb' hout
    have hne : b' ≠ b := fun heq => hout (mem_singleton.mpr heq)
    constructor
    · intro t
      rw [mem_producers_resetBarrier, hlinked.producers b' hb']
      exact and_iff_right hne
    · intro t
      rw [mem_consumers_resetBarrier, hlinked.consumers b' hb']
      exact and_iff_right hne

theorem variantBatches_increasing {tasks : TaskSet} {t : ℕ} (ht : t ∈ tasks)
    (hslots : ∀ t ∈ tasks, (config.taskOp t).numOfSlotsUsed ≤ config.availableSlots) :
    BatchesOf (variantBatches config tasks) (· ∈ tasks) ∧ Inhabited (variantBatches config tasks) :=
  @createLegalVariantBatches_spec { config with considerTaskExecutorType := false } tasks t ht hslots

section
variable (h : s.Consistent) (htopological : s.Topological) (hproduced : WaitsProduced s)
  (hslots : ∀ t < s.getNumOfTasks, (config.taskOp t).numOfSlotsUsed ≤ config.availableSlots)
include h htopological hproduced hslots

theorem linkTasksToBarrier_update (htask : taskInd ∈ s.getBarrierProducers b) (hbefore : ∀ t ∈ tasksToAdd, t < taskInd) :
    SharedAt s (linkTasksToBarrier config tasksToAdd false s b) [b] ∧
      ∀ t ∈ tasksToAdd, ∃ b', t ∈ (linkTasksToBarrier config tasksToAdd false s b).getBarrierProducers b' := by
  obtain ⟨hb, htaskLt⟩ := h.producer_lt htask
  have hadd (t : ℕ) (ht : t ∈ tasksToAdd) : t < s.getNumOfTasks := Nat.lt_trans (hbefore t ht) htaskLt
  have hmem (t : ℕ) (ht : t ∈ (s.getBarrierProducers b).union tasksToAdd) : t < s.getNumOfTasks := by
    cases mem_union.mp ht with
    | inl ht => exact (h.producer_lt ht).2
    | inr ht => exact hadd t ht
  have hconsumer (t : ℕ) (ht : t ∈ (s.getBarrierProducers b).union tasksToAdd) (c : ℕ) (hc : c ∈ s.getBarrierConsumers b) :
      t < c := by
    cases mem_union.mp ht with
    | inl ht => exact htopological t c ⟨b, ht, hc⟩
    | inr ht => exact Nat.lt_trans (hbefore t ht) (htopological taskInd c ⟨b, htask, hc⟩)
  unfold linkTasksToBarrier barrierTasks
  simp only [Bool.false_eq_true, if_false]
  split_ifs with hlength
  · obtain ⟨hbatches, hinhabited⟩ := variantBatches_increasing (mem_union.mpr (.inl htask)) (fun t ht => hslots t (hmem t ht))
    generalize variantBatches config ((s.getBarrierProducers b).union tasksToAdd) = batches at hlength hbatches hinhabited
    cases batches with
    | nil => exact absurd hlength (Nat.not_lt_zero _)
    | cons first batches =>
      have hskip : chainBatches s ∅ (first :: batches ++ [s.getBarrierConsumers b]) =
          chainBatches s first (batches ++ [s.getBarrierConsumers b]) := rfl
      have hdrop : (first :: (batches ++ [s.getBarrierConsumers b])).dropLast = first :: batches :=
        @dropLast_concat _ (first :: batches) _
      have hall (batch : TaskSet) (hbatch : batch ∈ first :: batches) (t : ℕ) (ht : t ∈ batch) :
          t ∈ (s.getBarrierProducers b).union tasksToAdd := (hbatches.members t).mp ⟨batch, hbatch, ht⟩
      rw [hskip]
      obtain ⟨hshared, hupdates, -⟩ := @chainBatches_sharedAt s b h htopological hproduced hb first
        (batches ++ [s.getBarrierConsumers b])
        (by
          intro batch hbatch t ht
          rw [← cons_append, mem_append, mem_singleton] at hbatch
          cases hbatch with
          | inl hbatch => exact hmem t (hall batch hbatch t ht)
          | inr heq => exact (h.consumer_lt (heq ▸ ht)).2)
        (by
          rw [← cons_append, pairwise_append]
          refine ⟨hbatches.increasing, pairwise_singleton _ _, ?_⟩
          intro batch hbatch last hlast t ht c hc
          rw [mem_singleton.mp hlast] at hc
          exact hconsumer t (hall batch hbatch t ht) c hc)
        (hinhabited first mem_cons_self)
        (by
          rw [dropLast_concat]
          exact fun batch hbatch => hinhabited batch (mem_cons_of_mem _ hbatch))
        (by
          intro p hp c hc
          obtain ⟨batch, hbatch, hp⟩ := (hbatches.members p).mpr (mem_union.mpr (.inl hp))
          exact chainLinks_last (fun batch hbatch => hinhabited batch (mem_cons_of_mem _ hbatch)) hbatch hp hc)
        (by
          intro p hp
          rw [hdrop]
          exact (hbatches.members p).mpr (mem_union.mpr (.inl hp)))
        (fun c hc => ⟨_, mem_append_right _ (mem_singleton_self _), hc⟩)
      refine ⟨hshared, ?_⟩
      intro t ht
      obtain ⟨batch, hbatch, ht⟩ := (hbatches.members t).mpr (mem_union.mpr (.inr ht))
      exact hupdates batch (hdrop ▸ hbatch) t ht
  · have hwith := addProducers_spec h hb hadd
    refine ⟨⟨⟨hwith.consistent, hwith.tasks, ?_, ?_⟩, ?_, ?_, ?_, Nat.le_of_eq hwith.barriers.symm, ?_⟩, ?_⟩
    · rintro p c ⟨b', hp, hc⟩
      rw [hwith.consumers] at hc
      cases (hwith.producers b' p).mp hp with
      | inl hnew => exact hconsumer p (mem_union.mpr (.inr hnew.2)) c (hnew.1 ▸ hc)
      | inr hp => exact htopological p c ⟨b', hp, hc⟩
    · intro p c hordered
      apply hordered.mono
      rintro p c ⟨b', hp, hc⟩
      exact .single ⟨b', (hwith.producers b' p).mpr (.inr hp), (hwith.consumers b').symm ▸ hc⟩
    · intro b' c hc
      rw [hwith.consumers] at hc
      obtain ⟨p, hp⟩ := hproduced b' c hc
      exact ⟨p, (hwith.producers b' p).mpr (.inr hp)⟩
    · exact fun b' t ht => ⟨b', (hwith.producers b' t).mpr (.inr ht)⟩
    · exact fun b' t ht => ⟨b', (hwith.consumers b').symm ▸ ht⟩
    · intro b' _ hout
      have hne : b' ≠ b := fun heq => hout (mem_singleton.mpr heq)
      refine ⟨?_, fun t => by rw [hwith.consumers]⟩
      intro t
      rw [hwith.producers]
      exact or_iff_right (fun hnew => hne hnew.1)
    · exact fun t ht => ⟨b, (hwith.producers b t).mpr (.inl ⟨rfl, ht⟩)⟩

theorem linkTasksToBarrier_wait (htask : taskInd ∈ s.getBarrierConsumers b) (hbehind : ∀ t ∈ tasksToAdd, taskInd < t ∧ t < s.getNumOfTasks) :
    SharedAt s (linkTasksToBarrier config tasksToAdd true s b) [b] ∧
      ∀ t ∈ tasksToAdd, ∃ b', t ∈ (linkTasksToBarrier config tasksToAdd true s b).getBarrierConsumers b' := by
  have hb := (h.consumer_lt htask).1
  have hmem (t : ℕ) (ht : t ∈ (s.getBarrierConsumers b).union tasksToAdd) : t < s.getNumOfTasks := by
    cases mem_union.mp ht with
    | inl ht => exact (h.consumer_lt ht).2
    | inr ht => exact (hbehind t ht).2
  have hproducer (t : ℕ) (ht : t ∈ (s.getBarrierConsumers b).union tasksToAdd) (p : ℕ) (hp : p ∈ s.getBarrierProducers b) :
      p < t := by
    cases mem_union.mp ht with
    | inl ht => exact htopological p t ⟨b, hp, ht⟩
    | inr ht => exact Nat.lt_trans (htopological p taskInd ⟨b, hp, htask⟩) (hbehind t ht).1
  unfold linkTasksToBarrier barrierTasks
  simp only [if_true]
  split_ifs with hlength
  · obtain ⟨hbatches, hinhabited⟩ := variantBatches_increasing (mem_union.mpr (.inl htask))
      (fun t ht => hslots t (hmem t ht))
    generalize variantBatches config ((s.getBarrierConsumers b).union tasksToAdd) = batches at hlength hbatches hinhabited
    have hne : batches ≠ [] := fun hnil => by simp [hnil] at hlength
    have hall (batch : TaskSet) (hbatch : batch ∈ batches) (t : ℕ) (ht : t ∈ batch) :
        t ∈ (s.getBarrierConsumers b).union tasksToAdd := (hbatches.members t).mp ⟨batch, hbatch, ht⟩
    have hdropped : Inhabited batches.dropLast := fun batch hbatch => hinhabited batch (mem_of_mem_dropLast hbatch)
    obtain ⟨hshared, -, hwaits⟩ := @chainBatches_sharedAt s b h htopological hproduced hb (s.getBarrierProducers b) batches
      (by
        intro batch hbatch t ht
        cases mem_cons.mp hbatch with
        | inl heq => exact (h.producer_lt (heq ▸ ht)).2
        | inr hbatch => exact hmem t (hall batch hbatch t ht))
      (pairwise_cons.mpr ⟨fun batch hbatch p hp t ht => hproducer t (hall batch hbatch t ht) p hp, hbatches.increasing⟩)
      (hproduced b taskInd htask) hdropped
      (by
        intro p hp c hc
        obtain ⟨batch, hbatch, hc⟩ := (hbatches.members c).mpr (mem_union.mpr (.inl hc))
        exact chainLinks_first hdropped hbatch hp hc)
      (by
        intro p hp
        rw [dropLast_cons_of_ne_nil hne]
        exact ⟨_, mem_cons_self, hp⟩)
      (fun c hc => (hbatches.members c).mpr (mem_union.mpr (.inl hc)))
    refine ⟨hshared, ?_⟩
    intro t ht
    obtain ⟨batch, hbatch, ht⟩ := (hbatches.members t).mpr (mem_union.mpr (.inr ht))
    exact hwaits batch hbatch t ht
  · have hwith := addConsumers_spec h hb (fun t ht => (hbehind t ht).2)
    refine ⟨⟨⟨hwith.consistent, hwith.tasks, ?_, ?_⟩, ?_, ?_, ?_, Nat.le_of_eq hwith.barriers.symm, ?_⟩, ?_⟩
    · rintro p c ⟨b', hp, hc⟩
      rw [hwith.producers] at hp
      cases (hwith.consumers b' c).mp hc with
      | inl hnew => exact hproducer c (mem_union.mpr (.inr hnew.2)) p (hnew.1 ▸ hp)
      | inr hc => exact htopological p c ⟨b', hp, hc⟩
    · intro p c hordered
      apply hordered.mono
      rintro p c ⟨b', hp, hc⟩
      exact .single ⟨b', (hwith.producers b').symm ▸ hp, (hwith.consumers b' c).mpr (.inr hc)⟩
    · intro b' c hc
      rw [hwith.producers]
      cases (hwith.consumers b' c).mp hc with
      | inl hnew => exact hproduced b' taskInd (hnew.1 ▸ htask)
      | inr hc => exact hproduced b' c hc
    · exact fun b' t ht => ⟨b', (hwith.producers b').symm ▸ ht⟩
    · exact fun b' t ht => ⟨b', (hwith.consumers b' t).mpr (.inr ht)⟩
    · intro b' _ hout
      have hne : b' ≠ b := fun heq => hout (mem_singleton.mpr heq)
      refine ⟨fun t => by rw [hwith.producers], ?_⟩
      intro t
      rw [hwith.consumers]
      exact or_iff_right (fun hnew => hne hnew.1)
    · exact fun t ht => ⟨b, (hwith.consumers b t).mpr (.inl ⟨rfl, ht⟩)⟩

end

structure Sharable (config : LegalizationConfig) (s : BarrierInfo) : Prop where
  consistent : s.Consistent
  topological : s.Topological
  produced : WaitsProduced s
  slots : ∀ t < s.getNumOfTasks, (config.taskOp t).numOfSlotsUsed ≤ config.availableSlots

theorem Sharable.shared (h : Sharable config s) (hshared : SharedAt s s' barriers) : Sharable config s' :=
  ⟨hshared.kept.consistent, hshared.kept.topological, hshared.produced, hshared.kept.numOfTasks.symm ▸ h.slots⟩

def WalkedBefore (waitBarriers : Bool) (t u : ℕ) : Prop := if waitBarriers then u < t else t < u

theorem SharedAt.has {waitBarriers : Bool} (h : SharedAt s s' barriers) {t : ℕ} (ht : ∃ b, t ∈ barrierTasks waitBarriers s b) :
    ∃ b, t ∈ barrierTasks waitBarriers s' b := by
  obtain ⟨b, ht⟩ := ht
  cases waitBarriers with
  | false => exact h.updates b t ht
  | true => exact h.waits b t ht

theorem mem_taskBarriers {waitBarriers : Bool} (h : s.Consistent) {t : ℕ} :
    b ∈ taskBarriers waitBarriers s t ↔ t ∈ barrierTasks waitBarriers s b := by
  cases waitBarriers with
  | false => exact h.update_iff
  | true => exact h.wait_iff

section
variable {waitBarriers : Bool} (h : Sharable config s)
include h

theorem linkTasksToBarrier_shared (htask : taskInd ∈ barrierTasks waitBarriers s b)
    (hwalked : ∀ t ∈ tasksToAdd, WalkedBefore waitBarriers t taskInd ∧ t < s.getNumOfTasks) :
    SharedAt s (linkTasksToBarrier config tasksToAdd waitBarriers s b) [b] ∧
      ∀ t ∈ tasksToAdd, ∃ b', t ∈ barrierTasks waitBarriers (linkTasksToBarrier config tasksToAdd waitBarriers s b) b' := by
  cases waitBarriers with
  | false =>
    exact linkTasksToBarrier_update h.consistent h.topological h.produced h.slots htask (fun t ht => (hwalked t ht).1)
  | true => exact linkTasksToBarrier_wait h.consistent h.topological h.produced h.slots htask hwalked

theorem linkTasksToBarrier_run {newBarriers : List ℕ} (hnodup : newBarriers.Nodup)
    (htask : ∀ b ∈ newBarriers, b < s.getNumOfBarrierOps ∧ taskInd ∈ barrierTasks waitBarriers s b)
    (hwalked : ∀ t ∈ tasksToAdd, WalkedBefore waitBarriers t taskInd ∧ t < s.getNumOfTasks) :
    SharedAt s (newBarriers.foldl (linkTasksToBarrier config tasksToAdd waitBarriers) s) newBarriers ∧
      (newBarriers ≠ [] → ∀ t ∈ tasksToAdd,
        ∃ b', t ∈ barrierTasks waitBarriers (newBarriers.foldl (linkTasksToBarrier config tasksToAdd waitBarriers) s) b') := by
  induction newBarriers generalizing s with
  | nil => exact ⟨sharedAt_refl h.consistent h.topological h.produced, fun hne => absurd rfl hne⟩
  | cons b newBarriers ih =>
    obtain ⟨hb, hnodup⟩ := nodup_cons.mp hnodup
    obtain ⟨htaskb, htask⟩ := forall_mem_cons.mp htask
    obtain ⟨hstep, hadded⟩ := linkTasksToBarrier_shared h htaskb.2 hwalked
    obtain ⟨hrest, -⟩ := ih (h.shared hstep) hnodup
      (by
        intro b' hb'
        obtain ⟨hlt, hmem⟩ := htask b' hb'
        have hout : b' ∉ [b] := fun heq => hb (mem_singleton.mp heq ▸ hb')
        obtain ⟨hproducers, hconsumers⟩ := hstep.others b' hlt hout
        refine ⟨Nat.lt_of_lt_of_le hlt hstep.grows, ?_⟩
        cases waitBarriers with
        | false => exact (hproducers taskInd).mpr hmem
        | true => exact (hconsumers taskInd).mpr hmem)
      (hstep.kept.numOfTasks.symm ▸ hwalked)
    exact ⟨hstep.trans hrest, fun _ t ht => hrest.has (hadded t ht)⟩

theorem linkTasksToBarriers_shared (hbarriers : (taskBarriers waitBarriers s taskInd).size ≠ 0)
    (hwalked : ∀ t ∈ tasksToAdd, WalkedBefore waitBarriers t taskInd ∧ t < s.getNumOfTasks) :
    let s' := linkTasksToBarriers config s tasksToAdd (taskBarriers waitBarriers s taskInd) waitBarriers
    (∃ barriers, SharedAt s s' barriers) ∧ ∀ t ∈ tasksToAdd, ∃ b', t ∈ barrierTasks waitBarriers s' b' := by
  obtain ⟨hshared, hadded⟩ := @linkTasksToBarrier_run s config taskInd tasksToAdd waitBarriers h
    (taskBarriers waitBarriers s taskInd).toList (toList_nodup _)
    (by
      intro b hb
      have hmem := (mem_taskBarriers h.consistent).mp hb
      refine ⟨?_, hmem⟩
      cases waitBarriers with
      | false => exact (h.consistent.producer_lt hmem).1
      | true => exact (h.consistent.consumer_lt hmem).1)
    hwalked
  exact ⟨⟨_, hshared⟩, hadded (fun hnil => hbarriers (length_eq_zero_iff.mpr hnil))⟩

theorem shareBarriers_run {dmaQueue : List ℕ}
    (hsorted : dmaQueue.Pairwise (WalkedBefore waitBarriers)) (hqueue : ∀ t ∈ dmaQueue, t < s.getNumOfTasks)
    (hwalked : ∀ t ∈ tasksToAdd, t < s.getNumOfTasks ∧ ∀ u ∈ dmaQueue, WalkedBefore waitBarriers t u) :
    let s' := (dmaQueue.foldl (shareBarriers config waitBarriers) (s, tasksToAdd)).1
    (∃ barriers, SharedAt s s' barriers) ∧ ∀ t, t ∈ tasksToAdd ∨ t ∈ dmaQueue →
      (∃ b, t ∈ barrierTasks waitBarriers s' b) ∨
        ∀ u ∈ dmaQueue, (∃ b, u ∈ barrierTasks waitBarriers s b) → WalkedBefore waitBarriers u t := by
  induction dmaQueue generalizing s tasksToAdd with
  | nil => exact ⟨⟨[], sharedAt_refl h.consistent h.topological h.produced⟩, fun t _ => .inr (fun u hu => absurd hu not_mem_nil)⟩
  | cons q dmaQueue ih =>
    obtain ⟨hq, hsorted⟩ := pairwise_cons.mp hsorted
    obtain ⟨hqLt, hqueue⟩ := forall_mem_cons.mp hqueue
    rw [foldl_cons]
    by_cases hnone : (taskBarriers waitBarriers s q).size = 0
    · have hstep : shareBarriers config waitBarriers (s, tasksToAdd) q = (s, tasksToAdd.insert q) := by
        unfold shareBarriers
        dsimp only
        rw [if_pos hnone]
      rw [hstep]
      obtain ⟨hshared, hrest⟩ := @ih s (tasksToAdd.insert q) h hsorted hqueue (by
        intro t ht
        cases mem_insert.mp ht with
        | inl heq => exact heq ▸ ⟨hqLt, hq⟩
        | inr ht => exact ⟨(hwalked t ht).1, fun u hu => (hwalked t ht).2 u (mem_cons_of_mem _ hu)⟩)
      refine ⟨hshared, ?_⟩
      intro t ht
      have hmem : t ∈ tasksToAdd.insert q ∨ t ∈ dmaQueue := by
        rw [mem_cons] at ht
        rw [mem_insert]
        tauto
      apply (hrest t hmem).imp_right
      intro hbefore u hu hhas
      cases mem_cons.mp hu with
      | inl heq =>
        obtain ⟨b, hb⟩ := hhas
        exact absurd hnone (size_ne_zero ((mem_taskBarriers h.consistent).mpr (heq ▸ hb)))
      | inr hu => exact hbefore u hu hhas
    · -- the task has a barrier, which the tasks before it get, and which it keeps
      have hqHas : ∃ b, q ∈ barrierTasks waitBarriers s b := by
        by_contra hno
        push Not at hno
        apply hnone
        apply length_eq_zero_iff.mpr
        exact toList_eq_nil.mpr (fun b hb => hno b ((mem_taskBarriers h.consistent).mp hb))
      have hstep : ∃ s₁ tasks, shareBarriers config waitBarriers (s, tasksToAdd) q = (s₁, tasks) ∧ (∀ t, t ∉ tasks) ∧
          (∃ barriers, SharedAt s s₁ barriers) ∧ ∀ t ∈ tasksToAdd, ∃ b, t ∈ barrierTasks waitBarriers s₁ b := by
        unfold shareBarriers
        dsimp only
        rw [if_neg hnone]
        split_ifs with hempty
        · refine ⟨_, _, rfl, fun t => not_mem_empty, ?_⟩
          exact linkTasksToBarriers_shared h hnone (fun t ht =>
            ⟨(hwalked t ht).2 q mem_cons_self, (hwalked t ht).1⟩)
        · have hout : ∀ t, t ∉ tasksToAdd := by
            rw [not_not] at hempty
            exact toList_eq_nil.mp (length_eq_zero_iff.mp hempty)
          exact ⟨_, _, rfl, hout, ⟨[], sharedAt_refl h.consistent h.topological h.produced⟩, fun t ht => absurd ht (hout t)⟩
      obtain ⟨s₁, tasks, hstep, hout, ⟨barriers, hshared₁⟩, hadded⟩ := hstep
      rw [hstep]
      obtain ⟨⟨barriers', hshared⟩, hrest⟩ := @ih s₁ tasks (h.shared hshared₁) hsorted (hshared₁.kept.numOfTasks.symm ▸ hqueue)
        (fun t ht => absurd ht (hout t))
      refine ⟨⟨_, hshared₁.trans hshared⟩, ?_⟩
      rintro t (ht | ht)
      · exact .inl (hshared.has (hadded t ht))
      · cases mem_cons.mp ht with
        | inl heq => exact .inl (hshared.has (hshared₁.has (heq ▸ hqHas)))
        | inr ht =>
          apply (hrest t (.inr ht)).imp_right
          intro hbefore u hu hhas
          cases mem_cons.mp hu with
          | inl heq => exact heq ▸ hq t ht
          | inr hu => exact hbefore u hu (hshared₁.has hhas)

end

/-- In a queue only tasks behind the last one that had an update barrier have none, and only tasks before the first one that
had a wait barrier have none. -/
structure QueueShared (s s' : BarrierInfo) (dmaQueue : List ℕ) : Prop where
  updates : ∀ t ∈ dmaQueue, (s'.getUpdateBarriers t).size = 0 → ∀ u ∈ dmaQueue, (s.getUpdateBarriers u).size ≠ 0 → u < t
  waits : ∀ t ∈ dmaQueue, (s'.getWaitBarriers t).size = 0 → ∀ u ∈ dmaQueue, (s.getWaitBarriers u).size ≠ 0 → t < u

theorem taskBarriers_size {waitBarriers : Bool} (h : s.Consistent) {t : ℕ} :
    (taskBarriers waitBarriers s t).size ≠ 0 ↔ ∃ b, t ∈ barrierTasks waitBarriers s b := by
  constructor
  · intro hsize
    by_contra hno
    push Not at hno
    apply hsize
    apply length_eq_zero_iff.mpr
    exact toList_eq_nil.mpr (fun b hb => hno b ((mem_taskBarriers h).mp hb))
  · rintro ⟨b, hb⟩
    exact size_ne_zero ((mem_taskBarriers h).mpr hb)

theorem shareQueue_shared (h : Sharable config s) {dmaQueue : List ℕ} (hsorted : dmaQueue.Pairwise (· < ·))
    (hqueue : ∀ t ∈ dmaQueue, t < s.getNumOfTasks) :
    (∃ barriers, SharedAt s (shareQueue config s dmaQueue) barriers) ∧ QueueShared s (shareQueue config s dmaQueue) dmaQueue := by
  obtain ⟨⟨barriers, hupdated⟩, hupdates⟩ := @shareBarriers_run s config ∅ false h dmaQueue hsorted hqueue
    (fun t ht => absurd ht not_mem_empty)
  have hok := h.shared hupdated
  obtain ⟨⟨barriers', hshared⟩, hwaits⟩ := @shareBarriers_run _ config ∅ true hok dmaQueue.reverse
    (pairwise_reverse.mpr hsorted) (fun t ht => hupdated.kept.numOfTasks.symm ▸ hqueue t (mem_reverse.mp ht))
    (fun t ht => absurd ht not_mem_empty)
  have hdone := hok.shared hshared
  refine ⟨⟨_, hupdated.trans hshared⟩, ?_, ?_⟩
  · intro t ht hnone u hu hhas
    cases hupdates t (.inr ht) with
    | inl hgot => exact absurd hnone ((@taskBarriers_size _ false hdone.consistent t).mpr (hshared.has hgot))
    | inr hbefore => exact hbefore u hu ((@taskBarriers_size _ false h.consistent u).mp hhas)
  · intro t ht hnone u hu hhas
    cases hwaits t (.inr (mem_reverse.mpr ht)) with
    | inl hgot => exact absurd hnone ((@taskBarriers_size _ true hdone.consistent t).mpr hgot)
    | inr hbefore =>
      exact hbefore u (mem_reverse.mpr hu) (hupdated.has ((@taskBarriers_size _ true h.consistent u).mp hhas))

theorem QueueShared.mono {s₁ s₂ : BarrierInfo} {barriers barriers' dmaQueue : List ℕ} (h : Sharable config s)
    (hbefore : SharedAt s s₁ barriers) (hqueue : QueueShared s₁ s₂ dmaQueue) (hok : Sharable config s₂)
    (hafter : SharedAt s₂ s' barriers') : QueueShared s s' dmaQueue := by
  have hok₁ := h.shared hbefore
  have hok' := hok.shared hafter
  have hkept (waitBarriers : Bool) (t : ℕ) (hnone : (taskBarriers waitBarriers s' t).size = 0) :
      (taskBarriers waitBarriers s₂ t).size = 0 := by
    by_contra hhas
    have hgot := hafter.has ((taskBarriers_size hok.consistent).mp hhas)
    exact (taskBarriers_size hok'.consistent).mpr hgot hnone
  have hhad (waitBarriers : Bool) (u : ℕ) (hhas : (taskBarriers waitBarriers s u).size ≠ 0) :
      (taskBarriers waitBarriers s₁ u).size ≠ 0 :=
    (taskBarriers_size hok₁.consistent).mpr (hbefore.has ((taskBarriers_size h.consistent).mp hhas))
  constructor
  · exact fun t ht hnone u hu hhas => hqueue.updates t ht (hkept false t hnone) u hu (hhad false u hhas)
  · exact fun t ht hnone u hu hhas => hqueue.waits t ht (hkept true t hnone) u hu (hhad true u hhas)

theorem shareQueues_shared (h : Sharable config s) {taskQueueTypeMap : List (TaskQueueType × List ℕ)}
    (hmap : ∀ entry ∈ taskQueueTypeMap, entry.2.Pairwise (· < ·) ∧ ∀ t ∈ entry.2, t < s.getNumOfTasks) :
    let s' := taskQueueTypeMap.foldl (fun s entry => shareQueue config s entry.2) s
    (∃ barriers, SharedAt s s' barriers) ∧ ∀ entry ∈ taskQueueTypeMap, QueueShared s s' entry.2 := by
  induction taskQueueTypeMap generalizing s with
  | nil => exact ⟨⟨[], sharedAt_refl h.consistent h.topological h.produced⟩, fun entry hentry => absurd hentry not_mem_nil⟩
  | cons entry taskQueueTypeMap ih =>
    obtain ⟨hentry, hmap⟩ := forall_mem_cons.mp hmap
    obtain ⟨⟨barriers, hstep⟩, hqueue⟩ := shareQueue_shared h hentry.1 hentry.2
    have hok := h.shared hstep
    obtain ⟨⟨barriers', hrest⟩, hqueues⟩ := ih hok (hstep.kept.numOfTasks.symm ▸ hmap)
    refine ⟨⟨_, hstep.trans hrest⟩, ?_⟩
    intro other hother
    cases mem_cons.mp hother with
    | inl heq =>
      rw [heq]
      exact hqueue.mono h (sharedAt_refl h.consistent h.topological h.produced) hok hrest
    | inr hother =>
      exact (hqueues other hother).mono h hstep (hok.shared hrest)
        (sharedAt_refl hrest.kept.consistent hrest.kept.topological hrest.produced)

theorem OrderKept.orderedBy_lt {getTaskQueueType : ℕ → TaskQueueType} (h : OrderKept s s') {p c : ℕ}
    (hordered : s'.OrderedBy (QueueOrder getTaskQueueType) p c) : p < c := by
  have hstep (p c : ℕ) (hpc : s'.Edge p c ∨ QueueOrder getTaskQueueType p c) : p < c := by
    cases hpc with
    | inl hedge => exact h.topological p c hedge
    | inr hqueue => exact hqueue.1
  induction hordered with
  | single hpc => exact hstep _ _ hpc
  | tail _ hpc ih => exact Nat.lt_trans ih (hstep _ _ hpc)

/-- Sharing keeps the order of the tasks and leaves barriers out only at the ends of the queues. -/
theorem shareWaitAndUpdateBarriers_spec {queues : OptimizeConfig} (h : s.Consistent) (htopological : s.Topological)
    (hproduced : WaitsProduced s) (hslots : ∀ t < s.getNumOfTasks, (config.taskOp t).numOfSlotsUsed ≤ config.availableSlots)
    (hqueues : queues.taskQueueTypes ≠ []) :
    ∃ s', shareWaitAndUpdateBarriers config (FifoBarrierInfo.buildTaskQueueTypeMap queues s.getNumOfTasks) s = .ok s' ∧
      (∀ entry ∈ FifoBarrierInfo.buildTaskQueueTypeMap queues s.getNumOfTasks, QueueShared s s' entry.2) ∧
      (∀ p c, s.OrderedBy (QueueOrder queues.getTaskQueueType) p c → s'.OrderedBy (QueueOrder queues.getTaskQueueType) p c) ∧
      ∀ p c, s'.OrderedBy (QueueOrder queues.getTaskQueueType) p c → p < c := by
  have hmap : ∀ entry ∈ FifoBarrierInfo.buildTaskQueueTypeMap queues s.getNumOfTasks,
      entry.2.Pairwise (· < ·) ∧ ∀ t ∈ entry.2, t < s.getNumOfTasks := by
    intro entry hentry
    obtain ⟨queueType, -, rfl⟩ := mem_map.mp hentry
    refine ⟨pairwise_lt_range.filter _, ?_⟩
    exact fun t ht => mem_range.mp (mem_filter.mp ht).1
  obtain ⟨⟨barriers, hshared⟩, hall⟩ := @shareQueues_shared s config ⟨h, htopological, hproduced, hslots⟩ _ hmap
  refine ⟨_, if_neg (fun hnil => hqueues (map_eq_nil_iff.mp hnil)), hall, ?_, ?_⟩
  · intro p c
    apply OrderedBy.mono
    exact fun p c hedge => OrderedBy.of_ordered (hshared.kept.ordered p c (.single hedge))
  · exact fun p c => hshared.kept.orderedBy_lt

def waitThenNone : BarrierInfo :=
  (BarrierInfo.empty.addNewTaskOp.addNewTaskOp.addNewTaskOp.addNewBarrier.addProducer 0 0).addConsumer 0 1

def dmaThenDpu : OptimizeConfig where
  split := ⟨[], []⟩
  taskOp := fun taskInd => if taskInd = 0 then ⟨1, .dmaNN⟩ else ⟨2, .dpu⟩
  getTaskQueueType := fun taskInd => if taskInd = 0 then ⟨.dmaNN, 0⟩ else ⟨.dpu, 0⟩
  taskQueueTypes := [⟨.dmaNN, 0⟩, ⟨.dpu, 0⟩]
  taskQueueTypes_nodup := dmaThenDpu_nodup
  barrierMaxVariantSum := 64

theorem waitThenNone_consistent : waitThenNone.Consistent := by
  have h := consistent_empty.addNewTaskOp.addNewTaskOp.addNewTaskOp.addNewBarrier
  exact (h.addProducer (b := 0) (t := 0) (by decide) (by decide)).addConsumer (by decide) (by decide)

theorem waitThenNone_topological : waitThenNone.Topological := BarrierInfo.forall_edges (P := fun p c => p < c) (by decide)

theorem waitThenNone_produced : WaitsProduced waitThenNone := by
  intro b c hc
  have hb : b < 1 := (waitThenNone_consistent.consumer_lt hc).1
  obtain rfl : b = 0 := Nat.lt_one_iff.mp hb
  exact ⟨0, by decide⟩

def unproduced : BarrierInfo := BarrierInfo.empty.addNewTaskOp.addNewTaskOp.addNewTaskOp.addNewBarrier.addConsumer 0 0

theorem unproduced_consistent : unproduced.Consistent := by
  have h := consistent_empty.addNewTaskOp.addNewTaskOp.addNewTaskOp.addNewBarrier
  exact h.addConsumer (by decide) (by decide)

/-- A first task that needs too many slots is cut off its producers, and so are the tasks of a first batch without producers. -/
theorem shareWaitAndUpdateBarriers_loses :
    (¬ ∀ (config : LegalizationConfig) (queues : OptimizeConfig) (s s' : BarrierInfo), s.Consistent → s.Topological →
      WaitsProduced s →
      shareWaitAndUpdateBarriers config (FifoBarrierInfo.buildTaskQueueTypeMap queues s.getNumOfTasks) s = .ok s' →
        ∀ p c, s.OrderedBy (QueueOrder queues.getTaskQueueType) p c → s'.OrderedBy (QueueOrder queues.getTaskQueueType) p c) ∧
    ¬ ∀ (config : LegalizationConfig) (queues : OptimizeConfig) (s s' : BarrierInfo), s.Consistent → s.Topological →
      (∀ t < s.getNumOfTasks, (config.taskOp t).numOfSlotsUsed ≤ config.availableSlots) →
      shareWaitAndUpdateBarriers config (FifoBarrierInfo.buildTaskQueueTypeMap queues s.getNumOfTasks) s = .ok s' →
        ∀ entry ∈ FifoBarrierInfo.buildTaskQueueTypeMap queues s.getNumOfTasks, QueueShared s s' entry.2 := by
  constructor
  · intro hclaim
    have hkept := hclaim ⟨dmaThenDpu.taskOp, 1, false, false⟩ dmaThenDpu waitThenNone _ waitThenNone_consistent
      waitThenNone_topological waitThenNone_produced rfl 0 1 (.single (.inl ⟨0, by decide, by decide⟩))
    obtain ⟨x, hfirst, -⟩ := Relation.TransGen.head'_iff.mp hkept
    cases hfirst with
    | inl hedge => exact absurd rfl ((BarrierInfo.forall_edges (P := fun p _ => p ≠ 0) (by decide)) 0 x hedge)
    | inr hqueue =>
      have hother : dmaThenDpu.getTaskQueueType x = ⟨.dpu, 0⟩ := if_neg (Nat.ne_of_gt hqueue.1)
      have hsame := hqueue.2
      rw [hother] at hsame
      exact absurd hsame (by decide)
  · intro hclaim
    have hshared := hclaim ⟨fun _ => ⟨1, .dpu⟩, 2, false, false⟩
      { dmaThenDpu with getTaskQueueType := fun _ => ⟨.dpu, 0⟩ } unproduced _ unproduced_consistent
      (BarrierInfo.forall_edges (P := fun p c => p < c) (by decide)) (fun _ _ => Nat.le_succ 1) rfl (⟨.dpu, 0⟩, [0, 1, 2]) (by decide)
    exact absurd (hshared.waits 0 (by decide) (by decide) 0 (by decide) (by decide)) (Nat.lt_irrefl 0)

theorem shareWaitAndUpdateBarriers_spec_waitThenNone : ∃ s', shareWaitAndUpdateBarriers ⟨dmaThenDpu.taskOp, 2, false, false⟩
        (FifoBarrierInfo.buildTaskQueueTypeMap dmaThenDpu 3) waitThenNone = .ok s' ∧
      (∀ entry ∈ FifoBarrierInfo.buildTaskQueueTypeMap dmaThenDpu 3, QueueShared waitThenNone s' entry.2) ∧
      (∀ p c, waitThenNone.OrderedBy (QueueOrder dmaThenDpu.getTaskQueueType) p c →
        s'.OrderedBy (QueueOrder dmaThenDpu.getTaskQueueType) p c) ∧
      ∀ p c, s'.OrderedBy (QueueOrder dmaThenDpu.getTaskQueueType) p c → p < c :=
  @shareWaitAndUpdateBarriers_spec waitThenNone ⟨dmaThenDpu.taskOp, 2, false, false⟩ dmaThenDpu waitThenNone_consistent
    waitThenNone_topological waitThenNone_produced (by decide) (by decide)

end

end NpuCompiler.Barrier
