import NpuCompiler.Barrier.ProducerBatches

namespace NpuCompiler.Barrier

open BarrierInfo List SmallSet

structure WithLinks (s s' : BarrierInfo) (links : ℕ → ℕ → Prop) : Prop where
  consistent : s'.Consistent
  tasks : s'.getNumOfTasks = s.getNumOfTasks
  barriers : s.getNumOfBarrierOps ≤ s'.getNumOfBarrierOps
  producers : ∀ b < s.getNumOfBarrierOps, ∀ t, t ∈ s'.getBarrierProducers b ↔ t ∈ s.getBarrierProducers b
  consumers : ∀ b < s.getNumOfBarrierOps, ∀ t, t ∈ s'.getBarrierConsumers b ↔ t ∈ s.getBarrierConsumers b
  links : ∀ p c, (∃ b, s.getNumOfBarrierOps ≤ b ∧ s'.EdgeAt b p c) ↔ links p c

section
variable {s s' s'' : BarrierInfo} {links links' : ℕ → ℕ → Prop} {b p c : ℕ}

theorem withLinks_refl (h : s.Consistent) : WithLinks s s (fun _ _ => False) := by
  refine ⟨h, rfl, Nat.le_refl _, fun _ _ _ => Iff.rfl, fun _ _ _ => Iff.rfl, ?_⟩
  intro p c
  constructor
  · rintro ⟨b, hb, hp, -⟩
    exact absurd (h.producer_lt hp).1 (Nat.not_lt.mpr hb)
  · exact False.elim

theorem WithLinks.edgeAt_iff (h : WithLinks s s' links) (hb : b < s.getNumOfBarrierOps) :
    s'.EdgeAt b p c ↔ s.EdgeAt b p c := and_congr (h.producers b hb p) (h.consumers b hb c)

theorem WithLinks.trans (h : WithLinks s s' links) (h' : WithLinks s' s'' links') :
    WithLinks s s'' (fun p c => links p c ∨ links' p c) := by
  refine ⟨h'.consistent, h'.tasks.trans h.tasks, Nat.le_trans h.barriers h'.barriers, ?_, ?_, ?_⟩
  · intro b hb t
    rw [h'.producers b (Nat.lt_of_lt_of_le hb h.barriers), h.producers b hb]
  · intro b hb t
    rw [h'.consumers b (Nat.lt_of_lt_of_le hb h.barriers), h.consumers b hb]
  · intro p c
    rw [← h.links, ← h'.links]
    constructor
    · rintro ⟨b, hb, hedge⟩
      by_cases hb' : b < s'.getNumOfBarrierOps
      · exact .inl ⟨b, hb, (h'.edgeAt_iff hb').mp hedge⟩
      · exact .inr ⟨b, Nat.le_of_not_lt hb', hedge⟩
    · rintro (⟨b, hb, hedge⟩ | ⟨b, hb, hedge⟩)
      · have hb' : b < s'.getNumOfBarrierOps := (h.consistent.producer_lt hedge.1).1
        exact ⟨b, hb, (h'.edgeAt_iff hb').mpr hedge⟩
      · exact ⟨b, Nat.le_trans h.barriers hb, hedge⟩

theorem WithBarrier.withLinks {producers consumers : List ℕ} (h : s.Consistent) (hadd : WithBarrier s s' producers consumers) :
    WithLinks s s' (fun p c => p ∈ producers ∧ c ∈ consumers) := by
  refine ⟨hadd.consistent, hadd.tasks, ?_, ?_, ?_, ?_⟩
  · rw [hadd.barriers]
    exact Nat.le_succ _
  · intro b hb t
    rw [hadd.producers]
    simp [Nat.ne_of_lt hb]
  · intro b hb t
    rw [hadd.consumers]
    simp [Nat.ne_of_lt hb]
  · intro p c
    constructor
    · rintro ⟨b, hb, hmemp, hmemc⟩
      rw [hadd.producers] at hmemp
      rw [hadd.consumers] at hmemc
      constructor
      · cases hmemp with
        | inl h' => exact h'.2
        | inr h' => exact absurd (h.producer_lt h').1 (Nat.not_lt.mpr hb)
      · cases hmemc with
        | inl h' => exact h'.2
        | inr h' => exact absurd (h.consumer_lt h').1 (Nat.not_lt.mpr hb)
    · rintro ⟨hmemp, hmemc⟩
      exact ⟨s.getNumOfBarrierOps, Nat.le_refl _, (hadd.producers _ p).mpr (.inl ⟨rfl, hmemp⟩),
        (hadd.consumers _ c).mpr (.inl ⟨rfl, hmemc⟩)⟩

theorem addBarrier_spec (h : s.Consistent) {producers consumers : TaskSet} (hp : ∀ t ∈ producers, t < s.getNumOfTasks)
    (hc : ∀ t ∈ consumers, t < s.getNumOfTasks) :
    WithBarrier s (addBarrier s producers consumers) producers.toList consumers.toList := addNewBarrier_spec h hp hc

theorem addBarrier_withLinks (h : s.Consistent) {producers consumers : TaskSet}
    (hp : ∀ t ∈ producers, t < s.getNumOfTasks) (hc : ∀ t ∈ consumers, t < s.getNumOfTasks) :
    WithLinks s (addBarrier s producers consumers) (fun p c => p ∈ producers ∧ c ∈ consumers) :=
  WithBarrier.withLinks h (addBarrier_spec h hp hc)

def BatchLinks : List TaskSet → TaskSet → ℕ → ℕ → Prop
  | [], _, _, _ => False
  | batch :: legalBatches, nextBatch, p, c => (p ∈ batch ∧ c ∈ nextBatch) ∨ BatchLinks legalBatches batch p c

theorem linkBatches_withLinks {legalBatches : List TaskSet} {nextBatch : TaskSet} (h : s.Consistent)
    (hbatches : ∀ batch ∈ legalBatches, ∀ t ∈ batch, t < s.getNumOfTasks) (hnext : ∀ t ∈ nextBatch, t < s.getNumOfTasks) :
    WithLinks s (linkBatches s legalBatches nextBatch) (BatchLinks legalBatches nextBatch) := by
  induction legalBatches generalizing s nextBatch with
  | nil => exact withLinks_refl h
  | cons batch legalBatches ih =>
    obtain ⟨hbatch, hbatches⟩ := forall_mem_cons.mp hbatches
    have hadd := addBarrier_withLinks h hbatch hnext
    have hrest : WithLinks (addBarrier s batch nextBatch) (linkBatches (addBarrier s batch nextBatch) legalBatches batch)
        (BatchLinks legalBatches batch) := by
      apply ih hadd.consistent
      · rw [hadd.tasks]
        exact hbatches
      · rw [hadd.tasks]
        exact hbatch
    exact hadd.trans hrest

theorem consumers_addBarrier (h : s.Consistent) {producers consumers : TaskSet} {t : ℕ} (hp : ∀ t ∈ producers, t < s.getNumOfTasks)
    (hc : ∀ t ∈ consumers, t < s.getNumOfTasks) : t ∈ (addBarrier s producers consumers).getBarrierConsumers b ↔
      (b = s.getNumOfBarrierOps ∧ t ∈ consumers) ∨ t ∈ s.getBarrierConsumers b := (addBarrier_spec h hp hc).consumers b t

theorem consumers_linkBatches {legalBatches : List TaskSet} {nextBatch : TaskSet} {t : ℕ} (h : s.Consistent)
    (hbatches : ∀ batch ∈ legalBatches, ∀ t ∈ batch, t < s.getNumOfTasks) (hnext : ∀ t ∈ nextBatch, t < s.getNumOfTasks)
    (ht : t ∈ (linkBatches s legalBatches nextBatch).getBarrierConsumers b) :
    t ∈ s.getBarrierConsumers b ∨ (b = s.getNumOfBarrierOps ∧ t ∈ nextBatch) ∨ ∃ batch ∈ legalBatches, t ∈ batch := by
  induction legalBatches generalizing s nextBatch with
  | nil => exact .inl ht
  | cons batch legalBatches ih =>
    obtain ⟨hbatch, hbatches⟩ := forall_mem_cons.mp hbatches
    have hadd := addBarrier_withLinks h hbatch hnext
    have hold := ih hadd.consistent (hadd.tasks.symm ▸ hbatches) (hadd.tasks.symm ▸ hbatch) ht
    rw [consumers_addBarrier h hbatch hnext] at hold
    rcases hold with (hnew | hold) | ⟨-, hmem⟩ | ⟨later, hlater, hmem⟩
    · exact .inr (.inl hnew)
    · exact .inl hold
    · exact .inr (.inr ⟨batch, mem_cons_self, hmem⟩)
    · exact .inr (.inr ⟨later, mem_cons_of_mem _ hlater, hmem⟩)

end

section
variable {legalBatches : List TaskSet} {nextBatch : TaskSet} {p c : ℕ}

theorem BatchLinks.lt (h : BatchLinks legalBatches nextBatch p c)
    (hincreasing : legalBatches.Pairwise (fun later batch => ∀ t ∈ batch, ∀ u ∈ later, t < u))
    (hnext : ∀ batch ∈ legalBatches, ∀ t ∈ batch, ∀ u ∈ nextBatch, t < u) : p < c := by
  induction legalBatches generalizing nextBatch with
  | nil => exact h.elim
  | cons batch legalBatches ih =>
    obtain ⟨hbatch, hincreasing⟩ := pairwise_cons.mp hincreasing
    cases h with
    | inl h => exact hnext batch mem_cons_self p h.1 c h.2
    | inr h => exact ih h hincreasing (fun earlier hearlier => hbatch earlier hearlier)

theorem batchLinks_path {batch : TaskSet} (hbatch : batch ∈ legalBatches) (hp : p ∈ batch) (hc : c ∈ nextBatch)
    (hinhabited : Inhabited legalBatches.dropLast) :
    Relation.TransGen (BatchLinks legalBatches nextBatch) p c := by
  induction legalBatches generalizing nextBatch c with
  | nil => exact absurd hbatch not_mem_nil
  | cons last legalBatches ih =>
    cases mem_cons.mp hbatch with
    | inl heq =>
      subst heq
      exact .single (.inl ⟨hp, hc⟩)
    | inr hbatch =>
      rw [dropLast_cons_of_ne_nil (ne_nil_of_mem hbatch)] at hinhabited
      obtain ⟨u, hu⟩ := hinhabited last mem_cons_self
      have hpath := ih hbatch hu (fun batch hmem => hinhabited batch (mem_cons_of_mem _ hmem))
      apply Relation.TransGen.tail _ (.inl ⟨hu, hc⟩)
      exact Relation.TransGen.mono (fun _ _ hlink => Or.inr hlink) p u hpath

end

structure Unlinked (s s' : BarrierInfo) (waitBarriers : List ℕ) (tasks : TaskSet) : Prop where
  consistent : s'.Consistent
  numOfTasks : s'.getNumOfTasks = s.getNumOfTasks
  producers : ∀ b ∉ waitBarriers, ∀ t, t ∈ s'.getBarrierProducers b ↔ t ∈ s.getBarrierProducers b
  consumers : ∀ b ∉ waitBarriers, ∀ t, t ∈ s'.getBarrierConsumers b ↔ t ∈ s.getBarrierConsumers b
  removed : ∀ b p c, s'.EdgeAt b p c → s.EdgeAt b p c
  kept : ∀ b p c, s.EdgeAt b p c → s'.EdgeAt b p c ∨ (b ∈ waitBarriers ∧ c ∈ tasks)

section
variable {s s' s'' : BarrierInfo} {tasks : TaskSet} {b : ℕ}

theorem removeConsumers_unlinked (h : s.Consistent) {taskInds : List ℕ} (hsub : ∀ t ∈ taskInds, t ∈ tasks) :
    Unlinked s (taskInds.foldl (fun s taskInd => s.removeConsumer b taskInd) s) [b] tasks := by
  induction taskInds generalizing s with
  | nil => exact ⟨h, rfl, fun _ _ _ => Iff.rfl, fun _ _ _ => Iff.rfl, fun _ _ _ => id, fun _ _ _ => .inl⟩
  | cons t taskInds ih =>
    obtain ⟨ht, hsub⟩ := forall_mem_cons.mp hsub
    obtain ⟨hconsistent, htasks, hproducers, hconsumers, hremoved, hkept⟩ := @ih (s.removeConsumer b t) h.removeConsumer hsub
    refine ⟨hconsistent, htasks, hproducers, ?_, ?_, ?_⟩
    · intro b' hb' u
      have hne : b' ≠ b := fun heq => hb' (mem_singleton.mpr heq)
      rw [foldl_cons, hconsumers b' hb', mem_consumers_removeConsumer]
      simp [hne]
    · intro b' p c hedge
      obtain ⟨hp, hc⟩ := hremoved b' p c hedge
      exact ⟨hp, (mem_consumers_removeConsumer.mp hc).2⟩
    · intro b' p c hedge
      by_cases heq : b' = b ∧ c = t
      · exact .inr ⟨mem_singleton.mpr heq.1, heq.2 ▸ ht⟩
      · exact hkept b' p c ⟨hedge.1, mem_consumers_removeConsumer.mpr ⟨heq, hedge.2⟩⟩

theorem unlinkTasksFromBarrier_unlinked (h : s.Consistent) (hsub : ∀ t ∈ tasks, t ∈ s.getBarrierConsumers b) :
    Unlinked s (unlinkTasksFromBarrier tasks s b) [b] tasks := by
  unfold unlinkTasksFromBarrier
  split_ifs with hsize
  · have hsubset : tasks.toList ⊆ (s.getBarrierConsumers b).toList := hsub
    have hperm := (subperm_of_subset tasks.toList_nodup hsubset).perm_of_length_le (Nat.le_of_eq hsize)
    refine ⟨h.resetBarrier, numOfTasks_resetBarrier, ?_, ?_, ?_, ?_⟩
    · intro b' hb' t
      have hne : b' ≠ b := fun heq => hb' (mem_singleton.mpr heq)
      simp [hne]
    · intro b' hb' t
      have hne : b' ≠ b := fun heq => hb' (mem_singleton.mpr heq)
      simp [hne]
    · rintro b' p c ⟨hp, hc⟩
      exact ⟨(mem_producers_resetBarrier.mp hp).2, (mem_consumers_resetBarrier.mp hc).2⟩
    · rintro b' p c ⟨hp, hc⟩
      by_cases hne : b' = b
      · subst hne
        exact .inr ⟨mem_singleton_self _, hperm.mem_iff.mpr hc⟩
      · exact .inl ⟨mem_producers_resetBarrier.mpr ⟨hne, hp⟩, mem_consumers_resetBarrier.mpr ⟨hne, hc⟩⟩
  · exact removeConsumers_unlinked h (fun t ht => ht)

theorem Unlinked.cons {waitBarriers : List ℕ} (h : Unlinked s s' [b] tasks) (h' : Unlinked s' s'' waitBarriers tasks) :
    Unlinked s s'' (b :: waitBarriers) tasks := by
  refine ⟨h'.consistent, h'.numOfTasks.trans h.numOfTasks, ?_, ?_, fun b' p c hedge => h.removed b' p c (h'.removed b' p c hedge), ?_⟩
  · intro b' hb' t
    rw [h'.producers b' (fun hmem => hb' (mem_cons_of_mem _ hmem)),
      h.producers b' (fun hmem => hb' (mem_cons.mpr (.inl (mem_singleton.mp hmem))))]
  · intro b' hb' t
    rw [h'.consumers b' (fun hmem => hb' (mem_cons_of_mem _ hmem)),
      h.consumers b' (fun hmem => hb' (mem_cons.mpr (.inl (mem_singleton.mp hmem))))]
  · intro b' p c hedge
    cases h.kept b' p c hedge with
    | inl hedge =>
      exact (h'.kept b' p c hedge).imp_right (fun hmem => ⟨mem_cons_of_mem _ hmem.1, hmem.2⟩)
    | inr hmem => exact .inr ⟨mem_cons.mpr (.inl (mem_singleton.mp hmem.1)), hmem.2⟩

theorem unlink_unlinked {waitBarriers : List ℕ} (h : s.Consistent) (hnodup : waitBarriers.Nodup)
    (hsub : ∀ b ∈ waitBarriers, ∀ t ∈ tasks, t ∈ s.getBarrierConsumers b) :
    Unlinked s (waitBarriers.foldl (unlinkTasksFromBarrier tasks) s) waitBarriers tasks := by
  induction waitBarriers generalizing s with
  | nil => exact ⟨h, rfl, fun _ _ _ => Iff.rfl, fun _ _ _ => Iff.rfl, fun _ _ _ => id, fun _ _ _ => .inl⟩
  | cons b waitBarriers ih =>
    obtain ⟨hb, hnodup⟩ := nodup_cons.mp hnodup
    obtain ⟨hsubb, hsub⟩ := forall_mem_cons.mp hsub
    have hfirst := unlinkTasksFromBarrier_unlinked h hsubb
    apply hfirst.cons
    apply ih hfirst.consistent hnodup
    intro b' hb' t ht
    have hne : b' ∉ [b] := fun hmem => hb (mem_singleton.mp hmem ▸ hb')
    exact (hfirst.consumers b' hne t).mpr (hsub b' hb' t ht)

end

section
variable {config : LegalizationConfig} {s : BarrierInfo}

theorem mem_foldl_union {α : Type} {f : α → TaskSet} {is : List α} {tasks : TaskSet} {t : ℕ} :
    t ∈ is.foldl (fun tasks i => tasks.union (f i)) tasks ↔ t ∈ tasks ∨ ∃ i ∈ is, t ∈ f i := by
  induction is generalizing tasks with
  | nil => simp
  | cons i is ih =>
    rw [foldl_cons, ih, mem_union]
    simp only [mem_cons, or_and_right, exists_or, exists_eq_left, or_assoc]

theorem mem_getBarriersProducerTasks {waitBarriers : TaskSet} {t : ℕ} :
    t ∈ getBarriersProducerTasks s waitBarriers ↔ ∃ b ∈ waitBarriers.toList, t ∈ s.getBarrierProducers b := by
  unfold getBarriersProducerTasks
  rw [mem_foldl_union]
  simp

theorem selectConsumers_spec {waitBarriers : TaskSet} {slots : ℕ} {consumers : List ℕ} {slotCount : ℕ} {selected : TaskSet}
    (hselected : ∀ c ∈ selected, ∀ b, b ∈ waitBarriers ↔ b ∈ s.getWaitBarriers c) :
    ∀ c ∈ selectConsumers config s waitBarriers slots consumers slotCount selected,
      ∀ b, b ∈ waitBarriers ↔ b ∈ s.getWaitBarriers c := by
  induction consumers generalizing slotCount selected with
  | nil => exact hselected
  | cons consumer consumers ih =>
    unfold selectConsumers
    dsimp only
    split_ifs with hsame hslots
    · exact ih hselected
    · exact hselected
    · apply ih
      intro c hc
      cases mem_insert.mp hc with
      | inl heq =>
        have hbeq : waitBarriers.beq (s.getWaitBarriers consumer) = true := by simpa using hsame
        rw [heq]
        exact beq_iff.mp hbeq
      | inr hc => exact hselected c hc

structure OrderKept (s s' : BarrierInfo) : Prop where
  consistent : s'.Consistent
  numOfTasks : s'.getNumOfTasks = s.getNumOfTasks
  topological : s'.Topological
  ordered : ∀ p c, s.Ordered p c → s'.Ordered p c

theorem OrderKept.trans {s' s'' : BarrierInfo} (h : OrderKept s s') (h' : OrderKept s' s'') : OrderKept s s'' :=
  ⟨h'.consistent, h'.numOfTasks.trans h.numOfTasks, h'.topological, fun p c hordered => h'.ordered p c (h.ordered p c hordered)⟩

theorem orderKept_of_links {linked unlinked : BarrierInfo} {links : ℕ → ℕ → Prop} {waitBarriers : List ℕ} {tasks : TaskSet}
    (h : s.Consistent) (htopological : s.Topological) (hlinked : WithLinks s linked links)
    (hunlinked : Unlinked linked unlinked waitBarriers tasks)
    (hwait : ∀ b ∈ waitBarriers, b < s.getNumOfBarrierOps) (hlt : ∀ p c, links p c → p < c)
    (hpath : ∀ b ∈ waitBarriers, ∀ p ∈ s.getBarrierProducers b, ∀ c ∈ tasks, Relation.TransGen links p c) :
    OrderKept s unlinked := by
  have hnew : ∀ p c, links p c → unlinked.Edge p c := by
    intro p c hlink
    obtain ⟨b, hb, hedge⟩ := (hlinked.links p c).mpr hlink
    cases hunlinked.kept b p c hedge with
    | inl hedge => exact ⟨b, hedge⟩
    | inr hmem => exact absurd (hwait b hmem.1) (Nat.not_lt.mpr hb)
  refine ⟨hunlinked.consistent, hunlinked.numOfTasks.trans hlinked.tasks, ?_, ?_⟩
  · rintro p c ⟨b, hedge⟩
    have hedge := hunlinked.removed b p c hedge
    by_cases hb : b < s.getNumOfBarrierOps
    · exact htopological p c ⟨b, (hlinked.edgeAt_iff hb).mp hedge⟩
    · exact hlt p c ((hlinked.links p c).mp ⟨b, Nat.le_of_not_lt hb, hedge⟩)
  · intro p c hordered
    apply hordered.mono
    rintro p c ⟨b, hedge⟩
    have hb := (h.producer_lt hedge.1).1
    cases hunlinked.kept b p c ((hlinked.edgeAt_iff hb).mpr hedge) with
    | inl hedge => exact .single ⟨b, hedge⟩
    | inr hmem => exact Relation.TransGen.mono hnew p c (hpath b hmem.1 p hedge.1 c hmem.2)

/-- What the new barriers must do for tasks with the given producers and consumers at their wait barriers. -/
structure Replaces (s linked : BarrierInfo) (producers consumers : TaskSet) (links : ℕ → ℕ → Prop) : Prop where
  withLinks : WithLinks s linked links
  lt : ∀ p c, links p c → p < c
  path : ∀ p ∈ producers, ∀ c ∈ consumers, Relation.TransGen links p c
  newConsumers : ∀ b t, t ∈ linked.getBarrierConsumers b →
    t ∈ s.getBarrierConsumers b ∨ (b = s.getNumOfBarrierOps ∧ t ∈ consumers) ∨ t ∈ producers

section
variable {waitBarriers : TaskSet} {producers consumers : TaskSet}

structure AtBarriers (s : BarrierInfo) (waitBarriers producers consumers : TaskSet) : Prop where
  mem_producers : ∀ t, t ∈ producers ↔ ∃ b ∈ waitBarriers.toList, t ∈ s.getBarrierProducers b
  mem_consumers : ∀ c ∈ consumers, ∀ b ∈ waitBarriers, c ∈ s.getBarrierConsumers b
  consumers_lt : ∀ c ∈ consumers, c < s.getNumOfTasks

theorem AtBarriers.producers_lt (h : s.Consistent) (hat : AtBarriers s waitBarriers producers consumers) :
    ∀ p ∈ producers, p < s.getNumOfTasks := by
  intro p hp
  obtain ⟨b, -, hp⟩ := (hat.mem_producers p).mp hp
  exact (h.producer_lt hp).2

theorem AtBarriers.lt (htopological : s.Topological) (hat : AtBarriers s waitBarriers producers consumers) {p c : ℕ}
    (hp : p ∈ producers) (hc : c ∈ consumers) : p < c := by
  obtain ⟨b, hb, hp⟩ := (hat.mem_producers p).mp hp
  exact htopological p c ⟨b, hp, hat.mem_consumers c hc b hb⟩

theorem mergeLegalParallelProducers_replaces (h : s.Consistent) (htopological : s.Topological)
    (hat : AtBarriers s waitBarriers producers consumers) :
    Replaces s (mergeLegalParallelProducers s producers consumers) producers consumers
      (fun p c => p ∈ producers ∧ c ∈ consumers) := by
  constructor
  · exact addBarrier_withLinks h (hat.producers_lt h) hat.consumers_lt
  · intro p c hlink
    exact hat.lt htopological hlink.1 hlink.2
  · intro p hp c hc
    exact .single ⟨hp, hc⟩
  · intro b t ht
    cases (consumers_addBarrier h (hat.producers_lt h) hat.consumers_lt).mp ht with
    | inl hnew => exact .inr (.inl hnew)
    | inr hold => exact .inl hold

theorem linearizedBatches_spec (h : s.Consistent) (hat : AtBarriers s waitBarriers producers consumers)
    (hslots : ∀ t < s.getNumOfTasks, (config.taskOp t).numOfSlotsUsed ≤ config.availableSlots) {p : ℕ} (hp : p ∈ producers) :
    ProducersSoFar (if createProducerBatches config s waitBarriers = [] then createLegalVariantBatches config producers
      else createProducerBatches config s waitBarriers) (· ∈ producers) := by
  split_ifs with hnil
  · obtain ⟨hof, hinhabited⟩ := createLegalVariantBatches_spec hp (fun t ht => hslots t (hat.producers_lt h t ht))
    exact ⟨hof, fun batch hbatch => hinhabited batch (mem_of_mem_tail hbatch)⟩
  · have hinit : ProducersSoFar [] (fun _ => False) := ⟨batchesOf_nil, fun batch hbatch => absurd hbatch not_mem_nil⟩
    have hall := @producerBatches_spec config s waitBarriers.toList
      (fun b _ t ht => hslots t (h.producer_lt ht).2) [] _ hinit (2 ^ 64 - 1) (fun t ht => ht.elim) hnil
    exact ⟨hall.batchesOf.congr (fun t => by rw [hat.mem_producers, false_or]), hall.inhabited⟩

theorem linearizeLegalParallelProducers_replaces {taskInd p : ℕ} (h : s.Consistent) (htopological : s.Topological)
    (hslots : ∀ t < s.getNumOfTasks, (config.taskOp t).numOfSlotsUsed ≤ config.availableSlots)
    (hat : AtBarriers s (s.getWaitBarriers taskInd) producers consumers) (hp : p ∈ producers) :
    ∃ links, Replaces s (linearizeLegalParallelProducers config s taskInd producers consumers) producers consumers links := by
  have hbatches := linearizedBatches_spec h hat hslots hp
  unfold linearizeLegalParallelProducers
  dsimp only
  generalize (if createProducerBatches config s (s.getWaitBarriers taskInd) = [] then
    createLegalVariantBatches config producers else createProducerBatches config s (s.getWaitBarriers taskInd)) = legalBatches
    at hbatches ⊢
  have hin : ∀ batch ∈ legalBatches.reverse, ∀ t ∈ batch, t ∈ producers := fun batch hbatch t ht =>
    (hbatches.batchesOf.members t).mp ⟨batch, mem_reverse.mp hbatch, ht⟩
  have hbatchesLt : ∀ batch ∈ legalBatches.reverse, ∀ t ∈ batch, t < s.getNumOfTasks := fun batch hbatch t ht =>
    hat.producers_lt h t (hin batch hbatch t ht)
  refine ⟨BatchLinks legalBatches.reverse consumers, ?_, ?_, ?_, ?_⟩
  · exact linkBatches_withLinks h hbatchesLt hat.consumers_lt
  · intro p c hlink
    apply hlink.lt
    · exact pairwise_reverse.mpr hbatches.batchesOf.increasing
    · intro batch hbatch t ht u hu
      exact hat.lt htopological (hin batch hbatch t ht) hu
  · intro p hp c hc
    obtain ⟨batch, hbatch, hpbatch⟩ := (hbatches.batchesOf.members p).mpr hp
    apply batchLinks_path (mem_reverse.mpr hbatch) hpbatch hc
    rw [dropLast_reverse]
    exact fun batch hbatch => hbatches.inhabited batch (mem_reverse.mp hbatch)
  · intro b t ht
    apply (consumers_linkBatches h hbatchesLt hat.consumers_lt ht).imp_right
    apply Or.imp_right
    rintro ⟨batch, hbatch, hmem⟩
    exact hin batch hbatch t hmem

end

theorem eliminateParallelWaitBarriers_replaces (h : s.Consistent) (htopological : s.Topological)
    (hslots : ∀ t < s.getNumOfTasks, (config.taskOp t).numOfSlotsUsed ≤ config.availableSlots) {taskInd b : ℕ}
    (hb : b ∈ s.getWaitBarriers taskInd) {s' : BarrierInfo}
    (hresult : eliminateParallelWaitBarriers config s taskInd = .ok s') : ∃ producers consumers linked links,
      (∃ c, c ∈ consumers) ∧ (∀ c ∈ consumers, ∀ b, b ∈ s.getWaitBarriers taskInd ↔ b ∈ s.getWaitBarriers c) ∧
      AtBarriers s (s.getWaitBarriers taskInd) producers consumers ∧ Replaces s linked producers consumers links ∧
      s' = (s.getWaitBarriers taskInd).toList.foldl (unlinkTasksFromBarrier consumers) linked := by
  unfold eliminateParallelWaitBarriers at hresult
  dsimp only at hresult
  generalize availableSlotsForConsumer config s (s.getWaitBarriers taskInd)
    (getBarriersProducerTasks s (s.getWaitBarriers taskInd))
    (getBarriersConsumerTasks s (s.getWaitBarriers taskInd)) = slotsForConsumer at hresult
  have hselected := @selectConsumers_spec config s (s.getWaitBarriers taskInd) slotsForConsumer
    (getBarriersConsumerTasks s (s.getWaitBarriers taskInd)).toList 0 ∅ (by simp)
  generalize selectConsumers config s (s.getWaitBarriers taskInd) slotsForConsumer
    (getBarriersConsumerTasks s (s.getWaitBarriers taskInd)).toList 0 ∅ = consumers at hresult hselected
  generalize hproducers : getBarriersProducerTasks s (s.getWaitBarriers taskInd) = producers at hresult
  have hconsumers : ∀ c ∈ consumers, ∀ b ∈ s.getWaitBarriers taskInd, c ∈ s.getBarrierConsumers b := fun c hc b hb =>
    h.wait_iff.mp ((hselected c hc b).mp hb)
  have hat : AtBarriers s (s.getWaitBarriers taskInd) producers consumers := by
    refine ⟨?_, hconsumers, fun c hc => (h.consumer_lt (hconsumers c hc b hb)).2⟩
    rw [← hproducers]
    exact fun t => mem_getBarriersProducerTasks
  by_cases hempty : consumers.size = 0
  · rw [if_pos hempty] at hresult
    exact absurd hresult (fun h => by cases h)
  · rw [if_neg hempty, Except.ok.injEq] at hresult
    have hreplaces : ∃ links, Replaces s (if canMergeBarriersForTasks config producers
        (2 * config.availableSlots - slotsForConsumer) = true then mergeLegalParallelProducers s producers consumers
        else linearizeLegalParallelProducers config s taskInd producers consumers) producers consumers links := by
      split_ifs with hmerge
      · exact ⟨_, mergeLegalParallelProducers_replaces h htopological hat⟩
      · by_cases hnone : ∃ p, p ∈ producers
        · obtain ⟨p, hp⟩ := hnone
          exact linearizeLegalParallelProducers_replaces h htopological hslots hat hp
        · have hnil := toList_eq_nil.mpr (not_exists.mp hnone)
          apply absurd _ hmerge
          unfold canMergeBarriersForTasks slotCount
          rw [hnil]
          simp
    obtain ⟨links, hreplaces⟩ := hreplaces
    obtain ⟨c, hc⟩ := exists_mem_of_length_pos (Nat.pos_of_ne_zero hempty)
    exact ⟨producers, consumers, _, links, ⟨c, hc⟩, hselected, hat, hreplaces, hresult.symm⟩

theorem unlinked_of_replaces (h : s.Consistent) {taskInd : ℕ} {producers consumers : TaskSet} {linked : BarrierInfo}
    {links : ℕ → ℕ → Prop} (hat : AtBarriers s (s.getWaitBarriers taskInd) producers consumers)
    (hreplaces : Replaces s linked producers consumers links) :
    (∀ b ∈ (s.getWaitBarriers taskInd).toList, b < s.getNumOfBarrierOps) ∧
      (∀ b ∈ (s.getWaitBarriers taskInd).toList, ∀ t ∈ consumers, t ∈ linked.getBarrierConsumers b) ∧
      Unlinked linked ((s.getWaitBarriers taskInd).toList.foldl (unlinkTasksFromBarrier consumers) linked)
        (s.getWaitBarriers taskInd).toList consumers := by
  have hwait : ∀ b ∈ (s.getWaitBarriers taskInd).toList, b < s.getNumOfBarrierOps := fun b hb =>
    (h.consumer_lt (h.wait_iff.mp hb)).1
  have hsub : ∀ b ∈ (s.getWaitBarriers taskInd).toList, ∀ t ∈ consumers, t ∈ linked.getBarrierConsumers b := by
    intro b hb t ht
    exact (hreplaces.withLinks.consumers b (hwait b hb) t).mpr (hat.mem_consumers t ht b hb)
  exact ⟨hwait, hsub, unlink_unlinked hreplaces.withLinks.consistent (toList_nodup _) hsub⟩

theorem eliminateParallelWaitBarriers_orderKept (h : s.Consistent) (htopological : s.Topological)
    (hslots : ∀ t < s.getNumOfTasks, (config.taskOp t).numOfSlotsUsed ≤ config.availableSlots) {taskInd b : ℕ}
    (hb : b ∈ s.getWaitBarriers taskInd) {s' : BarrierInfo}
    (hresult : eliminateParallelWaitBarriers config s taskInd = .ok s') : OrderKept s s' := by
  obtain ⟨producers, consumers, linked, links, -, -, hat, hreplaces, rfl⟩ :=
    eliminateParallelWaitBarriers_replaces h htopological hslots hb hresult
  obtain ⟨hwait, -, hunlinked⟩ := unlinked_of_replaces h hat hreplaces
  apply orderKept_of_links h htopological hreplaces.withLinks hunlinked hwait hreplaces.lt
  intro b hb p hp c hc
  exact hreplaces.path p ((hat.mem_producers p).mpr ⟨b, hb, hp⟩) c hc

variable {s' : BarrierInfo}

theorem mem_getTasksWithParallelWaitBarriers {t : ℕ} :
    t ∈ getTasksWithParallelWaitBarriers s ↔ t < s.getNumOfTasks ∧ 2 ≤ (s.getWaitBarriers t).size := by
  unfold getTasksWithParallelWaitBarriers
  rw [mem_ofList]
  simp

theorem walkTasks_orderKept {taskInds : List ℕ} (h : s.Consistent) (htopological : s.Topological)
    (hslots : ∀ t < s.getNumOfTasks, (config.taskOp t).numOfSlotsUsed ≤ config.availableSlots)
    (hresult : taskInds.foldlM (fun s taskInd =>
      if (s.getWaitBarriers taskInd).size < 2 then .ok s else eliminateParallelWaitBarriers config s taskInd) s = .ok s') :
    OrderKept s s' := by
  induction taskInds generalizing s with
  | nil =>
    cases hresult
    exact ⟨h, rfl, htopological, fun _ _ => id⟩
  | cons taskInd taskInds ih =>
    rw [foldlM_cons] at hresult
    by_cases hsize : (s.getWaitBarriers taskInd).size < 2
    · rw [if_pos hsize] at hresult
      exact ih h htopological hslots hresult
    · rw [if_neg hsize] at hresult
      obtain ⟨b, hb⟩ := exists_mem_of_length_pos (Nat.lt_of_lt_of_le Nat.zero_lt_two (Nat.le_of_not_lt hsize))
      cases hnext : eliminateParallelWaitBarriers config s taskInd with
      | error message =>
        rw [hnext] at hresult
        cases hresult
      | ok next =>
        rw [hnext] at hresult
        have hstep := eliminateParallelWaitBarriers_orderKept h htopological hslots hb hnext
        apply hstep.trans
        apply ih hstep.consistent hstep.topological _ hresult
        rw [hstep.numOfTasks]
        exact hslots

theorem ensureTasksDrivenBySingleBarrier_run {fuel : ℕ} (h : s.Consistent) (htopological : s.Topological)
    (hslots : ∀ t < s.getNumOfTasks, (config.taskOp t).numOfSlotsUsed ≤ config.availableSlots)
    (hresult : ensureTasksDrivenBySingleBarrier config true fuel s = .ok s') :
    OrderKept s s' ∧ (getTasksWithParallelWaitBarriers s').size = 0 := by
  induction fuel generalizing s with
  | zero => cases hresult
  | succ fuel ih =>
    unfold ensureTasksDrivenBySingleBarrier at hresult
    dsimp only at hresult
    by_cases hnone : (getTasksWithParallelWaitBarriers s).size = 0
    · rw [if_pos hnone] at hresult
      cases hresult
      exact ⟨⟨h, rfl, htopological, fun _ _ => id⟩, hnone⟩
    · rw [if_neg hnone] at hresult
      cases hwalk : walkTasks config s with
      | error message =>
        rw [hwalk] at hresult
        cases hresult
      | ok walked =>
        have hkept := walkTasks_orderKept h htopological hslots hwalk
        rw [hwalk] at hresult
        by_cases hsame : (getTasksWithParallelWaitBarriers walked).beq (getTasksWithParallelWaitBarriers s) = true
        · change (if _ then _ else _) = _ at hresult
          rw [if_pos hsame] at hresult
          cases hresult
        · change (if _ then _ else _) = _ at hresult
          rw [if_neg hsame] at hresult
          have hslots' : ∀ t < walked.getNumOfTasks, (config.taskOp t).numOfSlotsUsed ≤ config.availableSlots := by
            rw [hkept.numOfTasks]
            exact hslots
          obtain ⟨hrest, hexit⟩ := ih hkept.consistent hkept.topological hslots' hresult
          exact ⟨hkept.trans hrest, hexit⟩

/-- A loop that ends leaves a single wait barrier at every task, and keeps every order between tasks. -/
theorem ensureTasksDrivenBySingleBarrier_spec {fuel : ℕ} (h : s.Consistent) (htopological : s.Topological)
    (hslots : ∀ t < s.getNumOfTasks, (config.taskOp t).numOfSlotsUsed ≤ config.availableSlots)
    (hresult : ensureTasksDrivenBySingleBarrier config true fuel s = .ok s') :
    (∀ t, (s'.getWaitBarriers t).size ≤ 1) ∧ (∀ p c, s.Ordered p c → s'.Ordered p c) ∧
      (∀ p c, s'.Ordered p c → p < c) ∧ s'.Consistent := by
  obtain ⟨hkept, hexit⟩ := ensureTasksDrivenBySingleBarrier_run h htopological hslots hresult
  refine ⟨?_, hkept.ordered, fun p c hordered => hkept.topological.lt_of_ordered hordered, hkept.consistent⟩
  intro t
  by_cases ht : t < s'.getNumOfTasks
  · by_contra hmore
    have hmem : t ∈ getTasksWithParallelWaitBarriers s' :=
      mem_getTasksWithParallelWaitBarriers.mpr ⟨ht, Nat.lt_of_not_le hmore⟩
    exact absurd hmem (toList_eq_nil.mp (length_eq_zero_iff.mp hexit) t)
  · have hout : s'.consume.right.length ≤ t := by
      rw [hkept.consistent.tasks]
      exact Nat.le_of_not_lt ht
    have hempty : s'.getWaitBarriers t = ∅ := row_out hout
    rw [hempty]
    exact Nat.zero_le 1

def twoWaits : BarrierInfo :=
  (((BarrierInfo.empty.addNewTaskOp.addNewTaskOp.addNewTaskOp.addNewBarrier.addNewBarrier.addProducer 0 0).addProducer 1
    1).addConsumer 0 2).addConsumer 1 2

def twoSlots : LegalizationConfig := ⟨fun _ => ⟨1, .dpu⟩, 2, false, false⟩

theorem twoWaits_consistent : twoWaits.Consistent := by
  have h := consistent_empty.addNewTaskOp.addNewTaskOp.addNewTaskOp.addNewBarrier.addNewBarrier
  have h₀ := h.addProducer (b := 0) (t := 0) (by decide) (by decide)
  have h₁ := h₀.addProducer (b := 1) (t := 1) (by decide) (by decide)
  have h₂ := h₁.addConsumer (b := 0) (t := 2) (by decide) (by decide)
  exact h₂.addConsumer (by decide) (by decide)

theorem twoWaits_topological : twoWaits.Topological := by
  rintro p c ⟨b, hp, hc⟩
  have hall : ∀ b < 2, ∀ p < 3, p ∈ twoWaits.getBarrierProducers b → ∀ c < 3, c ∈ twoWaits.getBarrierConsumers b → p < c := by
    decide
  obtain ⟨hb, hp'⟩ := twoWaits_consistent.producer_lt hp
  exact hall b hb p hp' hp c (twoWaits_consistent.consumer_lt hc).2 hc

theorem ensureTasksDrivenBySingleBarrier_spec_twoWaits :
    ∃ s', ensureTasksDrivenBySingleBarrier twoSlots true 2 twoWaits = .ok s' ∧ (∀ t, (s'.getWaitBarriers t).size ≤ 1) ∧
      (∀ p c, twoWaits.Ordered p c → s'.Ordered p c) ∧ (∀ p c, s'.Ordered p c → p < c) ∧ s'.Consistent :=
  ⟨((addBarrier twoWaits (SmallSet.ofList [0, 1]) (SmallSet.ofList [2])).resetBarrier 0).resetBarrier 1, rfl,
    @ensureTasksDrivenBySingleBarrier_spec twoSlots twoWaits _ 2 twoWaits_consistent twoWaits_topological
      (fun _ _ => Nat.le_succ 1) rfl⟩

end

end NpuCompiler.Barrier
