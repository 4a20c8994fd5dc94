import NpuCompiler.Barrier.SingleWaitOrder

namespace NpuCompiler.Barrier

open BarrierInfo List SmallSet

section
variable (config : LegalizationConfig) (maxSlotsSum : ℕ) (maxSlotsSumLimitEnabled : Bool)

def getProducerSlotCount (s : BarrierInfo) (barrierInd : ℕ) : ℕ := slotCount config (s.getBarrierProducers barrierInd)

def getConsumerSlotCount (s : BarrierInfo) (barrierInd : ℕ) : ℕ := slotCount config (s.getBarrierConsumers barrierInd)

def replaceBarrier (s : BarrierInfo) (barrierInd : ℕ) (newBarriers : List (TaskSet × TaskSet)) : BarrierInfo :=
  (newBarriers.foldl (fun s newBarrier => addBarrier s newBarrier.1 newBarrier.2) s).resetBarrier barrierInd

def variantBatches (tasks : TaskSet) : List TaskSet :=
  createLegalVariantBatches { config with considerTaskExecutorType := false } tasks

def splitBarrierProducersOf (s : BarrierInfo) (barrierInd : ℕ) : BarrierInfo :=
  let barrierConsumers := s.getBarrierConsumers barrierInd
  let producerBatches := variantBatches config (s.getBarrierProducers barrierInd)
  replaceBarrier s barrierInd (producerBatches.map (fun producerBatch => (producerBatch, barrierConsumers)))

def splitBarrierConsumersOf (s : BarrierInfo) (barrierInd : ℕ) : BarrierInfo :=
  let barrierProducers := s.getBarrierProducers barrierInd
  let consumerBatches := variantBatches config (s.getBarrierConsumers barrierInd)
  replaceBarrier s barrierInd (consumerBatches.map (fun consumerBatch => (barrierProducers, consumerBatch)))

/-- A walk over the declarations of the barriers. New ones are inserted before the current one, and are not visited. -/
def walkBarriers (visit : BarrierInfo → ℕ → BarrierInfo) (s : BarrierInfo) : List ℕ → BarrierInfo × List ℕ
  | [] => (s, [])
  | barrierInd :: declarations =>
    let visited := visit s barrierInd
    let (walked, rest) := walkBarriers visit visited declarations
    (walked, List.range' s.getNumOfBarrierOps (visited.getNumOfBarrierOps - s.getNumOfBarrierOps) ++ barrierInd :: rest)

def splitBarrierProducers (s : BarrierInfo) (declarations : List ℕ) : BarrierInfo × List ℕ :=
  walkBarriers (fun s barrierInd =>
    let producerNum := getProducerSlotCount config s barrierInd
    let consumerNum := getConsumerSlotCount config s barrierInd
    if maxSlotsSumLimitEnabled ∧ producerNum + consumerNum ≤ maxSlotsSum then s
    else if producerNum ≤ config.availableSlots then s
    else splitBarrierProducersOf config s barrierInd) s declarations

def splitBarrierConsumers (s : BarrierInfo) (declarations : List ℕ) : BarrierInfo × List ℕ :=
  walkBarriers (fun s barrierInd =>
    let producerNum := getProducerSlotCount config s barrierInd
    let consumerNum := getConsumerSlotCount config s barrierInd
    if maxSlotsSumLimitEnabled ∧ producerNum + consumerNum ≤ maxSlotsSum then s
    else if consumerNum ≤ config.availableSlots then s
    else splitBarrierConsumersOf config s barrierInd) s declarations

def splitBarriersWithExceedingVariantCount (s : BarrierInfo) (declarations : List ℕ) : BarrierInfo × List ℕ :=
  let (s, declarations) := splitBarrierProducers config maxSlotsSum maxSlotsSumLimitEnabled s declarations
  splitBarrierConsumers config maxSlotsSum maxSlotsSumLimitEnabled s declarations

end

section
variable {config : LegalizationConfig} {tasks : TaskSet} {t : ℕ}

theorem slotCount_eq {taskInds : List ℕ} (hnodup : taskInds.Nodup) (h : ∀ t, t ∈ tasks ↔ t ∈ taskInds) :
    slotCount config tasks = (taskInds.map (fun taskInd => (config.taskOp taskInd).numOfSlotsUsed)).sum := by
  unfold slotCount
  apply List.Perm.sum_nat
  apply List.Perm.map
  exact (perm_ext_iff_of_nodup tasks.toList_nodup hnodup).mpr h

theorem slotCount_congr {tasks' : TaskSet} (h : ∀ t, t ∈ tasks ↔ t ∈ tasks') :
    slotCount config tasks = slotCount config tasks' := slotCount_eq tasks'.toList_nodup h

theorem slotCount_empty (h : ∀ t, t ∉ tasks) : slotCount config tasks = 0 := by
  unfold slotCount
  rw [toList_eq_nil.mpr h]
  rfl

/-- None of the batches so far exceeds the slots, and the tasks of the current one come before the others. -/
structure SlotsSoFar (config : LegalizationConfig) (batches : VariantBatches) (orderedTasks : List ℕ) : Prop where
  legal : ∀ batch ∈ batches.legalBatches, slotCount config batch ≤ config.availableSlots
  total : batches.totalSlotCount = slotCount config batches.curBatch
  current : batches.totalSlotCount ≤ config.availableSlots
  before : ∀ t ∈ batches.curBatch, ∀ u ∈ orderedTasks, t < u

theorem SlotsSoFar.addToBatches {batches : VariantBatches} {orderedTasks : List ℕ}
    (h : SlotsSoFar config batches (t :: orderedTasks)) (hsorted : ∀ u ∈ orderedTasks, t < u)
    (hslots : (config.taskOp t).numOfSlotsUsed ≤ config.availableSlots) :
    SlotsSoFar config (addToBatches config batches t) orderedTasks := by
  have hbefore : ∀ u ∈ batches.curBatch, ∀ v ∈ orderedTasks, u < v := fun u hu v hv =>
    h.before u hu v (mem_cons_of_mem _ hv)
  unfold Barrier.addToBatches
  dsimp only
  split_ifs with hnew
  · constructor
    · intro batch hbatch
      cases mem_append.mp hbatch with
      | inl hbatch => exact h.legal batch hbatch
      | inr hbatch =>
        rw [mem_singleton.mp hbatch, ← h.total]
        exact h.current
    · rw [slotCount_insert not_mem_empty, slotCount_empty (fun _ => not_mem_empty), Nat.zero_add]
    · exact hslots
    · intro u hu v hv
      rw [(mem_insert.mp hu).resolve_right not_mem_empty]
      exact hsorted v hv
  · have hout : t ∉ batches.curBatch := fun hmem => Nat.lt_irrefl _ (h.before t hmem t mem_cons_self)
    constructor
    · exact h.legal
    · rw [slotCount_insert hout, h.total]
    · exact Nat.le_of_not_lt (fun hlt => hnew (.inl hlt))
    · intro u hu v hv
      cases mem_insert.mp hu with
      | inl heq =>
        rw [heq]
        exact hsorted v hv
      | inr hu => exact hbefore u hu v hv

theorem slotCount_createLegalVariantBatches_le
    (hslots : ∀ t ∈ tasks, (config.taskOp t).numOfSlotsUsed ≤ config.availableSlots) :
    ∀ batch ∈ createLegalVariantBatches config tasks, slotCount config batch ≤ config.availableSlots := by
  have hrun : ∀ (orderedTasks : List ℕ) (batches : VariantBatches), orderedTasks.Pairwise (· < ·) →
      (∀ t ∈ orderedTasks, (config.taskOp t).numOfSlotsUsed ≤ config.availableSlots) →
      SlotsSoFar config batches orderedTasks → SlotsSoFar config (orderedTasks.foldl (addToBatches config) batches) [] := by
    intro orderedTasks
    induction orderedTasks with
    | nil => exact fun _ _ _ h => h
    | cons t orderedTasks ih =>
      intro batches hsorted hslots h
      obtain ⟨hhead, hsorted⟩ := pairwise_cons.mp hsorted
      obtain ⟨hslot, hslots⟩ := forall_mem_cons.mp hslots
      exact ih _ hsorted hslots (h.addToBatches hhead hslot)
  have hall := hrun (sortedOf tasks.toList) ⟨[], ∅, 0, (config.taskOp ((sortedOf tasks.toList).headD 0)).executorKind⟩
    (pairwise_sortedOf _) (fun t ht => hslots t (mem_sortedOf.mp ht))
    ⟨fun _ hbatch => absurd hbatch not_mem_nil, (slotCount_empty (fun _ => not_mem_empty)).symm, Nat.zero_le _,
      fun _ ht => absurd ht not_mem_empty⟩
  unfold createLegalVariantBatches
  intro batch hbatch
  cases mem_append.mp hbatch with
  | inl hbatch => exact hall.legal batch hbatch
  | inr hbatch =>
    rw [mem_singleton.mp hbatch, ← hall.total]
    exact hall.current

end

def HasRows (s : BarrierInfo) (b : ℕ) (producers consumers : TaskSet) : Prop :=
  (∀ t, t ∈ s.getBarrierProducers b ↔ t ∈ producers) ∧ (∀ t, t ∈ s.getBarrierConsumers b ↔ t ∈ consumers)

section
variable {s s' : BarrierInfo} {newBarriers : List (TaskSet × TaskSet)} {b : ℕ}

theorem addBarrier_rows (h : s.Consistent) {producers consumers : TaskSet} (hp : ∀ t ∈ producers, t < s.getNumOfTasks)
    (hc : ∀ t ∈ consumers, t < s.getNumOfTasks) :
    (addBarrier s producers consumers).getNumOfBarrierOps = s.getNumOfBarrierOps + 1 ∧
      HasRows (addBarrier s producers consumers) s.getNumOfBarrierOps producers consumers := by
  have hnew : s.getNumOfBarrierOps < s.addNewBarrier.getNumOfBarrierOps := by simp
  have hproduce := addProducers_spec h.addNewBarrier hnew hp
  have hconsume := addConsumers_spec hproduce.consistent (Nat.lt_of_lt_of_eq hnew hproduce.barriers.symm)
    (fun t ht => Nat.lt_of_lt_of_eq (hc t ht) hproduce.tasks.symm)
  refine ⟨?_, ?_, ?_⟩
  · apply (hconsume.barriers.trans hproduce.barriers).trans
    simp
  · intro t
    unfold addBarrier
    rw [hconsume.producers, hproduce.producers, producers_addNewBarrier]
    constructor
    · rintro (⟨-, ht⟩ | ht)
      · exact ht
      · exact absurd (h.producer_lt ht).1 (Nat.lt_irrefl _)
    · exact fun ht => .inl ⟨rfl, ht⟩
  · intro t
    rw [consumers_addBarrier h hp hc]
    constructor
    · rintro (⟨-, ht⟩ | ht)
      · exact ht
      · exact absurd (h.consumer_lt ht).1 (Nat.lt_irrefl _)
    · exact fun ht => .inl ⟨rfl, ht⟩

theorem addBarriers_withLinks (h : s.Consistent) (hp : ∀ newBarrier ∈ newBarriers, ∀ t ∈ newBarrier.1, t < s.getNumOfTasks)
    (hc : ∀ newBarrier ∈ newBarriers, ∀ t ∈ newBarrier.2, t < s.getNumOfTasks) :
    WithLinks s (newBarriers.foldl (fun s newBarrier => addBarrier s newBarrier.1 newBarrier.2) s)
        (fun p c => ∃ newBarrier ∈ newBarriers, p ∈ newBarrier.1 ∧ c ∈ newBarrier.2) ∧
      ∀ b, s.getNumOfBarrierOps ≤ b →
        b < (newBarriers.foldl (fun s newBarrier => addBarrier s newBarrier.1 newBarrier.2) s).getNumOfBarrierOps →
        ∃ newBarrier ∈ newBarriers, HasRows (newBarriers.foldl (fun s newBarrier => addBarrier s newBarrier.1 newBarrier.2) s)
          b newBarrier.1 newBarrier.2 := by
  induction newBarriers generalizing s with
  | nil =>
    refine ⟨?_, fun b hb hlt => absurd hlt (Nat.not_lt.mpr hb)⟩
    have hrefl := withLinks_refl h
    exact ⟨hrefl.consistent, hrefl.tasks, hrefl.barriers, hrefl.producers, hrefl.consumers, fun p c =>
      (hrefl.links p c).trans (by simp)⟩
  | cons newBarrier newBarriers ih =>
    obtain ⟨hpFirst, hp⟩ := forall_mem_cons.mp hp
    obtain ⟨hcFirst, hc⟩ := forall_mem_cons.mp hc
    have hadd := addBarrier_withLinks h hpFirst hcFirst
    obtain ⟨hcount, hrows⟩ := addBarrier_rows h hpFirst hcFirst
    obtain ⟨hrest, hnew⟩ := @ih (addBarrier s newBarrier.1 newBarrier.2) hadd.consistent (hadd.tasks.symm ▸ hp)
      (hadd.tasks.symm ▸ hc)
    simp only [foldl_cons]
    constructor
    · have htrans := hadd.trans hrest
      exact ⟨htrans.consistent, htrans.tasks, htrans.barriers, htrans.producers, htrans.consumers, fun p c =>
        (htrans.links p c).trans (by simp)⟩
    · intro b hb hlt
      cases Nat.eq_or_lt_of_le hb with
      | inl heq =>
        subst heq
        have hold : s.getNumOfBarrierOps < (addBarrier s newBarrier.1 newBarrier.2).getNumOfBarrierOps := by omega
        refine ⟨newBarrier, mem_cons_self, ?_, ?_⟩
        · exact fun t => (hrest.producers _ hold t).trans (hrows.1 t)
        · exact fun t => (hrest.consumers _ hold t).trans (hrows.2 t)
      | inr hgt =>
        obtain ⟨later, hlater, hrow⟩ := hnew b (by omega) hlt
        exact ⟨later, mem_cons_of_mem _ hlater, hrow⟩

structure Replaced (s s' : BarrierInfo) (b : ℕ) (newBarriers : List (TaskSet × TaskSet)) : Prop where
  consistent : s'.Consistent
  tasks : s'.getNumOfTasks = s.getNumOfTasks
  barriers : s.getNumOfBarrierOps ≤ s'.getNumOfBarrierOps
  others : ∀ b' < s.getNumOfBarrierOps, b' ≠ b → HasRows s' b' (s.getBarrierProducers b') (s.getBarrierConsumers b')
  emptied : HasRows s' b ∅ ∅
  added : ∀ b', s.getNumOfBarrierOps ≤ b' → b' < s'.getNumOfBarrierOps →
    ∃ newBarrier ∈ newBarriers, HasRows s' b' newBarrier.1 newBarrier.2
  edges : ∀ p c, s'.Edge p c ↔ s.Edge p c

theorem replaceBarrier_spec (h : s.Consistent) (hb : b < s.getNumOfBarrierOps)
    (hlinks : ∀ p c, (∃ newBarrier ∈ newBarriers, p ∈ newBarrier.1 ∧ c ∈ newBarrier.2) ↔ s.EdgeAt b p c)
    (hp : ∀ newBarrier ∈ newBarriers, ∀ t ∈ newBarrier.1, t < s.getNumOfTasks)
    (hc : ∀ newBarrier ∈ newBarriers, ∀ t ∈ newBarrier.2, t < s.getNumOfTasks) :
    Replaced s (replaceBarrier s b newBarriers) b newBarriers := by
  obtain ⟨hadd, hrows⟩ := addBarriers_withLinks h hp hc
  unfold replaceBarrier
  generalize newBarriers.foldl (fun s newBarrier => addBarrier s newBarrier.1 newBarrier.2) s = added at hadd hrows
  refine ⟨hadd.consistent.resetBarrier, numOfTasks_resetBarrier.trans hadd.tasks, ?_, ?_, ?_, ?_, ?_⟩
  · rw [numOfBarrierOps_resetBarrier]
    exact hadd.barriers
  · intro b' hb' hne
    constructor
    · intro t
      rw [mem_producers_resetBarrier, hadd.producers b' hb', and_iff_right hne]
    · intro t
      rw [mem_consumers_resetBarrier, hadd.consumers b' hb', and_iff_right hne]
  · constructor
    · simp
    · simp
  · intro b' hb' hlt
    have hne : b' ≠ b := Nat.ne_of_gt (Nat.lt_of_lt_of_le hb hb')
    rw [numOfBarrierOps_resetBarrier] at hlt
    obtain ⟨newBarrier, hmem, hproducers, hconsumers⟩ := hrows b' hb' hlt
    refine ⟨newBarrier, hmem, ?_, ?_⟩
    · intro t
      rw [mem_producers_resetBarrier, hproducers, and_iff_right hne]
    · intro t
      rw [mem_consumers_resetBarrier, hconsumers, and_iff_right hne]
  · have hreset : ∀ b' p c, (added.resetBarrier b).EdgeAt b' p c ↔ b' ≠ b ∧ added.EdgeAt b' p c := by
      intro b' p c
      unfold EdgeAt
      rw [mem_producers_resetBarrier, mem_consumers_resetBarrier]
      tauto
    intro p c
    constructor
    · rintro ⟨b', hedge⟩
      obtain ⟨-, hedge⟩ := (hreset b' p c).mp hedge
      by_cases hb' : b' < s.getNumOfBarrierOps
      · exact ⟨b', (hadd.edgeAt_iff hb').mp hedge⟩
      · exact ⟨b, (hlinks p c).mp ((hadd.links p c).mp ⟨b', Nat.le_of_not_lt hb', hedge⟩)⟩
    · rintro ⟨b', hedge⟩
      have hb' := (h.producer_lt hedge.1).1
      by_cases heq : b' = b
      · obtain ⟨new, hnew, hedge⟩ := (hadd.links p c).mpr ((hlinks p c).mpr (heq ▸ hedge))
        exact ⟨new, (hreset new p c).mpr ⟨Nat.ne_of_gt (Nat.lt_of_lt_of_le hb hnew), hedge⟩⟩
      · exact ⟨b', (hreset b' p c).mpr ⟨heq, (hadd.edgeAt_iff hb').mpr hedge⟩⟩

end

section
variable {config : LegalizationConfig} {s s' : BarrierInfo} {b n : ℕ} {declarations : List ℕ}

def Declared (s : BarrierInfo) (declarations : List ℕ) : Prop :=
  declarations.Nodup ∧ ∀ b, b ∈ declarations ↔ b < s.getNumOfBarrierOps

def SlotsAt (config : LegalizationConfig) (s : BarrierInfo) (b : ℕ) (slots : ℕ → ℕ → Prop) : Prop :=
  slots (getProducerSlotCount config s b) (getConsumerSlotCount config s b)

theorem HasRows.slotsAt_iff {producers consumers : TaskSet} {slots : ℕ → ℕ → Prop} (h : HasRows s b producers consumers) :
    SlotsAt config s b slots ↔ slots (slotCount config producers) (slotCount config consumers) := by
  unfold SlotsAt getProducerSlotCount getConsumerSlotCount
  rw [slotCount_congr h.1, slotCount_congr h.2]

structure Visited (config : LegalizationConfig) (after : ℕ → ℕ → Prop) (s s' : BarrierInfo) (b : ℕ) : Prop where
  consistent : s'.Consistent
  tasks : s'.getNumOfTasks = s.getNumOfTasks
  barriers : s.getNumOfBarrierOps ≤ s'.getNumOfBarrierOps
  others : ∀ b' < s.getNumOfBarrierOps, b' ≠ b → HasRows s' b' (s.getBarrierProducers b') (s.getBarrierConsumers b')
  settled : ∀ b' < s'.getNumOfBarrierOps, b' = b ∨ s.getNumOfBarrierOps ≤ b' → SlotsAt config s' b' after
  edges : ∀ p c, s'.Edge p c ↔ s.Edge p c

theorem visited_refl {after : ℕ → ℕ → Prop} (h : s.Consistent) (hafter : SlotsAt config s b after) :
    Visited config after s s b := by
  refine ⟨h, rfl, Nat.le_refl _, fun _ _ _ => ⟨fun _ => Iff.rfl, fun _ => Iff.rfl⟩, ?_, fun _ _ => Iff.rfl⟩
  rintro b' hb' (rfl | hge)
  · exact hafter
  · exact absurd hb' (Nat.not_lt.mpr hge)

theorem Replaced.visited {newBarriers : List (TaskSet × TaskSet)} {after : ℕ → ℕ → Prop}
    (h : Replaced s s' b newBarriers) (hempty : after 0 0)
    (hadded : ∀ newBarrier ∈ newBarriers, after (slotCount config newBarrier.1) (slotCount config newBarrier.2)) :
    Visited config after s s' b := by
  refine ⟨h.consistent, h.tasks, h.barriers, h.others, ?_, h.edges⟩
  rintro b' hb' (rfl | hge)
  · rw [h.emptied.slotsAt_iff, slotCount_empty (fun _ => not_mem_empty)]
    exact hempty
  · obtain ⟨newBarrier, hmem, hrows⟩ := h.added b' hge hb'
    rw [hrows.slotsAt_iff]
    exact hadded newBarrier hmem

structure Walked (config : LegalizationConfig) (after : ℕ → ℕ → Prop) (s s' : BarrierInfo) : Prop where
  consistent : s'.Consistent
  tasks : s'.getNumOfTasks = s.getNumOfTasks
  barriers : s.getNumOfBarrierOps ≤ s'.getNumOfBarrierOps
  settled : ∀ b < s'.getNumOfBarrierOps, SlotsAt config s' b after
  edges : ∀ p c, s'.Edge p c ↔ s.Edge p c

theorem walkBarriers_spec {visit : BarrierInfo → ℕ → BarrierInfo} {before after : ℕ → ℕ → Prop}
    (hvisit : ∀ s b, s.Consistent → s.getNumOfTasks = n → b < s.getNumOfBarrierOps → SlotsAt config s b before →
      Visited config after s (visit s b) b)
    (h : s.Consistent) (htasks : s.getNumOfTasks = n) (hnodup : declarations.Nodup)
    (hbefore : ∀ b ∈ declarations, b < s.getNumOfBarrierOps ∧ SlotsAt config s b before)
    (hafter : ∀ b < s.getNumOfBarrierOps, b ∉ declarations → SlotsAt config s b after) :
    Walked config after s (walkBarriers visit s declarations).1 ∧ (walkBarriers visit s declarations).2.Nodup ∧
      ∀ b, b ∈ (walkBarriers visit s declarations).2 ↔
        b ∈ declarations ∨ (s.getNumOfBarrierOps ≤ b ∧ b < (walkBarriers visit s declarations).1.getNumOfBarrierOps) := by
  induction declarations generalizing s with
  | nil =>
    refine ⟨⟨h, rfl, Nat.le_refl _, fun b hb => hafter b hb not_mem_nil, fun _ _ => Iff.rfl⟩, nodup_nil, ?_⟩
    intro b
    constructor
    · exact fun hb => absurd hb not_mem_nil
    · rintro (hb | ⟨hge, hlt⟩)
      · exact hb
      · exact absurd hlt (Nat.not_lt.mpr hge)
  | cons b declarations ih =>
    obtain ⟨hb, hnodup⟩ := nodup_cons.mp hnodup
    obtain ⟨⟨hlt, hslots⟩, hbefore⟩ := forall_mem_cons.mp hbefore
    have hvisited := hvisit s b h htasks hlt hslots
    have hothers : ∀ b' < s.getNumOfBarrierOps, b' ≠ b → ∀ slots, SlotsAt config s b' slots →
        SlotsAt config (visit s b) b' slots := fun b' hb' hne slots hslots =>
      (hvisited.others b' hb' hne).slotsAt_iff.mpr hslots
    have hbefore' : ∀ b' ∈ declarations, b' < (visit s b).getNumOfBarrierOps ∧ SlotsAt config (visit s b) b' before := by
      intro b' hb'
      obtain ⟨hlt', hslots'⟩ := hbefore b' hb'
      have hne : b' ≠ b := fun heq => hb (heq ▸ hb')
      exact ⟨Nat.lt_of_lt_of_le hlt' hvisited.barriers, hothers b' hlt' hne _ hslots'⟩
    have hafter' : ∀ b' < (visit s b).getNumOfBarrierOps, b' ∉ declarations → SlotsAt config (visit s b) b' after := by
      intro b' hb' hout
      by_cases hnew : b' = b ∨ s.getNumOfBarrierOps ≤ b'
      · exact hvisited.settled b' hb' hnew
      · obtain ⟨hne, hold⟩ := not_or.mp hnew
        have hold := Nat.lt_of_not_le hold
        apply hothers b' hold hne
        apply hafter b' hold
        exact fun hmem => (mem_cons.mp hmem).elim hne hout
    obtain ⟨hwalked, hnodup', hmem⟩ := ih hvisited.consistent (hvisited.tasks.trans htasks) hnodup hbefore' hafter'
    have hbarriers := hwalked.barriers
    have hvisitedBarriers := hvisited.barriers
    refine ⟨⟨hwalked.consistent, hwalked.tasks.trans hvisited.tasks, Nat.le_trans hvisitedBarriers hbarriers, hwalked.settled,
      fun p c => (hwalked.edges p c).trans (hvisited.edges p c)⟩, ?_, ?_⟩
    · apply nodup_append.mpr ⟨nodup_range', nodup_cons.mpr ⟨?_, hnodup'⟩, ?_⟩
      · rw [hmem, not_or]
        exact ⟨hb, fun hnew => Nat.not_lt.mpr hnew.1 (Nat.lt_of_lt_of_le hlt hvisitedBarriers)⟩
      · rintro b' hnew b'' hold rfl
        rw [mem_range'_1] at hnew
        rcases mem_cons.mp hold with rfl | hold
        · omega
        · rcases (hmem b').mp hold with hold | hold
          · have := (hbefore b' hold).1
            omega
          · omega
    · intro b'
      change b' ∈ List.range' _ _ ++ b :: (walkBarriers visit (visit s b) declarations).2 ↔ _ ∨ (_ ∧ b' <
        (walkBarriers visit (visit s b) declarations).1.getNumOfBarrierOps)
      rw [mem_append, mem_range'_1, mem_cons, mem_cons, hmem]
      by_cases hdeclared : b' ∈ declarations
      · simp [hdeclared]
      · simp only [hdeclared, false_or, or_false]
        omega

end

section
variable {config : LegalizationConfig} {maxSlotsSum : ℕ} {maxSlotsSumLimitEnabled : Bool} {s : BarrierInfo} {b : ℕ}
  {declarations : List ℕ}

theorem variantBatches_spec {tasks : TaskSet} (hmore : config.availableSlots < slotCount config tasks)
    (hslots : ∀ t ∈ tasks, (config.taskOp t).numOfSlotsUsed ≤ config.availableSlots) :
    (∀ t, (∃ batch ∈ variantBatches config tasks, t ∈ batch) ↔ t ∈ tasks) ∧
      ∀ batch ∈ variantBatches config tasks, slotCount config batch ≤ config.availableSlots := by
  have hsome : ∃ t, t ∈ tasks := by
    by_contra hnone
    rw [slotCount_empty (not_exists.mp hnone)] at hmore
    exact Nat.not_lt_zero _ hmore
  obtain ⟨t, ht⟩ := hsome
  constructor
  · exact (@createLegalVariantBatches_spec { config with considerTaskExecutorType := false } tasks t ht hslots).1.members
  · exact @slotCount_createLegalVariantBatches_le { config with considerTaskExecutorType := false } tasks hslots

def SumLegal (maxSlotsSum : ℕ) (maxSlotsSumLimitEnabled : Bool) (producerNum consumerNum : ℕ) : Prop :=
  maxSlotsSumLimitEnabled ∧ producerNum + consumerNum ≤ maxSlotsSum

theorem splitBarrierProducersOf_visited (h : s.Consistent) (hb : b < s.getNumOfBarrierOps)
    (hslots : ∀ t < s.getNumOfTasks, (config.taskOp t).numOfSlotsUsed ≤ config.availableSlots)
    (hmore : config.availableSlots < getProducerSlotCount config s b) :
    Visited config (fun producerNum consumerNum => SumLegal maxSlotsSum maxSlotsSumLimitEnabled producerNum consumerNum ∨
      producerNum ≤ config.availableSlots) s (splitBarrierProducersOf config s b) b := by
  obtain ⟨hmembers, hlegal⟩ := variantBatches_spec hmore (fun t ht => hslots t (h.producer_lt ht).2)
  apply Replaced.visited
  · apply replaceBarrier_spec h hb
    · intro p c
      simp only [mem_map, exists_exists_and_eq_and]
      simp only [← and_assoc, exists_and_right, hmembers]
      rfl
    · simp only [forall_mem_map]
      exact fun batch hbatch t ht => (h.producer_lt ((hmembers t).mp ⟨batch, hbatch, ht⟩)).2
    · simp only [forall_mem_map]
      exact fun _ _ t ht => (h.consumer_lt ht).2
  · exact .inr (Nat.zero_le _)
  · simp only [forall_mem_map]
    exact fun batch hbatch => .inr (hlegal batch hbatch)

theorem splitBarrierConsumersOf_visited (h : s.Consistent) (hb : b < s.getNumOfBarrierOps)
    (hslots : ∀ t < s.getNumOfTasks, (config.taskOp t).numOfSlotsUsed ≤ config.availableSlots)
    (hproducers : getProducerSlotCount config s b ≤ config.availableSlots)
    (hmore : config.availableSlots < getConsumerSlotCount config s b) :
    Visited config (fun producerNum consumerNum => SumLegal maxSlotsSum maxSlotsSumLimitEnabled producerNum consumerNum ∨
      (producerNum ≤ config.availableSlots ∧ consumerNum ≤ config.availableSlots)) s (splitBarrierConsumersOf config s b) b := by
  obtain ⟨hmembers, hlegal⟩ := variantBatches_spec hmore (fun t ht => hslots t (h.consumer_lt ht).2)
  apply Replaced.visited
  · apply replaceBarrier_spec h hb
    · intro p c
      simp only [mem_map, exists_exists_and_eq_and]
      constructor
      · rintro ⟨batch, hbatch, hp, hc⟩
        exact ⟨hp, (hmembers c).mp ⟨batch, hbatch, hc⟩⟩
      · rintro ⟨hp, hc⟩
        obtain ⟨batch, hbatch, hc⟩ := (hmembers c).mpr hc
        exact ⟨batch, hbatch, hp, hc⟩
    · simp only [forall_mem_map]
      exact fun _ _ t ht => (h.producer_lt ht).2
    · simp only [forall_mem_map]
      exact fun batch hbatch t ht => (h.consumer_lt ((hmembers t).mp ⟨batch, hbatch, ht⟩)).2
  · exact .inr ⟨Nat.zero_le _, Nat.zero_le _⟩
  · simp only [forall_mem_map]
    exact fun batch hbatch => .inr ⟨hproducers, hlegal batch hbatch⟩

theorem splitBarrierProducers_spec (h : s.Consistent) (hdeclared : Declared s declarations)
    (hslots : ∀ t < s.getNumOfTasks, (config.taskOp t).numOfSlotsUsed ≤ config.availableSlots) :
    Walked config (fun producerNum consumerNum => SumLegal maxSlotsSum maxSlotsSumLimitEnabled producerNum consumerNum ∨
        producerNum ≤ config.availableSlots) s
        (splitBarrierProducers config maxSlotsSum maxSlotsSumLimitEnabled s declarations).1 ∧
      Declared (splitBarrierProducers config maxSlotsSum maxSlotsSumLimitEnabled s declarations).1
        (splitBarrierProducers config maxSlotsSum maxSlotsSumLimitEnabled s declarations).2 := by
  obtain ⟨hnodup, hmem⟩ := hdeclared
  have hwalk := @walkBarriers_spec config s s.getNumOfTasks declarations (fun s barrierInd =>
    if maxSlotsSumLimitEnabled ∧ getProducerSlotCount config s barrierInd + getConsumerSlotCount config s barrierInd ≤
      maxSlotsSum then s
    else if getProducerSlotCount config s barrierInd ≤ config.availableSlots then s
    else splitBarrierProducersOf config s barrierInd) (fun _ _ => True) (fun producerNum consumerNum =>
      SumLegal maxSlotsSum maxSlotsSumLimitEnabled producerNum consumerNum ∨ producerNum ≤ config.availableSlots) ?_ h rfl
    hnodup (fun b hb => ⟨(hmem b).mp hb, trivial⟩) (fun b hb hout => absurd ((hmem b).mpr hb) hout)
  · refine ⟨hwalk.1, hwalk.2.1, fun b => (hwalk.2.2 b).trans ?_⟩
    have hbarriers := hwalk.1.barriers
    rw [hmem]
    unfold splitBarrierProducers
    dsimp only
    omega
  · intro s b h htasks hb _
    split_ifs with hsum hnum
    · exact visited_refl h (.inl hsum)
    · exact visited_refl h (.inr hnum)
    · exact splitBarrierProducersOf_visited h hb (htasks.symm ▸ hslots) (Nat.lt_of_not_le hnum)

theorem splitBarrierConsumers_spec (h : s.Consistent) (hdeclared : Declared s declarations)
    (hslots : ∀ t < s.getNumOfTasks, (config.taskOp t).numOfSlotsUsed ≤ config.availableSlots)
    (hproducers : ∀ b < s.getNumOfBarrierOps, SlotsAt config s b (fun producerNum consumerNum =>
      SumLegal maxSlotsSum maxSlotsSumLimitEnabled producerNum consumerNum ∨ producerNum ≤ config.availableSlots)) :
    Walked config (fun producerNum consumerNum => SumLegal maxSlotsSum maxSlotsSumLimitEnabled producerNum consumerNum ∨
        (producerNum ≤ config.availableSlots ∧ consumerNum ≤ config.availableSlots)) s
        (splitBarrierConsumers config maxSlotsSum maxSlotsSumLimitEnabled s declarations).1 ∧
      Declared (splitBarrierConsumers config maxSlotsSum maxSlotsSumLimitEnabled s declarations).1
        (splitBarrierConsumers config maxSlotsSum maxSlotsSumLimitEnabled s declarations).2 := by
  obtain ⟨hnodup, hmem⟩ := hdeclared
  have hwalk := @walkBarriers_spec config s s.getNumOfTasks declarations (fun s barrierInd =>
    if maxSlotsSumLimitEnabled ∧ getProducerSlotCount config s barrierInd + getConsumerSlotCount config s barrierInd ≤
      maxSlotsSum then s
    else if getConsumerSlotCount config s barrierInd ≤ config.availableSlots then s
    else splitBarrierConsumersOf config s barrierInd) (fun producerNum consumerNum =>
      SumLegal maxSlotsSum maxSlotsSumLimitEnabled producerNum consumerNum ∨ producerNum ≤ config.availableSlots)
    (fun producerNum consumerNum => SumLegal maxSlotsSum maxSlotsSumLimitEnabled producerNum consumerNum ∨
      (producerNum ≤ config.availableSlots ∧ consumerNum ≤ config.availableSlots)) ?_ h rfl hnodup
    (fun b hb => ⟨(hmem b).mp hb, hproducers b ((hmem b).mp hb)⟩) (fun b hb hout => absurd ((hmem b).mpr hb) hout)
  · refine ⟨hwalk.1, hwalk.2.1, fun b => (hwalk.2.2 b).trans ?_⟩
    have hbarriers := hwalk.1.barriers
    rw [hmem]
    unfold splitBarrierConsumers
    dsimp only
    omega
  · intro s b h htasks hb hbefore
    split_ifs with hsum hnum
    · exact visited_refl h (.inl hsum)
    · exact visited_refl h (.inr ⟨hbefore.resolve_left hsum, hnum⟩)
    · exact splitBarrierConsumersOf_visited h hb (htasks.symm ▸ hslots) (hbefore.resolve_left hsum) (Nat.lt_of_not_le hnum)

/-- Every barrier is within its slots afterwards, and each pair of tasks has a common barrier exactly when it had one. -/
theorem splitBarriersWithExceedingVariantCount_spec (h : s.Consistent) (hdeclared : Declared s declarations)
    (hslots : ∀ t < s.getNumOfTasks, (config.taskOp t).numOfSlotsUsed ≤ config.availableSlots) :
    let split := splitBarriersWithExceedingVariantCount config maxSlotsSum maxSlotsSumLimitEnabled s declarations
    split.1.Consistent ∧ Declared split.1 split.2 ∧
      (∀ b < split.1.getNumOfBarrierOps,
        (maxSlotsSumLimitEnabled ∧ getProducerSlotCount config split.1 b + getConsumerSlotCount config split.1 b ≤ maxSlotsSum) ∨
        (getProducerSlotCount config split.1 b ≤ config.availableSlots ∧
          getConsumerSlotCount config split.1 b ≤ config.availableSlots)) ∧
      ∀ p c, split.1.Edge p c ↔ s.Edge p c := by
  obtain ⟨hproducers, hdeclared⟩ := @splitBarrierProducers_spec config maxSlotsSum maxSlotsSumLimitEnabled s declarations h
    hdeclared hslots
  obtain ⟨hconsumers, hdeclared⟩ := splitBarrierConsumers_spec hproducers.consistent hdeclared
    (hproducers.tasks.symm ▸ hslots) hproducers.settled
  exact ⟨hconsumers.consistent, hdeclared, hconsumers.settled, fun p c =>
    (hconsumers.edges p c).trans (hproducers.edges p c)⟩

def oneSlot : LegalizationConfig := ⟨fun _ => ⟨1, .dpu⟩, 1, false, false⟩

def twoProducers : BarrierInfo :=
  addBarrier BarrierInfo.empty.addNewTaskOp.addNewTaskOp.addNewTaskOp (SmallSet.ofList [0, 1]) (SmallSet.ofList [2])

theorem twoProducers_consistent : twoProducers.Consistent := by
  have h := consistent_empty.addNewTaskOp.addNewTaskOp.addNewTaskOp
  exact (addBarrier_withLinks h (by decide) (by decide)).consistent

theorem splitBarriersWithExceedingVariantCount_spec_twoProducers :
    let split := splitBarriersWithExceedingVariantCount oneSlot 2 false twoProducers [0]
    split.2 = [1, 2, 0] ∧ split.1.Consistent ∧ Declared split.1 split.2 ∧
      (∀ b < split.1.getNumOfBarrierOps,
        (false ∧ getProducerSlotCount oneSlot split.1 b + getConsumerSlotCount oneSlot split.1 b ≤ 2) ∨
        (getProducerSlotCount oneSlot split.1 b ≤ 1 ∧ getConsumerSlotCount oneSlot split.1 b ≤ 1)) ∧
      ∀ p c, split.1.Edge p c ↔ twoProducers.Edge p c := by
  refine ⟨by decide, ?_⟩
  have hdeclared : Declared twoProducers [0] := by
    refine ⟨by decide, fun b => ?_⟩
    rw [mem_singleton]
    exact Nat.lt_one_iff.symm
  exact @splitBarriersWithExceedingVariantCount_spec oneSlot 2 false twoProducers [0] twoProducers_consistent hdeclared
    (fun _ _ => Nat.le_refl 1)

end

end NpuCompiler.Barrier
