import NpuCompiler.Barrier.ExplicitDependencies

namespace NpuCompiler.Barrier

open BarrierInfo FifoBarrierInfo GraphSplit List

section
variable (config : OptimizeConfig) (origWaitBarriersMap : List TaskSet)

def haveSameExecutorKind (taskInds : List ℕ) : Option ExecutorKind :=
  taskInds.head?.bind fun firstTaskInd =>
    let firstTaskExecKind := (config.taskOp firstTaskInd).executorKind
    if taskInds.all fun taskInd => (config.taskOp taskInd).executorKind = firstTaskExecKind then some firstTaskExecKind else none

def canBarProducersControlBarConsumers (producers consumers : List ℕ) : Bool :=
  if consumers = [] then true
  else if producers = [] then false
  else if haveSameExecutorKind config consumers ≠ some .dmaNN ∨ haveSameExecutorKind config producers ≠ some .dmaNN then false
  else if consumers.min?.getD 0 ≤ producers.max?.getD 0 then false
  else !producers.any fun producer => consumers.any fun consumer =>
    (row origWaitBarriersMap producer).toList.isPerm (row origWaitBarriersMap consumer).toList

def canBarriersBeMerged (producersA consumersA producersB consumersB : TaskSet) : Bool :=
  canBarProducersControlBarConsumers config origWaitBarriersMap producersA.toList
      (consumersB.toList.filter (· ∉ consumersA)) &&
    canBarProducersControlBarConsumers config origWaitBarriersMap producersB.toList
      (consumersA.toList.filter (· ∉ consumersB))

def mergeBarrier (s : BarrierInfo) (barrierInd nextBarrierInd : ℕ) : BarrierInfo :=
  ((s.addProducers barrierInd (s.getBarrierProducers nextBarrierInd).toList).addConsumers barrierInd
    (s.getBarrierConsumers nextBarrierInd).toList).resetBarrier nextBarrierInd

/-- The later barriers are merged into `barrierInd`, of which `producersA` and `consumersA` are the tasks. -/
def mergeNext (barrierInd : ℕ) : List ℕ → TaskSet → TaskSet → BarrierInfo → BarrierInfo
  | [], _, _, s => s
  | nextBarrierInd :: later, producersA, consumersA, s =>
    let producersB := s.getBarrierProducers nextBarrierInd
    let consumersB := s.getBarrierConsumers nextBarrierInd
    if producersB.toList = [] ∨ consumersB.toList = [] then mergeNext barrierInd later producersA consumersA s
    else if consumersA.toList.max?.getD 0 < producersB.toList.min?.getD 0 then s
    else if canBarriersBeMerged config origWaitBarriersMap producersA consumersA producersB consumersB then
      mergeNext barrierInd later (producersA.union producersB) (consumersA.union consumersB)
        (mergeBarrier s barrierInd nextBarrierInd)
    else mergeNext barrierInd later producersA consumersA s

def mergeOrdered : List ℕ → BarrierInfo → BarrierInfo
  | [], s => s
  | barrierInd :: later, s =>
    let producersA := s.getBarrierProducers barrierInd
    let consumersA := s.getBarrierConsumers barrierInd
    mergeOrdered later (if producersA.toList = [] ∨ consumersA.toList = [] then s
      else mergeNext config origWaitBarriersMap barrierInd later producersA consumersA s)

/-- The barriers with producers in the order of their largest one. -/
def orderByLatestProducer (s : BarrierInfo) (barriers : List ℕ) : List ℕ :=
  (sortedOf (barriers.filterMap fun barrierInd =>
    (s.getBarrierProducers barrierInd).toList.max?.map fun maxProducer => toLex (maxProducer, barrierInd))).map (ofLex · |>.2)

def mergeBarriersInBlock (s : FifoBarrierInfo) (taskBlockIndex : ℕ) : Except String FifoBarrierInfo := do
  let blockUpdateBarriers ← s.getBarriersForTaskBlock config taskBlockIndex true false true
  return { s with maps := mergeOrdered config origWaitBarriersMap (orderByLatestProducer s.maps blockUpdateBarriers) s.maps }

def mergeBarriers (s : FifoBarrierInfo) : Except String FifoBarrierInfo :=
  (List.range config.split.getControlGraphBlockCount).foldlM (mergeBarriersInBlock config origWaitBarriersMap) s

/-- The steps of the barrier optimization pass from the collection of the wait barriers to the merge. -/
def optimizeDmaDependencies (s : FifoBarrierInfo) : Except String FifoBarrierInfo := do
  let origWaitBarriersMap := s.maps.consume.right
  let s ← removeRedundantBarrierProducersAndConsumers config true s
  let s ← removeExplicitDependencies config s
  mergeBarriers config origWaitBarriersMap s

def IsDma (taskInd : ℕ) : Prop := (config.taskOp taskInd).executorKind = .dmaNN

/-- The merge may order the tasks. -/
def MayControl (p c : ℕ) : Prop := p < c ∧ IsDma config p ∧ IsDma config c

structure Merging (s s' : BarrierInfo) : Prop where
  consistent : s'.Consistent
  barriers : s'.getNumOfBarrierOps = s.getNumOfBarrierOps
  kept : ∀ p c, s.Edge p c → s'.Edge p c
  added : ∀ p c, s'.Edge p c → s.Edge p c ∨ MayControl config p c

structure KeepsTaskOrder (s s' : BarrierInfo) : Prop where
  consistent : s'.Consistent
  order : ∀ p c, s.OrderedBy (QueueOrder config.getTaskQueueType) p c → s'.OrderedBy (QueueOrder config.getTaskQueueType) p c
  lt : ∀ p c, s'.OrderedBy (QueueOrder config.getTaskQueueType) p c → p < c
  added : ∀ p c, s'.Edge p c → s.Edge p c ∨ MayControl config p c

end

section
variable {config : OptimizeConfig} {orig : List TaskSet} {s s' s'' : BarrierInfo} {b n p c : ℕ}
  {producersA consumersA : TaskSet}

theorem isDma_of_sameKind {taskInds : List ℕ} (h : haveSameExecutorKind config taskInds = some .dmaNN) : ∀ t ∈ taskInds, IsDma config t := by
  obtain ⟨first, -, h⟩ := Option.bind_eq_some_iff.mp h
  dsimp only at h
  split at h
  case isTrue hall =>
    intro t ht
    exact (of_decide_eq_true (all_eq_true.mp hall t ht)).trans (Option.some.inj h)
  case isFalse => cases h

theorem mayControl {producers consumers : List ℕ}
    (h : canBarProducersControlBarConsumers config orig producers consumers = true) (hp : p ∈ producers)
    (hc : c ∈ consumers) : MayControl config p c := by
  unfold canBarProducersControlBarConsumers at h
  rw [if_neg (ne_nil_of_mem hc), if_neg (ne_nil_of_mem hp)] at h
  split_ifs at h with hkinds hlt
  push Not at hkinds
  refine ⟨?_, isDma_of_sameKind hkinds.2 p hp, isDma_of_sameKind hkinds.1 c hc⟩
  have hle := le_max?_getD_of_mem hp (k := 0)
  have hge := min?_getD_le_of_mem hc (k := 0)
  omega

theorem merging_refl (h : s.Consistent) : Merging config s s := ⟨h, rfl, fun _ _ => id, fun _ _ => .inl⟩

theorem Merging.trans (h : Merging config s s') (h' : Merging config s' s'') : Merging config s s'' :=
  ⟨h'.consistent, h'.barriers.trans h.barriers, fun p c hedge => h'.kept p c (h.kept p c hedge),
    fun p c hedge => (h'.added p c hedge).elim (h.added p c) .inr⟩

structure Merged (s s' : BarrierInfo) (b n : ℕ) : Prop where
  consistent : s'.Consistent
  barriers : s'.getNumOfBarrierOps = s.getNumOfBarrierOps
  producers : ∀ b' t, t ∈ s'.getBarrierProducers b' ↔ b' ≠ n ∧ (b' = b ∧ t ∈ s.getBarrierProducers n ∨ t ∈ s.getBarrierProducers b')
  consumers : ∀ b' t, t ∈ s'.getBarrierConsumers b' ↔ b' ≠ n ∧ (b' = b ∧ t ∈ s.getBarrierConsumers n ∨ t ∈ s.getBarrierConsumers b')

section
variable (h : s.Consistent) (hb : b < s.getNumOfBarrierOps)
include h hb

theorem mergeBarrier_spec : Merged s (mergeBarrier s b n) b n := by
  have hproduce := addProducers_spec h hb (fun t ht => (h.producer_lt (b := n) ht).2)
  have hconsume := addConsumers_spec hproduce.consistent (hproduce.barriers.symm ▸ hb)
    (fun t ht => hproduce.tasks.symm ▸ (h.consumer_lt (b := n) ht).2)
  refine ⟨hconsume.consistent.resetBarrier, numOfBarrierOps_resetBarrier.trans (hconsume.barriers.trans hproduce.barriers), ?_, ?_⟩
  · intro b' t
    unfold mergeBarrier
    rw [mem_producers_resetBarrier, hconsume.producers, hproduce.producers]
    rfl
  · intro b' t
    unfold mergeBarrier
    rw [mem_consumers_resetBarrier, hconsume.consumers, hproduce.consumers]
    rfl

section
variable (hproducers : ∀ t, t ∈ producersA ↔ t ∈ s.getBarrierProducers b)
  (hconsumers : ∀ t, t ∈ consumersA ↔ t ∈ s.getBarrierConsumers b)
include hproducers hconsumers

/-- A new dependency leads from a task of one of the two barriers to one of the other that its own barrier does not have. -/
theorem mergeBarrier_merging (hne : b ≠ n) (hmerged : canBarriersBeMerged config orig producersA consumersA
    (s.getBarrierProducers n) (s.getBarrierConsumers n) = true) : Merging config s (mergeBarrier s b n) := by
  have hspec := @mergeBarrier_spec s b n h hb
  obtain ⟨hforth, hback⟩ := Bool.and_eq_true_iff.mp hmerged
  refine ⟨hspec.consistent, hspec.barriers, ?_, ?_⟩
  · rintro p c ⟨b', hp, hc⟩
    by_cases hb' : b' = n
    · exact ⟨b, (hspec.producers b p).mpr ⟨hne, .inl ⟨rfl, hb' ▸ hp⟩⟩, (hspec.consumers b c).mpr ⟨hne, .inl ⟨rfl, hb' ▸ hc⟩⟩⟩
    · exact ⟨b', (hspec.producers b' p).mpr ⟨hb', .inr hp⟩, (hspec.consumers b' c).mpr ⟨hb', .inr hc⟩⟩
  · rintro p c ⟨b', hp', hc'⟩
    obtain ⟨-, ⟨rfl, hp⟩ | hp⟩ := (hspec.producers b' p).mp hp'
    · obtain ⟨-, ⟨-, hc⟩ | hc⟩ := (hspec.consumers b' c).mp hc'
      · exact .inl ⟨n, hp, hc⟩
      · by_cases hold : c ∈ s.getBarrierConsumers n
        · exact .inl ⟨n, hp, hold⟩
        · exact .inr (mayControl hback hp (mem_filter.mpr ⟨(hconsumers c).mpr hc, by simpa using hold⟩))
    · obtain ⟨-, ⟨rfl, hc⟩ | hc⟩ := (hspec.consumers b' c).mp hc'
      · by_cases hold : c ∈ s.getBarrierConsumers b'
        · exact .inl ⟨b', hp, hold⟩
        · exact .inr (mayControl hforth ((hproducers p).mpr hp) (mem_filter.mpr ⟨hc, by simpa [hconsumers] using hold⟩))
      · exact .inl ⟨b', hp, hc⟩

theorem mergeNext_merging {later : List ℕ} (hlater : b ∉ later) :
    Merging config s (mergeNext config orig b later producersA consumersA s) := by
  induction later generalizing s producersA consumersA with
  | nil => exact merging_refl h
  | cons n later ih =>
    rw [mem_cons, not_or] at hlater
    obtain ⟨hne, hlater⟩ := hlater
    unfold mergeNext
    dsimp only
    split_ifs with hempty hend hmerged
    · exact ih h hb hproducers hconsumers hlater
    · exact merging_refl h
    · have hspec := @mergeBarrier_spec s b n h hb
      apply (mergeBarrier_merging h hb hproducers hconsumers hne hmerged).trans
      apply ih hspec.consistent (hspec.barriers.symm ▸ hb) ?_ ?_ hlater
      · intro t
        rw [SmallSet.mem_union, hspec.producers, hproducers]
        simp [hne, or_comm]
      · intro t
        rw [SmallSet.mem_union, hspec.consumers, hconsumers]
        simp [hne, or_comm]
    · exact ih h hb hproducers hconsumers hlater

end

end

theorem mergeOrdered_merging {barriers : List ℕ} (h : s.Consistent) (hnodup : barriers.Nodup) :
    Merging config s (mergeOrdered config orig barriers s) := by
  induction barriers generalizing s with
  | nil => exact merging_refl h
  | cons b later ih =>
    obtain ⟨hnot, hnodup⟩ := nodup_cons.mp hnodup
    unfold mergeOrdered
    dsimp only
    split_ifs with hempty
    · exact ih h hnodup
    · push Not at hempty
      obtain ⟨p, hp⟩ := exists_mem_of_ne_nil _ hempty.1
      have hmerging := @mergeNext_merging config orig s b _ _ h (h.producer_lt hp).1 (fun _ => .rfl) (fun _ => .rfl) later hnot
      exact hmerging.trans (ih hmerging.consistent hnodup)

theorem nodup_orderByLatestProducer {barriers : List ℕ} : (orderByLatestProducer s barriers).Nodup := by
  have hlatest {pair : ℕ ×ₗ ℕ} (hpair : pair ∈ sortedOf (barriers.filterMap fun barrierInd =>
      (s.getBarrierProducers barrierInd).toList.max?.map fun maxProducer => toLex (maxProducer, barrierInd))) :
      (s.getBarrierProducers (ofLex pair).2).toList.max? = some (ofLex pair).1 := by
    obtain ⟨b, -, hmax⟩ := mem_filterMap.mp (mem_sortedOf.mp hpair)
    obtain ⟨maxProducer, hlatest, rfl⟩ := Option.map_eq_some_iff.mp hmax
    exact hlatest
  apply Nodup.map_on
  · intro x hx y hy hxy
    have hx' := hlatest hx
    rw [hxy, hlatest hy] at hx'
    exact ofLex.injective (Prod.ext (Option.some.inj hx').symm hxy)
  · exact (pairwise_sortedOf _).imp ne_of_lt

theorem mergeBarriers_merging (h : s.Consistent) :
    ∃ s', mergeBarriers config orig (ofMaps s) = .ok (ofMaps s') ∧ Merging config s s' := by
  obtain ⟨_, hrun, ⟨s', rfl, hmerging⟩, -⟩ := @foldlM_establishes _ _ _
    (fun st => ∃ maps, st = ofMaps maps ∧ Merging config s maps) (fun _ _ => True)
    (List.range config.split.getControlGraphBlockCount) (ofMaps s) (mergeBarriersInBlock config orig)
    ⟨s, rfl, merging_refl h⟩ (by
      rintro k hk _ ⟨maps, rfl, hmaps⟩
      obtain ⟨lo, last, hrange⟩ := @exists_range config.split maps k (mem_range.mp hk) true false
      obtain ⟨barriers, hbarriers, -⟩ := @getBarriersForTaskBlock_spec config (ofMaps maps) k lo last true false true hrange
      have hmerging := @mergeOrdered_merging config orig maps _ hmaps.consistent (@nodup_orderByLatestProducer maps barriers)
      refine ⟨_, ?_, ⟨_, rfl, hmaps.trans hmerging⟩, trivial, fun _ _ => trivial⟩
      unfold mergeBarriersInBlock
      rw [hbarriers]
      exact congrArg Except.ok (ofMaps_update hmerging.barriers))
  exact ⟨s', hrun, hmerging⟩

/-- The steps end without an exception, close no cycle, and new dependencies are between DMAs only. -/
theorem optimizeDmaDependencies_keepsOrder (h : SplitGraph config s) :
    ∃ s', optimizeDmaDependencies config (ofMaps s) = .ok (ofMaps s') ∧ KeepsTaskOrder config s s' := by
  obtain ⟨s₁, hrun₁, h₁, hpruned⟩ := removeRedundant_run h true
  obtain ⟨s₂, hrun₂, hlightened, -⟩ := removeExplicit_run h₁
  obtain ⟨s₃, hrun₃, hmerging⟩ := @mergeBarriers_merging config s.consume.right s₂ hlightened.split.consistent
  have hadded (p c : ℕ) (hedge : s₃.Edge p c) : s.Edge p c ∨ MayControl config p c := by
    apply (hmerging.added p c hedge).imp_left
    rintro ⟨b, hp, hc⟩
    exact hpruned.edge ⟨b, hlightened.producers b p hp, hlightened.consumers b c hc⟩
  refine ⟨s₃, ?_, hmerging.consistent, ?_, ?_, hadded⟩
  · unfold optimizeDmaDependencies
    dsimp only
    rw [hrun₁]
    change Except.bind (removeExplicitDependencies _ _) _ = _
    rw [hrun₂]
    exact hrun₃
  · intro p c hpc
    have hpc₂ := hlightened.orderedBy_iff.mpr ((hpruned.orderedBy_iff h.topological queueOrder_lt).mpr hpc)
    exact hpc₂.mono fun p c hedge => .single (.inl (hmerging.kept p c hedge))
  · exact fun p c => orderedBy_lt (fun p c hedge => (hadded p c hedge).elim (h.topological p c) And.left) queueOrder_lt

/-- The barriers of the tasks 0 and 1 become one. -/
theorem optimizeDmaDependencies_twoBlocks : ∃ s', optimizeDmaDependencies twoBlocksConfig (ofMaps twoBlocks) = .ok (ofMaps s') ∧
    KeepsTaskOrder twoBlocksConfig twoBlocks s' ∧ (0 ∈ s'.getBarrierProducers 0 ∧ 1 ∈ s'.getBarrierProducers 0) ∧
      (s'.getBarrierProducers 1).size = 0 := by
  obtain ⟨s', hrun, hkeeps⟩ := optimizeDmaDependencies_keepsOrder twoBlocks_split
  have hresult : (match optimizeDmaDependencies twoBlocksConfig (ofMaps twoBlocks) with
      | .error _ => false
      | .ok s' => decide ((0 ∈ s'.maps.getBarrierProducers 0 ∧ 1 ∈ s'.maps.getBarrierProducers 0) ∧
        (s'.maps.getBarrierProducers 1).size = 0)) = true := by
    rfl
  rw [hrun] at hresult
  exact ⟨s', hrun, hkeeps, of_decide_eq_true hresult⟩

end

end NpuCompiler.Barrier
