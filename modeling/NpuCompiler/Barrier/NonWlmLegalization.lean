import NpuCompiler.Barrier.DescriptorFetchRuns
import NpuCompiler.Barrier.ExecutionGroups

namespace NpuCompiler.Barrier

open BarrierInfo FifoBarrierInfo List

section
variable (config : OptimizeConfig)

def legalizeBlock (execGroups : List (TaskQueueType × ExecutionGroupList)) (state : FifoBarrierInfo × Bool) (taskBlockIndex : ℕ) :
    Except String (FifoBarrierInfo × Bool) := do
  let (info, modified) ← createBarrierDependenciesForDescriptorFetchInNonWlm config taskBlockIndex execGroups state.1
  return (info, state.2 || modified)

def legalizeBlocks (state : FifoBarrierInfo × Bool) (execGroups : List (TaskQueueType × ExecutionGroupList)) :
    Except String (FifoBarrierInfo × Bool) :=
  (List.range config.split.getControlGraphBlockCount).foldlM (legalizeBlock config execGroups) state

/-- The loops of `legalizeScheduleForNonWlm`; tasks and barriers are put in order and verified behind them. The groups are collected
once, before the first block. -/
def legalizeExecutors (a : ExecutionGroupAnalysis) (s : FifoBarrierInfo) : Except String (FifoBarrierInfo × Bool) :=
  [a.createDPUTaskExecutionGroups, a.createSWTaskExecutionGroups].foldlM (legalizeBlocks config) (s, false)

/-- A graph that can be legalized further, in which the tasks are still ordered. -/
structure Legalized (s s' : BarrierInfo) : Prop where
  split : BlockSplit config s'
  twoSided : ∀ b, TwoSided s' b
  tasks : s'.getNumOfTasks = s.getNumOfTasks
  order : ∀ x y, s.OrderedBy (QueueOrder config.getTaskQueueType) x y → s'.OrderedBy (QueueOrder config.getTaskQueueType) x y

/-- The queues of the analysis hold tasks of their type in increasing order, and no first task is too large alone. -/
structure Analysed (a : ExecutionGroupAnalysis) (numOfTasks : ℕ) : Prop where
  sorted : ∀ entry ∈ a.taskQueueTypeMap, entry.2.Pairwise (· < ·)
  tasks : ∀ entry ∈ a.taskQueueTypeMap, ∀ t ∈ entry.2, t < numOfTasks ∧ config.getTaskQueueType t = entry.1
  firstFits : ∀ entry ∈ a.taskQueueTypeMap, a.kernelCounts.FirstFits entry.2 ∧ a.variantCounts.FirstFits entry.2

end

namespace GroupCounts

variable {c : GroupCounts} {execGroup queue : List ℕ} {counts : ℕ × ℕ}

theorem nonempty_taskExecutionGroups (h : execGroup = [] → counts = 0 ∧ c.FirstFits queue) :
    ∀ group ∈ c.taskExecutionGroups execGroup counts queue, group ≠ [] := by
  induction queue generalizing execGroup counts with
  | nil =>
    unfold taskExecutionGroups
    split_ifs with hnil
    · exact fun _ hgroup => absurd hgroup not_mem_nil
    · exact fun _ hgroup => mem_singleton.mp hgroup ▸ hnil
  | cons taskIdx queue ih =>
    unfold taskExecutionGroups
    dsimp only
    split_ifs with hexceeds
    · rw [forall_mem_cons]
      refine ⟨?_, ih fun hnil => absurd hnil (cons_ne_nil _ _)⟩
      intro hnil
      obtain ⟨rfl, hfits⟩ := h hnil
      exact hfits taskIdx rfl (by simpa using hexceeds)
    · exact ih fun hnil => absurd hnil (by simp)

end GroupCounts

section
variable {config : OptimizeConfig} {s s' s'' : BarrierInfo} {execGroups : List (TaskQueueType × ExecutionGroupList)}

theorem Legalized.trans (h : Legalized config s s') (h' : Legalized config s' s'') : Legalized config s s'' :=
  ⟨h'.split, h'.twoSided, h'.tasks.trans h.tasks, fun x y hxy => h'.order x y (h.order x y hxy)⟩

section
variable (h : BlockSplit config s) (htwo : ∀ b, TwoSided s b)
  (hgroups : ∀ entry ∈ execGroups, GroupsOf config s.getNumOfTasks entry.1 entry.2)
include h htwo hgroups

theorem createBarrierDependencies_legalized {blockIdx : ℕ} (hblock : blockIdx < config.split.getControlGraphBlockCount) :
    ∃ s' modified, createBarrierDependenciesForDescriptorFetchInNonWlm config blockIdx execGroups (ofMaps s) =
      .ok (ofMaps s', modified) ∧ Legalized config s s' := by
  obtain ⟨lo, hi, hk⟩ := exists_blockRange h.split hblock
  obtain ⟨start, maps, hstart, hmapped, hsame⟩ := beginLegalization_spec h hk
  obtain ⟨hlegal, -, hsides⟩ := legal_start hmapped hsame
  obtain ⟨st, hrun, ⟨⟨s', hst, horder⟩, htwo'⟩, -⟩ := @foldlM_establishes _ _ _
    (fun st => Legal config s blockIdx lo hi st ∧ ∀ b, TwoSided st.info.maps b) (fun _ _ => True) execGroups start
    (legalizeQueue config blockIdx) ⟨hlegal, hsides htwo⟩ (by
      rintro entry hentry st ⟨hlegal, htwo⟩
      obtain ⟨st', hstep, hst'⟩ := legalizeQueue_ok hk hlegal (hgroups entry hentry) htwo
      exact ⟨st', hstep, hst', trivial, fun _ _ => trivial⟩)
  refine ⟨s', st.newDependenciesCreated, ?_, hst.split, fun b => hst.maps_eq ▸ htwo' b, hst.tasks, ?_⟩
  · unfold createBarrierDependenciesForDescriptorFetchInNonWlm
    rw [hstart]
    change Except.bind (execGroups.foldlM (legalizeQueue config blockIdx) start) _ = _
    rw [hrun, ← hst.info]
    rfl
  · exact fun x y hxy => Relation.TransGen.mono horder x y hxy

theorem legalizeBlocks_legalized (modified : Bool) :
    ∃ s' modified', legalizeBlocks config (ofMaps s, modified) execGroups = .ok (ofMaps s', modified') ∧ Legalized config s s' := by
  obtain ⟨st, hrun, ⟨s', hst, hlegalized⟩, -⟩ := @foldlM_establishes _ _ _
    (fun state : FifoBarrierInfo × Bool => ∃ maps, state.1 = ofMaps maps ∧ Legalized config s maps) (fun _ _ => True)
    (List.range config.split.getControlGraphBlockCount) (ofMaps s, modified) (legalizeBlock config execGroups) ⟨s, rfl, h, htwo, rfl, fun _ _ => id⟩ (by
      rintro k hk ⟨_, modified⟩ ⟨maps, rfl, hmaps⟩
      obtain ⟨maps', changed, hrun, hlegalized⟩ := createBarrierDependencies_legalized hmaps.split hmaps.twoSided
        (hmaps.tasks.symm ▸ hgroups) (mem_range.mp hk)
      refine ⟨(ofMaps maps', modified || changed), ?_, ⟨maps', rfl, hmaps.trans hlegalized⟩, trivial, fun _ _ => trivial⟩
      unfold legalizeBlock
      rw [hrun]
      rfl)
  exact ⟨s', st.2, hst ▸ hrun, hlegalized⟩

end

theorem Analysed.groupsOf {a : ExecutionGroupAnalysis} {n : ℕ} (h : Analysed config a n) {c : GroupCounts}
    (hc : c = a.kernelCounts ∨ c = a.variantCounts) {p : TaskQueueType × List ℕ → Bool} :
    ∀ entry ∈ (a.taskQueueTypeMap.filter p).map fun entry => (entry.1, c.taskExecutionGroups [] 0 entry.2),
      GroupsOf config n entry.1 entry.2 := by
  rintro _ hentry
  obtain ⟨entry, hmem, rfl⟩ := mem_map.mp hentry
  have hmem := mem_of_mem_filter hmem
  have hfits := h.firstFits entry hmem
  have hflatten : (c.taskExecutionGroups [] 0 entry.2).flatten = entry.2 := GroupCounts.flatten_taskExecutionGroups
  refine ⟨hflatten.symm ▸ h.sorted entry hmem, hflatten.symm ▸ h.tasks entry hmem, ?_⟩
  apply GroupCounts.nonempty_taskExecutionGroups
  rintro -
  cases hc with
  | inl hc => exact ⟨rfl, hc ▸ hfits.1⟩
  | inr hc => exact ⟨rfl, hc ▸ hfits.2⟩

/-- The tasks stay ordered over all blocks and both kinds of executors, whatever barriers a call adds for the later ones. -/
theorem legalizeExecutors_keepsOrder {a : ExecutionGroupAnalysis} (h : BlockSplit config s) (htwo : ∀ b, TwoSided s b)
    (ha : Analysed config a s.getNumOfTasks) :
    ∃ s' modified, legalizeExecutors config a (ofMaps s) = .ok (ofMaps s', modified) ∧ Legalized config s s' := by
  obtain ⟨s₁, modified₁, hrun₁, h₁⟩ := legalizeBlocks_legalized h htwo (ha.groupsOf (.inr rfl)) false
  obtain ⟨s₂, modified₂, hrun₂, h₂⟩ := legalizeBlocks_legalized h₁.split h₁.twoSided (h₁.tasks.symm ▸ ha.groupsOf (.inl rfl)) modified₁
  refine ⟨s₂, modified₂, ?_, h₁.trans h₂⟩
  unfold legalizeExecutors
  rw [foldlM_cons, show legalizeBlocks config _ a.createDPUTaskExecutionGroups = _ from hrun₁]
  change foldlM _ _ _ = _
  rw [foldlM_cons, show legalizeBlocks config _ a.createSWTaskExecutionGroups = _ from hrun₂]
  rfl

/-- Two DMA tasks, and two DPU queues that take turns. -/
def turnsConfig : OptimizeConfig where
  split := ⟨[], []⟩
  taskOp := fun _ => ⟨1, .dmaNN⟩
  getTaskQueueType := fun taskInd =>
    if taskInd < 2 then ⟨.dmaNN, 0⟩ else if taskInd % 2 = 0 then ⟨.dpu, 0⟩ else ⟨.dpu, 1⟩
  taskQueueTypes := [⟨.dmaNN, 0⟩, ⟨.dpu, 0⟩, ⟨.dpu, 1⟩]
  taskQueueTypes_nodup := by decide
  barrierMaxVariantSum := 64

def turns : BarrierInfo :=
  chained ((List.range 8).foldl (fun s _ => s.addNewTaskOp) BarrierInfo.empty) [(0, 4), (1, 5)]

def turnsQueues : ExecutionGroupAnalysis := ⟨[(⟨.dpu, 0⟩, [2, 4, 6]), (⟨.dpu, 1⟩, [3, 5, 7])], none, 1, 1, 1, 1⟩

theorem turns_blockSplit : BlockSplit turnsConfig turns := by
  have htasks : ((List.range 8).foldl (fun s _ => s.addNewTaskOp) BarrierInfo.empty).Consistent :=
    foldl_invariant consistent_empty (fun _ _ _ hs => hs.addNewTaskOp)
  refine ⟨(consistent_chained htasks (by decide)).1, ⟨by decide, by decide, by decide, by decide⟩, by decide, by decide, ?_⟩
  exact fun b => ⟨0, fun _ _ => rfl, fun _ _ => rfl⟩

theorem turns_twoSided (b : ℕ) : TwoSided turns b := by
  rintro ⟨p, hp⟩
  have hall : ∀ b < 2, (turns.getBarrierConsumers b).toList ≠ [] := by decide
  exact exists_mem_of_ne_nil _ (hall b (turns_blockSplit.consistent.producer_lt hp).1)

theorem turnsQueues_analysed : Analysed turnsConfig turnsQueues turns.getNumOfTasks := by
  refine ⟨by decide, by decide, ?_⟩
  intro entry hentry
  rcases mem_pair.mp hentry with rfl | rfl
  all_goals exact ⟨fun t ht => by cases ht; decide, fun t ht => by cases ht; decide⟩

/-- Both queues update a barrier, and the tasks stay ordered without a cycle. -/
theorem legalizeExecutors_turns : ∃ s' modified, legalizeExecutors turnsConfig turnsQueues (ofMaps turns) = .ok (ofMaps s', modified) ∧
    Legalized turnsConfig turns s' ∧ (2 ∈ s'.getBarrierProducers 0 ∧ 3 ∈ s'.getBarrierProducers 1) ∧
      ∀ t, ¬ s'.OrderedBy (QueueOrder turnsConfig.getTaskQueueType) t t := by
  obtain ⟨s', modified, hrun, hlegalized⟩ := legalizeExecutors_keepsOrder turns_blockSplit turns_twoSided turnsQueues_analysed
  have hresult : (match legalizeExecutors turnsConfig turnsQueues (ofMaps turns) with
      | .error _ => false
      | .ok (s', _) => decide ((2 ∈ s'.maps.getBarrierProducers 0 ∧ 3 ∈ s'.maps.getBarrierProducers 1) ∧
        ∀ b < s'.maps.getNumOfBarrierOps, ∀ p ∈ (s'.maps.getBarrierProducers b).toList,
          ∀ c ∈ (s'.maps.getBarrierConsumers b).toList, p < c)) = true := by
    rfl
  rw [hrun] at hresult
  obtain ⟨hproducers, hedges⟩ := of_decide_eq_true hresult
  refine ⟨s', modified, hrun, hlegalized, hproducers, fun t hcycle => ?_⟩
  have htopological : s'.Topological := BarrierInfo.forall_edges hedges
  exact Nat.lt_irrefl t (orderedBy_lt htopological queueOrder_lt hcycle)

end

end NpuCompiler.Barrier
