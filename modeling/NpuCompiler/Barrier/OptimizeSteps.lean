import NpuCompiler.Barrier.BarrierReduction
import NpuCompiler.Barrier.SameProducers
import NpuCompiler.Barrier.TemporaryRemoval

namespace NpuCompiler.Barrier.FifoBarrierInfo

open BarrierInfo GraphSplit RedundantLinks List

section
variable {config : OptimizeConfig} {fifo : ℕ → ℕ → Prop} {s : FifoBarrierInfo} {maps : BarrierInfo} {k lo hi t : ℕ}

theorem preserves_of_sub (h : Sound config.split fifo s) (hconsistent : maps.Consistent)
    (htasks : maps.getNumOfTasks = s.maps.getNumOfTasks) (hbarriers : maps.getNumOfBarrierOps = s.maps.getNumOfBarrierOps)
    (hproducers : ∀ b x, x ∈ maps.getBarrierProducers b → x ∈ s.maps.getBarrierProducers b)
    (hconsumers : ∀ b x, x ∈ maps.getBarrierConsumers b → x ∈ s.maps.getBarrierConsumers b)
    (hproducer : ∀ t p c, (t, p, c) ∈ s.fifoDependencies → p ∈ s.maps.getBarrierProducers t → p ∈ maps.getBarrierProducers t)
    (hconsumer : ∀ t p c, (t, p, c) ∈ s.fifoDependencies → c ∈ s.maps.getBarrierConsumers t → c ∈ maps.getBarrierConsumers t)
    (hedges : ∀ p c, s.maps.Edge p c → maps.Ordered p c) :
    Preserves config.split fifo s { s with maps } := by
  have hsub : ∀ b p c, maps.EdgeAt b p c → s.maps.EdgeAt b p c := fun b p c hb => ⟨hproducers b p hb.1, hconsumers b c hb.2⟩
  refine ⟨⟨hconsistent, ?_, hbarriers.trans h.length, h.indices, h.parents, ?_, ?_, ?_, ?_, h.implied⟩, htasks, rfl, ?_⟩
  · rintro p c ⟨b, hb⟩
    exact h.fits p c ⟨b, hsub b p c hb⟩
  · exact fun t p c hdep x hx => h.producer t p c hdep x (hproducers t x hx)
  · exact fun t p c hdep x hx => h.consumer t p c hdep x (hconsumers t x hx)
  · intro t p c hdep
    constructor
    · exact fun hp => hconsumer t p c hdep ((h.whole t p c hdep).mp (hproducers t p hp))
    · exact fun hc => hproducer t p c hdep ((h.whole t p c hdep).mpr (hconsumers t c hc))
  · exact fun t p c hdep hp b hb => h.single t p c hdep (hproducers t p hp) b (hsub b p c hb)
  · intro p c
    constructor
    · apply OrderedBy.mono
      rintro p c ⟨b, hb⟩
      exact .single (.inl ⟨b, hsub b p c hb⟩)
    · apply OrderedBy.mono
      exact fun p c hedge => OrderedBy.of_ordered (hedges p c hedge)

theorem step_produce (h : maps.Consistent) {p c : ℕ} : Step (Has maps.produce) (Meets maps.consume) p c ↔ maps.Edge p c :=
  exists_congr (fun _ => and_congr_left (fun _ => h.update_iff))

theorem step_consume (h : maps.Consistent) {p c : ℕ} : Step (Has maps.consume) (Meets maps.produce) c p ↔ maps.Edge p c := by
  apply exists_congr
  intro b
  rw [and_comm]
  exact and_congr_right (fun _ => h.wait_iff)

section
variable (h : Sound config.split fifo s) (hsplit : config.split.WellFormed s.maps.getNumOfTasks)
  (hblock : BlockRange config.split s.maps k lo hi) (hpos : 0 < s.maps.getNumOfTasks) (ht : inRange lo hi t = true)
include h hsplit hblock hpos ht

theorem collectable_produce : Collectable config s s.maps.produce s.maps.consume lo hi hi t := by
  have hrange := inRange_iff.mp ht
  have hlt := Nat.lt_of_le_of_lt hrange.2 (hblock.lt hpos)
  refine ⟨ht, fun c hstep => Nat.ne_of_gt (h.fits t c ((step_produce h.consistent).mp hstep)).1, ?_⟩
  by_cases hend : t = hi ∧ hi ∈ config.split.syncTasksIds
  · refine .inl ⟨hend.1, ?_, ?_⟩
    · rw [isSyncPoint_eq hsplit hlt, hend.1, decide_eq_true hend.2]
    · intro c hstep
      have hlater := (h.fits t c ((step_produce h.consistent).mp hstep)).1
      rw [← Bool.not_eq_true, inRange_iff]
      omega
  · refine .inr ⟨?_, ?_⟩
    · intro hthi
      rw [isSyncPoint_eq hsplit hlt, decide_eq_false (fun hmem => hend ⟨hthi, hthi ▸ hmem⟩)]
    · intro c hstep
      have hedge := (step_produce h.consistent).mp hstep
      have hfits := h.fits t c hedge
      rw [inRange_iff]
      refine ⟨Nat.le_trans hrange.1 (Nat.le_of_lt hfits.1), ?_⟩
      cases hblock.last with
      | inl hlast =>
        obtain ⟨b, -, hc⟩ := hedge
        have := (h.consistent.consumer_lt hc).2
        omega
      | inr hsync =>
        have hne : t ≠ hi := fun hthi => hend ⟨hthi, hsync⟩
        exact hfits.2 hi hsync (Nat.lt_of_le_of_ne hrange.2 hne)

theorem collectable_consume : Collectable config s s.maps.consume s.maps.produce lo hi lo t := by
  have hrange := inRange_iff.mp ht
  have hlt := Nat.lt_of_le_of_lt hrange.2 (hblock.lt hpos)
  refine ⟨ht, fun p hstep => Nat.ne_of_lt (h.fits p t ((step_consume h.consistent).mp hstep)).1, ?_⟩
  by_cases hstart : t = lo ∧ lo ∈ config.split.syncTasksIds
  · refine .inl ⟨hstart.1, ?_, ?_⟩
    · rw [isSyncPoint_eq hsplit hlt, hstart.1, decide_eq_true hstart.2]
    · intro p hstep
      have hearlier := (h.fits p t ((step_consume h.consistent).mp hstep)).1
      rw [← Bool.not_eq_true, inRange_iff]
      omega
  · refine .inr ⟨?_, ?_⟩
    · intro htlo
      rw [isSyncPoint_eq hsplit hlt, decide_eq_false (fun hmem => hstart ⟨htlo, htlo ▸ hmem⟩)]
    · intro p hstep
      have hfits := h.fits p t ((step_consume h.consistent).mp hstep)
      rw [inRange_iff]
      refine ⟨?_, Nat.le_trans (Nat.le_of_lt hfits.1) hrange.2⟩
      cases hblock.first with
      | inl hfirst => exact hfirst ▸ Nat.zero_le p
      | inr hsync =>
        by_contra hout
        have hle := hfits.2 lo hsync (Nat.lt_of_not_le hout)
        exact hstart ⟨Nat.le_antisymm hle hrange.1, hsync⟩

end

theorem mem_block : t ∈ tasksFrom lo (hi + 1) ↔ inRange lo hi t = true := by
  rw [mem_tasksFrom, inRange_iff, Nat.lt_succ_iff]

theorem optimizeBarrierProducers_preserves (h : Sound config.split fifo s)
    (hsplit : config.split.WellFormed s.maps.getNumOfTasks) (hk : k < config.split.getControlGraphBlockCount) :
    ∃ s', s.optimizeBarrierProducers config k = .ok s' ∧ Preserves config.split fifo s s' ∧
      s'.fifoDependencies = s.fifoDependencies := by
  obtain ⟨lo, hi, hblock⟩ := exists_blockRange hsplit hk
  have hlater : ∀ t c, Step (Has s.maps.produce) (Meets s.maps.consume) t c → t < c := fun t c hstep =>
    (h.fits t c ((step_produce h.consistent).mp hstep)).1
  obtain ⟨produce, hproduce, hreduction⟩ := @optimizeLinks_reduction config s s.maps.produce s.maps.consume k lo hi true
    (fun _ blockEndInd => blockEndInd) List.reverse (fun taskInd childTaskInd blockStartInd blockEndInd =>
      s!"Task {taskInd} has update barriers with a consumer ({childTaskInd}) from outside of the current " ++
        s!"range [{blockStartInd}, {blockEndInd}].") h.consistent.produce (fun _ => rfl) h.length rfl hblock
    (fun hpos t ht => collectable_produce h hsplit hblock hpos ht) (fun t => mem_reverse.trans mem_block)
    (nodup_reverse.mpr nodup_tasksFrom) (by
      apply linkedBefore_of_pairwise (pairwise_reverse.mpr pairwise_tasksFrom) (fun c hc => mem_reverse.mpr (mem_block.mpr hc))
      exact fun t c hstep => ⟨Nat.not_lt.mpr (Nat.le_of_lt (hlater t c hstep)), Nat.ne_of_gt (hlater t c hstep)⟩)
  have hmem : ∀ b x, x ∈ row produce.left b ↔ Has produce x b := fun b x => hreduction.inverse b x
  refine ⟨{ s with maps := { s.maps with produce } }, ?_, ?_, rfl⟩
  · unfold optimizeBarrierProducers
    rw [hproduce]
    rfl
  · apply preserves_of_sub h
    · exact ⟨hreduction.inverse, h.consistent.consume, h.consistent.barriers.trans hreduction.left.symm,
        h.consistent.tasks.trans hreduction.right.symm⟩
    · exact hreduction.right
    · exact hreduction.left
    · exact fun b x hx => h.consistent.update_iff.mp (hreduction.sub x b ((hmem b x).mp hx))
    · exact fun _ _ hx => hx
    · intro t p c hdep hp
      apply (hmem t p).mpr
      apply (hreduction.keep p t (h.consistent.update_iff.mpr hp)).resolve_right
      apply @not_redundant_of_only _ _ _ _ id hlater
      exact fun y hy => h.producer t p c hdep y (h.consistent.update_iff.mp hy)
    · exact fun _ _ _ _ hc => hc
    · intro p c hedge
      have hpath := @transGen_of_step _ _ _ _ _ id hlater hreduction.keep p c ((step_produce h.consistent).mpr hedge)
      exact Relation.TransGen.mono (fun p c ⟨b, hp, hc⟩ => ⟨b, (hmem b p).mpr hp, hc⟩) p c hpath

theorem optimizeBarrierConsumers_preserves (h : Sound config.split fifo s)
    (hsplit : config.split.WellFormed s.maps.getNumOfTasks) (hk : k < config.split.getControlGraphBlockCount) :
    ∃ s', s.optimizeBarrierConsumers config k = .ok s' ∧ Preserves config.split fifo s s' ∧
      s'.fifoDependencies = s.fifoDependencies := by
  obtain ⟨lo, hi, hblock⟩ := exists_blockRange hsplit hk
  have hearlier : ∀ t p, Step (Has s.maps.consume) (Meets s.maps.produce) t p → p < t := fun t p hstep =>
    (h.fits p t ((step_consume h.consistent).mp hstep)).1
  have hrank : ∀ t p, Step (Has s.maps.consume) (Meets s.maps.produce) t p → s.maps.getNumOfTasks - t < s.maps.getNumOfTasks - p := by
    intro t p hstep
    have hlt := hearlier t p hstep
    obtain ⟨b, -, ht⟩ := (step_consume h.consistent).mp hstep
    have := (h.consistent.consumer_lt ht).2
    omega
  obtain ⟨consume, hconsume, hreduction⟩ := @optimizeLinks_reduction config s s.maps.consume s.maps.produce k lo hi false
    (fun blockStartInd _ => blockStartInd) id (fun taskInd parentTaskInd blockStartInd blockEndInd =>
      s!"Task {taskInd} has wait barriers with a producer ({parentTaskInd}) from outside of the current range " ++
        s!"[{blockStartInd}, {blockEndInd}].") h.consistent.consume (fun _ => rfl) (h.consistent.barriers.trans h.length)
    h.consistent.tasks hblock (fun hpos t ht => collectable_consume h hsplit hblock hpos ht) (fun t => mem_block)
    nodup_tasksFrom (by
      apply linkedBefore_of_pairwise pairwise_tasksFrom (fun c hc => mem_block.mpr hc)
      exact fun t c hstep => ⟨Nat.not_lt.mpr (Nat.le_of_lt (hearlier t c hstep)), Nat.ne_of_lt (hearlier t c hstep)⟩)
  have hmem : ∀ b x, x ∈ row consume.left b ↔ Has consume x b := fun b x => hreduction.inverse b x
  refine ⟨{ s with maps := { s.maps with consume } }, ?_, ?_, rfl⟩
  · unfold optimizeBarrierConsumers
    rw [hconsume]
    rfl
  · apply preserves_of_sub h
    · exact ⟨h.consistent.produce, hreduction.inverse, hreduction.left.trans h.consistent.barriers,
        hreduction.right.trans h.consistent.tasks⟩
    · rfl
    · rfl
    · exact fun _ _ hx => hx
    · exact fun b x hx => h.consistent.wait_iff.mp (hreduction.sub x b ((hmem b x).mp hx))
    · exact fun _ _ _ _ hp => hp
    · intro t p c hdep hc
      apply (hmem t c).mpr
      apply (hreduction.keep c t (h.consistent.wait_iff.mpr hc)).resolve_right
      apply not_redundant_of_only hrank
      exact fun y hy => h.consumer t p c hdep y (h.consistent.wait_iff.mp hy)
    · intro p c hedge
      have hpath := transGen_of_step hrank hreduction.keep ((step_consume h.consistent).mpr hedge)
      apply Relation.TransGen.mono _ p c (Relation.transGen_swap.mp hpath)
      exact fun p c ⟨b, hc, hp⟩ => ⟨b, hp, (hmem b c).mpr hc⟩

end

end NpuCompiler.Barrier.FifoBarrierInfo

namespace NpuCompiler.Barrier

open BarrierInfo GraphSplit

def OptimizeConfig.FifoOrder (config : OptimizeConfig) (considerTaskFifoDependency : Bool) (p c : ℕ) : Prop :=
  considerTaskFifoDependency = true ∧ p < c ∧ config.getTaskQueueType p = config.getTaskQueueType c

structure GraphSplit.Splits (split : GraphSplit) (maps : BarrierInfo) : Prop where
  wellFormed : split.WellFormed maps.getNumOfTasks
  within : ∀ p c, maps.Edge p c → ∀ t ∈ split.syncTasksIds, p < t → c ≤ t

namespace FifoBarrierInfo

variable {config : OptimizeConfig} {checkValidSlotCount considerTaskFifoDependency : Bool} {executors : List ExecutorKind}
  {s : FifoBarrierInfo} {maps : BarrierInfo} {k : ℕ}

theorem optimizeBlock_preserves (h : Sound config.split (config.FifoOrder considerTaskFifoDependency) s)
    (hsplit : config.split.WellFormed s.maps.getNumOfTasks) (hk : k < config.split.getControlGraphBlockCount)
    (hqueues : considerTaskFifoDependency = true → config.taskQueueTypes ≠ []) (hdeps : s.fifoDependencies = []) :
    ∃ s', optimizeBlock config checkValidSlotCount considerTaskFifoDependency executors
        (buildTaskQueueTypeMap config s.maps.getNumOfTasks) s.numOfBarrierOps s k = .ok s' ∧
      Preserves config.split (config.FifoOrder considerTaskFifoDependency) s s' ∧ s'.fifoDependencies = [] := by
  have hcreate : ∃ s₁, (if considerTaskFifoDependency then s.createBarrierDependenciesImpliedByFIFO config
      (buildTaskQueueTypeMap config s.maps.getNumOfTasks) k (some executors) else .ok s) = .ok s₁ ∧
      Preserves config.split (config.FifoOrder considerTaskFifoDependency) s s₁ ∧
      (considerTaskFifoDependency = false → s₁.fifoDependencies = []) := by
    cases hfifo : considerTaskFifoDependency with
    | false => exact ⟨s, rfl, hfifo ▸ h.preserves_refl, fun _ => hdeps⟩
    | true =>
      rw [hfifo] at h hqueues
      obtain ⟨s₁, hs₁, hpreserves⟩ := createBarrierDependenciesImpliedByFIFO_preserves h hsplit hk (hqueues rfl)
        (fun p c htype hlt => ⟨rfl, hlt, htype⟩) hdeps
      exact ⟨s₁, hs₁, hpreserves, fun hfalse => by cases hfalse⟩
  obtain ⟨s₁, hs₁, hpreserves₁, hdeps₁⟩ := hcreate
  have hsplit₁ := hpreserves₁.tasks.symm ▸ hsplit
  obtain ⟨s₂, hs₂, hpreserves₂, hdeps₂⟩ := optimizeBarrierProducers_preserves hpreserves₁.sound hsplit₁ hk
  obtain ⟨s₃, hs₃, hpreserves₃, hdeps₃⟩ := @optimizeBarriersWithSameProducers_preserves config _ s₂ checkValidSlotCount
    hpreserves₂.sound k hk
  have hsplit₃ := (hpreserves₂.trans hpreserves₃).tasks.symm ▸ hsplit₁
  obtain ⟨s₄, hs₄, hpreserves₄, hdeps₄⟩ := optimizeBarrierConsumers_preserves hpreserves₃.sound hsplit₃ hk
  have hpreserves := ((hpreserves₁.trans hpreserves₂).trans hpreserves₃).trans hpreserves₄
  unfold optimizeBlock
  rw [hs₁]
  dsimp only [bind, Except.bind]
  rw [hs₂]
  dsimp only
  rw [hs₃]
  dsimp only
  rw [hs₄]
  dsimp only
  rw [if_neg (not_not.mpr hpreserves.ops)]
  cases hfifo : considerTaskFifoDependency with
  | false =>
    rw [if_neg Bool.false_ne_true]
    refine ⟨s₄, rfl, hfifo ▸ hpreserves, ?_⟩
    rw [hdeps₄, hdeps₃, hdeps₂, hdeps₁ hfifo]
  | true =>
    obtain ⟨s₅, hs₅, hpreserves₅, hdeps₅⟩ := removeBarrierDependenciesImpliedByFIFO_preserves hpreserves₄.sound
    rw [if_pos rfl, hs₅]
    dsimp only
    rw [if_neg (not_not.mpr (hpreserves₅.ops.trans hpreserves.ops))]
    exact ⟨s₅, rfl, hfifo ▸ hpreserves.trans hpreserves₅, hdeps₅⟩

theorem optimizeBlocks_preserves (h : Sound config.split (config.FifoOrder considerTaskFifoDependency) s)
    (hsplit : config.split.WellFormed s.maps.getNumOfTasks) (hqueues : considerTaskFifoDependency = true → config.taskQueueTypes ≠ [])
    (hdeps : s.fifoDependencies = []) {blocks : List ℕ} (hblocks : ∀ k ∈ blocks, k < config.split.getControlGraphBlockCount) :
    ∃ s', blocks.foldlM (optimizeBlock config checkValidSlotCount considerTaskFifoDependency executors
        (buildTaskQueueTypeMap config s.maps.getNumOfTasks) s.numOfBarrierOps) s = .ok s' ∧
      Preserves config.split (config.FifoOrder considerTaskFifoDependency) s s' ∧ s'.fifoDependencies = [] := by
  induction blocks generalizing s with
  | nil => exact ⟨s, rfl, h.preserves_refl, hdeps⟩
  | cons k blocks ih =>
    obtain ⟨hk, hblocks⟩ := List.forall_mem_cons.mp hblocks
    obtain ⟨s₁, hs₁, hpreserves₁, hdeps₁⟩ := @optimizeBlock_preserves config checkValidSlotCount considerTaskFifoDependency
      executors s k h hsplit hk hqueues hdeps
    obtain ⟨s₂, hs₂, hpreserves₂, hdeps₂⟩ := ih hpreserves₁.sound (hpreserves₁.tasks.symm ▸ hsplit) hdeps₁ hblocks
    rw [hpreserves₁.tasks, hpreserves₁.ops] at hs₂
    refine ⟨s₂, ?_, hpreserves₁.trans hpreserves₂, hdeps₂⟩
    rw [List.foldlM_cons, hs₁]
    exact hs₂

theorem sound_of_splits (hconsistent : maps.Consistent) (htopological : maps.Topological) (hsplits : config.split.Splits maps)
    {fifo : ℕ → ℕ → Prop} : Sound config.split fifo ⟨maps, maps.getNumOfBarrierOps, []⟩ := by
  have hnone : ∀ (P : ℕ → ℕ → ℕ → Prop) (t p c : ℕ), (t, p, c) ∈ ([] : List (ℕ × ℕ × ℕ)) → P t p c :=
    fun _ _ _ _ hdep => absurd hdep List.not_mem_nil
  exact ⟨hconsistent, fun p c hedge => ⟨htopological p c hedge, hsplits.within p c hedge⟩, rfl, rfl, List.nodup_nil, hnone _,
    hnone _, hnone _, hnone _, hnone (fun _ p c => fifo p c)⟩

/-- The tasks are ordered as before, the number of barriers is kept, and the maps stay inverse to each other. -/
theorem optimizeBarriers_ordered (_ : 0 < maps.getNumOfTasks) (hconsistent : maps.Consistent) (htopological : maps.Topological)
    (hsplits : config.split.Splits maps) (hqueues : considerTaskFifoDependency = true → config.taskQueueTypes ≠ []) :
    ∃ s', optimizeBarriers config ⟨maps, maps.getNumOfBarrierOps, []⟩ checkValidSlotCount considerTaskFifoDependency executors =
        .ok s' ∧ s'.maps.Consistent ∧ s'.fifoDependencies = [] ∧ s'.maps.getNumOfBarrierOps = maps.getNumOfBarrierOps ∧
      s'.maps.getNumOfTasks = maps.getNumOfTasks ∧
      ∀ p c, s'.maps.OrderedBy (config.FifoOrder considerTaskFifoDependency) p c ↔
        maps.OrderedBy (config.FifoOrder considerTaskFifoDependency) p c := by
  obtain ⟨s', hs', hpreserves, hdeps⟩ := @optimizeBlocks_preserves config checkValidSlotCount considerTaskFifoDependency executors
    ⟨maps, maps.getNumOfBarrierOps, []⟩ (sound_of_splits hconsistent htopological hsplits) hsplits.wellFormed hqueues rfl
    (List.range config.split.getControlGraphBlockCount) (fun k hk => List.mem_range.mp hk)
  refine ⟨s', hs', hpreserves.sound.consistent, hdeps, ?_, hpreserves.tasks, hpreserves.ordered⟩
  rw [hpreserves.sound.length, hpreserves.ops, hdeps]
  rfl

def shortcut : BarrierInfo :=
  let tasks := BarrierInfo.empty.addNewTaskOp.addNewTaskOp.addNewTaskOp.addNewTaskOp
  let barriers := tasks.addNewBarrier.addNewBarrier.addNewBarrier
  let first := (barriers.addProducers 0 [0]).addConsumers 0 [1]
  let second := (first.addProducers 1 [0, 1]).addConsumers 1 [2]
  (second.addProducers 2 [2]).addConsumers 2 [3]

def shortcutConfig : OptimizeConfig where
  split := ⟨[2], [0, 0, 0, 1]⟩
  taskOp := fun _ => ⟨1, .dmaNN⟩
  getTaskQueueType := fun taskInd => if taskInd = 1 then ⟨.dpu, 0⟩ else ⟨.dmaNN, 0⟩
  taskQueueTypes := [⟨.dmaNN, 0⟩, ⟨.dpu, 0⟩]
  taskQueueTypes_nodup := dmaThenDpu_nodup
  barrierMaxVariantSum := 64

theorem shortcut_consistent : shortcut.Consistent := by
  have htasks := BarrierInfo.consistent_empty.addNewTaskOp.addNewTaskOp.addNewTaskOp.addNewTaskOp
  have hbarriers := htasks.addNewBarrier.addNewBarrier.addNewBarrier
  have hproducers₀ := (BarrierInfo.addProducers_spec (b := 0) hbarriers (by decide) (by decide : ∀ t ∈ [0], t < 4)).consistent
  have hconsumers₀ := (BarrierInfo.addConsumers_spec (b := 0) hproducers₀ (by decide) (by decide : ∀ t ∈ [1], t < 4)).consistent
  have hproducers₁ := (BarrierInfo.addProducers_spec (b := 1) hconsumers₀ (by decide) (by decide : ∀ t ∈ [0, 1], t < 4)).consistent
  have hconsumers₁ := (BarrierInfo.addConsumers_spec (b := 1) hproducers₁ (by decide) (by decide : ∀ t ∈ [2], t < 4)).consistent
  have hproducers₂ := (BarrierInfo.addProducers_spec (b := 2) hconsumers₁ (by decide) (by decide : ∀ t ∈ [2], t < 4)).consistent
  exact (BarrierInfo.addConsumers_spec (b := 2) hproducers₂ (by decide) (by decide : ∀ t ∈ [3], t < 4)).consistent

theorem shortcut_splits : shortcutConfig.split.Splits shortcut := by
  refine ⟨⟨by decide, by decide, by decide, fun _ => by decide⟩, ?_⟩
  apply forall_edges
  decide

theorem optimizeBarriers_ordered_shortcut : ∃ s', optimizeBarriers shortcutConfig ⟨shortcut, 3, []⟩ true true [.dmaNN] = .ok s' ∧
    s'.maps.Consistent ∧ s'.fifoDependencies = [] ∧ s'.maps.getNumOfBarrierOps = 3 ∧ s'.maps.getNumOfTasks = 4 ∧
      ∀ p c, s'.maps.OrderedBy (shortcutConfig.FifoOrder true) p c ↔ shortcut.OrderedBy (shortcutConfig.FifoOrder true) p c :=
  optimizeBarriers_ordered (by decide) shortcut_consistent (forall_edges (by decide)) shortcut_splits (fun _ => by decide)

example : (optimizeBarriers shortcutConfig ⟨shortcut, 3, []⟩ true false [.dmaNN]).toOption.map
    (fun s => s.maps.produce.left.map SmallSet.toList) = some [[0], [1], [2]] := by decide

end FifoBarrierInfo

end NpuCompiler.Barrier
