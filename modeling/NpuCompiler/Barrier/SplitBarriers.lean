import NpuCompiler.Barrier.SplitRows

namespace NpuCompiler.Barrier

open BarrierInfo GraphSplit List

namespace SplitConfig

def Table (config : SplitConfig) (syncBarriers : SyncBarriers) : Prop := ∀ k, k + 1 < config.numOfBlocks →
  syncBarriers.waitBar (config.syncTask k) = config.waitBarInd k ∧ syncBarriers.updateBar (config.syncTask k) = config.updateBarInd k

def SyncEdge (config : SplitConfig) (s : BarrierInfo) (p c : ℕ) : Prop := ∃ b, config.barriersCount ≤ b ∧ s.EdgeAt b p c

structure Moves (config : SplitConfig) (b barBlockId : ℕ) (s s' : BarrierInfo) : Prop where
  advances : config.Advances (· = b) s s'
  producers : ∀ t ∈ s'.getBarrierProducers b, t ∈ s.getBarrierProducers b
  ownProducers : ∀ t ∈ s.getBarrierProducers b, t / config.blockSize = barBlockId → t ∈ s'.getBarrierProducers b
  consumers : ∀ t ∈ s'.getBarrierConsumers b, t ∈ s.getBarrierConsumers b
  ownConsumers : ∀ t ∈ s.getBarrierConsumers b, t / config.blockSize = barBlockId → t ∈ s'.getBarrierConsumers b

variable {config : SplitConfig} {syncBarriers : SyncBarriers} {s s' s'' : BarrierInfo} {b p c t k barBlockId lastProdBlockId : ℕ}
  {tasks consumers : TaskSet} {changed : ℕ → Prop}

theorem Advances.syncEdge (h : config.Advances changed s s') (hedge : config.SyncEdge s p c) : config.SyncEdge s' p c := by
  obtain ⟨b, hb, hedge⟩ := hedge
  exact ⟨b, hb, h.edge hb hedge⟩

theorem moves_refl (h : config.SyncRows s) : config.Moves b barBlockId s s :=
  ⟨h.advances_refl, fun _ ht => ht, fun _ ht _ => ht, fun _ ht => ht, fun _ ht _ => ht⟩

theorem Moves.trans (h : config.Moves b barBlockId s s') (h' : config.Moves b barBlockId s' s'') :
    config.Moves b barBlockId s s'' := by
  refine ⟨h.advances.trans h'.advances, ?_, ?_, ?_, ?_⟩
  · exact fun t ht => h.producers t (h'.producers t ht)
  · exact fun t ht hblock => h'.ownProducers t (h.ownProducers t ht hblock) hblock
  · exact fun t ht => h.consumers t (h'.consumers t ht)
  · exact fun t ht hblock => h'.ownConsumers t (h.ownConsumers t ht hblock) hblock

theorem Advances.moves (h : config.Advances (fun _ => False) s s') (hb : b < config.barriersCount) :
    config.Moves b barBlockId s s' := by
  have hproducers := h.producers b hb not_false
  have hconsumers := h.consumers b hb not_false
  refine ⟨h.mono (fun _ hfalse => hfalse.elim), ?_, ?_, ?_, ?_⟩
  · exact fun t ht => (hproducers t).mp ht
  · exact fun t ht _ => (hproducers t).mpr ht
  · exact fun t ht => (hconsumers t).mp ht
  · exact fun t ht _ => (hconsumers t).mpr ht

section

theorem mem_getSetWithNoSyncTasks : t ∈ config.getSetWithNoSyncTasks tasks ↔ t ∈ tasks ∧ config.isSyncPoint t = false := by
  unfold getSetWithNoSyncTasks
  rw [SmallSet.mem_ofList, mem_filter, Bool.not_eq_true']
  rfl

theorem syncTask_pred (hk : 0 < k) : k * config.blockSize - 1 = config.syncTask (k - 1) := by
  unfold syncTask
  rw [Nat.sub_add_cancel hk]

theorem moveToSyncTask_spec (changed : ℕ → Prop) (hproper : config.Proper) (h : config.SyncRows s) (htable : config.Table syncBarriers)
    (hpos : 0 < k) (hk : k + 1 < config.numOfBlocks) (htasks : ∀ t ∈ tasks, t / config.blockSize = k) :
    config.Advances changed s (config.moveToSyncTask syncBarriers s k tasks) ∧
      ∀ t ∈ tasks, t ≠ config.syncTask k → config.SyncEdge (config.moveToSyncTask syncBarriers s k tasks) t (config.syncTask k) := by
  have hsync := hproper.syncTask_lt hk
  have hnext : k * config.blockSize - 1 + config.blockSize = config.syncTask k := by
    have hmul := Nat.mul_le_mul hpos hproper.pos
    have hsucc := @Proper.syncTask_succ config k hproper
    rw [Nat.succ_mul] at hsucc
    omega
  have hpoint : ∀ t ∈ tasks, t ≠ config.syncTask k ↔ config.isSyncPoint t = false := by
    intro t ht
    have hlt : t < config.tasksSize := by
      have hle := (hproper.block_iff.mp (htasks t ht)).2
      omega
    rw [← Bool.not_eq_true, hproper.isSyncPoint_iff hlt, htasks t ht]
    tauto
  unfold moveToSyncTask
  rw [hnext, if_pos (Nat.lt_of_succ_lt hsync), (htable k hk).1]
  have hspec := addWaitProducers_spec changed (config.getSetWithNoSyncTasks tasks).toList hproper h hk (by
    intro t ht
    obtain ⟨hmem, hfalse⟩ := mem_getSetWithNoSyncTasks.mp ht
    exact ⟨htasks t hmem, (hpoint t hmem).mpr hfalse⟩)
  refine ⟨hspec.1, ?_⟩
  intro t ht hne
  exact ⟨_, Nat.le_add_right _ _, hspec.2 t (mem_getSetWithNoSyncTasks.mpr ⟨ht, (hpoint t ht).mp hne⟩)⟩

theorem addSyncConsumers_spec (changed : ℕ → Prop) (h : config.SyncRows s) (htable : config.Table syncBarriers)
    (hpos : 0 < k) (hk : k < config.numOfBlocks) (htasks : ∀ t ∈ tasks, t / config.blockSize = k ∧ t < config.tasksSize) :
    let s' := s.addConsumers (syncBarriers.updateBar (k * config.blockSize - 1)) (config.getSetWithNoSyncTasks tasks).toList
    config.Advances changed s s' ∧
      ∀ t ∈ tasks, config.isSyncPoint t = false → config.SyncEdge s' (config.syncTask (k - 1)) t := by
  have hk' : k - 1 + 1 < config.numOfBlocks := by omega
  rw [syncTask_pred hpos, (htable (k - 1) hk').2]
  have hspec := addUpdateConsumers_spec changed (config.getSetWithNoSyncTasks tasks).toList h hk' (by
    intro t ht
    rw [Nat.sub_add_cancel hpos]
    exact htasks t (mem_getSetWithNoSyncTasks.mp ht).1)
  refine ⟨hspec.1, ?_⟩
  intro t ht hpoint
  have hle : config.barriersCount ≤ config.updateBarInd (k - 1) := Nat.le_add_right_of_le (Nat.le_add_right _ _)
  exact ⟨_, hle, hspec.2 t (mem_getSetWithNoSyncTasks.mpr ⟨ht, hpoint⟩)⟩

end

def ProducersMoved (config : SplitConfig) (b barBlockId lastProdBlockId : ℕ) (consumers : TaskSet) (blockTasks : ℕ × TaskSet)
    (s : BarrierInfo) : Prop :=
  blockTasks.1 ≠ barBlockId → (∀ t ∈ blockTasks.2, t ∉ s.getBarrierProducers b) ∧
    (blockTasks.1 = lastProdBlockId → ∀ p ∈ blockTasks.2, ∀ c ∈ consumers, c / config.blockSize = blockTasks.1 →
      config.SyncEdge s p c) ∧
    (blockTasks.1 ≠ lastProdBlockId ∨ (∀ c ∈ consumers, c / config.blockSize ≠ blockTasks.1) →
      ∀ t ∈ blockTasks.2, t ≠ config.syncTask blockTasks.1 → config.SyncEdge s t (config.syncTask blockTasks.1))

theorem ProducersMoved.moves {blockTasks : ℕ × TaskSet}
    (h : config.ProducersMoved b barBlockId lastProdBlockId consumers blockTasks s) (hmoves : config.Moves b barBlockId s s') :
    config.ProducersMoved b barBlockId lastProdBlockId consumers blockTasks s' := by
  intro hne
  obtain ⟨hout, hinner, hclosing⟩ := h hne
  refine ⟨?_, ?_, ?_⟩
  · exact fun t ht hmem => hout t ht (hmoves.producers t hmem)
  · exact fun hlast p hp c hc hblock => hmoves.advances.syncEdge (hinner hlast p hp c hc hblock)
  · exact fun hlater t ht hsync => hmoves.advances.syncEdge (hclosing hlater t ht hsync)

theorem moveProducers_spec (hproper : config.Proper) (htable : config.Table syncBarriers) (h : config.SyncRows s)
    (hb : b < config.barriersCount) (hpos : k ≠ barBlockId → 0 < k)
    (htasks : ∀ t ∈ tasks, t / config.blockSize = k ∧ t < config.tasksSize) (hsome : ∃ t, t ∈ tasks)
    (hconsumers : ∀ c ∈ consumers, c < config.tasksSize) (hlt : ∀ p ∈ tasks, ∀ c ∈ consumers, p < c)
    (hlater : k ≠ lastProdBlockId ∨ (∀ c ∈ consumers, c / config.blockSize ≠ k) → k + 1 < config.numOfBlocks) :
    config.Moves b barBlockId s (config.moveProducers syncBarriers b barBlockId lastProdBlockId (config.blockTasks consumers) s
        (k, tasks)) ∧
      config.ProducersMoved b barBlockId lastProdBlockId consumers (k, tasks)
        (config.moveProducers syncBarriers b barBlockId lastProdBlockId (config.blockTasks consumers) s (k, tasks)) := by
  unfold moveProducers
  by_cases hown : k = barBlockId
  · dsimp only
    rw [if_pos hown]
    exact ⟨moves_refl h, fun hne => absurd hown hne⟩
  · dsimp only
    rw [if_neg hown]
    have hpos := hpos hown
    have hremoved := @removeProducers_advances config s b tasks.toList h hb
    obtain ⟨_, _, _, hremovedProducers, hremovedConsumers⟩ := @foldl_removeProducer_spec s b tasks.toList h.consistent
    generalize tasks.toList.foldl (fun s taskInd => s.removeProducer b taskInd) s = removed at hremoved hremovedProducers hremovedConsumers ⊢
    have hk : k < config.numOfBlocks := by
      obtain ⟨t, ht⟩ := hsome
      have hblock := hproper.block_lt (htasks t ht).2
      rwa [(htasks t ht).1] at hblock
    have hmovesRemoved : config.Moves b barBlockId s removed := by
      refine ⟨hremoved, ?_, ?_, ?_, ?_⟩
      · exact fun t ht => ((hremovedProducers b t).mp ht).2
      · intro t ht hblock
        apply (hremovedProducers b t).mpr
        refine ⟨fun hmem => hown ?_, ht⟩
        rw [← (htasks t hmem.2).1, hblock]
      · intro t ht
        rwa [hremovedConsumers] at ht
      · intro t ht _
        rwa [hremovedConsumers]
    have hfinish : ∀ moved, config.Advances (fun _ => False) removed moved →
        (k = lastProdBlockId → ∀ p ∈ tasks, ∀ c ∈ consumers, c / config.blockSize = k → config.SyncEdge moved p c) →
        (k ≠ lastProdBlockId ∨ (∀ c ∈ consumers, c / config.blockSize ≠ k) →
          ∀ t ∈ tasks, t ≠ config.syncTask k → config.SyncEdge moved t (config.syncTask k)) →
        let s' := moved.addConsumers (syncBarriers.updateBar (k * config.blockSize - 1)) (config.getSetWithNoSyncTasks tasks).toList
        config.Moves b barBlockId s s' ∧ config.ProducersMoved b barBlockId lastProdBlockId consumers (k, tasks) s' := by
      intro moved hadvances hinner hclosing
      have hlinked := (addSyncConsumers_spec (fun _ => False) hadvances.rows htable hpos hk htasks).1
      refine ⟨(hmovesRemoved.trans (hadvances.moves hb)).trans (hlinked.moves hb), fun _ => ⟨?_, ?_, ?_⟩⟩
      · intro t ht hmem
        have hmem := (hadvances.producers b hb not_false t).mp ((hlinked.producers b hb not_false t).mp hmem)
        exact ((hremovedProducers b t).mp hmem).1 ⟨rfl, ht⟩
      · exact fun heq p hp c hc hblock => hlinked.syncEdge (hinner heq p hp c hc hblock)
      · exact fun hcase t ht hne => hlinked.syncEdge (hclosing hcase t ht hne)
    -- the producers go to the sync task of their block
    have htoSync : (k ≠ lastProdBlockId ∨ ∀ c ∈ consumers, c / config.blockSize ≠ k) →
        (k = lastProdBlockId → ∀ p ∈ tasks, ∀ c ∈ consumers, c / config.blockSize = k →
          config.SyncEdge (config.moveToSyncTask syncBarriers removed k tasks) p c) →
        let s' := (config.moveToSyncTask syncBarriers removed k tasks).addConsumers
          (syncBarriers.updateBar (k * config.blockSize - 1)) (config.getSetWithNoSyncTasks tasks).toList
        config.Moves b barBlockId s s' ∧ config.ProducersMoved b barBlockId lastProdBlockId consumers (k, tasks) s' := by
      intro hcase hinner
      have hspec := moveToSyncTask_spec (fun _ => False) hproper hremoved.rows htable hpos (hlater hcase)
        (fun t ht => (htasks t ht).1)
      exact hfinish _ hspec.1 hinner (fun _ => hspec.2)
    by_cases hlast : k = lastProdBlockId
    · rw [if_neg (not_not.mpr hlast)]
      cases hfind : (config.blockTasks consumers).lookup k with
      | none =>
        have hnone := lookup_blockTasks_none hfind
        exact htoSync (.inr hnone) (fun _ p _ c hc hblock => absurd hblock (hnone c hc))
      | some blockConsumers =>
        -- or to a new barrier
        obtain ⟨⟨c₀, hc₀, hblock₀⟩, hmem⟩ := mem_of_blockTasks (mem_of_lookup_blockTasks hfind)
        have hspec := addBlockBarrier_advances (fun _ => False) hremoved.rows tasks blockConsumers (by
            intro p hp c hc
            obtain ⟨hc, hblock⟩ := (hmem c).mp hc
            exact fits_of_block (hlt p hp c hc) ((htasks p hp).1.trans hblock.symm))
          (fun c hc => hconsumers c ((hmem c).mp hc).1) hsome ⟨c₀, (hmem c₀).mpr ⟨hc₀, hblock₀⟩⟩
        apply hfinish _ hspec.1
        · intro _ p hp c hc hblock
          refine ⟨_, ?_, hspec.2 p hp c ((hmem c).mpr ⟨hc, hblock⟩)⟩
          exact Nat.le_trans (Nat.le_add_right _ _) hremoved.rows.barriers
        · intro hcase
          exact absurd hblock₀ ((hcase.resolve_left (not_not.mpr hlast)) c₀ hc₀)
    · rw [if_pos hlast]
      exact htoSync (.inl hlast) (fun heq => absurd heq hlast)

section

theorem dropConsumers_spec (h : config.SyncRows s) (hb : b < config.barriersCount)
    (htasks : ∀ t ∈ tasks, t / config.blockSize = k) :
    config.Moves b barBlockId s (dropConsumers b barBlockId s (k, tasks)) ∧
      (k ≠ barBlockId → ∀ t ∈ tasks, t ∉ (dropConsumers b barBlockId s (k, tasks)).getBarrierConsumers b) := by
  unfold dropConsumers
  by_cases hown : k = barBlockId
  · dsimp only
    rw [if_pos hown]
    exact ⟨moves_refl h, fun hne => absurd hown hne⟩
  · dsimp only
    rw [if_neg hown]
    obtain ⟨_, _, _, hconsumers, hproducers⟩ := @foldl_removeConsumer_spec s b tasks.toList h.consistent
    refine ⟨⟨removeConsumers_advances h hb, ?_, ?_, ?_, ?_⟩, ?_⟩
    · intro t ht
      rwa [hproducers] at ht
    · intro t ht _
      rwa [hproducers]
    · exact fun t ht => ((hconsumers b t).mp ht).2
    · intro t ht hblock
      apply (hconsumers b t).mpr
      refine ⟨fun hmem => hown ?_, ht⟩
      rw [← htasks t hmem.2, hblock]
    · exact fun _ t ht hmem => ((hconsumers b t).mp hmem).1 ⟨rfl, ht⟩

theorem moveConsumers_spec (h : config.SyncRows s) (htable : config.Table syncBarriers) (hpos : k ≠ barBlockId → 0 < k)
    (hk : k < config.numOfBlocks) (htasks : ∀ t ∈ tasks, t / config.blockSize = k ∧ t < config.tasksSize) :
    config.Advances changed s (config.moveConsumers syncBarriers barBlockId s (k, tasks)) ∧
      (k ≠ barBlockId → ∀ t ∈ tasks, config.isSyncPoint t = false →
        config.SyncEdge (config.moveConsumers syncBarriers barBlockId s (k, tasks)) (config.syncTask (k - 1)) t) := by
  unfold moveConsumers
  by_cases hown : k = barBlockId
  · dsimp only
    rw [if_pos hown]
    exact ⟨h.advances_refl, fun hne => absurd hown hne⟩
  · dsimp only
    rw [if_neg hown]
    have hspec := addSyncConsumers_spec changed h htable (hpos hown) hk htasks
    exact ⟨hspec.1, fun _ => hspec.2⟩

end

/-- What the graph has in place of the barrier `b` with the producers `producers` and the consumers `consumers`. -/
structure SplitRow (config : SplitConfig) (producers consumers : TaskSet) (b : ℕ) (s : BarrierInfo) : Prop where
  fits : ∀ p c, s.EdgeAt b p c → config.Fits p c
  producer : ∃ p, p ∈ s.getBarrierProducers b
  /-- Without consumers the barrier is not in the last block. -/
  notLast : (∀ c, c ∉ s.getBarrierConsumers b) → ∀ p ∈ s.getBarrierProducers b, p / config.blockSize + 1 < config.numOfBlocks
  /-- The tasks of one block are linked as before. -/
  inner : ∀ p ∈ producers, ∀ c ∈ consumers, p / config.blockSize = c / config.blockSize → s.EdgeAt b p c ∨ config.SyncEdge s p c
  /-- A producer without consumers in its block comes before the sync task. -/
  closing : ∀ p ∈ producers, p / config.blockSize + 1 < config.numOfBlocks → p ≠ config.syncTask (p / config.blockSize) →
    (∃ c ∈ consumers, c / config.blockSize = p / config.blockSize) ∨
      s.EdgeAt b p (config.syncTask (p / config.blockSize)) ∨ config.SyncEdge s p (config.syncTask (p / config.blockSize)) ∨
      (p ∈ s.getBarrierProducers b ∧ ∀ c, c ∉ s.getBarrierConsumers b)
  /-- A consumer comes after the sync task before its block. -/
  opening : ∀ p ∈ producers, ∀ c ∈ consumers, p / config.blockSize < c / config.blockSize → config.isSyncPoint c = false →
    config.SyncEdge s (config.syncTask (c / config.blockSize - 1)) c

theorem SplitRow.advances {producers : TaskSet} (h : config.SplitRow producers consumers b s) (hb : b < config.barriersCount)
    (hadvances : config.Advances changed s s') (hchanged : ¬ changed b) : config.SplitRow producers consumers b s' := by
  have hp := hadvances.producers b hb hchanged
  have hc := hadvances.consumers b hb hchanged
  have hedge : ∀ p c, s'.EdgeAt b p c ↔ s.EdgeAt b p c := fun p c => and_congr (hp p) (hc c)
  refine ⟨?_, ?_, ?_, ?_, ?_, ?_⟩
  · exact fun p c he => h.fits p c ((hedge p c).mp he)
  · obtain ⟨p, hmem⟩ := h.producer
    exact ⟨p, (hp p).mpr hmem⟩
  · intro hnone p hmem
    exact h.notLast (fun c hmem => hnone c ((hc c).mpr hmem)) p ((hp p).mp hmem)
  · intro p hmem c hmem' hblock
    apply (h.inner p hmem c hmem' hblock).imp
    · exact (hedge p c).mpr
    · exact hadvances.syncEdge
  · intro p hmem hlast hne
    apply (h.closing p hmem hlast hne).imp_right
    apply Or.imp
    · exact (hedge p _).mpr
    · apply Or.imp
      · exact hadvances.syncEdge
      · rintro ⟨hmem, hnone⟩
        exact ⟨(hp p).mpr hmem, fun c hmem => hnone c ((hc c).mp hmem)⟩
  · exact fun p hmem c hmem' hblock hpoint => hadvances.syncEdge (h.opening p hmem c hmem' hblock hpoint)

theorem splitRow_of_block (hlt : ∀ p ∈ s.getBarrierProducers b, ∀ c ∈ s.getBarrierConsumers b, p < c)
    (hp : ∃ p, p ∈ s.getBarrierProducers b) (hc : ∃ c, c ∈ s.getBarrierConsumers b)
    (hblock : ∀ p ∈ s.getBarrierProducers b, ∀ c ∈ s.getBarrierConsumers b, p / config.blockSize = c / config.blockSize) :
    config.SplitRow (s.getBarrierProducers b) (s.getBarrierConsumers b) b s := by
  obtain ⟨c₀, hc₀⟩ := hc
  refine ⟨?_, hp, ?_, ?_, ?_, ?_⟩
  · exact fun p c hedge => fits_of_block (hlt p hedge.1 c hedge.2) (hblock p hedge.1 c hedge.2)
  · exact fun hnone => absurd hc₀ (hnone c₀)
  · exact fun p hp c hc _ => .inl ⟨hp, hc⟩
  · exact fun p hp _ _ => .inl ⟨c₀, hc₀, (hblock p hp c₀ hc₀).symm⟩
  · exact fun p hp c hc hlt => absurd (hblock p hp c hc) (Nat.ne_of_lt hlt)

section
variable {producers : TaskSet}

theorem moveAllProducers_spec (hproper : config.Proper) (htable : config.Table syncBarriers) (h : config.SyncRows s)
    (hb : b < config.barriersCount) (hmin : ∀ p ∈ producers, barBlockId ≤ p / config.blockSize)
    (hc : ∃ c, c ∈ consumers) (hconsumers : ∀ c ∈ consumers, c < config.tasksSize)
    (hlt : ∀ p ∈ producers, ∀ c ∈ consumers, p < c) :
    let lastProdBlockId := ((config.blockTasks producers).map Prod.fst).getLastD 0
    let s' := (config.blockTasks producers).foldl (config.moveProducers syncBarriers b barBlockId lastProdBlockId
      (config.blockTasks consumers)) s
    config.Moves b barBlockId s s' ∧ ∀ blockTasks ∈ config.blockTasks producers,
      config.ProducersMoved b barBlockId lastProdBlockId consumers blockTasks s' := by
  intro lastProdBlockId
  apply foldl_establishes (I := config.Moves b barBlockId s) (moves_refl h)
  rintro ⟨k, tasks⟩ hmem s' hmoves
  obtain ⟨⟨t₀, ht₀, hblock₀⟩, htasks⟩ := mem_of_blockTasks hmem
  obtain ⟨c₀, hc₀⟩ := hc
  have hlast : k ≤ lastProdBlockId ∧ lastProdBlockId < config.numOfBlocks := by
    obtain ⟨hlastMem, hle⟩ := le_getLastD_of_pairwise blocks_pairwise (mem_blocks.mpr ⟨t₀, ht₀, hblock₀⟩)
    obtain ⟨t, ht, hblock⟩ := mem_blocks.mp hlastMem
    refine ⟨hle, ?_⟩
    change _ = lastProdBlockId at hblock
    rw [← hblock]
    exact hproper.block_lt (Nat.lt_trans (hlt t ht c₀ hc₀) (hconsumers c₀ hc₀))
  have hspec := @moveProducers_spec config syncBarriers s' b k barBlockId lastProdBlockId tasks consumers hproper htable
    hmoves.advances.rows hb (by
      intro hne
      have hle := hmin t₀ ht₀
      omega) (by
      intro t ht
      obtain ⟨hmem, hblock⟩ := (htasks t).mp ht
      exact ⟨hblock, Nat.lt_trans (hlt t hmem c₀ hc₀) (hconsumers c₀ hc₀)⟩) ⟨t₀, (htasks t₀).mpr ⟨ht₀, hblock₀⟩⟩ hconsumers
    (fun p hp c hc => hlt p ((htasks p).mp hp).1 c hc) (by
      rintro (hne | hnone)
      · omega
      · have hle : k ≤ c₀ / config.blockSize := hblock₀ ▸ Nat.div_le_div_right (Nat.le_of_lt (hlt t₀ ht₀ c₀ hc₀))
        have hne := hnone c₀ hc₀
        have hblock := hproper.block_lt (hconsumers c₀ hc₀)
        omega)
  exact ⟨hmoves.trans hspec.1, hspec.2, fun _ hmoved => hmoved.moves hspec.1⟩

theorem dropAllConsumers_spec (h : config.SyncRows s) (hb : b < config.barriersCount) :
    let s' := (config.blockTasks consumers).foldl (dropConsumers b barBlockId) s
    config.Moves b barBlockId s s' ∧
      ∀ t ∈ consumers, t / config.blockSize ≠ barBlockId → t ∉ s'.getBarrierConsumers b := by
  have hfold := foldl_establishes (I := config.Moves b barBlockId s) (f := dropConsumers b barBlockId)
    (l := config.blockTasks consumers)
    (Q := fun blockTasks s => blockTasks.1 ≠ barBlockId → ∀ t ∈ blockTasks.2, t ∉ s.getBarrierConsumers b) (moves_refl h) (by
      rintro ⟨k, tasks⟩ hmem s' hmoves
      obtain ⟨_, htasks⟩ := mem_of_blockTasks hmem
      have hspec := @dropConsumers_spec config s' b k barBlockId tasks hmoves.advances.rows hb (fun t ht => ((htasks t).mp ht).2)
      refine ⟨hmoves.trans hspec.1, hspec.2, ?_⟩
      exact fun _ hout hne t ht hmem => hout hne t ht (hspec.1.consumers t hmem))
  refine ⟨hfold.1, ?_⟩
  intro t ht hne
  obtain ⟨ts, hmem, htmem⟩ := @exists_blockTasks config t consumers ht
  exact hfold.2 _ hmem hne t htmem

theorem moveAllConsumers_spec (hproper : config.Proper) (htable : config.Table syncBarriers) (h : config.SyncRows s)
    (hmin : ∀ c ∈ consumers, barBlockId ≤ c / config.blockSize) (hconsumers : ∀ c ∈ consumers, c < config.tasksSize) :
    let s' := (config.blockTasks consumers).foldl (config.moveConsumers syncBarriers barBlockId) s
    config.Advances (fun _ => False) s s' ∧ ∀ c ∈ consumers, c / config.blockSize ≠ barBlockId →
      config.isSyncPoint c = false → config.SyncEdge s' (config.syncTask (c / config.blockSize - 1)) c := by
  have hfold := foldl_establishes (I := config.Advances (fun _ => False) s)
    (f := config.moveConsumers syncBarriers barBlockId) (l := config.blockTasks consumers)
    (Q := fun blockTasks s => blockTasks.1 ≠ barBlockId → ∀ t ∈ blockTasks.2, config.isSyncPoint t = false →
      config.SyncEdge s (config.syncTask (blockTasks.1 - 1)) t) h.advances_refl (by
      rintro ⟨k, tasks⟩ hmem s' hadvances
      obtain ⟨⟨t₀, ht₀, hblock₀⟩, htasks⟩ := mem_of_blockTasks hmem
      have hspec := @moveConsumers_spec config syncBarriers s' k barBlockId tasks (fun _ => False) hadvances.rows htable (by
          intro hne
          have hle := hmin t₀ ht₀
          omega) (hblock₀ ▸ hproper.block_lt (hconsumers t₀ ht₀))
        (fun t ht => ⟨((htasks t).mp ht).2, hconsumers t ((htasks t).mp ht).1⟩)
      refine ⟨hadvances.trans hspec.1, hspec.2, ?_⟩
      exact fun _ hedge hne t ht hpoint => hspec.1.syncEdge (hedge hne t ht hpoint))
  refine ⟨hfold.1, ?_⟩
  intro c hc hne hpoint
  obtain ⟨ts, hmem, hcmem⟩ := @exists_blockTasks config c consumers hc
  exact hfold.2 _ hmem hne c hcmem hpoint

theorem linkBarrierSync_spec (hproper : config.Proper) (h : config.SyncRows s) (hb : b < config.barriersCount)
    (hk : k + 1 < config.numOfBlocks) {firstProducer : ℕ} :
    let s' := if firstProducer ≠ config.syncTask k then
        (s.removeProducer b (config.syncTask k)).addConsumer b (config.syncTask k) else s
    config.Advances (· = b) s s' ∧
      (∀ t, t ∈ s'.getBarrierProducers b ↔
        t ∈ s.getBarrierProducers b ∧ (firstProducer ≠ config.syncTask k → t ≠ config.syncTask k)) ∧
      ∀ t, t ∈ s'.getBarrierConsumers b ↔
        t ∈ s.getBarrierConsumers b ∨ (firstProducer ≠ config.syncTask k ∧ t = config.syncTask k) := by
  by_cases hfirst : firstProducer ≠ config.syncTask k
  · intro s'
    have heq : s' = (s.removeProducer b (config.syncTask k)).addConsumer b (config.syncTask k) := if_pos hfirst
    rw [heq]
    have hremoved := @removeProducers_advances config s b [config.syncTask k] h hb
    obtain ⟨hadded, hconsumers⟩ := addConsumer_advances hremoved.rows hb (Nat.lt_of_succ_lt (hproper.syncTask_lt hk))
    refine ⟨hremoved.trans hadded, ?_, ?_⟩
    · intro t
      rw [producers_addConsumer, mem_producers_removeProducer]
      tauto
    · intro t
      apply (hconsumers t).trans
      dsimp only [foldl_cons, foldl_nil]
      rw [consumers_removeProducer]
      tauto
  · intro s'
    have heq : s' = s := if_neg hfirst
    rw [heq]
    refine ⟨h.advances_refl, ?_, ?_⟩
    · tauto
    · tauto

theorem splitBarrier_spec (hproper : config.Proper) (htable : config.Table syncBarriers) (h : config.SyncRows s)
    (hb : b < config.barriersCount) (hown : ∃ p ∈ s.getBarrierProducers b, p / config.blockSize = barBlockId)
    (hmin : ∀ p ∈ s.getBarrierProducers b, barBlockId ≤ p / config.blockSize)
    (hlt : ∀ p ∈ s.getBarrierProducers b, ∀ c ∈ s.getBarrierConsumers b, p < c)
    (hsplit : ∃ c ∈ s.getBarrierConsumers b, c / config.blockSize ≠ barBlockId) :
    let s' := config.splitBarrier syncBarriers s b barBlockId (config.blockTasks (s.getBarrierProducers b))
      (config.blockTasks (s.getBarrierConsumers b))
    config.Advances (· = b) s s' ∧ config.SplitRow (s.getBarrierProducers b) (s.getBarrierConsumers b) b s' := by
  generalize hproducers : s.getBarrierProducers b = producers at *
  generalize hconsumers : s.getBarrierConsumers b = consumers at *
  obtain ⟨p₀, hp₀, hblock₀⟩ := hown
  have hrange : ∀ c ∈ consumers, c < config.tasksSize := by
    intro c hc
    rw [← hconsumers] at hc
    exact h.tasks ▸ (h.consistent.consumer_lt hc).2
  have hminConsumers : ∀ c ∈ consumers, barBlockId ≤ c / config.blockSize := by
    intro c hc
    rw [← hblock₀]
    exact Nat.div_le_div_right (Nat.le_of_lt (hlt p₀ hp₀ c hc))
  have hk : barBlockId + 1 < config.numOfBlocks := by
    obtain ⟨c, hc, hne⟩ := hsplit
    have hle := hminConsumers c hc
    have hblock := hproper.block_lt (hrange c hc)
    omega
  unfold splitBarrier
  dsimp only
  -- the producers
  obtain ⟨c₁, hc₁, _⟩ := hsplit
  obtain ⟨hmoves₁, hmoved⟩ := moveAllProducers_spec hproper htable h hb hmin ⟨c₁, hc₁⟩ hrange hlt
  generalize hlast : ((config.blockTasks producers).map Prod.fst).getLastD 0 = lastProdBlockId at hmoves₁ hmoved ⊢
  generalize (config.blockTasks producers).foldl _ s = s₁ at hmoves₁ hmoved ⊢
  -- the consumers
  obtain ⟨hmoves₂, hdropped⟩ := @dropAllConsumers_spec config s₁ b barBlockId consumers hmoves₁.advances.rows hb
  generalize (config.blockTasks consumers).foldl (dropConsumers b barBlockId) s₁ = s₂ at hmoves₂ hdropped ⊢
  have hmoves := hmoves₁.trans hmoves₂
  have hproducers₂ : ∀ t, t ∈ s₂.getBarrierProducers b ↔ t ∈ producers ∧ t / config.blockSize = barBlockId := by
    intro t
    constructor
    · intro ht
      have hmem : t ∈ producers := hproducers ▸ hmoves.producers t ht
      refine ⟨hmem, ?_⟩
      by_contra hne
      obtain ⟨ts, hts, htmem⟩ := @exists_blockTasks config t producers hmem
      exact (hmoved _ hts hne).1 t htmem (hmoves₂.producers t ht)
    · rintro ⟨ht, hblock⟩
      exact hmoves.ownProducers t (hproducers ▸ ht) hblock
  have hconsumers₂ : ∀ t, t ∈ s₂.getBarrierConsumers b ↔ t ∈ consumers ∧ t / config.blockSize = barBlockId := by
    intro t
    constructor
    · intro ht
      have hmem : t ∈ consumers := hconsumers ▸ hmoves.consumers t ht
      refine ⟨hmem, ?_⟩
      by_contra hne
      exact hdropped t hmem hne ht
    · rintro ⟨ht, hblock⟩
      exact hmoves.ownConsumers t (hconsumers ▸ ht) hblock
  -- the sync task
  have hsync : barBlockId * config.blockSize + config.blockSize - 1 = config.syncTask barBlockId := by
    unfold syncTask
    rw [Nat.succ_mul]
  rw [hsync]
  generalize hfirst : (((config.blockTasks producers).lookup barBlockId).getD ∅).toList.headD 0 = firstProducer
  have hfirstMem : firstProducer ∈ producers ∧ firstProducer / config.blockSize = barBlockId := by
    cases hfind : (config.blockTasks producers).lookup barBlockId with
    | none => exact absurd hblock₀ (lookup_blockTasks_none hfind p₀ hp₀)
    | some ts =>
      have hts := (mem_of_blockTasks (mem_of_lookup_blockTasks hfind)).2
      rw [hfind, Option.getD_some] at hfirst
      have hne : ts.toList ≠ [] := ne_nil_of_mem ((hts p₀).mpr ⟨hp₀, hblock₀⟩)
      cases hlist : ts.toList with
      | nil => exact absurd hlist hne
      | cons x rest =>
        rw [hlist, headD_cons] at hfirst
        have hx : x ∈ ts := by
          rw [SmallSet.mem_iff, hlist]
          exact mem_cons_self
        rw [← hfirst]
        exact (hts x).mp hx
  obtain ⟨hadvances₃, hproducers₃, hconsumers₃⟩ :=
    @linkBarrierSync_spec config s₂ b barBlockId hproper hmoves.advances.rows hb hk firstProducer
  generalize (if firstProducer ≠ config.syncTask barBlockId then
    (s₂.removeProducer b (config.syncTask barBlockId)).addConsumer b (config.syncTask barBlockId) else s₂) = s₃
    at hadvances₃ hproducers₃ hconsumers₃ ⊢
  -- the consumers once more
  obtain ⟨hadvances₄, hopening⟩ :=
    @moveAllConsumers_spec config syncBarriers s₃ barBlockId consumers hproper htable hadvances₃.rows hminConsumers hrange
  generalize (config.blockTasks consumers).foldl (config.moveConsumers syncBarriers barBlockId) s₃ = s₄ at hadvances₄ hopening ⊢
  have hadvances : config.Advances (· = b) s₁ s₄ :=
    (hmoves₂.advances.trans hadvances₃).trans (hadvances₄.mono (fun _ hfalse => hfalse.elim))
  have hproducers₄ : ∀ t, t ∈ s₄.getBarrierProducers b ↔ (t ∈ producers ∧ t / config.blockSize = barBlockId) ∧
      (firstProducer ≠ config.syncTask barBlockId → t ≠ config.syncTask barBlockId) := by
    intro t
    rw [hadvances₄.producers b hb not_false, hproducers₃, hproducers₂]
  have hconsumers₄ : ∀ t, t ∈ s₄.getBarrierConsumers b ↔ (t ∈ consumers ∧ t / config.blockSize = barBlockId) ∨
      (firstProducer ≠ config.syncTask barBlockId ∧ t = config.syncTask barBlockId) := by
    intro t
    rw [hadvances₄.consumers b hb not_false, hconsumers₃, hconsumers₂]
  refine ⟨hmoves₁.advances.trans hadvances, ?_, ?_, ?_, ?_, ?_, ?_⟩
  · rintro p c ⟨hp, hc⟩
    obtain ⟨⟨hp, hpblock⟩, hpsync⟩ := (hproducers₄ p).mp hp
    cases (hconsumers₄ c).mp hc with
    | inl hc => exact fits_of_block (hlt p hp c hc.1) (hpblock.trans hc.2.symm)
    | inr hc =>
      rw [hc.2]
      apply fits_of_block
      · exact Nat.lt_of_le_of_ne (hproper.block_iff.mp hpblock).2 (hpsync hc.1)
      · rw [hpblock, hproper.syncTask_block]
  · exact ⟨firstProducer, (hproducers₄ firstProducer).mpr ⟨hfirstMem, fun hne => hne⟩⟩
  · intro _ p hp
    rw [((hproducers₄ p).mp hp).1.2]
    exact hk
  · intro p hp c hc hblock
    by_cases hown : p / config.blockSize = barBlockId
    · left
      refine ⟨(hproducers₄ p).mpr ⟨⟨hp, hown⟩, fun _ => ?_⟩, (hconsumers₄ c).mpr (.inl ⟨hc, hblock ▸ hown⟩)⟩
      have hle := (hproper.block_iff.mp (hblock ▸ hown : c / config.blockSize = barBlockId)).2
      exact Nat.ne_of_lt (Nat.lt_of_lt_of_le (hlt p hp c hc) hle)
    · right
      obtain ⟨ts, hts, hpmem⟩ := @exists_blockTasks config p producers hp
      have hlastBlock : p / config.blockSize = lastProdBlockId := by
        obtain ⟨hlastMem, hle⟩ := le_getLastD_of_pairwise blocks_pairwise (mem_blocks.mpr ⟨p, hp, rfl⟩ :
          p / config.blockSize ∈ (config.blockTasks producers).map Prod.fst)
        rw [hlast] at hlastMem hle
        obtain ⟨p', hp', hblock'⟩ := mem_blocks.mp hlastMem
        have hge : p' / config.blockSize ≤ c / config.blockSize := Nat.div_le_div_right (Nat.le_of_lt (hlt p' hp' c hc))
        omega
      exact hadvances.syncEdge ((hmoved _ hts hown).2.1 hlastBlock p hpmem c hc hblock.symm)
  · intro p hp hplast hpsync
    by_cases hown : p / config.blockSize = barBlockId
    · right
      rw [hown] at hpsync ⊢
      have hpmem : p ∈ s₄.getBarrierProducers b := (hproducers₄ p).mpr ⟨⟨hp, hown⟩, fun _ => hpsync⟩
      by_cases hne : firstProducer ≠ config.syncTask barBlockId
      · exact .inl ⟨hpmem, (hconsumers₄ _).mpr (.inr ⟨hne, rfl⟩)⟩
      · -- no consumer of the block comes after its sync task
        refine .inr (.inr ⟨hpmem, ?_⟩)
        intro c hc
        cases (hconsumers₄ c).mp hc with
        | inl hc =>
          have hge := hlt firstProducer hfirstMem.1 c hc.1
          rw [not_not.mp hne] at hge
          exact absurd (hproper.block_iff.mp hc.2).2 (Nat.not_le_of_lt hge)
        | inr hc => exact hne hc.1
    · obtain ⟨ts, hts, hpmem⟩ := @exists_blockTasks config p producers hp
      have hmovedTo := (hmoved _ hts hown).2.2
      by_cases hinner : ∃ c ∈ consumers, c / config.blockSize = p / config.blockSize
      · exact .inl hinner
      · have hnone : ∀ c ∈ consumers, c / config.blockSize ≠ p / config.blockSize := fun c hc heq => hinner ⟨c, hc, heq⟩
        exact .inr (.inr (.inl (hadvances.syncEdge (hmovedTo (.inr hnone) p hpmem hpsync))))
  · intro p hp c hc hblock hpoint
    have hne : c / config.blockSize ≠ barBlockId := by
      have hle := hmin p hp
      omega
    exact hopening c hc hne hpoint

theorem SplitRow.congr {producers producers' consumers' : TaskSet} (h : config.SplitRow producers consumers b s)
    (hp : ∀ t, t ∈ producers' ↔ t ∈ producers) (hc : ∀ t, t ∈ consumers' ↔ t ∈ consumers) :
    config.SplitRow producers' consumers' b s := by
  refine ⟨h.fits, h.producer, h.notLast, ?_, ?_, ?_⟩
  · exact fun p hmem c hmem' => h.inner p ((hp p).mp hmem) c ((hc c).mp hmem')
  · intro p hmem hlast hne
    apply (h.closing p ((hp p).mp hmem) hlast hne).imp_left
    rintro ⟨c, hmem', hblock⟩
    exact ⟨c, (hc c).mpr hmem', hblock⟩
  · exact fun p hmem c hmem' => h.opening p ((hp p).mp hmem) c ((hc c).mp hmem')

theorem splitBarriers_cons (hproper : config.Proper) (htable : config.Table syncBarriers) (h : config.SyncRows s)
    {barInds : List ℕ} (hb : b < config.barriersCount) (hp : ∃ p, p ∈ s.getBarrierProducers b)
    (hc : ∃ c, c ∈ s.getBarrierConsumers b) (hlt : ∀ p ∈ s.getBarrierProducers b, ∀ c ∈ s.getBarrierConsumers b, p < c) :
    ∃ s', config.splitBarriers syncBarriers s (b :: barInds) = config.splitBarriers syncBarriers s' barInds ∧
      config.Advances (· = b) s s' ∧ config.SplitRow (s.getBarrierProducers b) (s.getBarrierConsumers b) b s' := by
  obtain ⟨p₀, hp₀⟩ := hp
  obtain ⟨c₀, hc₀⟩ := hc
  have hpne : (s.getBarrierProducers b).toList ≠ [] := ne_nil_of_mem hp₀
  have hcne : (s.getBarrierConsumers b).toList ≠ [] := ne_nil_of_mem hc₀
  have hpkeys : ∀ p ∈ s.getBarrierProducers b, p / config.blockSize ∈
      (config.blockTasks (s.getBarrierProducers b)).map Prod.fst := fun p hp => mem_blocks.mpr ⟨p, hp, rfl⟩
  have hckeys : ∀ c ∈ s.getBarrierConsumers b, c / config.blockSize ∈
      (config.blockTasks (s.getBarrierConsumers b)).map Prod.fst := fun c hc => mem_blocks.mpr ⟨c, hc, rfl⟩
  rw [splitBarriers, if_neg hpne, if_neg hcne]
  dsimp only
  by_cases hone : (sortedOf ((config.blockTasks (s.getBarrierProducers b)).map Prod.fst ++
      (config.blockTasks (s.getBarrierConsumers b)).map Prod.fst)).length < 2
  · rw [if_pos hone]
    refine ⟨s, rfl, h.advances_refl, splitRow_of_block hlt ⟨p₀, hp₀⟩ ⟨c₀, hc₀⟩ ?_⟩
    rw [length_sortedOf_lt_two] at hone
    intro p hp c hc
    exact hone _ (mem_append_left _ (hpkeys p hp)) _ (mem_append_right _ (hckeys c hc))
  · rw [if_neg hone]
    obtain ⟨hheadMem, _⟩ := headD_le_of_pairwise blocks_pairwise (hpkeys p₀ hp₀)
    obtain ⟨p₁, hp₁, hblock₁⟩ := mem_blocks.mp hheadMem
    have hmin : ∀ p ∈ s.getBarrierProducers b, ((config.blockTasks (s.getBarrierProducers b)).map Prod.fst).headD 0 ≤
        p / config.blockSize := fun p hp => (headD_le_of_pairwise blocks_pairwise (hpkeys p hp)).2
    -- the producers come first
    have hle : ((config.blockTasks (s.getBarrierProducers b)).map Prod.fst).headD 0 ≤
        ((config.blockTasks (s.getBarrierConsumers b)).map Prod.fst).headD 0 := by
      obtain ⟨hmem, _⟩ := headD_le_of_pairwise blocks_pairwise (hckeys c₀ hc₀)
      obtain ⟨c₁, hc₁, hcblock₁⟩ := mem_blocks.mp hmem
      rw [← hcblock₁, ← hblock₁]
      exact Nat.div_le_div_right (Nat.le_of_lt (hlt p₁ hp₁ c₁ hc₁))
    rw [Nat.min_eq_left hle]
    generalize ((config.blockTasks (s.getBarrierProducers b)).map Prod.fst).headD 0 = barBlockId at hblock₁ hmin hle ⊢
    have hblockLt : barBlockId ≠ config.numOfBlocks + 1 := by
      have hlt := hproper.block_lt (h.tasks ▸ (h.consistent.producer_lt hp₁).2)
      omega
    rw [if_neg hblockLt]
    have hspec := splitBarrier_spec hproper htable h hb ⟨p₁, hp₁, hblock₁⟩ hmin hlt (by
      by_contra hnone
      have hsame : ∀ c ∈ s.getBarrierConsumers b, c / config.blockSize = barBlockId := by
        intro c hc
        by_contra hne
        exact hnone ⟨c, hc, hne⟩
      have hsame' : ∀ p ∈ s.getBarrierProducers b, p / config.blockSize = barBlockId := by
        intro p hp
        apply Nat.le_antisymm _ (hmin p hp)
        rw [← hsame c₀ hc₀]
        exact Nat.div_le_div_right (Nat.le_of_lt (hlt p hp c₀ hc₀))
      have hall : ∀ k ∈ (config.blockTasks (s.getBarrierProducers b)).map Prod.fst ++
          (config.blockTasks (s.getBarrierConsumers b)).map Prod.fst, k = barBlockId := by
        intro k hk
        cases mem_append.mp hk with
        | inl hk =>
          obtain ⟨p, hp, hblock⟩ := mem_blocks.mp hk
          rw [← hblock, hsame' p hp]
        | inr hk =>
          obtain ⟨c, hc, hblock⟩ := mem_blocks.mp hk
          rw [← hblock, hsame c hc]
      exact hone (length_sortedOf_lt_two.mpr (fun k hk k' hk' => (hall k hk).trans (hall k' hk').symm)))
    exact ⟨_, rfl, hspec⟩

theorem splitBarriers_spec (hproper : config.Proper) (htable : config.Table syncBarriers) (h : config.SyncRows s)
    {barInds : List ℕ} (hnodup : barInds.Nodup) (hb : ∀ b ∈ barInds, b < config.barriersCount)
    (hp : ∀ b ∈ barInds, ∃ p, p ∈ s.getBarrierProducers b) (hc : ∀ b ∈ barInds, ∃ c, c ∈ s.getBarrierConsumers b)
    (hlt : ∀ b ∈ barInds, ∀ p ∈ s.getBarrierProducers b, ∀ c ∈ s.getBarrierConsumers b, p < c) :
    ∃ s', config.splitBarriers syncBarriers s barInds = .ok s' ∧ config.Advances (· ∈ barInds) s s' ∧
      ∀ b ∈ barInds, config.SplitRow (s.getBarrierProducers b) (s.getBarrierConsumers b) b s' := by
  induction barInds generalizing s with
  | nil => exact ⟨s, rfl, h.advances_refl, fun b hb => absurd hb not_mem_nil⟩
  | cons b barInds ih =>
    obtain ⟨hnew, hnodup⟩ := nodup_cons.mp hnodup
    obtain ⟨hb, hbs⟩ := forall_mem_cons.mp hb
    obtain ⟨hp, hps⟩ := forall_mem_cons.mp hp
    obtain ⟨hc, hcs⟩ := forall_mem_cons.mp hc
    obtain ⟨hlt, hlts⟩ := forall_mem_cons.mp hlt
    obtain ⟨s₁, hs₁, hadvances₁, hrow⟩ := @splitBarriers_cons config syncBarriers s b hproper htable h barInds hb hp hc hlt
    have hother : ∀ b' ∈ barInds, b' ≠ b := fun b' hb' heq => hnew (heq ▸ hb')
    have hproducers := fun b' hb' => hadvances₁.producers b' (hbs b' hb') (hother b' hb')
    have hconsumers := fun b' hb' => hadvances₁.consumers b' (hbs b' hb') (hother b' hb')
    obtain ⟨s', hs', hadvances, hrows⟩ := ih hadvances₁.rows hnodup hbs
      (fun b' hb' => (hps b' hb').imp (fun t => (hproducers b' hb' t).mpr))
      (fun b' hb' => (hcs b' hb').imp (fun t => (hconsumers b' hb' t).mpr))
      (fun b' hb' p hp c hc => hlts b' hb' p ((hproducers b' hb' p).mp hp) c ((hconsumers b' hb' c).mp hc))
    refine ⟨s', hs₁.trans hs', ?_, ?_⟩
    · apply (hadvances₁.mono _).trans (hadvances.mono _)
      · exact fun b' heq => heq ▸ mem_cons_self
      · exact fun b' hb' => mem_cons_of_mem _ hb'
    · intro b' hb'
      cases mem_cons.mp hb' with
      | inl heq =>
        rw [heq]
        exact hrow.advances hb hadvances hnew
      | inr hb' =>
        exact (hrows b' hb').congr (fun t => (hproducers b' hb' t).symm) (fun t => (hconsumers b' hb' t).symm)

end

end SplitConfig

end NpuCompiler.Barrier
