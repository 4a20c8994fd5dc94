import NpuCompiler.Barrier.OptimizeSteps
import NpuCompiler.Barrier.QueueEnds

namespace NpuCompiler.Barrier

open BarrierInfo GraphSplit List SmallSet

def QueueOrder (getTaskQueueType : ℕ → TaskQueueType) (p c : ℕ) : Prop := p < c ∧ getTaskQueueType p = getTaskQueueType c

namespace SplitConfig

variable {config : SplitConfig} {syncBarriers : SyncBarriers} {s s' : BarrierInfo} {b k p c t : ℕ}

theorem SyncEdge.edge (h : config.SyncEdge s p c) : s.Edge p c := h.imp (fun _ hb => hb.2)

section

theorem linkAllSyncTasks_spec (hproper : config.Proper) (htable : config.Table syncBarriers) (h : config.SyncRows s) :
    let s' := (config.laterBlocks 2).foldl (config.linkSyncTasks syncBarriers) s
    config.Advances (fun _ => False) s s' ∧
      ∀ k, k + 2 < config.numOfBlocks → config.SyncEdge s' (config.syncTask k) (config.syncTask (k + 1)) := by
  have hfold := foldl_establishes (I := config.Advances (fun _ => False) s) (f := config.linkSyncTasks syncBarriers)
    (l := config.laterBlocks 2)
    (Q := fun blockInd s => config.SyncEdge s (config.syncTask (blockInd - 2)) (config.syncTask (blockInd - 1))) h.advances_refl (by
      intro blockInd hmem s' hadvances
      obtain ⟨hle, hlt⟩ := mem_tasksFrom.mp hmem
      have hk : blockInd - 2 + 1 < config.numOfBlocks := by omega
      have hpred : (blockInd - 1) * config.blockSize - 1 = config.syncTask (blockInd - 2) := by
        rw [syncTask_pred (by omega)]
        rfl
      have heq : config.linkSyncTasks syncBarriers s' blockInd =
          s'.addConsumers (config.updateBarInd (blockInd - 2)) [config.syncTask (blockInd - 1)] := by
        unfold linkSyncTasks
        rw [hpred, (htable _ hk).2, syncTask_pred (by omega)]
        rfl
      have hsync := @Proper.syncTask_lt config (blockInd - 1) hproper (by omega)
      have hspec := addUpdateConsumers_spec (fun _ => False) [config.syncTask (blockInd - 1)] hadvances.rows hk (by
        intro t ht
        rw [mem_singleton.mp ht, hproper.syncTask_block]
        omega)
      rw [heq]
      refine ⟨hadvances.trans hspec.1, ?_, fun _ hedge => hspec.1.syncEdge hedge⟩
      exact ⟨_, Nat.le_add_right_of_le (Nat.le_add_right _ _), hspec.2 _ mem_cons_self⟩)
  refine ⟨hfold.1, ?_⟩
  intro k hk
  exact hfold.2 (k + 2) (mem_tasksFrom.mpr ⟨Nat.le_add_left 2 k, hk⟩)

structure Sanitizes (config : SplitConfig) (s s' : BarrierInfo) : Prop where
  advances : config.Advances (fun b => ∀ c, c ∉ s.getBarrierConsumers b) s s'
  unchanged : ∀ b < config.barriersCount, (∀ c, c ∉ s.getBarrierConsumers b) →
    (∀ t, t ∈ s'.getBarrierProducers b ↔ t ∈ s.getBarrierProducers b) ∨ ∀ t, t ∉ s'.getBarrierProducers b
  noConsumers : ∀ b < config.barriersCount, (∀ c, c ∉ s.getBarrierConsumers b) → ∀ c, c ∉ s'.getBarrierConsumers b

def Sanitized (config : SplitConfig) (s : BarrierInfo) (b : ℕ) (s' : BarrierInfo) : Prop :=
  (∀ c, c ∉ s.getBarrierConsumers b) → (∀ t, t ∉ s'.getBarrierProducers b) ∧
    ∀ p ∈ s.getBarrierProducers b, p ≠ config.syncTask (p / config.blockSize) →
      config.SyncEdge s' p (config.syncTask (p / config.blockSize))

theorem linkProducers_spec (hproper : config.Proper) (htable : config.Table syncBarriers) (h : config.SyncRows s) {ts : List ℕ}
    (hts : ∀ t ∈ ts, t / config.blockSize + 1 < config.numOfBlocks) :
    let s' := ts.foldl (fun s taskInd =>
      let syncTaskInd := taskInd / config.blockSize * config.blockSize + config.blockSize - 1
      if syncTaskInd < config.tasksSize ∧ taskInd ≠ syncTaskInd then s.addProducer (syncBarriers.waitBar syncTaskInd) taskInd
      else s) s
    config.Advances (fun _ => False) s s' ∧ ∀ t ∈ ts, t ≠ config.syncTask (t / config.blockSize) →
      config.SyncEdge s' t (config.syncTask (t / config.blockSize)) := by
  apply foldl_establishes (I := config.Advances (fun _ => False) s)
    (Q := fun t s => t ≠ config.syncTask (t / config.blockSize) → config.SyncEdge s t (config.syncTask (t / config.blockSize)))
    h.advances_refl
  intro t ht s' hadvances
  have hk := hts t ht
  have hsync : t / config.blockSize * config.blockSize + config.blockSize - 1 = config.syncTask (t / config.blockSize) := by
    unfold syncTask
    rw [Nat.succ_mul]
  dsimp only
  rw [hsync, (htable _ hk).1]
  by_cases hne : t ≠ config.syncTask (t / config.blockSize)
  · rw [if_pos ⟨Nat.lt_of_succ_lt (hproper.syncTask_lt hk), hne⟩]
    have hspec := addWaitProducers_spec (fun _ => False) [t] hproper hadvances.rows hk (by
      intro t' ht'
      rw [mem_singleton.mp ht']
      exact ⟨rfl, hne⟩)
    refine ⟨hadvances.trans hspec.1, fun _ => ?_, fun _ hedge hne => hspec.1.syncEdge (hedge hne)⟩
    exact ⟨_, Nat.le_add_right _ _, hspec.2 t mem_cons_self⟩
  · rw [if_neg (fun hand => hne hand.2)]
    exact ⟨hadvances, fun h => absurd h hne, fun _ hedge => hedge⟩

theorem resetBarrier_advances (h : config.SyncRows s) (hb : b < config.barriersCount) :
    config.Advances (· = b) s (s.resetBarrier b) := by
  apply h.advances_of_same h.consistent.resetBarrier numOfTasks_resetBarrier numOfBarrierOps_resetBarrier
  · intro b' hb' t
    rw [mem_producers_resetBarrier, and_iff_right]
    exact fun heq => hb' ⟨heq ▸ hb, heq⟩
  · intro b' hb' t
    rw [mem_consumers_resetBarrier, and_iff_right]
    exact fun heq => hb' ⟨heq ▸ hb, heq⟩

theorem sanitizeBarrier_spec (hproper : config.Proper) (htable : config.Table syncBarriers) (h : config.Sanitizes s s')
    (hb : b < config.barriersCount) (hp : ∃ p, p ∈ s.getBarrierProducers b)
    (hlast : (∀ c, c ∉ s.getBarrierConsumers b) → ∀ p ∈ s.getBarrierProducers b, p / config.blockSize + 1 < config.numOfBlocks)
    (hdone : (∀ c, c ∉ s.getBarrierConsumers b) → (∀ t, t ∉ s'.getBarrierProducers b) → config.Sanitized s b s') :
    ∃ s'', config.sanitizeBarrier syncBarriers s' b = .ok s'' ∧ config.Sanitizes s s'' ∧ config.Sanitized s b s'' ∧
      config.Advances (fun b' => b' = b ∧ ∀ c, c ∉ s.getBarrierConsumers b) s' s'' := by
  have hrows := h.advances.rows
  by_cases hnone : ∀ c, c ∉ s.getBarrierConsumers b
  · have hnone' := h.noConsumers b hb hnone
    have hcnil : (s'.getBarrierConsumers b).toList = [] := toList_eq_nil.mpr hnone'
    unfold sanitizeBarrier
    dsimp only
    by_cases hpnil : (s'.getBarrierProducers b).toList = []
    · have hstay : ¬ ((s'.getBarrierConsumers b).toList = [] ∧ (s'.getBarrierProducers b).toList ≠ []) := fun hand => hand.2 hpnil
      rw [if_neg hstay, if_neg (fun hand => hand.2 hcnil)]
      exact ⟨s', rfl, h, hdone hnone (toList_eq_nil.mp hpnil), hrows.advances_refl⟩
    · have hsanitize : (s'.getBarrierConsumers b).toList = [] ∧ (s'.getBarrierProducers b).toList ≠ [] := ⟨hcnil, hpnil⟩
      rw [if_pos hsanitize]
      have hsame := (h.unchanged b hb hnone).resolve_right (fun hempty => hpnil (toList_eq_nil.mpr hempty))
      obtain ⟨hlinked, hedges⟩ := @linkProducers_spec config syncBarriers s' hproper htable hrows (s'.getBarrierProducers b).toList
        (fun p hp => hlast hnone p ((hsame p).mp hp))
      generalize (s'.getBarrierProducers b).toList.foldl _ s' = linked at hlinked hedges ⊢
      have hreset := @resetBarrier_advances config linked b hlinked.rows hb
      have hpreset : ∀ t, t ∉ (linked.resetBarrier b).getBarrierProducers b :=
        fun t ht => (mem_producers_resetBarrier.mp ht).1 rfl
      have hcreset : ∀ t, t ∉ (linked.resetBarrier b).getBarrierConsumers b :=
        fun t ht => (mem_consumers_resetBarrier.mp ht).1 rfl
      rw [if_neg (fun hand => hand.2 (toList_eq_nil.mpr hcreset))]
      have hadvances : config.Advances (fun b' => b' = b ∧ ∀ c, c ∉ s.getBarrierConsumers b) s' (linked.resetBarrier b) :=
        (hlinked.mono (fun _ hfalse => hfalse.elim)).trans (hreset.mono (fun b' heq => ⟨heq, hnone⟩))
      refine ⟨_, rfl, ⟨?_, ?_, ?_⟩, ?_, hadvances⟩
      · apply h.advances.trans
        apply hadvances.mono
        rintro b' ⟨rfl, hnone⟩
        exact hnone
      · intro b' hb' hnone'
        by_cases heq : b' = b
        · exact .inr (heq ▸ hpreset)
        · apply (h.unchanged b' hb' hnone').imp
          · exact fun hold t => (hadvances.producers b' hb' (fun hand => heq hand.1) t).trans (hold t)
          · exact fun hold t ht => hold t ((hadvances.producers b' hb' (fun hand => heq hand.1) t).mp ht)
      · intro b' hb' hnone' c hc
        by_cases heq : b' = b
        · exact hcreset c (heq ▸ hc)
        · exact h.noConsumers b' hb' hnone' c ((hadvances.consumers b' hb' (fun hand => heq hand.1) c).mp hc)
      · intro _
        refine ⟨hpreset, fun p hp hne => ?_⟩
        exact hreset.syncEdge (hedges p ((hsame p).mpr hp) hne)
  · -- a barrier with consumers stays
    have hcsame := h.advances.consumers b hb hnone
    have hcne : (s'.getBarrierConsumers b).toList ≠ [] := by
      intro hnil
      exact hnone (fun c hc => toList_eq_nil.mp hnil c ((hcsame c).mpr hc))
    have hpne : (s'.getBarrierProducers b).toList ≠ [] := by
      obtain ⟨p, hp⟩ := hp
      exact ne_nil_of_mem ((h.advances.producers b hb hnone p).mpr hp)
    unfold sanitizeBarrier
    dsimp only
    have hstay : ¬ ((s'.getBarrierConsumers b).toList = [] ∧ (s'.getBarrierProducers b).toList ≠ []) := fun hand => hcne hand.1
    rw [if_neg hstay, if_neg (fun hand => hpne hand.1)]
    exact ⟨s', rfl, h, fun hempty => absurd hempty hnone, hrows.advances_refl⟩

theorem sanitizeBarriers_spec (hproper : config.Proper) (htable : config.Table syncBarriers) (h : config.SyncRows s)
    (hp : ∀ b < config.barriersCount, ∃ p, p ∈ s.getBarrierProducers b)
    (hlast : ∀ b < config.barriersCount, (∀ c, c ∉ s.getBarrierConsumers b) → ∀ p ∈ s.getBarrierProducers b,
      p / config.blockSize + 1 < config.numOfBlocks) :
    ∃ s', (List.range config.barriersCount).foldlM (config.sanitizeBarrier syncBarriers) s = .ok s' ∧ config.Sanitizes s s' ∧
      ∀ b < config.barriersCount, config.Sanitized s b s' := by
  -- a barrier without producers has been visited
  have hfold := @foldlM_establishes _ _ _
    (fun s' => config.Sanitizes s s' ∧ ∀ b < config.barriersCount, (∀ c, c ∉ s.getBarrierConsumers b) →
      (∀ t, t ∉ s'.getBarrierProducers b) → config.Sanitized s b s')
    (fun b s' => b < config.barriersCount → config.Sanitized s b s') (List.range config.barriersCount) s
    (config.sanitizeBarrier syncBarriers) (by
      refine ⟨⟨h.advances_refl, fun _ _ _ => .inl (fun _ => Iff.rfl), fun _ _ hnone => hnone⟩, ?_⟩
      intro b hb _ hempty
      obtain ⟨p, hp⟩ := hp b hb
      exact absurd hp (hempty p)) (by
      intro b hmem s' ⟨hs', hdone⟩
      have hb := mem_range.mp hmem
      obtain ⟨s'', hs'', hsanitizes, hsanitized, hadvances⟩ :=
        sanitizeBarrier_spec hproper htable hs' hb (hp b hb) (hlast b hb) (hdone b hb)
      have hkept : ∀ b' < config.barriersCount, config.Sanitized s b' s' → config.Sanitized s b' s'' := by
        intro b' hb' hold hnone
        by_cases heq : b' = b
        · exact heq ▸ hsanitized (heq ▸ hnone)
        · obtain ⟨hempty, hedges⟩ := hold hnone
          refine ⟨fun t ht => ?_, fun p hp hne => hadvances.syncEdge (hedges p hp hne)⟩
          exact hempty t ((hadvances.producers b' hb' (fun hand => heq hand.1) t).mp ht)
      refine ⟨s'', hs'', ⟨hsanitizes, ?_⟩, fun _ => hsanitized, fun b' hold hb' => hkept b' hb' (hold hb')⟩
      intro b' hb' hnone hempty
      by_cases heq : b' = b
      · exact heq ▸ hsanitized
      · apply hkept b' hb'
        apply hdone b' hb' hnone
        exact fun t ht => hempty t ((hadvances.producers b' hb' (fun hand => heq hand.1) t).mpr ht))
  obtain ⟨s', hs', hI, hQ⟩ := hfold
  exact ⟨s', hs', hI.1, fun b hb => hQ b (mem_range.mpr hb) hb⟩

structure SameEdges (s s' : BarrierInfo) : Prop where
  consistent : s'.Consistent
  tasks : s'.getNumOfTasks = s.getNumOfTasks
  edges : ∀ b p c, s'.EdgeAt b p c ↔ s.EdgeAt b p c

theorem SameEdges.trans {s'' : BarrierInfo} (h : SameEdges s s') (h' : SameEdges s' s'') : SameEdges s s'' :=
  ⟨h'.consistent, h'.tasks.trans h.tasks, fun b p c => (h'.edges b p c).trans (h.edges b p c)⟩

theorem resetBarrier_sameEdges (h : s.Consistent) (hempty : (∀ p, p ∉ s.getBarrierProducers b) ∨ ∀ c, c ∉ s.getBarrierConsumers b) :
    SameEdges s (s.resetBarrier b) := by
  refine ⟨h.resetBarrier, numOfTasks_resetBarrier, ?_⟩
  intro b' p c
  unfold EdgeAt
  rw [mem_producers_resetBarrier, mem_consumers_resetBarrier]
  constructor
  · exact fun hedge => ⟨hedge.1.2, hedge.2.2⟩
  · intro hedge
    have hne : b' ≠ b := by
      rintro rfl
      cases hempty with
      | inl hempty => exact hempty p hedge.1
      | inr hempty => exact hempty c hedge.2
    exact ⟨⟨hne, hedge.1⟩, hne, hedge.2⟩

theorem resetSyncBarriers_sameEdges (h : s.Consistent) (syncTask : ℕ × ℕ × ℕ) : SameEdges s (resetSyncBarriers s syncTask) := by
  have hrefl : ∀ s : BarrierInfo, s.Consistent → SameEdges s s := fun _ h => ⟨h, rfl, fun _ _ _ => Iff.rfl⟩
  unfold resetSyncBarriers
  dsimp only
  have hfirst : SameEdges s (if (s.getBarrierProducers syncTask.2.1).toList = [] then s.resetBarrier syncTask.2.1 else s) := by
    split_ifs with hnil
    · exact resetBarrier_sameEdges h (.inl (toList_eq_nil.mp hnil))
    · exact hrefl s h
  apply hfirst.trans
  split_ifs with hnil hnil' hnil'
  · exact resetBarrier_sameEdges h.resetBarrier (.inr (toList_eq_nil.mp hnil'))
  · exact hrefl _ h.resetBarrier
  · exact resetBarrier_sameEdges h (.inr (toList_eq_nil.mp hnil'))
  · exact hrefl s h

theorem resetAllSyncBarriers_sameEdges (h : s.Consistent) : SameEdges s (syncBarriers.foldl resetSyncBarriers s) := by
  apply foldl_invariant (I := SameEdges s) ⟨h, rfl, fun _ _ _ => Iff.rfl⟩
  exact fun syncTask _ s' hs' => hs'.trans (resetSyncBarriers_sameEdges hs'.consistent syncTask)

end

structure Blocks (config : SplitConfig) (s s' : BarrierInfo) : Prop where
  consistent : s'.Consistent
  tasks : s'.getNumOfTasks = config.tasksSize
  fits : ∀ p c, s'.Edge p c → config.Fits p c
  /-- The tasks of one block are linked as before. -/
  inner : ∀ p c, s.Edge p c → p / config.blockSize = c / config.blockSize → s'.Edge p c
  closing : ∀ b p, p ∈ s.getBarrierProducers b → p / config.blockSize + 1 < config.numOfBlocks →
    p ≠ config.syncTask (p / config.blockSize) →
    (∃ c, s.Edge p c ∧ c / config.blockSize = p / config.blockSize) ∨ s'.Edge p (config.syncTask (p / config.blockSize))
  closingQueue : ∀ t, t / config.blockSize + 1 < config.numOfBlocks → t ≠ config.syncTask (t / config.blockSize) → NoUpdate s t →
    ∃ t', t ≤ t' ∧ config.getTaskQueueType t' = config.getTaskQueueType t ∧ s'.Edge t' (config.syncTask (t / config.blockSize))
  opening : ∀ p c, s.Edge p c → p / config.blockSize < c / config.blockSize → config.isSyncPoint c = false →
    s'.Edge (config.syncTask (c / config.blockSize - 1)) c
  syncs : ∀ k, k + 2 < config.numOfBlocks → s'.Edge (config.syncTask k) (config.syncTask (k + 1))

section

theorem splitToBlocks_spec (hproper : config.Proper) (hconsistent : s.Consistent) (htasks : s.getNumOfTasks = config.tasksSize)
    (hbarriers : s.getNumOfBarrierOps = config.barriersCount) (hp : ∀ b < config.barriersCount, ∃ p, p ∈ s.getBarrierProducers b)
    (hc : ∀ b < config.barriersCount, ∃ c, c ∈ s.getBarrierConsumers b) (htopological : s.Topological) :
    ∃ s', config.splitToBlocks s = .ok s' ∧ config.Blocks s s' := by
  have hlt : ∀ {b t}, t ∈ s.getBarrierProducers b → b < config.barriersCount :=
    fun ht => hbarriers ▸ (hconsistent.producer_lt ht).1
  -- the barriers of the sync tasks
  have hsync := addAllSyncBarriers_spec hproper hconsistent htasks hbarriers
  have htable := hsync.table_spec hproper
  have hrows₁ := hsync.rows hbarriers hconsistent
  unfold splitToBlocks
  generalize (config.laterBlocks 1).foldl config.addSyncBarriers (s, []) = state at hsync htable hrows₁ ⊢
  obtain ⟨s₁, syncBarriers⟩ := state
  dsimp only at htable hrows₁ ⊢
  have hproducers₁ : ∀ b < config.barriersCount, ∀ t, t ∈ s₁.getBarrierProducers b ↔ t ∈ s.getBarrierProducers b := by
    intro b hb t
    apply (hsync.producers b t).trans
    apply or_iff_left
    rintro ⟨k, _, heq, _⟩
    unfold updateBarInd at heq
    omega
  have hconsumers₁ : ∀ b < config.barriersCount, ∀ t, t ∈ s₁.getBarrierConsumers b ↔ t ∈ s.getBarrierConsumers b := by
    intro b hb t
    apply (hsync.consumers b t).trans
    apply or_iff_left
    rintro ⟨k, _, heq, _⟩
    unfold waitBarInd at heq
    omega
  -- the ends of the queues
  have hends := linkAllQueueEnds_spec hproper htable hrows₁
  generalize (List.range config.tasksSize).foldl (config.linkQueueEnds syncBarriers) ⟨s₁, [], []⟩ = ends at hends ⊢
  have hadvances₂ := hends.links.advances
  have hproducers₂ : ∀ b < config.barriersCount, ∀ t, t ∈ ends.info.getBarrierProducers b ↔ t ∈ s.getBarrierProducers b :=
    fun b hb t => (hadvances₂.producers b hb not_false t).trans (hproducers₁ b hb t)
  have hconsumers₂ : ∀ b < config.barriersCount, ∀ t, t ∈ ends.info.getBarrierConsumers b ↔ t ∈ s.getBarrierConsumers b :=
    fun b hb t => (hadvances₂.consumers b hb not_false t).trans (hconsumers₁ b hb t)
  -- the barriers between several blocks
  obtain ⟨s₃, hs₃, hadvances₃, hsplit⟩ := @splitBarriers_spec config syncBarriers ends.info hproper htable hadvances₂.rows
    (List.range config.barriersCount) nodup_range (fun b hb => mem_range.mp hb)
    (fun b hb => (hp b (mem_range.mp hb)).imp (fun t => (hproducers₂ b (mem_range.mp hb) t).mpr))
    (fun b hb => (hc b (mem_range.mp hb)).imp (fun t => (hconsumers₂ b (mem_range.mp hb) t).mpr))
    (fun b hb p hp c hc => htopological p c ⟨b, (hproducers₂ b (mem_range.mp hb) p).mp hp,
      (hconsumers₂ b (mem_range.mp hb) c).mp hc⟩)
  have hrow : ∀ b < config.barriersCount, config.SplitRow (s.getBarrierProducers b) (s.getBarrierConsumers b) b s₃ :=
    fun b hb => (hsplit b (mem_range.mpr hb)).congr (fun t => (hproducers₂ b hb t).symm) (fun t => (hconsumers₂ b hb t).symm)
  rw [hs₃]
  dsimp only [bind, Except.bind]
  -- the sync tasks one after the other
  obtain ⟨hadvances₄, hsyncs⟩ := linkAllSyncTasks_spec hproper htable hadvances₃.rows
  generalize (config.laterBlocks 2).foldl (config.linkSyncTasks syncBarriers) s₃ = s₄ at hadvances₄ hsyncs ⊢
  have hrow₄ : ∀ b < config.barriersCount, config.SplitRow (s.getBarrierProducers b) (s.getBarrierConsumers b) b s₄ :=
    fun b hb => (hrow b hb).advances hb hadvances₄ not_false
  -- the barriers without consumers
  obtain ⟨s₅, hs₅, hsanitizes, hsanitized⟩ := sanitizeBarriers_spec hproper htable hadvances₄.rows
    (fun b hb => (hrow₄ b hb).producer) (fun b hb => (hrow₄ b hb).notLast)
  rw [hs₅]
  dsimp only
  -- the barriers of the sync tasks without producers
  have hsame := @resetAllSyncBarriers_sameEdges syncBarriers s₅ hsanitizes.advances.rows.consistent
  generalize syncBarriers.foldl resetSyncBarriers s₅ = s₆ at hsame ⊢
  have hedge : ∀ {p c}, s₅.Edge p c → s₆.Edge p c := fun h => h.imp (fun b hb => (hsame.edges b _ _).mpr hb)
  have hsyncEdge : ∀ {p c}, config.SyncEdge s₄ p c → s₆.Edge p c :=
    fun h => hedge (hsanitizes.advances.syncEdge h).edge
  have hrowEdge : ∀ {b p c}, b < config.barriersCount → s₄.EdgeAt b p c → s₆.Edge p c := by
    intro b p c hb h
    have hsome : ¬ ∀ c, c ∉ s₄.getBarrierConsumers b := fun hnone => hnone c h.2
    exact hedge ⟨b, (hsanitizes.advances.producers b hb hsome p).mpr h.1, (hsanitizes.advances.consumers b hb hsome c).mpr h.2⟩
  refine ⟨s₆, rfl, hsame.consistent, hsame.tasks.trans hsanitizes.advances.rows.tasks, ?_, ?_, ?_, ?_, ?_, ?_⟩
  · rintro p c ⟨b, h⟩
    have h := (hsame.edges b p c).mp h
    by_cases hb : b < config.barriersCount
    · have hsome : ¬ ∀ c, c ∉ s₄.getBarrierConsumers b := by
        intro hnone
        exact hsanitizes.noConsumers b hb hnone c h.2
      exact (hrow₄ b hb).fits p c
        ⟨(hsanitizes.advances.producers b hb hsome p).mp h.1, (hsanitizes.advances.consumers b hb hsome c).mp h.2⟩
    · exact hsanitizes.advances.rows.fits hproper (Nat.le_of_not_lt hb) h
  · rintro p c ⟨b, hpmem, hcmem⟩ hblock
    have hb := hlt hpmem
    cases (hrow₄ b hb).inner p hpmem c hcmem hblock with
    | inl h => exact hrowEdge hb h
    | inr h => exact hsyncEdge h
  · intro b p hpmem hplast hpsync
    have hb := hlt hpmem
    apply ((hrow₄ b hb).closing p hpmem hplast hpsync).imp
    · exact fun ⟨c, hcmem, hblock⟩ => ⟨c, ⟨b, hpmem, hcmem⟩, hblock⟩
    · rintro (h | h | ⟨hpmem, hnone⟩)
      · exact hrowEdge hb h
      · exact hsyncEdge h
      · exact hedge ((hsanitized b hb hnone).2 p hpmem hpsync).edge
  · intro t htlast htsync hnone
    have hnone₁ : NoUpdate s₁ t := by
      intro b hmem
      cases (hsync.producers b t).mp hmem with
      | inl hold => exact hnone b hold
      | inr hnew =>
        obtain ⟨k, _, _, heq⟩ := hnew
        apply htsync
        rw [heq, hproper.syncTask_block]
    obtain ⟨t', hle, hqueue, h⟩ := hends.closing hproper htlast htsync hnone₁
    exact ⟨t', hle, hqueue, hsyncEdge (hadvances₄.syncEdge (hadvances₃.syncEdge h))⟩
  · rintro p c ⟨b, hpmem, hcmem⟩ hblock hpoint
    exact hsyncEdge ((hrow₄ b (hlt hpmem)).opening p hpmem c hcmem hblock hpoint)
  · exact fun k hk => hsyncEdge (hsyncs k hk)

theorem Blocks.before_sync (hproper : config.Proper) (h : config.Blocks s s') (htopological : s.Topological)
    (hc : ∀ b p, p ∈ s.getBarrierProducers b → ∃ c, c ∈ s.getBarrierConsumers b)
    (hk : k + 1 < config.numOfBlocks) (ht : t / config.blockSize = k) (hne : t ≠ config.syncTask k) :
    s'.OrderedBy (QueueOrder config.getTaskQueueType) t (config.syncTask k) := by
  -- by induction on the distance to the sync task
  induction hd : config.syncTask k - t using Nat.strong_induction_on generalizing t with
  | _ d ih =>
    subst ht
    have hle := (hproper.block_iff.mp (rfl : t / config.blockSize = t / config.blockSize)).2
    by_cases hnone : NoUpdate s t
    · obtain ⟨t', hle', hqueue, hedge⟩ := h.closingQueue t hk hne hnone
      cases Nat.lt_or_eq_of_le hle' with
      | inl hlt => exact .head (.inr ⟨hlt, hqueue.symm⟩) (.single (.inl hedge))
      | inr heq =>
        rw [← heq] at hedge
        exact .single (.inl hedge)
    · obtain ⟨b, hmem⟩ := not_forall_not.mp hnone
      cases h.closing b t hmem hk hne with
      | inr hedge => exact .single (.inl hedge)
      | inl hinner =>
        obtain ⟨c, hedge, hblock⟩ := hinner
        have hlt := htopological t c hedge
        have hcle := (hproper.block_iff.mp hblock).2
        have hedge' := h.inner t c hedge hblock.symm
        by_cases hcsync : c = config.syncTask (t / config.blockSize)
        · rw [← hcsync]
          exact .single (.inl hedge')
        · apply Relation.TransGen.head (.inl hedge')
          exact ih (config.syncTask (t / config.blockSize) - c) (by omega) hblock hcsync rfl

theorem Blocks.syncs_ordered {fifo : ℕ → ℕ → Prop} (h : config.Blocks s s') {i j : ℕ} (hij : i < j)
    (hj : j + 1 < config.numOfBlocks) : s'.OrderedBy fifo (config.syncTask i) (config.syncTask j) := by
  induction j with
  | zero => exact absurd hij (Nat.not_lt_zero i)
  | succ j ih =>
    have hedge := h.syncs j hj
    cases Nat.lt_or_eq_of_le (Nat.le_of_lt_succ hij) with
    | inl hlt => exact .tail (ih hlt (Nat.lt_of_succ_lt hj)) (.inl hedge)
    | inr heq =>
      rw [heq]
      exact .single (.inl hedge)

theorem Blocks.edge_ordered (hproper : config.Proper) (h : config.Blocks s s') (htopological : s.Topological)
    (htasks : ∀ p c, s.Edge p c → c < config.tasksSize)
    (hc : ∀ b p, p ∈ s.getBarrierProducers b → ∃ c, c ∈ s.getBarrierConsumers b) (hedge : s.Edge p c) :
    s'.OrderedBy (QueueOrder config.getTaskQueueType) p c := by
  have hlt := htopological p c hedge
  have hcblock := hproper.block_lt (htasks p c hedge)
  have hle : p / config.blockSize ≤ c / config.blockSize := Nat.div_le_div_right (Nat.le_of_lt hlt)
  cases Nat.lt_or_eq_of_le hle with
  | inr hsame => exact .single (.inl (h.inner p c hedge hsame))
  | inl hearlier =>
    -- over the sync task of the producer and the one before the consumer
    have hk : p / config.blockSize + 1 < config.numOfBlocks := Nat.lt_of_le_of_lt hearlier hcblock
    have hpos : c / config.blockSize - 1 + 1 = c / config.blockSize := Nat.sub_add_cancel (Nat.lt_of_le_of_lt (Nat.zero_le _) hearlier)
    have hclosing : Relation.ReflTransGen (fun p c => s'.Edge p c ∨ QueueOrder config.getTaskQueueType p c) p
        (config.syncTask (p / config.blockSize)) := by
      by_cases hpsync : p = config.syncTask (p / config.blockSize)
      · rw [← hpsync]
      · exact (h.before_sync hproper htopological hc hk rfl hpsync).to_reflTransGen
    have hsyncs : Relation.ReflTransGen (fun p c => s'.Edge p c ∨ QueueOrder config.getTaskQueueType p c)
        (config.syncTask (p / config.blockSize)) (config.syncTask (c / config.blockSize - 1)) := by
      cases Nat.lt_or_eq_of_le (Nat.le_sub_one_of_lt hearlier) with
      | inl hlt => exact (h.syncs_ordered hlt (hpos.symm ▸ hcblock)).to_reflTransGen
      | inr heq => rw [heq]
    apply Relation.TransGen.tail' (hclosing.trans hsyncs)
    left
    cases hpoint : config.isSyncPoint c with
    | false => exact h.opening p c hedge hearlier hpoint
    | true =>
      obtain ⟨hcnext, hcsync⟩ := (hproper.isSyncPoint_iff (htasks p c hedge)).mp hpoint
      have hlink := h.syncs (c / config.blockSize - 1) (by
        rw [Nat.add_succ, hpos]
        exact hcnext)
      rw [hpos, ← hcsync] at hlink
      exact hlink

end

end SplitConfig

section
variable {s : BarrierInfo} {getTaskQueueType : ℕ → TaskQueueType} {blockSize : ℕ}

/-- The order of the tasks is kept, and none of them comes before itself. -/
theorem splitControlGraphToBlocks_ordered (hconsistent : s.Consistent)
    (hproducers : ∀ b < s.getNumOfBarrierOps, ∃ p, p ∈ s.getBarrierProducers b)
    (hconsumers : ∀ b < s.getNumOfBarrierOps, ∃ c, c ∈ s.getBarrierConsumers b) (htopological : s.Topological)
    (hsize : 2 ≤ blockSize) :
    ∃ s' syncTasksIds, splitControlGraphToBlocks getTaskQueueType [] s blockSize = .ok (s', syncTasksIds) ∧ s'.Consistent ∧
      (∀ p c, s.OrderedBy (QueueOrder getTaskQueueType) p c → s'.OrderedBy (QueueOrder getTaskQueueType) p c) ∧
      ∀ t, ¬ s'.OrderedBy (QueueOrder getTaskQueueType) t t := by
  have hacyclic : ∀ s' : BarrierInfo, s'.Topological → ∀ t, ¬ s'.OrderedBy (QueueOrder getTaskQueueType) t t := by
    intro s' htopological' t hcycle
    have hlt : ∀ p c, s'.OrderedBy (QueueOrder getTaskQueueType) p c → p < c := by
      intro p c hordered
      have hstep : ∀ p c, s'.Edge p c ∨ QueueOrder getTaskQueueType p c → p < c := by
        rintro p c (hedge | hfifo)
        · exact htopological' p c hedge
        · exact hfifo.1
      induction hordered with
      | single h => exact hstep _ _ h
      | tail _ h ih => exact Nat.lt_trans ih (hstep _ _ h)
    exact Nat.lt_irrefl t (hlt t t hcycle)
  unfold splitControlGraphToBlocks
  rw [if_neg (Nat.not_lt_of_le hsize), if_neg (fun hne => hne rfl)]
  dsimp only
  by_cases hlarge : blockSize ≥ s.getNumOfTasks
  · rw [if_pos hlarge]
    exact ⟨s, [], rfl, hconsistent, fun _ _ hordered => hordered, hacyclic s htopological⟩
  · rw [if_neg hlarge]
    have hproper : SplitConfig.Proper ⟨blockSize, s.getNumOfTasks, s.getNumOfBarrierOps, getTaskQueueType⟩ :=
      ⟨hsize, Nat.lt_of_not_le hlarge⟩
    obtain ⟨s', hs', hblocks⟩ := SplitConfig.splitToBlocks_spec hproper hconsistent rfl rfl hproducers hconsumers htopological
    rw [hs']
    refine ⟨s', _, rfl, hblocks.consistent, ?_, hacyclic s' (fun p c hedge => (hblocks.fits p c hedge).1)⟩
    intro p c hordered
    apply hordered.mono
    intro p c hedge
    apply hblocks.edge_ordered hproper htopological _ _ hedge
    · exact fun p c ⟨b, _, hc⟩ => (hconsistent.consumer_lt hc).2
    · exact fun b p hp => hconsumers b (hconsistent.producer_lt hp).1

/-- Six tasks, the first of them before the second and the last one, and the second and the third before the fourth. -/
def longRange : BarrierInfo :=
  let tasks := BarrierInfo.empty.addNewTaskOp.addNewTaskOp.addNewTaskOp.addNewTaskOp.addNewTaskOp.addNewTaskOp
  let first := (tasks.addNewBarrier.addNewBarrier.addProducers 0 [0]).addConsumers 0 [1, 5]
  (first.addProducers 1 [1, 2]).addConsumers 1 [3]

theorem longRange_consistent : longRange.Consistent := by
  have htasks := consistent_empty.addNewTaskOp.addNewTaskOp.addNewTaskOp.addNewTaskOp.addNewTaskOp.addNewTaskOp
  have hbarriers := htasks.addNewBarrier.addNewBarrier
  have hproducers₀ := (@addProducers_spec _ 0 hbarriers (by decide) [0] (by decide)).consistent
  have hconsumers₀ := (@addConsumers_spec _ 0 hproducers₀ (by decide) [1, 5] (by decide)).consistent
  have hproducers₁ := (@addProducers_spec _ 1 hconsumers₀ (by decide) [1, 2] (by decide)).consistent
  exact (@addConsumers_spec _ 1 hproducers₁ (by decide) [3] (by decide)).consistent

def oddAndEven (taskInd : ℕ) : TaskQueueType := ⟨.dmaNN, taskInd % 2⟩

theorem splitControlGraphToBlocks_ordered_longRange : ∃ s' syncTasksIds,
    splitControlGraphToBlocks oddAndEven [] longRange 2 = .ok (s', syncTasksIds) ∧ s'.Consistent ∧
      (∀ p c, longRange.OrderedBy (QueueOrder oddAndEven) p c → s'.OrderedBy (QueueOrder oddAndEven) p c) ∧
      ∀ t, ¬ s'.OrderedBy (QueueOrder oddAndEven) t t :=
  splitControlGraphToBlocks_ordered longRange_consistent (fun b hb => ⟨b, by revert b; decide⟩)
    (fun b hb => ⟨2 * b + 1, by revert b; decide⟩) (BarrierInfo.forall_edges (by decide))
    (by decide)

end

end NpuCompiler.Barrier
