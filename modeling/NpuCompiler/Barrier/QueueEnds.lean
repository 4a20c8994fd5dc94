import NpuCompiler.Barrier.SplitBarriers

namespace NpuCompiler.Barrier

open BarrierInfo GraphSplit List

theorem ExecutorKind.ctorIdx_injective {a b : ExecutorKind} (h : a.ctorIdx = b.ctorIdx) : a = b := by
  cases a <;> cases b <;> first
    | rfl
    | exact absurd h (by decide)

section
variable {a b q q' : TaskQueueType} {t t' : ℕ} {map : QueueTaskMap}

theorem TaskQueueType.before_or (h : a ≠ b) : a.before b = true ∨ b.before a = true := by
  unfold before
  by_cases htype : a.type = b.type
  · rw [if_pos htype, if_pos htype.symm, decide_eq_true_eq, decide_eq_true_eq]
    apply lt_or_gt_of_ne
    intro hid
    apply h
    cases a
    cases b
    simp_all
  · rw [if_neg htype, if_neg (Ne.symm htype), decide_eq_true_eq, decide_eq_true_eq]
    apply lt_or_gt_of_ne
    exact fun hidx => htype (ExecutorKind.ctorIdx_injective hidx)

theorem TaskQueueType.not_before_self : a.before a = false := by
  unfold before
  rw [if_pos rfl]
  exact decide_eq_false (lt_irrefl a.id)

theorem QueueTaskMap.mem_set : (q', t') ∈ map.set q t ↔ (q' = q ∧ t' = t) ∨ (q' ≠ q ∧ (q', t') ∈ map) := by
  unfold QueueTaskMap.set
  rw [mem_append, mem_cons, mem_filter, mem_filter, Prod.mk.injEq]
  by_cases heq : q' = q
  · simp [heq, TaskQueueType.not_before_self]
  · have hbefore := TaskQueueType.before_or heq
    tauto

theorem lookup_map_injective {f : ℕ → ℕ} {g : ℕ → ℕ × ℕ} (hinj : ∀ i j, f i = f j → i = j) {l : List ℕ} {k : ℕ} (h : k ∈ l) :
    (l.map (fun i => (f i, g i))).lookup (f k) = some (g k) := by
  induction l with
  | nil => exact absurd h not_mem_nil
  | cons i l ih =>
    rw [map_cons, lookup_cons]
    by_cases heq : k = i
    · rw [heq, beq_self_eq_true]
    · have hne : f k ≠ f i := fun h => heq (hinj k i h)
      rw [beq_false_of_ne hne]
      exact ih ((mem_cons.mp h).resolve_left heq)

end

namespace SplitConfig

variable {config : SplitConfig} {s s₀ : BarrierInfo} {syncBarriers : SyncBarriers} {j k t : ℕ}

section

structure WithSync (config : SplitConfig) (s₀ : BarrierInfo) (j : ℕ) (state : BarrierInfo × SyncBarriers) : Prop where
  consistent : state.1.Consistent
  tasks : state.1.getNumOfTasks = config.tasksSize
  barriers : state.1.getNumOfBarrierOps = config.barriersCount + 2 * j
  producers : ∀ b t, t ∈ state.1.getBarrierProducers b ↔
    t ∈ s₀.getBarrierProducers b ∨ ∃ k < j, b = config.updateBarInd k ∧ t = config.syncTask k
  consumers : ∀ b t, t ∈ state.1.getBarrierConsumers b ↔
    t ∈ s₀.getBarrierConsumers b ∨ ∃ k < j, b = config.waitBarInd k ∧ t = config.syncTask k
  table : state.2 = (List.range j).map (fun k => (config.syncTask k, config.waitBarInd k, config.updateBarInd k))

theorem addSyncBarriers_spec (hproper : config.Proper) {state : BarrierInfo × SyncBarriers} (h : config.WithSync s₀ j state)
    (hj : j + 1 < config.numOfBlocks) : config.WithSync s₀ (j + 1) (config.addSyncBarriers state (1 + j)) := by
  have hlt := Nat.lt_of_succ_lt (hproper.syncTask_lt hj)
  have hsync : (1 + j) * config.blockSize - 1 = config.syncTask j := by
    unfold syncTask
    rw [Nat.add_comm]
  have hwait : state.1.getNumOfBarrierOps = config.waitBarInd j := h.barriers
  have hconsumer := addConsumers_spec (b := config.waitBarInd j) h.consistent.addNewBarrier (by
    rw [numOfBarrierOps_addNewBarrier, hwait]
    exact Nat.lt_succ_self _) (fun t (ht : t ∈ [config.syncTask j]) => by
    rw [mem_singleton.mp ht, numOfTasks_addNewBarrier, h.tasks]
    exact hlt)
  have hcount : (state.1.addNewBarrier.addConsumers (config.waitBarInd j) [config.syncTask j]).getNumOfBarrierOps =
      config.updateBarInd j := by
    rw [hconsumer.barriers, numOfBarrierOps_addNewBarrier, hwait]
    rfl
  have hproducer := addProducers_spec (b := config.updateBarInd j) hconsumer.consistent.addNewBarrier (by
    rw [numOfBarrierOps_addNewBarrier, hcount]
    exact Nat.lt_succ_self _) (fun t (ht : t ∈ [config.syncTask j]) => by
    rw [mem_singleton.mp ht, numOfTasks_addNewBarrier, hconsumer.tasks, numOfTasks_addNewBarrier, h.tasks]
    exact hlt)
  have heq : config.addSyncBarriers state (1 + j) =
      (((state.1.addNewBarrier.addConsumers (config.waitBarInd j) [config.syncTask j]).addNewBarrier.addProducers
        (config.updateBarInd j) [config.syncTask j]),
        state.2 ++ [(config.syncTask j, config.waitBarInd j, config.updateBarInd j)]) := by
    unfold addSyncBarriers
    dsimp only
    rw [hsync, hwait]
    rw [← hcount]
    rfl
  rw [heq]
  refine ⟨hproducer.consistent, ?_, ?_, ?_, ?_, ?_⟩
  · rw [hproducer.tasks, numOfTasks_addNewBarrier, hconsumer.tasks, numOfTasks_addNewBarrier, h.tasks]
  · rw [hproducer.barriers, numOfBarrierOps_addNewBarrier, hcount]
    unfold updateBarInd
    omega
  · intro b t
    rw [hproducer.producers, producers_addNewBarrier, hconsumer.producers, producers_addNewBarrier, h.producers,
      mem_singleton]
    constructor
    · rintro (⟨hb, ht⟩ | hold | ⟨k, hk, hb, ht⟩)
      · exact .inr ⟨j, Nat.lt_succ_self j, hb, ht⟩
      · exact .inl hold
      · exact .inr ⟨k, Nat.lt_succ_of_lt hk, hb, ht⟩
    · rintro (hold | ⟨k, hk, hb, ht⟩)
      · exact .inr (.inl hold)
      · by_cases hkj : k = j
        · exact .inl ⟨hkj ▸ hb, hkj ▸ ht⟩
        · exact .inr (.inr ⟨k, by omega, hb, ht⟩)
  · intro b t
    rw [hproducer.consumers, consumers_addNewBarrier, hconsumer.consumers, consumers_addNewBarrier, h.consumers,
      mem_singleton]
    constructor
    · rintro (⟨hb, ht⟩ | hold | ⟨k, hk, hb, ht⟩)
      · exact .inr ⟨j, Nat.lt_succ_self j, hb, ht⟩
      · exact .inl hold
      · exact .inr ⟨k, Nat.lt_succ_of_lt hk, hb, ht⟩
    · rintro (hold | ⟨k, hk, hb, ht⟩)
      · exact .inr (.inl hold)
      · by_cases hkj : k = j
        · exact .inl ⟨hkj ▸ hb, hkj ▸ ht⟩
        · exact .inr (.inr ⟨k, by omega, hb, ht⟩)
  · rw [range_succ, map_append, h.table]
    rfl

theorem addAllSyncBarriers_spec (hproper : config.Proper) (hconsistent : s.Consistent) (htasks : s.getNumOfTasks = config.tasksSize)
    (hbarriers : s.getNumOfBarrierOps = config.barriersCount) :
    config.WithSync s (config.numOfBlocks - 1) ((config.laterBlocks 1).foldl config.addSyncBarriers (s, [])) := by
  have hrun : ∀ j, j + 1 ≤ config.numOfBlocks →
      config.WithSync s j (((List.range j).map (1 + ·)).foldl config.addSyncBarriers (s, [])) := by
    intro j
    induction j with
    | zero => exact fun _ => ⟨hconsistent, htasks, hbarriers, by simp, by simp, rfl⟩
    | succ j ih =>
      intro hj
      rw [range_succ, map_append, foldl_append]
      exact addSyncBarriers_spec hproper (ih (Nat.le_of_succ_le hj)) hj
  exact hrun _ (by have hle := hproper.two_le_numOfBlocks; omega)

theorem Proper.syncTask_injective (hproper : config.Proper) : ∀ i j, config.syncTask i = config.syncTask j → i = j := by
  intro i j heq
  have hi := @syncTask_block config i hproper
  rw [heq, hproper.syncTask_block] at hi
  exact hi.symm

variable {state : BarrierInfo × SyncBarriers}

theorem WithSync.table_spec (hproper : config.Proper) (h : config.WithSync s₀ (config.numOfBlocks - 1) state) :
    config.Table state.2 := by
  intro k hk
  unfold SyncBarriers.waitBar SyncBarriers.updateBar
  rw [h.table, @lookup_map_injective config.syncTask (fun k => (config.waitBarInd k, config.updateBarInd k))
    hproper.syncTask_injective _ k (mem_range.mpr (by omega))]
  exact ⟨rfl, rfl⟩

theorem WithSync.rows (h : config.WithSync s₀ (config.numOfBlocks - 1) state) (hbarriers : s₀.getNumOfBarrierOps = config.barriersCount)
    (hconsistent : s₀.Consistent) : config.SyncRows state.1 := by
  have hout : ∀ b, config.barriersCount ≤ b → ∀ t, t ∉ s₀.getBarrierProducers b ∧ t ∉ s₀.getBarrierConsumers b := by
    intro b hb t
    rw [← hbarriers] at hb
    exact ⟨fun ht => Nat.not_lt_of_le hb (hconsistent.producer_lt ht).1, fun ht => Nat.not_lt_of_le hb (hconsistent.consumer_lt ht).1⟩
  have hwait : ∀ k, config.barriersCount ≤ config.waitBarInd k := fun k => Nat.le_add_right _ _
  have hupdate : ∀ k, config.barriersCount ≤ config.updateBarInd k := fun k => Nat.le_trans (hwait k) (Nat.le_succ _)
  refine ⟨h.consistent, h.tasks, Nat.le_of_eq h.barriers.symm, ?_, ?_, ?_, ?_, ?_, ?_⟩
  · intro k _ t ht
    obtain ⟨k', _, heq, _⟩ := ((h.producers _ t).mp ht).resolve_left (hout _ (hwait k) t).1
    unfold waitBarInd updateBarInd at heq
    omega
  · intro k hk t
    rw [h.consumers, or_iff_right (hout _ (hwait k) t).2]
    constructor
    · rintro ⟨k', _, heq, ht⟩
      have hkk : k = k' := by
        unfold waitBarInd at heq
        omega
      rw [ht, hkk]
    · exact fun ht => ⟨k, by omega, rfl, ht⟩
  · intro k hk t
    rw [h.producers, or_iff_right (hout _ (hupdate k) t).1]
    constructor
    · rintro ⟨k', _, heq, ht⟩
      have hkk : k = k' := by
        unfold updateBarInd at heq
        omega
      rw [ht, hkk]
    · exact fun ht => ⟨k, by omega, rfl, ht⟩
  · intro k _ t ht
    obtain ⟨k', _, heq, _⟩ := ((h.consumers _ t).mp ht).resolve_left (hout _ (hupdate k) t).2
    unfold waitBarInd updateBarInd at heq
    omega
  · rintro b p c hb ⟨hp, _⟩
    obtain ⟨k, hk, heq, _⟩ := ((h.producers b p).mp hp).resolve_left (hout b (by omega) p).1
    unfold updateBarInd at heq
    omega
  · intro b hb hlt
    rw [h.barriers] at hlt
    omega

def NoUpdate (s : BarrierInfo) (t : ℕ) : Prop := ∀ b, t ∉ s.getBarrierProducers b

structure Links (config : SplitConfig) (s : BarrierInfo) (T : ℕ) (info : BarrierInfo) : Prop where
  advances : config.Advances (fun _ => False) s info
  producers : ∀ b t, T ≤ t → t ∈ info.getBarrierProducers b → t ∈ s.getBarrierProducers b

structure LastInvariant (config : SplitConfig) (s : BarrierInfo) (T : ℕ) (state : QueueEnds) : Prop where
  entry : ∀ q t, (q, t) ∈ state.lastTaskWithNoUpdateBar →
    t < T ∧ t / config.blockSize = T / config.blockSize ∧ t / config.blockSize + 1 < config.numOfBlocks ∧
      t ≠ config.syncTask (t / config.blockSize) ∧ config.getTaskQueueType t = q
  current : ∀ t < T, t / config.blockSize = T / config.blockSize → t / config.blockSize + 1 < config.numOfBlocks →
    NoUpdate s t → ∃ t', t ≤ t' ∧ (config.getTaskQueueType t, t') ∈ state.lastTaskWithNoUpdateBar
  done : ∀ t < T, t / config.blockSize < T / config.blockSize → t / config.blockSize + 1 < config.numOfBlocks →
    t ≠ config.syncTask (t / config.blockSize) → NoUpdate s t →
    ∃ t', t ≤ t' ∧ config.getTaskQueueType t' = config.getTaskQueueType t ∧
      config.SyncEdge state.info t' (config.syncTask (t / config.blockSize))

def FirstTasks (config : SplitConfig) (T : ℕ) (state : QueueEnds) : Prop :=
  ∀ q t, (q, t) ∈ state.firstTaskWithNoWaitBar → t < T ∧ t / config.blockSize = T / config.blockSize ∧ 0 < t / config.blockSize

variable {T : ℕ} {info : BarrierInfo} {state : QueueEnds}

theorem Links.noUpdate_iff (h : config.Links s T info) (ht : T ≤ t) : NoUpdate info t ↔ NoUpdate s t := by
  constructor
  · intro hnone b hmem
    by_cases hb : b < config.barriersCount
    · exact hnone b ((h.advances.producers b hb not_false t).mpr hmem)
    · exact hnone b (h.advances.moreProducers b (Nat.le_of_not_lt hb) t hmem)
  · exact fun hnone b hmem => hnone b (h.producers b t ht hmem)

theorem Links.mono {T' : ℕ} (h : config.Links s T info) (hle : T ≤ T') : config.Links s T' info :=
  ⟨h.advances, fun b t ht => h.producers b t (Nat.le_trans hle ht)⟩

theorem noUpdate_iff (h : s.Consistent) : (s.getUpdateBarriers t).toList = [] ↔ NoUpdate s t := by
  rw [SmallSet.toList_eq_nil]
  exact forall_congr' (fun b => not_congr h.update_iff)

theorem Links.addProducers (hproper : config.Proper) (h : config.Links s T info) (hk : k + 1 < config.numOfBlocks) {ts : List ℕ}
    (hts : ∀ t ∈ ts, t < T ∧ t / config.blockSize = k ∧ t ≠ config.syncTask k) :
    config.Links s T (info.addProducers (config.waitBarInd k) ts) := by
  have hspec := (addWaitProducers_spec (fun _ => False) ts hproper h.advances.rows hk (fun t ht => (hts t ht).2)).1
  have hrows := @addProducers_spec info _ h.advances.rows.consistent (waitBarInd_lt h.advances.rows hk) ts (by
    intro t ht
    have hle := (hproper.block_iff.mp (hts t ht).2.1).2
    have hsync := hproper.syncTask_lt hk
    rw [h.advances.rows.tasks]
    omega)
  refine ⟨h.advances.trans hspec, ?_⟩
  intro b t ht hmem
  cases (hrows.producers b t).mp hmem with
  | inl hnew => exact absurd (hts t hnew.2).1 (Nat.not_lt_of_le ht)
  | inr hold => exact h.producers b t ht hold

theorem Links.addConsumers (h : config.Links s T info) (hk : k + 1 < config.numOfBlocks) {ts : List ℕ} (hT : T ≤ config.tasksSize)
    (hts : ∀ t ∈ ts, t < T ∧ t / config.blockSize = k + 1) :
    config.Links s T (info.addConsumers (config.updateBarInd k) ts) := by
  have hlt : ∀ t ∈ ts, t / config.blockSize = k + 1 ∧ t < config.tasksSize :=
    fun t ht => ⟨(hts t ht).2, Nat.lt_of_lt_of_le (hts t ht).1 hT⟩
  have hspec := (addUpdateConsumers_spec (fun _ => False) ts h.advances.rows hk hlt).1
  have hrows := @addConsumers_spec info _ h.advances.rows.consistent (updateBarInd_lt h.advances.rows hk) ts
    (fun t ht => h.advances.rows.tasks ▸ (hlt t ht).2)
  refine ⟨h.advances.trans hspec, ?_⟩
  intro b t ht hmem
  rw [hrows.producers] at hmem
  exact h.producers b t ht hmem

theorem Proper.block_succ (h : config.Proper) (hT : T ≠ config.syncTask (T / config.blockSize)) :
    (T + 1) / config.blockSize = T / config.blockSize := by
  obtain ⟨hle, hge⟩ := h.block_iff.mp (rfl : T / config.blockSize = T / config.blockSize)
  apply h.block_iff.mpr
  omega

section
variable (hproper : config.Proper) (htable : config.Table syncBarriers)
include hproper htable

theorem linkLastTasks_spec (hT : T < config.tasksSize)
    (hlinks : config.Links s T state.info) (h : config.LastInvariant s T state) :
    let state' := config.linkLastTasks syncBarriers state T
    config.Links s T state'.info ∧ config.LastInvariant s (T + 1) state' ∧
      state'.firstTaskWithNoWaitBar = state.firstTaskWithNoWaitBar := by
  have hsync : T / config.blockSize * config.blockSize + config.blockSize - 1 = config.syncTask (T / config.blockSize) := by
    unfold syncTask
    rw [Nat.succ_mul]
  have hsame : ∀ t < T + 1, t < T ∨ t = T := fun t ht => Nat.lt_or_eq_of_le (Nat.le_of_lt_succ ht)
  unfold linkLastTasks
  dsimp only
  rw [hsync]
  by_cases hblock : T / config.blockSize < config.numOfBlocks - 1
  · rw [if_pos hblock]
    have hk : T / config.blockSize + 1 < config.numOfBlocks := Nat.add_lt_of_lt_sub hblock
    by_cases hclose : T = config.syncTask (T / config.blockSize)
    · -- the sync task gets the last tasks of its block as producers of its wait barrier
      rw [if_pos hclose, (htable _ hk).1]
      have hentries : ∀ t ∈ state.lastTaskWithNoUpdateBar.map Prod.snd,
          t < T ∧ t / config.blockSize = T / config.blockSize ∧ t ≠ config.syncTask (T / config.blockSize) := by
        intro t ht
        obtain ⟨⟨q, t'⟩, hmem, rfl⟩ := mem_map.mp ht
        obtain ⟨hlt, hsameBlock, _, hne, _⟩ := h.entry q t' hmem
        exact ⟨hlt, hsameBlock, hsameBlock ▸ hne⟩
      obtain ⟨hadvances, hedges⟩ := addWaitProducers_spec (fun _ => False) _ hproper hlinks.advances.rows hk
        (fun t ht => (hentries t ht).2)
      have hnext : (T + 1) / config.blockSize = T / config.blockSize + 1 := by
        conv_lhs => rw [hclose]
        exact hproper.syncTask_succ_block
      refine ⟨hlinks.addProducers hproper hk hentries, ⟨?_, ?_, ?_⟩, rfl⟩
      · exact fun q t hmem => absurd hmem not_mem_nil
      · intro t ht hsameBlock
        have hle : t / config.blockSize ≤ T / config.blockSize := Nat.div_le_div_right (Nat.le_of_lt_succ ht)
        omega
      · intro t ht _ htlast htne hnone
        cases hsame t ht with
        | inr heq => exact absurd (heq ▸ hclose) htne
        | inl hlt =>
          have hle : t / config.blockSize ≤ T / config.blockSize := Nat.div_le_div_right (Nat.le_of_lt hlt)
          cases Nat.lt_or_eq_of_le hle with
          | inl hearlier =>
            obtain ⟨t', hle', hqueue, hedge⟩ := h.done t hlt hearlier htlast htne hnone
            exact ⟨t', hle', hqueue, hadvances.syncEdge hedge⟩
          | inr hsameBlock =>
            obtain ⟨t', hle', hmem⟩ := h.current t hlt hsameBlock htlast hnone
            refine ⟨t', hle', (h.entry _ _ hmem).2.2.2.2, ?_⟩
            rw [hsameBlock]
            exact ⟨_, Nat.le_add_right _ _, hedges t' (mem_map.mpr ⟨_, hmem, rfl⟩)⟩
    · rw [if_neg hclose]
      have hnext := hproper.block_succ hclose
      have hupdate : (state.info.getUpdateBarriers T).toList = [] ↔ NoUpdate s T := by
        rw [noUpdate_iff hlinks.advances.rows.consistent, hlinks.noUpdate_iff (Nat.le_refl T)]
      have hdone : ∀ t < T + 1, t / config.blockSize < (T + 1) / config.blockSize → t < T ∧ t / config.blockSize < T / config.blockSize := by
        intro t ht hearlier
        rw [hnext] at hearlier
        refine ⟨(hsame t ht).resolve_right (fun heq => ?_), hearlier⟩
        rw [heq] at hearlier
        exact Nat.lt_irrefl _ hearlier
      by_cases hnone : (state.info.getUpdateBarriers T).toList = []
      · rw [if_pos hnone]
        refine ⟨hlinks, ⟨?_, ?_, ?_⟩, rfl⟩
        · intro q t hmem
          rw [hnext]
          cases QueueTaskMap.mem_set.mp hmem with
          | inl hnew =>
            rw [hnew.1, hnew.2]
            exact ⟨Nat.lt_succ_self T, rfl, hk, hclose, rfl⟩
          | inr hold =>
            obtain ⟨hlt, hrest⟩ := h.entry q t hold.2
            exact ⟨Nat.lt_succ_of_lt hlt, hrest⟩
        · intro t ht hsameBlock htlast htnone
          by_cases hqueue : config.getTaskQueueType t = config.getTaskQueueType T
          · exact ⟨T, Nat.le_of_lt_succ ht, QueueTaskMap.mem_set.mpr (.inl ⟨hqueue, rfl⟩)⟩
          · have hlt := (hsame t ht).resolve_right (fun heq => hqueue (heq ▸ rfl))
            obtain ⟨t', hle', hmem⟩ := h.current t hlt (hsameBlock.trans hnext) htlast htnone
            exact ⟨t', hle', QueueTaskMap.mem_set.mpr (.inr ⟨hqueue, hmem⟩)⟩
        · intro t ht hearlier
          obtain ⟨hlt, hearlier⟩ := hdone t ht hearlier
          exact h.done t hlt hearlier
      · rw [if_neg hnone]
        refine ⟨hlinks, ⟨?_, ?_, ?_⟩, rfl⟩
        · intro q t hmem
          rw [hnext]
          obtain ⟨hlt, hrest⟩ := h.entry q t hmem
          exact ⟨Nat.lt_succ_of_lt hlt, hrest⟩
        · intro t ht hsameBlock htlast htnone
          have hlt := (hsame t ht).resolve_right (fun heq => hnone (hupdate.mpr (heq ▸ htnone)))
          exact h.current t hlt (hsameBlock.trans hnext) htlast htnone
        · intro t ht hearlier
          obtain ⟨hlt, hearlier⟩ := hdone t ht hearlier
          exact h.done t hlt hearlier
  · -- the last block
    rw [if_neg hblock]
    have hlast : T / config.blockSize + 1 = config.numOfBlocks := by
      have hlt := hproper.block_lt hT
      omega
    have hmono : T / config.blockSize ≤ (T + 1) / config.blockSize := Nat.div_le_div_right (Nat.le_succ T)
    refine ⟨hlinks, ⟨?_, ?_, ?_⟩, rfl⟩
    · intro q t hmem
      obtain ⟨_, hsameBlock, htlast, _⟩ := h.entry q t hmem
      omega
    · intro t ht hsameBlock htlast
      omega
    · intro t ht _ htlast
      have hearlier : t / config.blockSize < T / config.blockSize := by omega
      have hlt := (hsame t ht).resolve_right (fun heq => Nat.ne_of_lt hearlier (heq ▸ rfl))
      exact h.done t hlt hearlier htlast

theorem linkFirstTasks_spec (hT : T < config.tasksSize)
    (hlinks : config.Links s T state.info) (h : config.FirstTasks T state) :
    let state' := config.linkFirstTasks syncBarriers state T
    config.Links s T state'.info ∧ config.FirstTasks (T + 1) state' ∧
      state'.lastTaskWithNoUpdateBar = state.lastTaskWithNoUpdateBar ∧
      config.Advances (fun _ => False) state.info state'.info := by
  have hsync : T / config.blockSize * config.blockSize + config.blockSize - 1 = config.syncTask (T / config.blockSize) := by
    unfold syncTask
    rw [Nat.succ_mul]
  have hrefl := @SyncRows.advances_refl _ _ (fun _ => False) hlinks.advances.rows
  unfold linkFirstTasks
  dsimp only
  rw [hsync]
  by_cases hblock : T / config.blockSize > 0
  · rw [if_pos hblock]
    by_cases hclose : T = config.syncTask (T / config.blockSize) ∨ T = config.tasksSize - 1
    · -- the previous sync task gets the first tasks of the block as consumers of its update barrier
      have hk : T / config.blockSize - 1 + 1 < config.numOfBlocks := by
        rw [Nat.sub_add_cancel hblock]
        exact hproper.block_lt hT
      rw [if_pos hclose, syncTask_pred hblock, (htable _ hk).2]
      have hentries : ∀ t ∈ state.firstTaskWithNoWaitBar.map Prod.snd,
          t < T ∧ t / config.blockSize = T / config.blockSize - 1 + 1 := by
        intro t ht
        obtain ⟨⟨q, t'⟩, hmem, rfl⟩ := mem_map.mp ht
        obtain ⟨hlt, hsameBlock, _⟩ := h q t' hmem
        rw [Nat.sub_add_cancel hblock]
        exact ⟨hlt, hsameBlock⟩
      have hadvances := (addUpdateConsumers_spec (fun _ => False) _ hlinks.advances.rows hk
        (fun t ht => ⟨(hentries t ht).2, Nat.lt_trans (hentries t ht).1 hT⟩)).1
      exact ⟨hlinks.addConsumers hk (Nat.le_of_lt hT) hentries, fun q t hmem => absurd hmem not_mem_nil, rfl, hadvances⟩
    · rw [if_neg hclose]
      have hnext := hproper.block_succ (not_or.mp hclose).1
      have hentry : config.FirstTasks (T + 1) state := by
        intro q t hmem
        rw [hnext]
        exact (h q t hmem).imp_left Nat.lt_succ_of_lt
      split_ifs
      · exact ⟨hlinks, hentry, rfl, hrefl⟩
      · refine ⟨hlinks, ?_, rfl, hrefl⟩
        intro q t hmem
        cases QueueTaskMap.mem_set.mp hmem with
        | inl hnew =>
          rw [hnext, hnew.2]
          exact ⟨Nat.lt_succ_self T, rfl, hblock⟩
        | inr hold => exact hentry q t hold.2
      · exact ⟨hlinks, hentry, rfl, hrefl⟩
  · -- the first block
    rw [if_neg hblock]
    refine ⟨hlinks, ?_, rfl, hrefl⟩
    intro q t hmem
    obtain ⟨_, hsameBlock, hpos⟩ := h q t hmem
    omega

structure QueueEnds.Run (config : SplitConfig) (s : BarrierInfo) (T : ℕ) (state : QueueEnds) : Prop where
  links : config.Links s T state.info
  last : config.LastInvariant s T state
  first : config.FirstTasks T state

theorem linkQueueEnds_spec (hT : T < config.tasksSize)
    (h : QueueEnds.Run config s T state) : QueueEnds.Run config s (T + 1) (config.linkQueueEnds syncBarriers state T) := by
  obtain ⟨hlinks₁, hlast, hsameFirst⟩ := linkLastTasks_spec hproper htable hT h.links h.last
  unfold linkQueueEnds
  generalize config.linkLastTasks syncBarriers state T = state₁ at *
  have hfirst₁ : config.FirstTasks T state₁ := by
    unfold FirstTasks
    rw [hsameFirst]
    exact h.first
  obtain ⟨hlinks₂, hfirst, hsameLast, hadvances₂⟩ := linkFirstTasks_spec hproper htable hT hlinks₁ hfirst₁
  refine ⟨hlinks₂.mono (Nat.le_succ T), ⟨?_, ?_, ?_⟩, hfirst⟩
  · rw [hsameLast]
    exact hlast.entry
  · rw [hsameLast]
    exact hlast.current
  · intro t ht hearlier htlast htne hnone
    obtain ⟨t', hle, hqueue, hedge⟩ := hlast.done t ht hearlier htlast htne hnone
    exact ⟨t', hle, hqueue, hadvances₂.syncEdge hedge⟩

theorem linkAllQueueEnds_spec (h : config.SyncRows s) :
    QueueEnds.Run config s config.tasksSize
      ((List.range config.tasksSize).foldl (config.linkQueueEnds syncBarriers) ⟨s, [], []⟩) := by
  have hrun : ∀ T, T ≤ config.tasksSize →
      QueueEnds.Run config s T ((List.range T).foldl (config.linkQueueEnds syncBarriers) ⟨s, [], []⟩) := by
    intro T
    induction T with
    | zero =>
      have hnone : ∀ (P : ℕ → Prop) t, t < 0 → P t := fun _ t ht => absurd ht (Nat.not_lt_zero t)
      refine fun _ => ⟨⟨h.advances_refl, fun _ _ _ ht => ht⟩, ⟨?_, ?_, ?_⟩, ?_⟩
      · exact fun q t hmem => absurd hmem not_mem_nil
      · exact hnone _
      · exact hnone _
      · exact fun q t hmem => absurd hmem not_mem_nil
    | succ T ih =>
      intro hT
      rw [range_succ, foldl_append]
      exact linkQueueEnds_spec hproper htable hT (ih (Nat.le_of_succ_le hT))
  exact hrun _ (Nat.le_refl _)

end

theorem QueueEnds.Run.closing (hproper : config.Proper) (h : QueueEnds.Run config s config.tasksSize state)
    (ht : t / config.blockSize + 1 < config.numOfBlocks) (hne : t ≠ config.syncTask (t / config.blockSize))
    (hnone : NoUpdate s t) : ∃ t', t ≤ t' ∧ config.getTaskQueueType t' = config.getTaskQueueType t ∧
      config.SyncEdge state.info t' (config.syncTask (t / config.blockSize)) := by
  have hsync := hproper.syncTask_lt ht
  have hle := (hproper.block_iff.mp (rfl : t / config.blockSize = t / config.blockSize)).2
  have hlast := (hproper.block_iff.mp (rfl : config.tasksSize / config.blockSize = config.tasksSize / config.blockSize)).2
  apply h.last.done t (by omega) _ ht hne hnone
  apply Nat.lt_of_succ_le
  apply (Nat.le_div_iff_mul_le hproper.pos).mpr
  rw [Nat.succ_eq_add_one, ← hproper.syncTask_succ]
  omega

end

end SplitConfig

end NpuCompiler.Barrier
