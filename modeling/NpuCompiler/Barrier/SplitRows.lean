import NpuCompiler.Barrier.SyncRows

namespace NpuCompiler.Barrier

open BarrierInfo GraphSplit List

namespace SplitConfig

variable {config : SplitConfig} {k t : ℕ}

section
variable {tasks : TaskSet} {l : List ℕ} {f : ℕ → TaskSet}

theorem headD_le_of_pairwise (h : l.Pairwise (· < ·)) {a : ℕ} (ha : a ∈ l) : l.headD 0 ∈ l ∧ l.headD 0 ≤ a := by
  cases l with
  | nil => exact absurd ha not_mem_nil
  | cons b l =>
    refine ⟨mem_cons_self, ?_⟩
    cases mem_cons.mp ha with
    | inl heq => exact Nat.le_of_eq heq.symm
    | inr ha => exact Nat.le_of_lt ((pairwise_cons.mp h).1 a ha)

theorem le_getLastD_of_pairwise (h : l.Pairwise (· < ·)) {a : ℕ} (ha : a ∈ l) : l.getLastD 0 ∈ l ∧ a ≤ l.getLastD 0 := by
  have hne : l ≠ [] := ne_nil_of_mem ha
  have hlast : l.getLastD 0 = l.getLast hne := by
    rw [getLastD_eq_getLast?, getLast?_eq_some_getLast hne]
    rfl
  rw [hlast]
  refine ⟨getLast_mem hne, ?_⟩
  rw [← dropLast_append_getLast hne] at h ha
  cases mem_append.mp ha with
  | inl ha => exact Nat.le_of_lt ((pairwise_append.mp h).2.2 a ha _ (mem_singleton.mpr rfl))
  | inr ha => exact Nat.le_of_eq (mem_singleton.mp ha)

theorem length_sortedOf_lt_two : (sortedOf l).length < 2 ↔ ∀ a ∈ l, ∀ b ∈ l, a = b := by
  have hpairwise := pairwise_sortedOf l
  constructor
  · intro hlength a ha b hb
    rw [← mem_sortedOf] at ha hb
    cases hsorted : sortedOf l with
    | nil => exact absurd (hsorted ▸ ha) not_mem_nil
    | cons x rest =>
      rw [hsorted] at hlength ha hb
      rw [length_cons] at hlength
      have hrest : rest = [] := length_eq_zero_iff.mp (by omega)
      rw [hrest] at ha hb
      rw [mem_singleton.mp ha, mem_singleton.mp hb]
  · intro hall
    by_contra hlength
    cases hsorted : sortedOf l with
    | nil => exact hlength (hsorted ▸ Nat.zero_lt_two)
    | cons x rest =>
      cases rest with
      | nil => exact hlength (hsorted ▸ Nat.one_lt_two)
      | cons y rest =>
        rw [hsorted] at hpairwise
        have hlt := (pairwise_cons.mp hpairwise).1 y mem_cons_self
        have hx : x ∈ l := mem_sortedOf.mp (hsorted ▸ mem_cons_self)
        have hy : y ∈ l := mem_sortedOf.mp (hsorted ▸ mem_cons_of_mem _ mem_cons_self)
        exact Nat.ne_of_lt hlt (hall x hx y hy)

theorem lookup_map_pair : (l.map (fun a => (a, f a))).lookup k = if k ∈ l then some (f k) else none := by
  induction l with
  | nil => rfl
  | cons a l ih =>
    rw [map_cons, lookup_cons, ih]
    by_cases heq : k = a
    · rw [heq, beq_self_eq_true, if_pos mem_cons_self]
    · rw [beq_false_of_ne heq]
      simp only [mem_cons, heq, false_or]

theorem blockTasks_blocks : (config.blockTasks tasks).map Prod.fst = sortedOf (tasks.toList.map (· / config.blockSize)) := by
  unfold blockTasks
  rw [map_map]
  exact map_id _

theorem mem_blocks : k ∈ (config.blockTasks tasks).map Prod.fst ↔ ∃ t ∈ tasks, t / config.blockSize = k := by
  rw [blockTasks_blocks, mem_sortedOf, mem_map]
  rfl

theorem blocks_pairwise : ((config.blockTasks tasks).map Prod.fst).Pairwise (· < ·) := by
  rw [blockTasks_blocks]
  exact pairwise_sortedOf _

theorem mem_of_blockTasks {ts : TaskSet} (h : (k, ts) ∈ config.blockTasks tasks) :
    (∃ t ∈ tasks, t / config.blockSize = k) ∧ ∀ t, t ∈ ts ↔ t ∈ tasks ∧ t / config.blockSize = k := by
  refine ⟨mem_blocks.mp (mem_map.mpr ⟨_, h, rfl⟩), ?_⟩
  obtain ⟨k', hk', heq⟩ := mem_map.mp h
  obtain ⟨rfl, rfl⟩ := Prod.mk.inj heq
  intro t
  rw [SmallSet.mem_ofList, mem_filter, decide_eq_true_eq]
  rfl

theorem exists_blockTasks (h : t ∈ tasks) : ∃ ts, (t / config.blockSize, ts) ∈ config.blockTasks tasks ∧ t ∈ ts := by
  obtain ⟨⟨k, ts⟩, hmem, heq⟩ := mem_map.mp (mem_blocks.mpr ⟨t, h, rfl⟩ :
    t / config.blockSize ∈ (config.blockTasks tasks).map Prod.fst)
  dsimp only at heq
  subst heq
  exact ⟨ts, hmem, ((mem_of_blockTasks hmem).2 t).mpr ⟨h, rfl⟩⟩

theorem mem_of_lookup_blockTasks {ts : TaskSet} (h : (config.blockTasks tasks).lookup k = some ts) :
    (k, ts) ∈ config.blockTasks tasks := by
  unfold blockTasks at h ⊢
  rw [lookup_map_pair] at h
  split_ifs at h with hmem
  rw [Option.some.injEq] at h
  exact mem_map.mpr ⟨k, hmem, by rw [h]⟩

theorem lookup_blockTasks_none (h : (config.blockTasks tasks).lookup k = none) : ∀ t ∈ tasks, t / config.blockSize ≠ k := by
  intro t ht heq
  unfold blockTasks at h
  rw [lookup_map_pair, if_pos] at h
  · cases h
  · exact mem_sortedOf.mpr (mem_map.mpr ⟨t, ht, heq⟩)

variable {s s' : BarrierInfo} {changed : ℕ → Prop} {b : ℕ} {ts : List ℕ}

theorem foldl_removeProducer_spec (h : s.Consistent) :
    let s' := ts.foldl (fun s taskInd => s.removeProducer b taskInd) s
    s'.Consistent ∧ s'.getNumOfTasks = s.getNumOfTasks ∧ s'.getNumOfBarrierOps = s.getNumOfBarrierOps ∧
      (∀ b' t', t' ∈ s'.getBarrierProducers b' ↔ ¬ (b' = b ∧ t' ∈ ts) ∧ t' ∈ s.getBarrierProducers b') ∧
      ∀ b', s'.getBarrierConsumers b' = s.getBarrierConsumers b' := by
  induction ts generalizing s with
  | nil => exact ⟨h, rfl, rfl, by simp, fun _ => rfl⟩
  | cons t ts ih =>
    obtain ⟨hconsistent, htasks, hbarriers, hproducers, hconsumers⟩ := @ih (s.removeProducer b t) h.removeProducer
    refine ⟨hconsistent, by simpa using htasks, by simpa using hbarriers, ?_, hconsumers⟩
    intro b' t'
    rw [foldl_cons, hproducers, mem_producers_removeProducer, mem_cons]
    tauto

theorem foldl_removeConsumer_spec (h : s.Consistent) :
    let s' := ts.foldl (fun s taskInd => s.removeConsumer b taskInd) s
    s'.Consistent ∧ s'.getNumOfTasks = s.getNumOfTasks ∧ s'.getNumOfBarrierOps = s.getNumOfBarrierOps ∧
      (∀ b' t', t' ∈ s'.getBarrierConsumers b' ↔ ¬ (b' = b ∧ t' ∈ ts) ∧ t' ∈ s.getBarrierConsumers b') ∧
      ∀ b', s'.getBarrierProducers b' = s.getBarrierProducers b' := by
  induction ts generalizing s with
  | nil => exact ⟨h, rfl, rfl, by simp, fun _ => rfl⟩
  | cons t ts ih =>
    obtain ⟨hconsistent, htasks, hbarriers, hconsumers, hproducers⟩ := @ih (s.removeConsumer b t) h.removeConsumer
    refine ⟨hconsistent, by simpa using htasks, by simpa using hbarriers, ?_, hproducers⟩
    intro b' t'
    rw [foldl_cons, hconsumers, mem_consumers_removeConsumer, mem_cons]
    tauto

theorem SyncRows.advances_of_same (h : config.SyncRows s) (hconsistent : s'.Consistent)
    (htasks : s'.getNumOfTasks = s.getNumOfTasks) (hbarriers : s'.getNumOfBarrierOps = s.getNumOfBarrierOps)
    (hproducers : ∀ b, ¬ (b < config.barriersCount ∧ changed b) → ∀ t, t ∈ s'.getBarrierProducers b ↔ t ∈ s.getBarrierProducers b)
    (hconsumers : ∀ b, ¬ (b < config.barriersCount ∧ changed b) → ∀ t, t ∈ s'.getBarrierConsumers b ↔ t ∈ s.getBarrierConsumers b) :
    config.Advances changed s s' := by
  have hout : ∀ b, config.barriersCount ≤ b → ¬ (b < config.barriersCount ∧ changed b) := by
    omega
  have hwait : ∀ k, config.barriersCount ≤ config.waitBarInd k := fun k => Nat.le_add_right _ _
  have hupdate : ∀ k, config.barriersCount ≤ config.updateBarInd k := fun k => Nat.le_trans (hwait k) (Nat.le_succ _)
  refine ⟨⟨hconsistent, htasks.trans h.tasks, hbarriers ▸ h.barriers, ?_, ?_, ?_, ?_, ?_, ?_⟩, ?_, ?_, ?_, ?_⟩
  · intro k hk t ht
    exact h.waitProducers k hk t ((hproducers _ (hout _ (hwait k)) t).mp ht)
  · intro k hk t
    rw [hconsumers _ (hout _ (hwait k)), h.waitConsumers k hk]
  · intro k hk t
    rw [hproducers _ (hout _ (hupdate k)), h.updateProducers k hk]
  · intro k hk t ht
    exact h.updateConsumers k hk t ((hconsumers _ (hout _ (hupdate k)) t).mp ht)
  · intro b p c hb hedge
    have hle := hout b (Nat.le_trans (Nat.le_add_right _ _) hb)
    exact h.later b p c hb ⟨(hproducers b hle p).mp hedge.1, (hconsumers b hle c).mp hedge.2⟩
  · intro b hb hlt
    have hle := hout b (Nat.le_trans (Nat.le_add_right _ _) hb)
    obtain ⟨⟨p, hp⟩, c, hc⟩ := h.whole b hb (hbarriers ▸ hlt)
    exact ⟨⟨p, (hproducers b hle p).mpr hp⟩, c, (hconsumers b hle c).mpr hc⟩
  · exact fun b _ hchanged => hproducers b (fun h => hchanged h.2)
  · exact fun b _ hchanged => hconsumers b (fun h => hchanged h.2)
  · exact fun b hb t ht => (hproducers b (hout b hb) t).mpr ht
  · exact fun b hb t ht => (hconsumers b (hout b hb) t).mpr ht

section
variable (h : config.SyncRows s) (hb : b < config.barriersCount)
include h hb

theorem removeProducers_advances : config.Advances (· = b) s (ts.foldl (fun s taskInd => s.removeProducer b taskInd) s) := by
  obtain ⟨hconsistent, htasks, hbarriers, hproducers, hconsumers⟩ := @foldl_removeProducer_spec s b ts h.consistent
  apply h.advances_of_same hconsistent htasks hbarriers
  · intro b' hb' t
    rw [hproducers, and_iff_right]
    exact fun heq => hb' ⟨heq.1 ▸ hb, heq.1⟩
  · intro b' _ t
    rw [hconsumers]

theorem removeConsumers_advances : config.Advances (· = b) s (ts.foldl (fun s taskInd => s.removeConsumer b taskInd) s) := by
  obtain ⟨hconsistent, htasks, hbarriers, hconsumers, hproducers⟩ := @foldl_removeConsumer_spec s b ts h.consistent
  apply h.advances_of_same hconsistent htasks hbarriers
  · intro b' _ t
    rw [hproducers]
  · intro b' hb' t
    rw [hconsumers, and_iff_right]
    exact fun heq => hb' ⟨heq.1 ▸ hb, heq.1⟩

theorem addConsumer_advances (ht : t < config.tasksSize) :
    config.Advances (· = b) s (s.addConsumer b t) ∧
      ∀ t', t' ∈ (s.addConsumer b t).getBarrierConsumers b ↔ t' = t ∨ t' ∈ s.getBarrierConsumers b := by
  have hlt : b < s.getNumOfBarrierOps := Nat.lt_of_lt_of_le hb (Nat.le_trans (Nat.le_add_right _ _) h.barriers)
  have hspec := @addConsumers_spec s b h.consistent hlt [t] (by simpa using h.tasks ▸ ht)
  refine ⟨h.advances_of_same hspec.consistent hspec.tasks hspec.barriers ?_ ?_, ?_⟩
  · intro b' _ t'
    rw [← hspec.producers]
    rfl
  · intro b' hb' t'
    apply (hspec.consumers b' t').trans
    rw [or_iff_right]
    exact fun heq => hb' ⟨heq.1 ▸ hb, heq.1⟩
  · intro t'
    apply (hspec.consumers b t').trans
    rw [mem_singleton, and_iff_right rfl]

end

theorem addBlockBarrier_advances (changed : ℕ → Prop) (h : config.SyncRows s) (tasks consumers : TaskSet)
    (hfits : ∀ p ∈ tasks, ∀ c ∈ consumers, config.Fits p c) (hlt : ∀ c ∈ consumers, c < config.tasksSize)
    (hp : ∃ p, p ∈ tasks) (hc : ∃ c, c ∈ consumers) :
    config.Advances changed s (addBlockBarrier s tasks consumers) ∧
      ∀ p ∈ tasks, ∀ c ∈ consumers, (addBlockBarrier s tasks consumers).EdgeAt s.getNumOfBarrierOps p c := by
  have hout : ∀ b, s.getNumOfBarrierOps ≤ b → ∀ t, t ∉ s.getBarrierProducers b ∧ t ∉ s.getBarrierConsumers b := by
    intro b hb t
    exact ⟨fun ht => Nat.not_lt_of_le hb (h.consistent.producer_lt ht).1, fun ht => Nat.not_lt_of_le hb (h.consistent.consumer_lt ht).1⟩
  obtain ⟨p₀, hp₀⟩ := hp
  obtain ⟨c₀, hc₀⟩ := hc
  have hnew := h.consistent.addNewBarrier
  have hspec := @addProducers_spec _ s.getNumOfBarrierOps hnew (by simp) tasks.toList (by
    intro p hp
    rw [numOfTasks_addNewBarrier, h.tasks]
    exact Nat.lt_trans (hfits p hp c₀ hc₀).1 (hlt c₀ hc₀))
  have hspec' := @addConsumers_spec _ s.getNumOfBarrierOps hspec.consistent (by
    rw [hspec.barriers]
    simp) consumers.toList (by
    intro c hc
    rw [hspec.tasks, numOfTasks_addNewBarrier, h.tasks]
    exact hlt c hc)
  have hproducers : ∀ b t, t ∈ (addBlockBarrier s tasks consumers).getBarrierProducers b ↔
      (b = s.getNumOfBarrierOps ∧ t ∈ tasks) ∨ t ∈ s.getBarrierProducers b := by
    intro b t
    unfold addBlockBarrier
    rw [hspec'.producers, hspec.producers, producers_addNewBarrier]
    rfl
  have hconsumers : ∀ b t, t ∈ (addBlockBarrier s tasks consumers).getBarrierConsumers b ↔
      (b = s.getNumOfBarrierOps ∧ t ∈ consumers) ∨ t ∈ s.getBarrierConsumers b := by
    intro b t
    unfold addBlockBarrier
    rw [hspec'.consumers, hspec.consumers, consumers_addNewBarrier]
    rfl
  have htasks : (addBlockBarrier s tasks consumers).getNumOfTasks = s.getNumOfTasks := hspec'.tasks.trans hspec.tasks
  have hbarriers : (addBlockBarrier s tasks consumers).getNumOfBarrierOps = s.getNumOfBarrierOps + 1 := by
    apply (hspec'.barriers.trans hspec.barriers).trans
    simp
  have hold : ∀ b, b < config.barriersCount + 2 * (config.numOfBlocks - 1) → b ≠ s.getNumOfBarrierOps := by
    have hle := h.barriers
    omega
  have hold' : ∀ k, k + 1 < config.numOfBlocks → config.waitBarInd k ≠ s.getNumOfBarrierOps ∧
      config.updateBarInd k ≠ s.getNumOfBarrierOps := by
    unfold waitBarInd updateBarInd
    intro k hk
    constructor
    all_goals
      apply hold
      omega
  refine ⟨⟨⟨hspec'.consistent, htasks.trans h.tasks, ?_, ?_, ?_, ?_, ?_, ?_, ?_⟩, ?_, ?_, ?_, ?_⟩, ?_⟩
  · rw [hbarriers]
    exact Nat.le_succ_of_le h.barriers
  · intro k hk t ht
    rw [hproducers, or_iff_right (fun heq => (hold' k hk).1 heq.1)] at ht
    exact h.waitProducers k hk t ht
  · intro k hk t
    rw [hconsumers, or_iff_right (fun heq => (hold' k hk).1 heq.1), h.waitConsumers k hk]
  · intro k hk t
    rw [hproducers, or_iff_right (fun heq => (hold' k hk).2 heq.1), h.updateProducers k hk]
  · intro k hk t ht
    rw [hconsumers, or_iff_right (fun heq => (hold' k hk).2 heq.1)] at ht
    exact h.updateConsumers k hk t ht
  · rintro b p c hb ⟨hp, hc⟩
    rw [hproducers] at hp
    rw [hconsumers] at hc
    by_cases heq : b = s.getNumOfBarrierOps
    · subst heq
      have hp := hp.resolve_right (hout _ (Nat.le_refl _) p).1
      have hc := hc.resolve_right (hout _ (Nat.le_refl _) c).2
      exact hfits p hp.2 c hc.2
    · rw [or_iff_right (fun h => heq h.1)] at hp hc
      exact h.later b p c hb ⟨hp, hc⟩
  · intro b hb hlt
    rw [hbarriers] at hlt
    by_cases heq : b = s.getNumOfBarrierOps
    · exact ⟨⟨p₀, (hproducers b p₀).mpr (.inl ⟨heq, hp₀⟩)⟩, c₀, (hconsumers b c₀).mpr (.inl ⟨heq, hc₀⟩)⟩
    · obtain ⟨⟨p, hp⟩, c, hc⟩ := h.whole b hb (by omega)
      exact ⟨⟨p, (hproducers b p).mpr (.inr hp)⟩, c, (hconsumers b c).mpr (.inr hc)⟩
  · intro b hb _ t
    rw [hproducers, or_iff_right (fun heq => hold b (by omega) heq.1)]
  · intro b hb _ t
    rw [hconsumers, or_iff_right (fun heq => hold b (by omega) heq.1)]
  · exact fun b _ t ht => (hproducers b t).mpr (.inr ht)
  · exact fun b _ t ht => (hconsumers b t).mpr (.inr ht)
  · exact fun p hp c hc => ⟨(hproducers _ p).mpr (.inl ⟨rfl, hp⟩), (hconsumers _ c).mpr (.inl ⟨rfl, hc⟩)⟩

end

end SplitConfig

end NpuCompiler.Barrier
