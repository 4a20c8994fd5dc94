import NpuCompiler.Barrier.SplitControlGraph
import NpuCompiler.Library.FoldRules

namespace NpuCompiler.Barrier

open BarrierInfo GraphSplit

namespace SplitConfig

def syncTask (config : SplitConfig) (k : ℕ) : ℕ := (k + 1) * config.blockSize - 1

def waitBarInd (config : SplitConfig) (k : ℕ) : ℕ := config.barriersCount + 2 * k

def updateBarInd (config : SplitConfig) (k : ℕ) : ℕ := config.barriersCount + 2 * k + 1

structure Proper (config : SplitConfig) : Prop where
  size : 2 ≤ config.blockSize
  several : config.blockSize < config.tasksSize

def Fits (config : SplitConfig) (p c : ℕ) : Prop := p < c ∧ c / config.blockSize ≤ (p + 1) / config.blockSize

variable {config : SplitConfig} {k t p c : ℕ}

section

section
variable (h : config.Proper)
include h

theorem Proper.pos : 0 < config.blockSize := Nat.lt_of_lt_of_le Nat.zero_lt_two h.size

theorem Proper.lt_numOfBlocks : k < config.numOfBlocks ↔ k * config.blockSize < config.tasksSize := by
  have hdiv := Nat.div_add_mod' config.tasksSize config.blockSize
  have hmod := Nat.mod_lt config.tasksSize h.pos
  unfold numOfBlocks
  cases Nat.lt_trichotomy k (config.tasksSize / config.blockSize) with
  | inl hlt =>
    have hmul := Nat.mul_le_mul_right config.blockSize hlt
    rw [Nat.succ_mul] at hmul
    have hpos := h.pos
    constructor
    · omega
    · intro
      split_ifs <;> omega
  | inr hge =>
    cases hge with
    | inl heq =>
      subst heq
      split_ifs <;> omega
    | inr hgt =>
      have hmul := Nat.mul_le_mul_right config.blockSize hgt
      rw [Nat.succ_mul] at hmul
      split_ifs <;> omega

theorem Proper.block_lt (ht : t < config.tasksSize) : t / config.blockSize < config.numOfBlocks := by
  rw [h.lt_numOfBlocks]
  exact Nat.lt_of_le_of_lt (Nat.div_mul_le_self t config.blockSize) ht

theorem Proper.two_le_numOfBlocks : 2 ≤ config.numOfBlocks := by
  apply h.lt_numOfBlocks.mpr
  rw [Nat.one_mul]
  exact h.several

theorem Proper.syncTask_succ : config.syncTask k + 1 = (k + 1) * config.blockSize := by
  have hpos := Nat.mul_pos (Nat.succ_pos k) h.pos
  exact Nat.sub_add_cancel hpos

theorem Proper.syncTask_block : config.syncTask k / config.blockSize = k := by
  have hsucc := @syncTask_succ config k h
  have hpos := h.pos
  rw [Nat.succ_mul] at hsucc
  apply Nat.div_eq_of_lt_le
  · omega
  · rw [Nat.succ_mul]
    omega

theorem Proper.syncTask_succ_block : (config.syncTask k + 1) / config.blockSize = k + 1 := by
  rw [h.syncTask_succ, Nat.mul_div_cancel _ h.pos]

theorem Proper.block_iff : t / config.blockSize = k ↔ k * config.blockSize ≤ t ∧ t ≤ config.syncTask k := by
  have hsucc := @syncTask_succ config k h
  rw [Nat.succ_mul] at hsucc
  rw [Nat.div_eq_iff h.pos]
  have hpos := h.pos
  omega

theorem Proper.syncTask_lt (hk : k + 1 < config.numOfBlocks) : config.syncTask k + 1 < config.tasksSize := by
  rw [h.syncTask_succ]
  exact h.lt_numOfBlocks.mp hk

theorem Proper.isSyncPoint_iff (ht : t < config.tasksSize) : config.isSyncPoint t = true ↔
    t / config.blockSize + 1 < config.numOfBlocks ∧ t = config.syncTask (t / config.blockSize) := by
  have hsucc := @syncTask_succ config (t / config.blockSize) h
  unfold isSyncPoint
  rw [Bool.and_eq_true, decide_eq_true_eq, decide_eq_true_eq, h.lt_numOfBlocks, ← hsucc]
  constructor
  · rintro ⟨hlast, hmod⟩
    have heq : t = config.syncTask (t / config.blockSize) := by
      have hblock := h.block_iff.mp (rfl : t / config.blockSize = t / config.blockSize)
      obtain ⟨q, hq⟩ := Nat.dvd_of_mod_eq_zero hmod
      have hlt : t / config.blockSize * config.blockSize < q * config.blockSize := by
        rw [Nat.mul_comm q, ← hq]
        omega
      have hle := Nat.mul_le_mul_right config.blockSize (Nat.lt_of_mul_lt_mul_right hlt)
      rw [Nat.mul_comm q, ← hq, Nat.succ_eq_add_one, ← hsucc] at hle
      omega
    exact ⟨by omega, heq⟩
  · rintro ⟨hlt, heq⟩
    refine ⟨by omega, ?_⟩
    rw [heq, h.syncTask_succ, Nat.mul_mod_left]

end

theorem fits_of_block (hlt : p < c) (hblock : p / config.blockSize = c / config.blockSize) : config.Fits p c := by
  refine ⟨hlt, ?_⟩
  rw [← hblock]
  exact Nat.div_le_div_right (Nat.le_succ p)

theorem Proper.fits_of_sync (h : config.Proper) (hblock : c / config.blockSize = k + 1) : config.Fits (config.syncTask k) c := by
  refine ⟨?_, ?_⟩
  · have hsucc := @syncTask_succ config k h
    have hle := (h.block_iff.mp hblock).1
    omega
  · rw [h.syncTask_succ_block, hblock]

end

structure SyncRows (config : SplitConfig) (s : BarrierInfo) : Prop where
  consistent : s.Consistent
  tasks : s.getNumOfTasks = config.tasksSize
  barriers : config.barriersCount + 2 * (config.numOfBlocks - 1) ≤ s.getNumOfBarrierOps
  waitProducers : ∀ k, k + 1 < config.numOfBlocks → ∀ t ∈ s.getBarrierProducers (config.waitBarInd k),
    t / config.blockSize = k ∧ t ≠ config.syncTask k
  waitConsumers : ∀ k, k + 1 < config.numOfBlocks → ∀ t, t ∈ s.getBarrierConsumers (config.waitBarInd k) ↔ t = config.syncTask k
  updateProducers : ∀ k, k + 1 < config.numOfBlocks → ∀ t, t ∈ s.getBarrierProducers (config.updateBarInd k) ↔ t = config.syncTask k
  updateConsumers : ∀ k, k + 1 < config.numOfBlocks → ∀ t ∈ s.getBarrierConsumers (config.updateBarInd k),
    t / config.blockSize = k + 1
  later : ∀ b p c, config.barriersCount + 2 * (config.numOfBlocks - 1) ≤ b → s.EdgeAt b p c → config.Fits p c
  whole : ∀ b, config.barriersCount + 2 * (config.numOfBlocks - 1) ≤ b → b < s.getNumOfBarrierOps →
    (∃ p, p ∈ s.getBarrierProducers b) ∧ ∃ c, c ∈ s.getBarrierConsumers b

/-- The barriers of the sync tasks and the new ones only get further tasks, and of the others only those with `changed`
have other tasks than before. -/
structure Advances (config : SplitConfig) (changed : ℕ → Prop) (s s' : BarrierInfo) : Prop where
  rows : config.SyncRows s'
  producers : ∀ b < config.barriersCount, ¬ changed b → ∀ t, t ∈ s'.getBarrierProducers b ↔ t ∈ s.getBarrierProducers b
  consumers : ∀ b < config.barriersCount, ¬ changed b → ∀ t, t ∈ s'.getBarrierConsumers b ↔ t ∈ s.getBarrierConsumers b
  moreProducers : ∀ b, config.barriersCount ≤ b → ∀ t ∈ s.getBarrierProducers b, t ∈ s'.getBarrierProducers b
  moreConsumers : ∀ b, config.barriersCount ≤ b → ∀ t ∈ s.getBarrierConsumers b, t ∈ s'.getBarrierConsumers b

section
variable {s s' s'' : BarrierInfo} {changed changed' : ℕ → Prop} {b : ℕ} {ts : List ℕ}

theorem SyncRows.advances_refl (h : config.SyncRows s) : config.Advances changed s s :=
  ⟨h, fun _ _ _ _ => Iff.rfl, fun _ _ _ _ => Iff.rfl, fun _ _ _ ht => ht, fun _ _ _ ht => ht⟩

theorem Advances.trans (h : config.Advances changed s s') (h' : config.Advances changed s' s'') :
    config.Advances changed s s'' := by
  refine ⟨h'.rows, ?_, ?_, ?_, ?_⟩
  · exact fun b hb hchanged t => (h'.producers b hb hchanged t).trans (h.producers b hb hchanged t)
  · exact fun b hb hchanged t => (h'.consumers b hb hchanged t).trans (h.consumers b hb hchanged t)
  · exact fun b hb t ht => h'.moreProducers b hb t (h.moreProducers b hb t ht)
  · exact fun b hb t ht => h'.moreConsumers b hb t (h.moreConsumers b hb t ht)

theorem Advances.mono (h : config.Advances changed s s') (hchanged : ∀ b, changed b → changed' b) :
    config.Advances changed' s s' :=
  ⟨h.rows, fun b hb hnot => h.producers b hb (fun hc => hnot (hchanged b hc)),
    fun b hb hnot => h.consumers b hb (fun hc => hnot (hchanged b hc)), h.moreProducers, h.moreConsumers⟩

theorem Advances.edge (h : config.Advances changed s s') (hb : config.barriersCount ≤ b) (hedge : s.EdgeAt b p c) :
    s'.EdgeAt b p c := ⟨h.moreProducers b hb p hedge.1, h.moreConsumers b hb c hedge.2⟩

theorem waitBarInd_lt (hrows : config.SyncRows s) (hk : k + 1 < config.numOfBlocks) :
    config.waitBarInd k < s.getNumOfBarrierOps := by
  have hle := hrows.barriers
  unfold waitBarInd
  omega

theorem updateBarInd_lt (hrows : config.SyncRows s) (hk : k + 1 < config.numOfBlocks) :
    config.updateBarInd k < s.getNumOfBarrierOps := by
  have hle := hrows.barriers
  unfold updateBarInd
  omega

theorem exists_block (hle : config.barriersCount ≤ b) :
    (∃ k, k + 1 < config.numOfBlocks ∧ (b = config.waitBarInd k ∨ b = config.updateBarInd k)) ∨
      config.barriersCount + 2 * (config.numOfBlocks - 1) ≤ b := by
  by_cases hlt : b < config.barriersCount + 2 * (config.numOfBlocks - 1)
  · left
    refine ⟨(b - config.barriersCount) / 2, by omega, ?_⟩
    unfold waitBarInd updateBarInd
    omega
  · exact .inr (Nat.le_of_not_lt hlt)

theorem SyncRows.fits (hproper : config.Proper) (h : config.SyncRows s) (hle : config.barriersCount ≤ b)
    (hedge : s.EdgeAt b p c) : config.Fits p c := by
  cases exists_block hle with
  | inl hsync =>
    obtain ⟨k, hk, rfl | rfl⟩ := hsync
    · obtain ⟨hblock, hne⟩ := h.waitProducers k hk p hedge.1
      rw [(h.waitConsumers k hk c).mp hedge.2]
      apply fits_of_block
      · exact Nat.lt_of_le_of_ne (hproper.block_iff.mp hblock).2 hne
      · rw [hblock, hproper.syncTask_block]
    · rw [(h.updateProducers k hk p).mp hedge.1]
      exact hproper.fits_of_sync (h.updateConsumers k hk c hedge.2)
  | inr hnew => exact h.later b p c hnew hedge

theorem addWaitProducers_spec (changed : ℕ → Prop) (ts : List ℕ) (hproper : config.Proper) (h : config.SyncRows s) (hk : k + 1 < config.numOfBlocks)
    (hts : ∀ t ∈ ts, t / config.blockSize = k ∧ t ≠ config.syncTask k) :
    config.Advances changed s (s.addProducers (config.waitBarInd k) ts) ∧
      ∀ t ∈ ts, (s.addProducers (config.waitBarInd k) ts).EdgeAt (config.waitBarInd k) t (config.syncTask k) := by
  have hlt : ∀ t ∈ ts, t < s.getNumOfTasks := by
    intro t ht
    have hle := (hproper.block_iff.mp (hts t ht).1).2
    have hsync := hproper.syncTask_lt hk
    rw [h.tasks]
    omega
  have hspec := addProducers_spec h.consistent (waitBarInd_lt h hk) hlt
  have hconsumers := hspec.consumers
  have hne : ∀ k' b', b' = config.updateBarInd k' ∨ config.barriersCount + 2 * (config.numOfBlocks - 1) ≤ b' ∨
      b' < config.barriersCount → b' ≠ config.waitBarInd k := by
    unfold waitBarInd updateBarInd
    omega
  refine ⟨⟨⟨hspec.consistent, hspec.tasks.trans h.tasks, hspec.barriers ▸ h.barriers, ?_, ?_, ?_, ?_, ?_, ?_⟩, ?_, ?_, ?_, ?_⟩, ?_⟩
  · intro k' hk' t ht
    cases (hspec.producers _ t).mp ht with
    | inl hnew =>
      have heq : k' = k := by
        have := hnew.1
        unfold waitBarInd at this
        omega
      exact heq ▸ hts t hnew.2
    | inr hold => exact h.waitProducers k' hk' t hold
  · intro k' hk' t
    rw [hconsumers]
    exact h.waitConsumers k' hk' t
  · intro k' hk' t
    rw [hspec.producers, or_iff_right (fun hnew => hne k' _ (.inl rfl) hnew.1)]
    exact h.updateProducers k' hk' t
  · intro k' hk' t ht
    rw [hconsumers] at ht
    exact h.updateConsumers k' hk' t ht
  · rintro b p c hb ⟨hp, hc⟩
    rw [hspec.producers, or_iff_right (fun hnew => hne 0 _ (.inr (.inl hb)) hnew.1)] at hp
    rw [hconsumers] at hc
    exact h.later b p c hb ⟨hp, hc⟩
  · intro b hb hlt
    rw [hspec.barriers] at hlt
    obtain ⟨⟨p, hp⟩, c, hc⟩ := h.whole b hb hlt
    exact ⟨⟨p, (hspec.producers b p).mpr (.inr hp)⟩, c, hconsumers b ▸ hc⟩
  · intro b hb _ t
    rw [hspec.producers, or_iff_right (fun hnew => hne 0 _ (.inr (.inr hb)) hnew.1)]
  · intro b _ _ t
    rw [hconsumers]
  · exact fun b _ t ht => (hspec.producers b t).mpr (.inr ht)
  · intro b _ t ht
    rwa [hconsumers]
  · intro t ht
    refine ⟨(hspec.producers _ t).mpr (.inl ⟨rfl, ht⟩), ?_⟩
    rw [hconsumers]
    exact (h.waitConsumers k hk _).mpr rfl

theorem addUpdateConsumers_spec (changed : ℕ → Prop) (ts : List ℕ) (h : config.SyncRows s) (hk : k + 1 < config.numOfBlocks)
    (hts : ∀ t ∈ ts, t / config.blockSize = k + 1 ∧ t < config.tasksSize) :
    config.Advances changed s (s.addConsumers (config.updateBarInd k) ts) ∧
      ∀ t ∈ ts, (s.addConsumers (config.updateBarInd k) ts).EdgeAt (config.updateBarInd k) (config.syncTask k) t := by
  have hspec := addConsumers_spec h.consistent (updateBarInd_lt h hk) (fun t ht => h.tasks ▸ (hts t ht).2)
  have hproducers := hspec.producers
  have hne : ∀ k' b', b' = config.waitBarInd k' ∨ config.barriersCount + 2 * (config.numOfBlocks - 1) ≤ b' ∨
      b' < config.barriersCount → b' ≠ config.updateBarInd k := by
    unfold waitBarInd updateBarInd
    omega
  refine ⟨⟨⟨hspec.consistent, hspec.tasks.trans h.tasks, hspec.barriers ▸ h.barriers, ?_, ?_, ?_, ?_, ?_, ?_⟩, ?_, ?_, ?_, ?_⟩, ?_⟩
  · intro k' hk' t ht
    rw [hproducers] at ht
    exact h.waitProducers k' hk' t ht
  · intro k' hk' t
    rw [hspec.consumers, or_iff_right (fun hnew => hne k' _ (.inl rfl) hnew.1)]
    exact h.waitConsumers k' hk' t
  · intro k' hk' t
    rw [hproducers]
    exact h.updateProducers k' hk' t
  · intro k' hk' t ht
    cases (hspec.consumers _ t).mp ht with
    | inl hnew =>
      have heq : k' = k := by
        have := hnew.1
        unfold updateBarInd at this
        omega
      exact heq ▸ (hts t hnew.2).1
    | inr hold => exact h.updateConsumers k' hk' t hold
  · rintro b p c hb ⟨hp, hc⟩
    rw [hspec.consumers, or_iff_right (fun hnew => hne 0 _ (.inr (.inl hb)) hnew.1)] at hc
    rw [hproducers] at hp
    exact h.later b p c hb ⟨hp, hc⟩
  · intro b hb hlt
    rw [hspec.barriers] at hlt
    obtain ⟨⟨p, hp⟩, c, hc⟩ := h.whole b hb hlt
    exact ⟨⟨p, hproducers b ▸ hp⟩, c, (hspec.consumers b c).mpr (.inr hc)⟩
  · intro b _ _ t
    rw [hproducers]
  · intro b hb _ t
    rw [hspec.consumers, or_iff_right (fun hnew => hne 0 _ (.inr (.inr hb)) hnew.1)]
  · intro b _ t ht
    rwa [hproducers]
  · exact fun b _ t ht => (hspec.consumers b t).mpr (.inr ht)
  · intro t ht
    refine ⟨?_, (hspec.consumers _ t).mpr (.inl ⟨rfl, ht⟩)⟩
    rw [hproducers]
    exact (h.updateProducers k hk _).mpr rfl

end

end SplitConfig

end NpuCompiler.Barrier
