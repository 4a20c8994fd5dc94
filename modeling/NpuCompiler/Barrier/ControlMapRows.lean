import NpuCompiler.Barrier.ControlMapQueues
import NpuCompiler.Library.FoldRules

namespace NpuCompiler.Barrier

open BarrierInfo FifoBarrierInfo Sweeps List

namespace GraphSplit

section
variable {split : GraphSplit} {s : BarrierInfo} {lo hi k : ℕ} {m : TaskControlMap} {ignoreOutOfBlockDependencies : Bool}

theorem length_foldl {α : Type} {f : TaskControlMap → α → TaskControlMap} (h : ∀ m x, (f m x).length = m.length) (l : List α) :
    (l.foldl f m).length = m.length := by
  induction l generalizing m with
  | nil => rfl
  | cons x l ih => exact ih.trans (h m x)

theorem length_inheritRows (m : TaskControlMap) (t : ℕ) : (inheritRows s lo hi m t).length = m.length := by
  unfold inheritRows
  apply length_foldl
  intro m child
  dsimp only
  split
  · exact length_modify _ _ _
  · rfl

theorem length_buildTaskControlMap (h : s.Consistent) (hsplit : split.WellFormed s.getNumOfTasks) (hpos : 0 < s.getNumOfTasks)
    (hk : BlockRange split s k lo hi) (hclosed : Closed split s lo hi ignoreOutOfBlockDependencies) {offset : ℕ}
    (hbuild : split.buildTaskControlMap s k ignoreOutOfBlockDependencies = .ok (m, offset)) : m.length = hi - lo + 1 := by
  have htasks (t : ℕ) (ht : t ∈ (tasksFrom lo (hi + 1)).reverse) : inRange lo hi t = true := by
    rw [mem_reverse, mem_tasksFrom, Nat.lt_succ_iff] at ht
    exact inRange_iff.mpr ht
  obtain ⟨hsquare, -⟩ := directRows_run h htasks (@square_replicate lo hi)
  obtain ⟨m', back, hrun, hm', -, -⟩ := inheritTask_run h (isSyncPoint_eq hsplit (hk.lt hpos)) hclosed htasks hsquare []
  unfold buildTaskControlMap at hbuild
  rw [hk.range] at hbuild
  change (if lo > hi then _ else Except.bind (List.foldlM _ _ _) _) = _ at hbuild
  rw [if_neg (Nat.not_lt.mpr hk.le), hrun] at hbuild
  cases hbuild
  unfold revisitRows
  split
  · exact hm'.rows
  · rw [length_foldl length_inheritRows, length_foldl length_inheritRows]
    exact hm'.rows

end

end GraphSplit

namespace FifoBarrierInfo

open GraphSplit

section
variable {config : OptimizeConfig} {maps maps' : BarrierInfo} {k lo hi : ℕ}

theorem SameMaps.refl (maps : BarrierInfo) : SameMaps maps maps :=
  ⟨rfl, rfl, fun _ _ => Iff.rfl, fun _ _ => Iff.rfl, fun _ _ => Iff.rfl, fun _ _ => Iff.rfl⟩

theorem SameMaps.trans {maps'' : BarrierInfo} (h : SameMaps maps maps') (h' : SameMaps maps' maps'') : SameMaps maps maps'' :=
  ⟨h'.tasks.trans h.tasks, h'.barriers.trans h.barriers, fun b x => (h'.producers b x).trans (h.producers b x),
    fun b x => (h'.consumers b x).trans (h.consumers b x), fun t b => (h'.updateBarriers t b).trans (h.updateBarriers t b),
    fun t b => (h'.waitBarriers t b).trans (h.waitBarriers t b)⟩

theorem SameMaps.edge (h : SameMaps maps maps') : maps'.Edge = maps.Edge := by
  funext p c
  apply propext
  unfold Edge EdgeAt
  simp only [h.producers, h.consumers]

theorem SameMaps.blockRange (h : SameMaps maps maps') : BlockRange config.split maps' k lo hi ↔ BlockRange config.split maps k lo hi := by
  have hrange : config.split.getControlGraphBlockTaskRange maps' k true true =
      config.split.getControlGraphBlockTaskRange maps k true true := by
    unfold getControlGraphBlockTaskRange
    rw [h.tasks]
  constructor
  · rintro ⟨hr, hle, hlt, hfirst, hlast⟩
    exact ⟨hrange ▸ hr, hle, h.tasks ▸ hlt, hfirst, h.tasks ▸ hlast⟩
  · rintro ⟨hr, hle, hlt, hfirst, hlast⟩
    exact ⟨hrange.symm ▸ hr, hle, h.tasks.symm ▸ hlt, hfirst, h.tasks.symm ▸ hlast⟩

theorem SameMaps.seenEdge (h : SameMaps maps maps') : SeenEdge config maps' k lo hi true = SeenEdge config maps k lo hi true := by
  have hrange : config.split.getControlGraphBlockTaskRange maps' k false false =
      config.split.getControlGraphBlockTaskRange maps k false false := by
    unfold getControlGraphBlockTaskRange
    rw [h.tasks]
  unfold SeenEdge
  rw [SameMaps.edge h, hrange]

theorem eq_ofMaps {s : FifoBarrierInfo} (hops : s.numOfBarrierOps = s.maps.getNumOfBarrierOps) (hdeps : s.fifoDependencies = []) :
    s = ofMaps s.maps := by
  unfold ofMaps
  rw [← hops, ← hdeps]

theorem buildTaskControlMap_restores (h : maps.Consistent) (hsplit : config.split.WellFormed maps.getNumOfTasks)
    (hpos : 0 < maps.getNumOfTasks) (hqueues : config.taskQueueTypes ≠ []) (hk : BlockRange config.split maps k lo hi)
    (hclosed : Closed config.split maps lo hi false) {m : TaskControlMap} {offset : ℕ} {s' : FifoBarrierInfo}
    (hbuild : (ofMaps maps).buildTaskControlMap config k true false = .ok ((m, offset), s')) :
    (∃ maps', s' = ofMaps maps' ∧ maps'.Consistent) ∧ m.length = hi - lo + 1 := by
  have hrange : config.split.getControlGraphBlockTaskRange (ofMaps maps).maps k true true = .ok (lo, hi) := hk.range
  obtain ⟨first, last, hinner⟩ := @exists_range config.split maps k (block_lt_count hk.range) false false
  obtain ⟨linked, hcreate, hlinked, hedges⟩ := createBarrierDependenciesImpliedByFIFO_linked h hsplit hpos hqueues hinner
  obtain ⟨restored, hremove, hrestored⟩ := removeBarrierDependenciesImpliedByFIFO_restored (hlinked.temporary h)
  have hk' := hlinked.blockRange hk
  have hclosed' := closed_linked (inner_le hk.range hinner) hedges hclosed
  unfold FifoBarrierInfo.buildTaskControlMap at hbuild
  rw [hrange] at hbuild
  change (if lo > hi then _ else Except.bind (createBarrierDependenciesImpliedByFIFO _ (ofMaps maps)
    (buildTaskQueueTypeMap config maps.getNumOfTasks) k none) _) = _ at hbuild
  rw [if_neg (Nat.not_lt.mpr hk.le), hcreate] at hbuild
  change Except.bind (config.split.buildTaskControlMap linked.maps k false) _ = _ at hbuild
  obtain ⟨⟨m', offset'⟩, hm, hbuild⟩ := bind_eq_ok.mp hbuild
  dsimp only at hbuild
  rw [hremove] at hbuild
  change (if _ then _ else _) = _ at hbuild
  split_ifs at hbuild
  cases hbuild
  constructor
  · exact ⟨s'.maps, eq_ofMaps (hrestored.ops.trans hrestored.barriers.symm) hrestored.dependencies, hrestored.consistent⟩
  · exact length_buildTaskControlMap hlinked.consistent (hlinked.tasks.symm ▸ hsplit) (hlinked.tasks.symm ▸ hpos) hk' hclosed' hm

theorem buildTaskControlMap_rows {considerTaskFifoDependency : Bool} (h : maps.Consistent)
    (hsplit : config.split.WellFormed maps.getNumOfTasks) (hpos : 0 < maps.getNumOfTasks) (hqueues : config.taskQueueTypes ≠ [])
    (hk : BlockRange config.split maps k lo hi) (hclosed : Closed config.split maps lo hi false) :
    ∃ m maps', (ofMaps maps).buildTaskControlMap config k considerTaskFifoDependency false = .ok ((m, lo), ofMaps maps') ∧
      maps'.Consistent ∧ SameMaps maps maps' ∧ m.length = hi - lo + 1 ∧
      RowBit lo hi m = Found (SeenEdge config maps k lo hi considerTaskFifoDependency)
        (SeenOnward config maps k lo hi considerTaskFifoDependency) := by
  obtain ⟨m, s', hbuild, hsame, -, hbits⟩ := @buildTaskControlMap_seen config maps lo hi k considerTaskFifoDependency false h hsplit
    hpos (fun _ => hqueues) hk hclosed
  cases considerTaskFifoDependency with
  | true =>
    obtain ⟨⟨maps', rfl, hmaps'⟩, hlength⟩ := buildTaskControlMap_restores h hsplit hpos hqueues hk hclosed hbuild
    exact ⟨m, maps', hbuild, hmaps', hsame, hlength, hbits⟩
  | false =>
    have hdirect := hbuild
    have hrange : config.split.getControlGraphBlockTaskRange (ofMaps maps).maps k true true = .ok (lo, hi) := hk.range
    unfold FifoBarrierInfo.buildTaskControlMap at hdirect
    rw [hrange] at hdirect
    change (if lo > hi then _ else Except.bind (config.split.buildTaskControlMap maps k false) _) = _ at hdirect
    rw [if_neg (Nat.not_lt.mpr hk.le)] at hdirect
    obtain ⟨⟨m', offset⟩, hm, hdirect⟩ := bind_eq_ok.mp hdirect
    cases hdirect
    exact ⟨m, maps, hbuild, h, .refl maps, length_buildTaskControlMap h hsplit hpos hk hclosed hm, hbits⟩

theorem BlockRange.unique {k lo hi lo' hi' : ℕ} (hk : BlockRange config.split maps k lo hi)
    (hk' : BlockRange config.split maps k lo' hi') : lo = lo' ∧ hi = hi' := by
  have hrange := hk.range.symm.trans hk'.range
  rw [Except.ok.injEq, Prod.mk.injEq] at hrange
  exact hrange

theorem before_of_blockOf_lt {sync : List ℕ} {x y : ℕ} (h : blockOf sync x < blockOf sync y) :
    ∃ t ∈ sync, x ≤ t ∧ t < y := by
  by_contra hnone
  push Not at hnone
  apply Nat.not_le.mpr h
  apply countP_mono_left
  intro t ht hlt
  simp only [decide_eq_true_eq] at hlt ⊢
  by_contra hle
  exact absurd hlt (Nat.not_lt.mpr (hnone t ht (Nat.le_of_not_lt hle)))

theorem getD_lt_iff {sync : List ℕ} (hsorted : sync.Pairwise (· < ·)) {i t : ℕ} (hi : i < sync.length) :
    sync.getD i 0 < t ↔ i < blockOf sync t := by
  unfold blockOf
  induction sync generalizing i with
  | nil => exact absurd hi (Nat.not_lt_zero _)
  | cons a sync ih =>
    obtain ⟨ha, hsorted⟩ := pairwise_cons.mp hsorted
    by_cases hat : a < t
    · have hcount : List.countP (fun x => decide (x < t)) (a :: sync) = List.countP (fun x => decide (x < t)) sync + 1 :=
        countP_cons_of_pos (decide_eq_true hat)
      rw [hcount]
      cases i with
      | zero => exact ⟨fun _ => Nat.succ_pos _, fun _ => hat⟩
      | succ i => exact (ih hsorted (Nat.lt_of_succ_lt_succ hi)).trans Nat.succ_lt_succ_iff.symm
    · have hnone : List.countP (fun x => decide (x < t)) (a :: sync) = 0 := by
        rw [countP_eq_zero]
        intro x hx
        rw [decide_eq_true_eq]
        cases mem_cons.mp hx with
        | inl hx => exact hx ▸ hat
        | inr hx =>
          have := ha x hx
          omega
      rw [hnone]
      refine ⟨?_, fun hlt => absurd hlt (Nat.not_lt_zero _)⟩
      intro hlt
      rw [getD_eq_getElem _ _ hi] at hlt
      cases mem_cons.mp (getElem_mem hi) with
      | inl hx => exact absurd (hx ▸ hlt) hat
      | inr hx =>
        have := ha _ hx
        omega

theorem inRange_block (h : config.split.WellFormed maps.getNumOfTasks) {t : ℕ} (ht : t < maps.getNumOfTasks)
    (hk : BlockRange config.split maps (blockOf config.split.syncTasksIds t) lo hi) : inRange lo hi t = true := by
  have hrange := hk.range
  unfold getControlGraphBlockTaskRange at hrange
  rw [if_neg (Nat.not_le.mpr (block_lt_count hk.range)), Except.ok.injEq, Prod.mk.injEq, if_pos rfl, if_pos rfl] at hrange
  obtain ⟨rfl, rfl⟩ := hrange
  have hcount : blockOf config.split.syncTasksIds t ≤ config.split.syncTasksIds.length := countP_le_length
  have hcountEq : config.split.getControlGraphBlockCount - 1 = config.split.syncTasksIds.length := rfl
  rw [inRange_iff]
  constructor
  · split_ifs with hzero
    · exact Nat.zero_le _
    · have hlt := (getD_lt_iff h.sorted (t := t) (i := blockOf config.split.syncTasksIds t - 1) (by omega)).mpr (by omega)
      exact Nat.le_of_lt hlt
  · split_ifs with hlast
    · omega
    · rw [hcountEq] at hlast
      exact Nat.le_of_not_lt (fun hlt => Nat.lt_irrefl _ ((getD_lt_iff h.sorted (by omega)).mp hlt))

theorem blockIndex_eq (h : config.split.WellFormed maps.getNumOfTasks) {t : ℕ} (ht : t < maps.getNumOfTasks) :
    config.split.getControlGraphBlockIndex t = .ok (blockOf config.split.syncTasksIds t) := by
  unfold getControlGraphBlockIndex
  by_cases hnil : config.split.syncTasksIds = []
  · rw [if_pos hnil, hnil]
    rfl
  · have hspec := @buildTaskBlockMap_spec config.split.syncTasksIds maps.getNumOfTasks h.sorted
    rw [if_neg hnil, h.blockMap hnil]
    dsimp only
    rw [hspec.1, if_pos ht, hspec.2 t ht]

end

end FifoBarrierInfo

section

open FifoBarrierInfo GraphSplit

structure BlockSplit (config : OptimizeConfig) (s : BarrierInfo) : Prop where
  consistent : s.Consistent
  split : config.split.WellFormed s.getNumOfTasks
  pos : 0 < s.getNumOfTasks
  queues : config.taskQueueTypes ≠ []
  blocks : ∀ b, ∃ k, (∀ p ∈ s.getBarrierProducers b, blockOf config.split.syncTasksIds (p + 1) = k) ∧
    ∀ c ∈ s.getBarrierConsumers b, blockOf config.split.syncTasksIds c = k

variable {config : OptimizeConfig} {maps maps' : BarrierInfo} {k lo hi : ℕ}

theorem BlockSplit.sameMaps (h : BlockSplit config maps) (hsame : SameMaps maps maps') (hconsistent : maps'.Consistent) :
    BlockSplit config maps' := by
  refine ⟨hconsistent, hsame.tasks.symm ▸ h.split, hsame.tasks.symm ▸ h.pos, h.queues, ?_⟩
  intro b
  obtain ⟨k, hproducers, hconsumers⟩ := h.blocks b
  exact ⟨k, fun p hp => hproducers p ((hsame.producers b p).mp hp), fun c hc => hconsumers c ((hsame.consumers b c).mp hc)⟩

theorem BlockSplit.closed (h : BlockSplit config maps) (hk : BlockRange config.split maps k lo hi) :
    Closed config.split maps lo hi false := by
  right
  rintro t c ht hskip ⟨b, hp, hc⟩
  obtain ⟨hlo, hhi⟩ := inRange_iff.mp ht
  obtain ⟨block, hproducers, hconsumers⟩ := h.blocks b
  have hcLt := (h.consistent.consumer_lt hc).2
  have hcount : config.split.getControlGraphBlockCount = config.split.syncTasksIds.length + 1 := rfl
  have hlt := block_lt_count hk.range
  have hle : blockOf config.split.syncTasksIds (t + 1) ≤ config.split.syncTasksIds.length := countP_le_length
  have hrange := hk.range
  unfold getControlGraphBlockTaskRange at hrange
  rw [if_neg (Nat.not_le.mpr hlt), Except.ok.injEq, Prod.mk.injEq, if_pos rfl, if_pos rfl] at hrange
  have hblock : blockOf config.split.syncTasksIds (t + 1) = k := by
    rcases Nat.lt_trichotomy (blockOf config.split.syncTasksIds (t + 1)) k with hbefore | heq | hbehind
    · have hge := (not_congr (getD_lt_iff h.split.sorted (t := t + 1) (i := k - 1) (by omega))).mpr (by omega)
      rw [if_neg (by omega)] at hrange
      omega
    · exact heq
    · have hend := (getD_lt_iff h.split.sorted (t := t + 1) (i := k) (by omega)).mpr hbehind
      rw [if_neg (show ¬ k = config.split.getControlGraphBlockCount - 1 by omega)] at hrange
      have hsync : hi ∈ config.split.syncTasksIds := hrange.2 ▸ sync_mem (by omega)
      have heq : t = hi := by omega
      exact absurd ⟨heq, heq ▸ hsync⟩ hskip
  apply inRange_block h.split hcLt
  rw [hconsumers c hc, ← hproducers t hp, hblock]
  exact hk

end

end NpuCompiler.Barrier
