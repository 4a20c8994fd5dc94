import NpuCompiler.Barrier.ControlMapRows

namespace NpuCompiler.Barrier

open BarrierInfo GraphSplit FifoBarrierInfo Sweeps List

structure BarrierWlmHandler where
  barrierInfo : FifoBarrierInfo
  blockIdxOfTaskControlMap : ℕ
  taskControlMapAndOffset : TaskControlMap × ℕ

namespace BarrierWlmHandler

section
variable (config : OptimizeConfig)

def rebuild (barrierInfo : FifoBarrierInfo) (blockIdx : ℕ) : Except String BarrierWlmHandler :=
  (barrierInfo.buildTaskControlMap config blockIdx true false).bind (fun (taskControlMapAndOffset, barrierInfo) =>
    .ok ⟨barrierInfo, blockIdx, taskControlMapAndOffset⟩)

def create (maps : BarrierInfo) : Except String BarrierWlmHandler := rebuild config (ofMaps maps) 0

def isPath (handler : BarrierWlmHandler) (prevBarConsumer prevBarConsumerBlock barProducer : ℕ) :
    Except String (Bool × BarrierWlmHandler) :=
  (config.split.getControlGraphBlockIndex barProducer).bind (fun barProducerBlock =>
    if barProducerBlock ≠ prevBarConsumerBlock then
      -- tasks of different blocks are guaranteed to have a path through a sync task
      .ok (true, handler)
    else
      (if barProducerBlock ≠ handler.blockIdxOfTaskControlMap then rebuild config handler.barrierInfo barProducerBlock
        else .ok handler).bind (fun handler =>
          let (taskControlMap, taskControlMapOffset) := handler.taskControlMapAndOffset
          (controlPathExistsBetweenTasksInSameBlock taskControlMap (prevBarConsumer - taskControlMapOffset)
            (barProducer - taskControlMapOffset) true).bind (fun isPath => .ok (isPath, handler))))

def producersReached (prevBarConsumer prevBarConsumerBlock : ℕ) :
    List ℕ → BarrierWlmHandler → Except String (Bool × BarrierWlmHandler)
  | [], handler => .ok (true, handler)
  | barProducer :: barProducers, handler =>
    (isPath config handler prevBarConsumer prevBarConsumerBlock barProducer).bind (fun (isPath, handler) =>
      if isPath then producersReached prevBarConsumer prevBarConsumerBlock barProducers handler else .ok (false, handler))

def consumersReach (barProducers : List ℕ) : List ℕ → BarrierWlmHandler → Except String (Bool × BarrierWlmHandler)
  | [], handler => .ok (true, handler)
  | prevBarConsumer :: prevBarConsumers, handler =>
    (config.split.getControlGraphBlockIndex prevBarConsumer).bind (fun prevBarConsumerBlock =>
      (producersReached config prevBarConsumer prevBarConsumerBlock barProducers handler).bind (fun (isPath, handler) =>
        if isPath then consumersReach barProducers prevBarConsumers handler else .ok (false, handler)))

def canBarrierReusePidFromBarrier (handler : BarrierWlmHandler) (vid prevVid : ℕ) :
    Except String (Bool × BarrierWlmHandler) :=
  consumersReach config (handler.barrierInfo.maps.getBarrierProducers vid).toList
    (handler.barrierInfo.maps.getBarrierConsumers prevVid).toList handler

end

/-- The handlers of the calls made one after the other. -/
inductive Reached (config : OptimizeConfig) (maps : BarrierInfo) : BarrierWlmHandler → Prop
  | create {handler : BarrierWlmHandler} (hcreate : create config maps = .ok handler) : Reached config maps handler
  | call {handler handler' : BarrierWlmHandler} {vid prevVid : ℕ} {result : Bool} (h : Reached config maps handler)
      (hcall : canBarrierReusePidFromBarrier config handler vid prevVid = .ok (result, handler')) : Reached config maps handler'

/-- The order of the sync tasks: all tasks before one end before it starts, and those behind it start after it. -/
def SyncOrder (split : GraphSplit) (p c : ℕ) : Prop := p < c ∧ (p ∈ split.syncTasksIds ∨ c ∈ split.syncTasksIds)

def Before (config : OptimizeConfig) (maps : BarrierInfo) : ℕ → ℕ → Prop :=
  maps.OrderedBy (fun p c => QueueEdge config p c ∨ SyncOrder config.split p c)

/-- Two tasks of one block that are the same, or one of which the control map of the block reaches from the other. -/
def Connected (config : OptimizeConfig) (maps : BarrierInfo) (k lo hi x y : ℕ) : Prop :=
  x = y ∨ Found (SeenEdge config maps k lo hi true) (SeenOnward config maps k lo hi true) x y ∨
    Found (SeenEdge config maps k lo hi true) (SeenOnward config maps k lo hi true) y x

end BarrierWlmHandler

namespace BarrierWlmHandler

section
variable {config : OptimizeConfig} {maps maps' : BarrierInfo} {k lo hi : ℕ}

/-- A graph that is split into blocks: no barrier leads out of a block other than from its sync task, and the barriers, the
queues and the sync tasks contradict each other nowhere. -/
structure BlockSplit (config : OptimizeConfig) (maps : BarrierInfo) : Prop where
  consistent : maps.Consistent
  split : config.split.WellFormed maps.getNumOfTasks
  pos : 0 < maps.getNumOfTasks
  queues : config.taskQueueTypes ≠ []
  closed : ∀ k lo hi, BlockRange config.split maps k lo hi → Closed config.split maps lo hi false
  acyclic : ∀ t, ¬ Before config maps t t

structure Cached (config : OptimizeConfig) (maps : BarrierInfo) (handler : BarrierWlmHandler) : Prop where
  graph : ∃ maps', handler.barrierInfo = ofMaps maps' ∧ maps'.Consistent ∧ SameMaps maps maps'
  controlMap : ∃ lo hi, BlockRange config.split maps handler.blockIdxOfTaskControlMap lo hi ∧
    handler.taskControlMapAndOffset.2 = lo ∧ handler.taskControlMapAndOffset.1.length = hi - lo + 1 ∧
    RowBit lo hi handler.taskControlMapAndOffset.1 =
      Found (SeenEdge config maps handler.blockIdxOfTaskControlMap lo hi true)
        (SeenOnward config maps handler.blockIdxOfTaskControlMap lo hi true)

theorem rebuild_cached (h : BlockSplit config maps) (hmaps : maps'.Consistent) (hsame : SameMaps maps maps')
    (hk : BlockRange config.split maps k lo hi) :
    ∃ handler, rebuild config (ofMaps maps') k = .ok handler ∧ handler.blockIdxOfTaskControlMap = k ∧
      Cached config maps handler := by
  have hk' := (hsame.blockRange).mpr hk
  have hclosed : Closed config.split maps' lo hi false := by
    unfold Closed
    rw [hsame.edge]
    exact h.closed k lo hi hk
  obtain ⟨m, maps'', hbuild, hmaps'', hsame', hlength, hbits⟩ := buildTaskControlMap_rows hmaps (hsame.tasks.symm ▸ h.split)
    (hsame.tasks.symm ▸ h.pos) h.queues hk' hclosed
  refine ⟨⟨ofMaps maps'', k, (m, lo)⟩, ?_, rfl, ⟨maps'', rfl, hmaps'', hsame.trans hsame'⟩, lo, hi, hk, rfl, hlength, ?_⟩
  · unfold rebuild
    rw [hbuild]
    rfl
  · unfold SeenOnward at hbits ⊢
    rw [hsame.seenEdge] at hbits
    exact hbits

variable {handler : BarrierWlmHandler} {x y : ℕ}

def Accepted (config : OptimizeConfig) (maps : BarrierInfo) (x y : ℕ) : Prop :=
  blockOf config.split.syncTasksIds y = blockOf config.split.syncTasksIds x →
    ∃ lo hi, BlockRange config.split maps (blockOf config.split.syncTasksIds x) lo hi ∧
      Connected config maps (blockOf config.split.syncTasksIds x) lo hi x y

theorem controlPathExists_spec {k lo hi : ℕ} {m : TaskControlMap} (hlength : m.length = hi - lo + 1)
    (hbits : RowBit lo hi m = Found (SeenEdge config maps k lo hi true) (SeenOnward config maps k lo hi true))
    (hx : inRange lo hi x = true) (hy : inRange lo hi y = true) :
    ∃ result, controlPathExistsBetweenTasksInSameBlock m (x - lo) (y - lo) true = .ok result ∧
      (result = true ↔ Connected config maps k lo hi x y) := by
  obtain ⟨hlox, hxhi⟩ := inRange_iff.mp hx
  obtain ⟨hloy, hyhi⟩ := inRange_iff.mp hy
  have hbit (i j : ℕ) (hin : inRange lo hi i = true) (hjn : inRange lo hi j = true) :
      (m.getD (i - lo) []).getD (j - lo) false = true ↔
        Found (SeenEdge config maps k lo hi true) (SeenOnward config maps k lo hi true) i j := by
    rw [← hbits]
    exact ⟨fun hset => ⟨hin, hjn, hset⟩, fun hset => hset.2.2⟩
  unfold controlPathExistsBetweenTasksInSameBlock Connected
  rw [if_neg (fun hnil => by simp [hnil] at hlength), if_neg (by omega), if_neg (by omega)]
  by_cases heq : x = y
  · rw [if_pos (by rw [heq])]
    exact ⟨true, rfl, fun _ => .inl heq, fun _ => rfl⟩
  · rw [if_neg (by omega), if_pos rfl]
    refine ⟨_, rfl, ?_⟩
    rw [Bool.or_eq_true, hbit x y hx hy, hbit y x hy hx]
    exact ⟨.inr, fun hconnected => hconnected.resolve_left heq⟩

section
variable (h : BlockSplit config maps)
include h

theorem isPath_spec (hcached : Cached config maps handler) (hx : x < maps.getNumOfTasks)
    (hy : y < maps.getNumOfTasks) :
    ∃ result handler', isPath config handler x (blockOf config.split.syncTasksIds x) y = .ok (result, handler') ∧
      Cached config maps handler' ∧ (result = true ↔ Accepted config maps x y) := by
  unfold isPath
  rw [blockIndex_eq h.split hy]
  dsimp only [Except.bind]
  by_cases hblock : blockOf config.split.syncTasksIds y = blockOf config.split.syncTasksIds x
  · -- the cached map is that of the block, which is built again when it is that of another one
    have hmap : ∃ handler', (if blockOf config.split.syncTasksIds y ≠ handler.blockIdxOfTaskControlMap then
          rebuild config handler.barrierInfo (blockOf config.split.syncTasksIds y) else .ok handler) = .ok handler' ∧
        handler'.blockIdxOfTaskControlMap = blockOf config.split.syncTasksIds y ∧ Cached config maps handler' := by
      by_cases hother : blockOf config.split.syncTasksIds y = handler.blockIdxOfTaskControlMap
      · rw [if_neg (not_not.mpr hother)]
        exact ⟨handler, rfl, hother.symm, hcached⟩
      · rw [if_pos hother]
        obtain ⟨maps', hinfo, hmaps', hsame⟩ := hcached.graph
        obtain ⟨lo, hi, hk⟩ := exists_blockRange h.split (k := blockOf config.split.syncTasksIds y)
          (Nat.lt_succ_of_le countP_le_length)
        rw [hinfo]
        exact rebuild_cached h hmaps' hsame hk
    obtain ⟨handler', hhandler', hblock', hcached'⟩ := hmap
    obtain ⟨lo, hi, hk, hoffset, hlength, hbits⟩ := hcached'.controlMap
    rw [hblock'] at hk hbits
    have hyIn := inRange_block h.split hy hk
    have hxIn := inRange_block h.split hx (hblock ▸ hk)
    obtain ⟨result, hresult, hiff⟩ := controlPathExists_spec hlength hbits hxIn hyIn
    refine ⟨result, handler', ?_, hcached', ?_⟩
    · rw [if_neg (not_not.mpr hblock), hhandler']
      change Except.bind (controlPathExistsBetweenTasksInSameBlock handler'.taskControlMapAndOffset.1
        (x - handler'.taskControlMapAndOffset.2) (y - handler'.taskControlMapAndOffset.2) true) _ = _
      rw [hoffset, hresult]
      rfl
    · rw [hiff, hblock]
      rw [hblock] at hk
      constructor
      · exact fun hconnected _ => ⟨lo, hi, hk, hconnected⟩
      · intro haccepted
        obtain ⟨lo', hi', hk', hconnected⟩ := haccepted hblock
        obtain ⟨rfl, rfl⟩ := BlockRange.unique hk hk'
        exact hconnected
  · rw [if_pos hblock]
    exact ⟨true, handler, rfl, hcached, fun _ heq => absurd heq hblock, fun _ => rfl⟩

theorem producersReached_spec (hx : x < maps.getNumOfTasks) (hcached : Cached config maps handler)
    {barProducers : List ℕ} (hlt : ∀ y ∈ barProducers, y < maps.getNumOfTasks) :
    ∃ result handler', producersReached config x (blockOf config.split.syncTasksIds x) barProducers handler =
        .ok (result, handler') ∧ Cached config maps handler' ∧ (result = true ↔ ∀ y ∈ barProducers, Accepted config maps x y) := by
  induction barProducers generalizing handler with
  | nil => exact ⟨true, handler, rfl, hcached, fun _ y hy => absurd hy not_mem_nil, fun _ => rfl⟩
  | cons y barProducers ih =>
    obtain ⟨hy, hlt⟩ := forall_mem_cons.mp hlt
    obtain ⟨reached, handler₁, hpath, hcached₁, hreached⟩ := isPath_spec h hcached hx hy
    unfold producersReached
    rw [hpath]
    dsimp only [Except.bind]
    cases reached with
    | true =>
      obtain ⟨result, handler', hrun, hcached', hiff⟩ := ih hcached₁ hlt
      refine ⟨result, handler', ?_, hcached', ?_⟩
      · rw [if_pos rfl]
        exact hrun
      · rw [hiff, forall_mem_cons]
        exact (and_iff_right (hreached.mp rfl)).symm
    | false =>
      rw [if_neg Bool.false_ne_true]
      refine ⟨false, handler₁, rfl, hcached₁, fun hfalse => absurd hfalse Bool.false_ne_true, ?_⟩
      exact fun hall => hreached.mpr (hall y mem_cons_self)

theorem consumersReach_spec {barProducers : List ℕ} (hlt : ∀ y ∈ barProducers, y < maps.getNumOfTasks)
    (hcached : Cached config maps handler) {prevBarConsumers : List ℕ} (hlt' : ∀ x ∈ prevBarConsumers, x < maps.getNumOfTasks) :
    ∃ result handler', consumersReach config barProducers prevBarConsumers handler = .ok (result, handler') ∧
      Cached config maps handler' ∧
      (result = true ↔ ∀ x ∈ prevBarConsumers, ∀ y ∈ barProducers, Accepted config maps x y) := by
  induction prevBarConsumers generalizing handler with
  | nil => exact ⟨true, handler, rfl, hcached, fun _ x hx => absurd hx not_mem_nil, fun _ => rfl⟩
  | cons x prevBarConsumers ih =>
    obtain ⟨hx, hlt'⟩ := forall_mem_cons.mp hlt'
    obtain ⟨reached, handler₁, hpath, hcached₁, hreached⟩ := producersReached_spec h hx hcached hlt
    unfold consumersReach
    rw [blockIndex_eq h.split hx]
    dsimp only [Except.bind]
    rw [hpath]
    dsimp only
    cases reached with
    | true =>
      obtain ⟨result, handler', hrun, hcached', hiff⟩ := ih hcached₁ hlt'
      refine ⟨result, handler', ?_, hcached', ?_⟩
      · rw [if_pos rfl]
        exact hrun
      · rw [hiff, forall_mem_cons]
        exact (and_iff_right (hreached.mp rfl)).symm
    | false =>
      rw [if_neg Bool.false_ne_true]
      refine ⟨false, handler₁, rfl, hcached₁, fun hfalse => absurd hfalse Bool.false_ne_true, ?_⟩
      exact fun hall => hreached.mpr (hall x mem_cons_self)

theorem canBarrierReusePidFromBarrier_spec (hcached : Cached config maps handler) (vid prevVid : ℕ) :
    ∃ result handler', canBarrierReusePidFromBarrier config handler vid prevVid = .ok (result, handler') ∧
      Cached config maps handler' ∧ (result = true ↔ ∀ x ∈ maps.getBarrierConsumers prevVid,
        ∀ y ∈ maps.getBarrierProducers vid, Accepted config maps x y) := by
  obtain ⟨maps', hinfo, -, hsame⟩ := hcached.graph
  have hlt (y : ℕ) (hy : y ∈ maps'.getBarrierProducers vid) : y < maps.getNumOfTasks :=
    (h.consistent.producer_lt ((hsame.producers vid y).mp hy)).2
  have hlt' (x : ℕ) (hx : x ∈ maps'.getBarrierConsumers prevVid) : x < maps.getNumOfTasks :=
    (h.consistent.consumer_lt ((hsame.consumers prevVid x).mp hx)).2
  obtain ⟨result, handler', hrun, hcached', hiff⟩ := consumersReach_spec h hlt hcached hlt'
  refine ⟨result, handler', ?_, hcached', ?_⟩
  · unfold canBarrierReusePidFromBarrier
    rw [hinfo]
    exact hrun
  · rw [hiff]
    constructor
    · exact fun hall x hx y hy => hall x ((hsame.consumers prevVid x).mpr hx) y ((hsame.producers vid y).mpr hy)
    · exact fun hall x hx y hy => hall x ((hsame.consumers prevVid x).mp hx) y ((hsame.producers vid y).mp hy)

theorem Reached.cached (hreached : Reached config maps handler) : Cached config maps handler := by
  induction hreached with
  | create hcreate =>
    obtain ⟨lo, hi, hk⟩ := exists_blockRange h.split (k := 0) (Nat.succ_pos _)
    obtain ⟨handler, hrebuild, -, hcached⟩ := rebuild_cached h h.consistent (SameMaps.refl maps) hk
    cases hrebuild.symm.trans hcreate
    exact hcached
  | call _ hcall ih =>
    obtain ⟨result, handler', hrun, hcached, -⟩ := canBarrierReusePidFromBarrier_spec h ih _ _
    cases hrun.symm.trans hcall
    exact hcached

end

theorem before_of_found {k lo hi : ℕ}
    (h : Found (SeenEdge config maps k lo hi true) (SeenOnward config maps k lo hi true) x y) : Before config maps x y := by
  have hpath := h.transGen (fun _ _ honward => honward.1)
  apply Relation.TransGen.mono _ x y (Relation.TransGen.closed (fun _ _ hseen => SeenEdge.reachable hseen) x y hpath)
  rintro p c ⟨-, -, hedge | ⟨-, hqueue⟩⟩
  · exact .inl hedge
  · exact .inr (.inl hqueue)

theorem before_of_block (h : blockOf config.split.syncTasksIds x < blockOf config.split.syncTasksIds y) : Before config maps x y := by
  obtain ⟨t, ht, hxt, hty⟩ := before_of_blockOf_lt h
  have hout : Before config maps t y := .single (.inr (.inr ⟨hty, .inl ht⟩))
  cases Nat.eq_or_lt_of_le hxt with
  | inl heq => exact heq ▸ hout
  | inr hlt => exact .head (.inr (.inr ⟨hlt, .inr ht⟩)) hout

theorem Accepted.before (h : Accepted config maps x y) : x = y ∨ Before config maps x y ∨ Before config maps y x := by
  rcases Nat.lt_trichotomy (blockOf config.split.syncTasksIds x) (blockOf config.split.syncTasksIds y) with hlt | heq | hgt
  · exact .inr (.inl (before_of_block hlt))
  · obtain ⟨lo, hi, -, heq | hfound | hfound⟩ := h heq.symm
    · exact .inl heq
    · exact .inr (.inl (before_of_found hfound))
    · exact .inr (.inr (before_of_found hfound))
  · exact .inr (.inr (before_of_block hgt))

/-- In every state of the handler the check is sound if and only if two tasks of one block are unconnected, or no producer
of the barrier comes before a consumer of the previous one. -/
theorem canBarrierReusePidFromBarrier_sound_iff (h : BlockSplit config maps) (hreached : Reached config maps handler)
    (vid prevVid : ℕ) :
    ∃ result handler', canBarrierReusePidFromBarrier config handler vid prevVid = .ok (result, handler') ∧
      ((result = true → ∀ x ∈ maps.getBarrierConsumers prevVid, ∀ y ∈ maps.getBarrierProducers vid,
          x = y ∨ Before config maps x y) ↔
        (∃ x ∈ maps.getBarrierConsumers prevVid, ∃ y ∈ maps.getBarrierProducers vid, ¬ Accepted config maps x y) ∨
          ∀ x ∈ maps.getBarrierConsumers prevVid, ∀ y ∈ maps.getBarrierProducers vid, ¬ Before config maps y x) := by
  obtain ⟨result, handler', hrun, -, hiff⟩ := canBarrierReusePidFromBarrier_spec h (hreached.cached h) vid prevVid
  refine ⟨result, handler', hrun, ?_, ?_⟩
  · intro hsound
    by_cases hresult : result = true
    · right
      intro x hx y hy hback
      cases hsound hresult x hx y hy with
      | inl heq => exact h.acyclic x (heq ▸ hback)
      | inr hbefore => exact h.acyclic x (hbefore.trans hback)
    · left
      rw [hiff] at hresult
      push Not at hresult
      exact hresult
  · rintro (⟨x, hx, y, hy, hrejected⟩ | hforward) hresult x' hx' y' hy'
    · exact absurd (hiff.mp hresult x hx y hy) hrejected
    · rcases (hiff.mp hresult x' hx' y' hy').before with heq | hbefore | hback
      · exact .inl heq
      · exact .inr hbefore
      · exact absurd hback (hforward x' hx' y' hy')

def fourInARow : BarrierInfo :=
  chained BarrierInfo.empty.addNewTaskOp.addNewTaskOp.addNewTaskOp.addNewTaskOp [(0, 1), (1, 2), (2, 3)]

theorem fourInARow_consistent : fourInARow.Consistent :=
  (consistent_chained BarrierInfo.consistent_empty.addNewTaskOp.addNewTaskOp.addNewTaskOp.addNewTaskOp (by decide)).1

theorem fourInARow_lt {p c : ℕ} (h : Before zigzagConfig fourInARow p c) : p < c := by
  have hedges : ∀ p c, fourInARow.Edge p c → p < c := BarrierInfo.forall_edges (by decide)
  have hstep (p c : ℕ) (hpc : fourInARow.Edge p c ∨ QueueEdge zigzagConfig p c ∨ SyncOrder zigzagConfig.split p c) : p < c := by
    rcases hpc with hedge | hqueue | hsync
    · exact hedges p c hedge
    · exact hqueue.1
    · exact hsync.1
  induction h with
  | single hpc => exact hstep _ _ hpc
  | tail _ hpc ih => exact Nat.lt_trans ih (hstep _ _ hpc)

theorem fourInARow_blockSplit : BlockSplit zigzagConfig fourInARow := by
  refine ⟨fourInARow_consistent, ⟨by decide, by decide, by decide, by decide⟩, by decide, by decide, ?_, ?_⟩
  · intro k lo hi hk
    right
    intro t c _ _ hedge
    have hlo : lo = 0 := hk.first.resolve_right not_mem_nil
    have hhi : hi = 3 := hk.last.resolve_right not_mem_nil
    rw [hlo, hhi]
    exact (BarrierInfo.forall_edges (P := fun _ c => inRange 0 3 c = true) (by decide)) t c hedge
  · exact fun t hcycle => Nat.lt_irrefl t (fourInARow_lt hcycle)

theorem fourInARow_call {vid prevVid : ℕ} {result : Bool} (hresult : (create zigzagConfig fourInARow).toOption.bind (fun handler =>
      (canBarrierReusePidFromBarrier zigzagConfig handler vid prevVid).toOption.map Prod.fst) = some result) :
    ∃ handler, create zigzagConfig fourInARow = .ok handler ∧
      ∃ handler', canBarrierReusePidFromBarrier zigzagConfig handler vid prevVid = .ok (result, handler') := by
  obtain ⟨lo, hi, hk⟩ := exists_blockRange fourInARow_blockSplit.split (k := 0) (Nat.succ_pos _)
  obtain ⟨handler, hcreate, -, hcached⟩ := rebuild_cached fourInARow_blockSplit fourInARow_consistent
    (SameMaps.refl fourInARow) hk
  obtain ⟨result', handler', hrun, -⟩ := canBarrierReusePidFromBarrier_spec fourInARow_blockSplit hcached vid prevVid
  change (rebuild zigzagConfig (ofMaps fourInARow) 0).toOption.bind _ = _ at hresult
  rw [hcreate] at hresult
  change (canBarrierReusePidFromBarrier zigzagConfig handler vid prevVid).toOption.map Prod.fst = some result at hresult
  rw [hrun] at hresult
  obtain rfl : result' = result := Option.some.inj hresult
  exact ⟨handler, hcreate, handler', hrun⟩

/-- The first barrier may reuse the second one's. -/
theorem canBarrierReusePidFromBarrier_accepts_back :
    ¬ ∀ (config : OptimizeConfig) (maps : BarrierInfo) (handler handler' : BarrierWlmHandler) (vid prevVid : ℕ),
      BlockSplit config maps → Reached config maps handler →
        canBarrierReusePidFromBarrier config handler vid prevVid = .ok (true, handler') →
          ∀ x ∈ maps.getBarrierConsumers prevVid, ∀ y ∈ maps.getBarrierProducers vid, x = y ∨ Before config maps x y := by
  intro hclaim
  obtain ⟨handler, hcreate, handler', hrun⟩ := @fourInARow_call 0 1 true (by decide)
  cases hclaim zigzagConfig fourInARow handler handler' 0 1 fourInARow_blockSplit (.create hcreate) hrun 2 (by decide) 0 (by decide) with
  | inl heq => cases heq
  | inr hbefore => exact absurd (fourInARow_lt hbefore) (by decide)

/-- The third barrier may reuse the first one's, and no producer of the third comes before a consumer of the first. -/
theorem canBarrierReusePidFromBarrier_sound_iff_fourInARow : ∃ handler, create zigzagConfig fourInARow = .ok handler ∧
    ∃ handler', canBarrierReusePidFromBarrier zigzagConfig handler 2 0 = .ok (true, handler') ∧
      ∀ x ∈ fourInARow.getBarrierConsumers 0, ∀ y ∈ fourInARow.getBarrierProducers 2, x = y ∨ Before zigzagConfig fourInARow x y := by
  obtain ⟨handler, hcreate, handler', hcall⟩ := @fourInARow_call 2 0 true (by decide)
  obtain ⟨result, handler'', hrun, hiff⟩ := canBarrierReusePidFromBarrier_sound_iff fourInARow_blockSplit (.create hcreate) 2 0
  obtain ⟨rfl, rfl⟩ := Prod.mk.inj (Except.ok.inj (hcall.symm.trans hrun))
  have hlt : ∀ y ∈ (fourInARow.getBarrierProducers 2).toList, ∀ x ∈ (fourInARow.getBarrierConsumers 0).toList, x ≤ y := by decide
  exact ⟨handler, hcreate, handler', hcall,
    hiff.mpr (.inr (fun x hx y hy hback => Nat.lt_irrefl y (Nat.lt_of_lt_of_le (fourInARow_lt hback) (hlt y hy x hx)))) rfl⟩

end

end BarrierWlmHandler

end NpuCompiler.Barrier
