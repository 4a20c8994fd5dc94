import NpuCompiler.Library.FoldRules
import NpuCompiler.Schedule.SchedulingSteps

namespace NpuCompiler.Schedule.FeasibleMemoryScheduler

open List

variable {f : FeasibleMemoryScheduler} {entry : Ledger} {done pending : Set ℕ}

section
variable {producer : ℕ → Option ℕ} {scan : BufferScan} {s : SchedulerState}

def IsChosen (buffers : List ℕ) (producer : ℕ → Option ℕ) (s : SchedulerState) (c : EvictionCandidate) : Prop :=
  c.buffer_ ∈ buffers ∧ producer c.buffer_ = some c.bufferWriterIdx_ ∧ ∀ e ∈ s.cycleEndHeap, e.op_ ≠ c.bufferWriterIdx_

theorem considerForEviction_chosen {buffers : List ℕ} {candidate candidate' : Option EvictionCandidate} {buffer : ℕ}
    (hrun : f.considerForEviction producer scan s candidate buffer = .ok candidate') (hb : buffer ∈ buffers)
    (h : ∀ c, candidate = some c → IsChosen buffers producer s c) :
    ∀ c, candidate' = some c → IsChosen buffers producer s c := by
  unfold considerForEviction at hrun
  cases hproducer : producer buffer with
  | none =>
    rw [hproducer] at hrun
    cases hrun
  | some executeOpIdx =>
    rw [hproducer] at hrun
    dsimp only at hrun
    split_ifs at hrun with hinUse hsmaller
    · exact Except.ok.inj hrun ▸ h
    · exact Except.ok.inj hrun ▸ h
    · obtain ⟨ordered, -, hrun⟩ := bind_eq_ok.mp hrun
      split_ifs at hrun with hfits
      · obtain ⟨outputIdx, -, hrun⟩ := bind_eq_ok.mp hrun
        cases hrun
        intro c hc
        cases hc
        refine ⟨hb, hproducer, ?_⟩
        intro e he heq
        exact hinUse (any_eq_true.mpr ⟨e, he, by simpa using heq⟩)
      · exact Except.ok.inj hrun ▸ h

theorem considerAll_chosen {buffers rest : List ℕ} (hsub : ∀ b ∈ rest, b ∈ buffers)
    {candidate candidate' : Option EvictionCandidate}
    (hrun : rest.foldlM (f.considerForEviction producer scan s) candidate = .ok candidate')
    (h : ∀ c, candidate = some c → IsChosen buffers producer s c) :
    ∀ c, candidate' = some c → IsChosen buffers producer s c := by
  induction rest generalizing candidate with
  | nil => exact Except.ok.inj hrun ▸ h
  | cons buffer rest ih =>
    rw [foldlM_cons] at hrun
    obtain ⟨candidate₁, hstep, hrest⟩ := bind_eq_ok.mp hrun
    exact ih (fun b hb => hsub b (mem_cons_of_mem _ hb)) hrest
      (considerForEviction_chosen hstep (hsub buffer mem_cons_self) h)

theorem mem_sortUsedBuffers {buffers sorted : List ℕ} (h : sortUsedBuffers f buffers = .ok sorted) {b : ℕ} :
    b ∈ sorted ↔ b ∈ buffers := by
  unfold sortUsedBuffers at h
  split_ifs at h
  cases h
  exact (perm_insertionSort _ _).mem_iff

theorem chooseCandidate_chosen {aliveBuffers : List ℕ} {candidate : EvictionCandidate}
    (hrun : f.chooseCandidateForEvictionToSupportPrefetch aliveBuffers producer scan s = .ok (some candidate)) :
    IsChosen aliveBuffers producer s candidate := by
  unfold chooseCandidateForEvictionToSupportPrefetch at hrun
  obtain ⟨sorted, hsorted, hrun⟩ := bind_eq_ok.mp hrun
  apply considerAll_chosen (fun b hb => ?_) hrun (fun _ h => by cases h) candidate rfl
  exact (mem_sortUsedBuffers hsorted).mp (mem_reverse.mp hb)

theorem ensures_findSpillCandidate (snap : ScheduleStateSnapshot) :
    Ensures (IsUnderway f entry done pending) (f.findSpillCandidate snap)
      (fun found s => IsUnderway f entry done pending s ∧ (found = true → ∃ candidate,
        s.evictionCandidateToSupportPrefetch = some candidate ∧
          IsChosen snap.scan.handler.aliveValues entry.bufferProducer s candidate)) := by
  apply ensures_bind (R := fun found s => IsUnderway f entry done pending s ∧ (found.1 = true → ∃ candidate,
    found.2 = some candidate ∧ IsChosen snap.scan.handler.aliveValues entry.bufferProducer s candidate))
  · apply ensures_readState
    intro s hs found hrun
    refine ⟨hs, fun hfound => ?_⟩
    unfold spillCandidateToSupportPrefetch at hrun
    dsimp only at hrun
    split_ifs at hrun
    · cases hrun
      cases hfound
    · obtain ⟨candidate, hchoose, hrun⟩ := bind_eq_ok.mp hrun
      cases hrun
      obtain ⟨c, rfl⟩ := Option.isSome_iff_exists.mp hfound
      refine ⟨c, rfl, ?_⟩
      have hundo : s.bufferProducerDeltas.undo s.bufferProducer = entry.bufferProducer := hs.tracked.producers.undo_eq
      rw [hundo] at hchoose
      exact chooseCandidate_chosen hchoose
  · intro found
    apply ensures_bind (R := fun _ s => IsUnderway f entry done pending s ∧ (found.1 = true → ∃ candidate,
      s.evictionCandidateToSupportPrefetch = some candidate ∧
        IsChosen snap.scan.handler.aliveValues entry.bufferProducer s candidate))
    · exact ensures_modify (fun _ hs => hs)
    · exact fun _ => ensures_pure (fun _ hs => hs)

theorem ensures_selectOp (selection : Selection) (op : ℕ × QueueType) : Ensures (IsUnderway f entry done pending)
    (f.selectOp selection op) (fun _ => IsUnderway f entry done pending) := by
  apply ensures_bind (ensures_read _)
  intro opBuffers
  apply ensures_bind (ensures_canAllocBuffers _)
  intro fits
  apply ensures_ite <;> exact fun _ => ensures_pure (fun _ hs => hs)

theorem ensures_selectOps (nextOps : List (ℕ × QueueType)) : Ensures (IsUnderway f entry done pending)
    (f.selectOps nextOps) (fun _ => IsUnderway f entry done pending) := by
  have hfold (ops : List (ℕ × QueueType)) (selection : Selection) : Ensures (IsUnderway f entry done pending)
      (ops.foldlM f.selectOp selection) (fun _ => IsUnderway f entry done pending) :=
    ensures_foldlM (J := fun _ => IsUnderway f entry done pending) (fun op _ s => ensures_selectOp s op) selection
  apply ensures_bind (hfold _ _)
  intro selection
  apply ensures_ite
  · exact fun _ => hfold _ _
  · exact fun _ => ensures_pure (fun _ hs => hs)

theorem ensures_scheduleSelected (scheduledOps : List (ℕ × ℕ)) (op : ℕ × QueueType) :
    Ensures (IsUnderway f entry done pending) (f.scheduleSelected scheduledOps op)
      (fun _ => IsUnderway f entry done pending) := by
  apply ensures_bind (ensures_scheduleOp (Or.inl rfl))
  intro opCycleEnd
  apply ensures_bind (ensures_unrecorded (fun _ => by rfl))
  exact fun _ => ensures_pure (fun _ hs => Underway.mono hs (Set.subset_insert _ _) (subset_refl _))

structure RestoredTo (s s' : SchedulerState) : Prop where
  readyComputeOps : s'.readyComputeOps = s.readyComputeOps
  readyDMAOps : s'.readyDMAOps = s.readyDMAOps
  readyDataOps : s'.readyDataOps = s.readyDataOps
  readySpilledOps : s'.readySpilledOps = s.readySpilledOps
  scan : s'.scan = s.scan
  executorPipelines : s'.executorPipelines = s.executorPipelines
  cycleBeginHeap : s'.cycleBeginHeap = s.cycleBeginHeap
  cycleEndHeap : s'.cycleEndHeap = s.cycleEndHeap
  spillBufferMap : s'.spillBufferMap = s.spillBufferMap
  bufferProducer : s'.bufferProducer = s.bufferProducer
  bufferLastCycleUse : s'.bufferLastCycleUse = s.bufferLastCycleUse
  opIdxEndCycleMap : s'.opIdxEndCycleMap = s.opIdxEndCycleMap
  computeOpOrder : s'.computeOpOrder = s.computeOpOrder
  inDegreeTable : s'.inDegreeTable = s.inDegreeTable
  getUsedBuffers : s'.getUsedBuffers = s.getUsedBuffers
  scheduledLoopRegionInd : s'.scheduledLoopRegionInd = s.scheduledLoopRegionInd

structure Evictable (s : SchedulerState) (candidate : EvictionCandidate) : Prop where
  alive : s.scan.handler.isAlive candidate.buffer_
  produced : s.bufferProducer candidate.buffer_ = some candidate.bufferWriterIdx_
  scheduled : s.opIdxEndCycleMap candidate.bufferWriterIdx_ ≠ none
  ended : ∀ e ∈ s.cycleEndHeap, e.op_ ≠ candidate.bufferWriterIdx_

variable {s s' : SchedulerState}

theorem underway_of_consistent (h : Consistent f s) :
    IsUnderway f s.ledger ∅ ∅ (resetScheduleComputeOpsDeltas s) := by
  refine ⟨⟨rfl, rfl, rfl, rfl, rfl, rfl⟩, ⟨UndoLog.tracks_empty, UndoLog.tracks_empty, UndoLog.tracks_empty⟩, ?_, ?_, ?_⟩
  · exact ⟨h.1.1, h.1.2, h.1.3, h.1.4, h.1.5, h.1.6⟩
  · exact fun _ ho => absurd ho (Set.notMem_empty _)
  · exact fun b hb => Or.inl (h.alive_produced b hb)

theorem restored_of_underway (h : IsUnderway f s.ledger done pending s') :
    RestoredTo s (restoreStateBeforeScheduling (.create s true) s') where
  readyComputeOps := rfl
  readyDMAOps := h.untouched.readyDMAOps
  readyDataOps := rfl
  readySpilledOps := rfl
  scan := rfl
  executorPipelines := rfl
  cycleBeginHeap := rfl
  cycleEndHeap := h.untouched.cycleEndHeap
  spillBufferMap := rfl
  bufferProducer := h.tracked.producers.undo_eq
  bufferLastCycleUse := h.tracked.lastUses.undo_eq
  opIdxEndCycleMap := h.tracked.ends.undo_eq
  computeOpOrder := h.untouched.computeOpOrder
  inDegreeTable := h.untouched.inDegreeTable
  getUsedBuffers := h.untouched.getUsedBuffers
  scheduledLoopRegionInd := h.untouched.scheduledLoopRegionInd

def FoundFor (f : FeasibleMemoryScheduler) (s : SchedulerState) (rollBack : Bool) (s' : SchedulerState) : Prop :=
  IsUnderway f s.ledger ∅ ∅ s' ∧ (rollBack = true → ∃ candidate, s'.evictionCandidateToSupportPrefetch = some candidate ∧
    IsChosen s.scan.handler.aliveValues s.bufferProducer s' candidate)

theorem ensures_prefetchForCompute (scheduledOps : List (ℕ × ℕ)) (buffersToAllocate : List ℕ) :
    Ensures (IsUnderway f s.ledger ∅ ∅) (f.prefetchForCompute (.create s true) scheduledOps buffersToAllocate)
      (fun answer => FoundFor f s answer.1) := by
  apply ensures_bind (ensures_prefetchOps _ _ _)
  intro buffers
  apply ensures_bind ensures_glance
  intro _
  apply ensures_ite
  · intro _
    apply ensures_bind (ensures_findSpillCandidate (.create s true))
    exact fun _ => ensures_pure (fun _ hs => hs)
  · intro _
    apply ensures_pure
    exact fun _ hs => ⟨hs, fun h => absurd h Bool.false_ne_true⟩

theorem rollBack_of_found (hbooks : Books f s.ledger) (h : FoundFor f s true s') :
    RestoredTo s (restoreStateBeforeScheduling (.create s true) s') ∧ ∃ candidate,
      (restoreStateBeforeScheduling (.create s true) s').evictionCandidateToSupportPrefetch = some candidate ∧
        Evictable (restoreStateBeforeScheduling (.create s true) s') candidate := by
  have hrestored := restored_of_underway h.1
  obtain ⟨candidate, hcandidate, halive, hproduced, hended⟩ := h.2 rfl
  refine ⟨hrestored, candidate, hcandidate, ?_, ?_, ?_, hended⟩
  · rw [hrestored.scan]
    exact decide_eq_true halive
  · rwa [hrestored.bufferProducer]
  · rw [hrestored.opIdxEndCycleMap]
    exact hbooks.producer_scheduled _ _ hproduced

/-- What a return before the DMA operations leaves behind. -/
def EarlyReturn (s : SchedulerState) : ComputeOpsReturn → SchedulerState → Prop
  | .loopsFirst, s' => s' = s
  | .rolledBack, s' => RestoredTo s s' ∧ ∃ candidate, s'.evictionCandidateToSupportPrefetch = some candidate ∧
      Evictable s' candidate
  | .scheduled, _ => True

theorem ensures_scheduleComputeOps (hactive : f.activelySpillForPrefetching = true) (h : Consistent f s) :
    Ensures (fun t => t = s) f.scheduleComputeOps (EarlyReturn s) := by
  apply ensures_bind (ensures_read _)
  intro readyLoopOps
  apply ensures_ite
  · exact fun _ => ensures_pure (fun _ hs => hs)
  intro _
  apply ensures_bind (ensures_read _)
  intro loopNext
  apply ensures_bind ensures_look
  intro s₀
  apply ensures_of_each
  rintro s₁ ⟨rfl, rfl⟩
  rw [hactive]
  apply ensures_bind (R := fun _ => IsUnderway f s₀.ledger ∅ ∅)
  · apply ensures_modify
    rintro s rfl
    exact underway_of_consistent h
  intro _
  apply ensures_bind (ensures_selectOps _)
  intro selection
  apply ensures_bind (R := fun _ => IsUnderway f s₀.ledger ∅ ∅)
  · exact ensures_foldlM (J := fun _ => IsUnderway f s₀.ledger ∅ ∅) (fun op _ ops => ensures_scheduleSelected ops op) _
  intro scheduledOps
  apply ensures_ite
  · intro _
    apply ensures_bind ensures_trivial
    exact fun _ => ensures_pure (fun _ _ => trivial)
  intro _
  apply ensures_bind (ensures_prefetchForCompute _ _)
  rintro ⟨rollBack, buffersToAllocate⟩
  apply ensures_ite
  · intro hrollBack
    apply ensures_bind (R := fun _ => FoundFor f s₀ true)
    · exact ensures_modify (fun _ hs => hrollBack ▸ hs)
    intro _
    apply ensures_bind (R := fun _ => EarlyReturn s₀ .rolledBack)
    · exact ensures_modify (fun _ hs => rollBack_of_found h.books hs)
    · exact fun _ => ensures_pure (fun _ hs => hs)
  · intro _
    apply ensures_bind ensures_trivial
    intro _
    apply ensures_bind ensures_trivial
    intro _
    apply ensures_bind ensures_trivial
    exact fun _ => ensures_pure (fun _ _ => trivial)

/-- When the scheduling of compute operations returns early with a candidate to evict, the state is the one before it. -/
theorem scheduleComputeOps_rolledBack (hactive : f.activelySpillForPrefetching = true) (h : Consistent f s)
    (hrun : f.scheduleComputeOps s = .ok .rolledBack s') :
    RestoredTo s s' ∧ ∃ candidate, s'.evictionCandidateToSupportPrefetch = some candidate ∧ Evictable s' candidate :=
  (ensures_scheduleComputeOps hactive h).post s rfl .rolledBack s' hrun

/-- Before anything is scheduled: the ready data operations depend on nothing. -/
theorem consistent_of_unscheduled (hends : ∀ opIdx, s.opIdxEndCycleMap opIdx = none)
    (hproducers : ∀ buffer, s.bufferProducer buffer = none) (hready : ∀ opIdx ∈ s.readyDataOps, f.getOpDeps opIdx = [])
    (hspilled : ∀ opIdx, s.spillBufferMap opIdx = none) (halive : s.scan.handler.aliveValues = [])
    (hused : ∀ opIdx, ∀ buffer ∈ s.getUsedBuffers opIdx, ∃ writer, Precedes f writer opIdx ∧
      buffer ∈ f.getOutputBuffers writer) : Consistent f s where
  books :=
    { deps_scheduled := fun opIdx ho => absurd (hends opIdx) ho
      outputs_produced := fun opIdx ho => absurd (hends opIdx) ho
      producer_scheduled := fun buffer opIdx hb => absurd ((hproducers buffer).symm.trans hb) (by simp)
      ready_deps := fun opIdx ho dep hdep => absurd (hready opIdx ho ▸ hdep) not_mem_nil
      spilled_scheduled := fun opIdx ho => absurd (hspilled opIdx) ho
      written := hused }
  alive_produced buffer hb := absurd (halive ▸ hb) not_mem_nil

/-- What is scheduled and prefetched on the way leaves a consistent state behind. -/
theorem consistent_of_underway (h : IsUnderway f entry done ∅ s) : Consistent f s :=
  ⟨h.books, fun buffer hb => (h.alive buffer hb).resolve_right (Set.notMem_empty buffer)⟩

theorem consistent_of_restoredTo (h : Consistent f s) (hr : RestoredTo s s') : Consistent f s' := by
  obtain ⟨⟨hdeps, houtputs, hproducer, hready, hspilled, hwritten⟩, halive⟩ := h
  constructor
  · constructor
    all_goals
      simp only [SchedulerState.ledger, Ledger.Scheduled, Ledger.Produced, hr.opIdxEndCycleMap, hr.bufferProducer,
        hr.readyDataOps, hr.spillBufferMap, hr.getUsedBuffers]
      assumption
  · simp only [SchedulerState.ledger, Ledger.Produced, hr.bufferProducer, hr.scan]
    exact halive

theorem consistent_of_earlyReturn (hactive : f.activelySpillForPrefetching = true) (h : Consistent f s) {answer : ComputeOpsReturn}
    (hrun : f.scheduleComputeOps s = .ok answer s') (hearly : answer ≠ .scheduled) : Consistent f s' := by
  have hpost := (ensures_scheduleComputeOps hactive h).post s rfl answer s' hrun
  cases answer with
  | loopsFirst => exact hpost ▸ h
  | rolledBack => exact consistent_of_restoredTo h hpost.1
  | scheduled => exact absurd rfl hearly

/-- A load that has run and one that is ready, a compute operation, and one that uses the results of all three. -/
def fragmented : FeasibleMemoryScheduler where
  opCount := 4
  getOpDeps := fun opIdx => if opIdx = 3 then [0, 1, 2] else []
  getConsumerOps := fun opIdx => if opIdx < 3 then [3] else []
  getOpDeps_lt := by
    intro opIdx dep hdep
    split_ifs at hdep with h
    · simp at hdep
      omega
    · simp at hdep
  getInputBuffers := fun opIdx => if opIdx = 3 then [0, 1, 2] else []
  getOutputBuffers := fun opIdx => [opIdx]
  executorQueue := fun opIdx => if opIdx < 2 then ⟨.dmaNN, 0⟩ else ⟨.dpu, 0⟩
  operationCycleCost := fun _ => 10
  movesIntoMemKind := fun opIdx => opIdx < 2
  isSWDequant := fun _ => false
  getSize := fun buffer => if buffer = 1 then 5 else 2
  getAlignment := fun _ => 1
  staticOffset := fun _ => none
  areMultipleDmaPortsNeeded := fun _ => false
  hasConcatViewUser := fun _ => false
  spillCycleCost := fun _ => 5
  denseOrder := id
  denseOrder_perm := fun _ => List.Perm.refl _
  spillReadQueueId := 0
  spillWriteQueueId := 1
  nceClusterCount := 1
  optimizeFragmentation := true
  activelySpillForPrefetching := true
  loopRegions := []

def afterFirstLoad : SchedulerState where
  cycleBeginHeap := []
  cycleEndHeap := []
  readyComputeOps := [2]
  readyDMAOps := []
  readyDataOps := [1]
  readySpilledOps := []
  spillBufferMap := fun _ => none
  inDegreeTable := fun opIdx => if opIdx = 3 then some 1 else none
  bufferProducer := fun buffer => if buffer = 0 then some 0 else none
  bufferLastCycleUse := fun buffer => if buffer = 0 then some 11 else none
  opIdxEndCycleMap := fun opIdx => if opIdx = 0 then some 11 else none
  computeOpOrder := [(⟨.dpu, 0⟩, [2, 3])]
  executorPipelines := fun queue => if queue.execKind = .dmaNN then [11] else [1]
  scan := ⟨⟨[⟨0, 4⟩, ⟨6, 10⟩], 10⟩, [0], ⟨fun buffer => if buffer = 0 then some 4 else none, [0], []⟩⟩
  getUsedBuffers := fun opIdx => if opIdx = 3 then [0, 1, 2, 3] else if opIdx < 3 then [opIdx] else []
  scheduledLoopRegionInd := []
  prefetchFailedDueToFragmentation := false
  prefetchFragmentationFailureCount := 0
  prefetchFragmentationFailureFixedCount := 0
  fragmentedBuffers := []
  evictionCandidateToSupportPrefetch := none
  bufferProducerDeltas := .empty
  bufferLastCycleUseDeltas := .empty
  opIdxEndCycleMapDeltas := .empty

theorem afterFirstLoad_consistent : Consistent fragmented afterFirstLoad := by
  have hscheduled (op : ℕ) (h : afterFirstLoad.ledger.Scheduled op) : op = 0 := by
    by_contra hne
    exact h (if_neg hne)
  refine ⟨⟨?_, ?_, ?_, ?_, ?_, ?_⟩, ?_⟩
  · intro op hop dep hdep
    rw [hscheduled op hop] at hdep
    cases hdep
  · intro op hop b hb
    rw [hscheduled op hop] at hb
    rw [mem_singleton.mp hb]
    simp [Ledger.Produced, SchedulerState.ledger, afterFirstLoad]
  · intro b writer hb
    change (if b = 0 then some 0 else none) = some writer at hb
    split_ifs at hb
    cases hb
    simp [Ledger.Scheduled, SchedulerState.ledger, afterFirstLoad]
  · intro op hop dep hdep
    rw [mem_singleton.mp hop] at hdep
    cases hdep
  · exact fun op hop => absurd rfl hop
  · intro op b hb
    refine ⟨b, ?_, mem_singleton.mpr rfl⟩
    by_cases heq : b = op
    · exact heq ▸ Relation.ReflTransGen.refl
    · apply Relation.ReflTransGen.single
      simp only [SchedulerState.ledger, afterFirstLoad] at hb
      split_ifs at hb with h3 hlt
      · rw [h3] at heq ⊢
        change b ∈ [0, 1, 2]
        simp only [mem_cons, not_mem_nil, or_false] at hb ⊢
        omega
      · exact absurd (mem_singleton.mp hb) heq
      · cases hb
  · intro b hb
    rw [mem_singleton.mp hb]
    simp [Ledger.Produced, SchedulerState.ledger, afterFirstLoad]

def returned (r : EStateM.Result String SchedulerState ComputeOpsReturn) : Option ComputeOpsReturn :=
  match r with
  | .ok answer _ => some answer
  | .error _ _ => none

/-- The ready load is larger than both gaps, and evicting the first one makes room for it. -/
theorem scheduleComputeOps_rolledBack_fragmented : ∃ s',
    fragmented.scheduleComputeOps afterFirstLoad = .ok .rolledBack s' ∧ RestoredTo afterFirstLoad s' ∧
      ∃ candidate, s'.evictionCandidateToSupportPrefetch = some candidate ∧ Evictable s' candidate := by
  have hreturned : returned (fragmented.scheduleComputeOps afterFirstLoad) = some .rolledBack := by decide +kernel
  cases hrun : fragmented.scheduleComputeOps afterFirstLoad with
  | error e s' =>
    rw [hrun] at hreturned
    cases hreturned
  | ok answer s' =>
    rw [hrun] at hreturned
    cases Option.some.inj hreturned
    exact ⟨s', rfl, scheduleComputeOps_rolledBack rfl afterFirstLoad_consistent hrun⟩

end

end NpuCompiler.Schedule.FeasibleMemoryScheduler
