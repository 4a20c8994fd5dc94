import NpuCompiler.Schedule.ScheduleOp

namespace NpuCompiler.Schedule

open Barrier (ExecutorKind)
open Memory (LoopBody addrSub)

namespace FeasibleMemoryScheduler

variable (f : FeasibleMemoryScheduler)

section

def prefetchingLevelLimit : ℕ := 35

def barrierPerCluster : ℕ := 8

def getOperationLevel (opIdx : ℕ) (isSpilled : Bool) (s : SchedulerState) : ℕ :=
  if !isSpilled then opLevelVec f opIdx
  else
    let remaining := (f.getConsumerOps opIdx).filter (fun consumerIdx => (s.opIdxEndCycleMap consumerIdx).isNone)
    (remaining.map (opLevelVec f)).foldl min (2 ^ 64 - 1)

def isLoopRegionOp (opIdx : ℕ) : Bool :=
  f.loopRegions.any (fun region => region.isLoop && region.loopBodies.any (fun loop =>
    loop.any (fun info => info.opIdx = opIdx && info.allocationType ≠ .dataIn)))

def isPrefetchCandidate (lastScheduledOp currLevelLimit : ℕ) (isSpilled : Bool) (s : SchedulerState) (opIdx : ℕ) : Bool :=
  !f.isLoopRegionOp opIdx && opIdx ≤ lastScheduledOp && f.getOperationLevel opIdx isSpilled s ≤ currLevelLimit

def getPrefetchCandidates (lastScheduledOp lastScheduledLevel : ℕ) (s : SchedulerState) : List ℕ :=
  let currLevelLimit := lastScheduledLevel + prefetchingLevelLimit
  let dataOps := s.readyDataOps.filter (f.isPrefetchCandidate lastScheduledOp currLevelLimit false s)
  let spillOps := s.readySpilledOps.filter (fun entry =>
    f.isPrefetchCandidate lastScheduledOp currLevelLimit true s entry.2 && !s.scan.handler.isAlive entry.1)
  let candidates : List (ℕ ×ₗ ℕ) :=
    dataOps.map (fun opIdx => toLex (f.getOperationLevel opIdx false s, opIdx)) ++
      spillOps.map (fun entry => toLex (f.getOperationLevel entry.2 true s, entry.2))
  (sortedOf candidates).map (fun candidate => (ofLex candidate).2)

def spillScheduleCycle (operationBuffers : List ℕ) (s : SchedulerState) : Except String ℕ :=
  operationBuffers.foldlM (fun scheduleCycle val => do
    let queueAndCycle ← f.getCurrentCycleAndExecutorInstanceMaskForSpill val .implicitSpillReadOp 0 s
    .ok (max scheduleCycle queueAndCycle.cycle)) 0

def getPrefetchInfo (opIdx : ℕ) : SchedulerM (ℕ × List ℕ) := do
  let s ← get
  if opIdx ∈ s.readyDataOps then do
    let operationBuffers ← readState (f.getBuffersToAllocateForOp opIdx)
    let queueAndCycle ← f.getCurrentCycleAndExecutorInstanceMask opIdx 0
    pure (queueAndCycle.cycle, operationBuffers)
  else
    match s.spillBufferMap opIdx with
    | none => do
      throwUnless (s.cycleBeginHeap.any (fun elem => elem.op_ = opIdx)) s!"Failed to find spill candidate '{opIdx}'"
      pure (0, [])
    | some operationBuffers => do
      let scheduleCycle ← readState (f.spillScheduleCycle operationBuffers)
      pure (scheduleCycle, operationBuffers)

def prefetchSpilledBuffer (opIdx val : ℕ) : SchedulerM Unit := do
  modify (·.updateHandler (·.markAsAlive val))
  let _ ← f.scheduleSpilledOpBuffer opIdx val
  pure ()

def executePrefetch (opIdx : ℕ) : SchedulerM ℕ := do
  let s ← get
  if opIdx ∈ s.readyDataOps then do
    let _ ← f.scheduleOp opIdx .originalPrefetchedOp
    modify (·.eraseReadyData opIdx)
    pure 1
  else do
    let spilledBuffersVec ← readState (fun s => sortUsedBuffers f ((s.spillBufferMap opIdx).getD []))
    spilledBuffersVec.forM (f.prefetchSpilledBuffer opIdx)
    pure spilledBuffersVec.length

structure LastScheduled where
  op : ℕ
  level : ℕ
  cycle : ℕ

def lastScheduledOf (s : SchedulerState) (last : LastScheduled) (scheduledOp : ℕ × ℕ) : LastScheduled :=
  if f.getExecutorType scheduledOp.1 s = .dmaNN then last
  else
    { op := max last.op scheduledOp.1
      level := max last.level (opLevelVec f scheduledOp.1)
      cycle := if f.operationCycleCost scheduledOp.1 ≤ 1 then last.cycle else max last.cycle scheduledOp.2 }

def totalBuffersSize (buffers : List ℕ) : ℕ := (buffers.map f.getSize).sum

def noteFragmentation (checkMemoryFragmentation : Bool) (operationBuffers : List ℕ) (s : SchedulerState) :
    SchedulerState :=
  if checkMemoryFragmentation && f.totalBuffersSize operationBuffers ≤ s.scan.partitioner.totalFreeSize then
    { s with
      prefetchFailedDueToFragmentation := true
      prefetchFragmentationFailureCount := s.prefetchFragmentationFailureCount + 1
      fragmentedBuffers := operationBuffers }
  else s

def prefetchCandidates (last : LastScheduled) (barrierLimit : ℕ) (checkMemoryFragmentation : Bool) :
    List ℕ → ℕ → List ℕ → SchedulerM (List ℕ)
  | [], _, buffersToAllocate => pure buffersToAllocate
  | opIdx :: candidates, aliveOperationCount, buffersToAllocate => do
    let (scheduleCycle, prefetchBuffers) ← f.getPrefetchInfo opIdx
    if prefetchBuffers.isEmpty then
      prefetchCandidates last barrierLimit checkMemoryFragmentation candidates aliveOperationCount buffersToAllocate
    else if last.cycle ≠ 0 ∧ last.level + 1 < opLevelVec f opIdx ∧ last.cycle ≤ scheduleCycle then
      pure buffersToAllocate
    else do
      let operationBuffers := buffersToAllocate ∪ prefetchBuffers
      let fits ← f.canAllocBuffers operationBuffers
      if !fits then do
        modify (f.noteFragmentation checkMemoryFragmentation operationBuffers)
        pure buffersToAllocate
      else do
        let count ← f.executePrefetch opIdx
        if barrierLimit ≤ aliveOperationCount + count then pure operationBuffers
        else
          prefetchCandidates last barrierLimit checkMemoryFragmentation candidates (aliveOperationCount + count)
            operationBuffers

def addAliveOperation (aliveOperations : List ℕ) (aliveBuffer : ℕ) : SchedulerM (List ℕ) := do
  let aliveOpIdx ← bufferProducerAt aliveBuffer
  pure (if isDataOp f aliveOpIdx then aliveOperations.insert aliveOpIdx else aliveOperations)

def prefetchOps (scheduledOps : List (ℕ × ℕ)) (buffersToAllocate : List ℕ) (checkMemoryFragmentation : Bool) :
    SchedulerM (List ℕ) := do
  let s ← get
  let aliveOperations ← s.scan.handler.aliveValues.foldlM f.addAliveOperation []
  let barrierLimit := addrSub (barrierPerCluster * f.nceClusterCount) scheduledOps.length
  if barrierLimit ≤ aliveOperations.length then pure buffersToAllocate
  else do
    let s ← get
    let last := scheduledOps.foldl (f.lastScheduledOf s) ⟨0, 0, 0⟩
    let candidates := f.getPrefetchCandidates last.op last.level s
    f.prefetchCandidates last barrierLimit checkMemoryFragmentation candidates aliveOperations.length buffersToAllocate

def evictionPriority (writerOpIdx buffer : ℕ) : ℕ :=
  if f.hasConcatViewUser buffer then 0 else if !isDataOp f writerOpIdx then 2 else 3

def getEarliestConsumerIdx (opIdx : ℕ) (s : SchedulerState) : ℕ :=
  let consumers := (f.getConsumerOps opIdx).filter (fun consumerIdx =>
    isComputeExecutorKind (f.getExecutorType consumerIdx s) && (s.opIdxEndCycleMap consumerIdx).isNone)
  consumers.foldl min (2 ^ 64 - 1)

def getOpBufferOutputIdx (opIdx buffer : ℕ) : Except String ℕ :=
  match (f.getOutputBuffers opIdx).findIdx? (· = buffer) with
  | some outputIdx => .ok outputIdx
  | none => .error s!"Unable to find async.execOp (opIdx - '{opIdx}') result corresponding to buffer '{buffer}'"

def considerForEviction (bufferProducer : ℕ → Option ℕ) (scan : BufferScan) (s : SchedulerState)
    (evictionCandidate : Option EvictionCandidate) (buffer : ℕ) : Except String (Option EvictionCandidate) :=
  match bufferProducer buffer with
  | none => .error "Buffer not scheduled yet, invalid eviction candidate"
  | some executeOpIdx =>
    if s.cycleEndHeap.any (fun nextOp => nextOp.op_ = executeOpIdx) then .ok evictionCandidate
    else if evictionCandidate.any (fun candidate => candidate.size_ ≤ f.getSize buffer) then .ok evictionCandidate
    else do
      let tempScan := { scan with handler := scan.handler.markAsDead buffer }.freeDeadRanges f
      let ordered ← f.allocationOrder (s.fragmentedBuffers.insert buffer)
      if (tempScan.canAlloc f ordered).1 then do
        let outputIdx ← f.getOpBufferOutputIdx executeOpIdx buffer
        .ok (some ⟨f.evictionPriority executeOpIdx buffer, f.getEarliestConsumerIdx executeOpIdx s, f.getSize buffer,
          executeOpIdx, outputIdx, buffer⟩)
      else .ok evictionCandidate

def chooseCandidateForEvictionToSupportPrefetch (aliveBuffers : List ℕ) (bufferProducer : ℕ → Option ℕ)
    (scan : BufferScan) (s : SchedulerState) : Except String (Option EvictionCandidate) := do
  let sortedAliveBuffers ← sortUsedBuffers f aliveBuffers
  sortedAliveBuffers.reverse.foldlM (f.considerForEviction bufferProducer scan s) none

def nonLoopNextIdx (queueType : QueueType) (s : SchedulerState) : Option ℕ :=
  (s.computeOpOrder.find? (fun queue => queue.1 = queueType)).bind (fun queue => queue.2.head?)

def loopBodyReady (s : SchedulerState) (loopOps : List ℕ) (loopRegionReady : Bool) : LoopBody → Except String Bool
  | [] => .ok loopRegionReady
  | opInfo :: rest => do
    let depsReady := (f.getOpDeps opInfo.opIdx).all (fun depIdx =>
      depIdx ∈ loopOps || (s.opIdxEndCycleMap depIdx).isSome || depIdx ∈ s.readyDataOps)
    let inOrder ←
      if opInfo.allocationType = .compute then
        (f.getQueueType opInfo.opIdx s).map (fun queueType =>
          !(nonLoopNextIdx queueType s).any (fun next => next < opInfo.opIdx))
      else .ok true
    if loopRegionReady && depsReady && inOrder then loopBodyReady s loopOps true rest else .ok false

def loopRegionReady (s : SchedulerState) (region : LoopRegion) : Except String Bool :=
  let firstLoop := region.loopBodies.headD []
  f.loopBodyReady s (firstLoop.map (·.opIdx))
    (region.dependencies.all (fun opIdx => (s.opIdxEndCycleMap opIdx).isSome || opIdx ∈ s.readyDataOps)) firstLoop

def remainingLoops (s : SchedulerState) : List (LoopRegion × ℕ) :=
  f.loopRegions.zipIdx.filter (fun region => region.1.isLoop && region.2 ∉ s.scheduledLoopRegionInd)

def readyLoops (s : SchedulerState) : List (LoopRegion × ℕ) → Except String (List ℕ)
  | [] => .ok []
  | (region, idx) :: rest => do
    let ready ← f.loopRegionReady s region
    if ready then do
      let readyLoopOps ← readyLoops s rest
      .ok (idx :: readyLoopOps)
    else .ok []

def getReadyLoopOps (s : SchedulerState) : Except String (List ℕ) := f.readyLoops s (f.remainingLoops s)

def loopNextIdx (s : SchedulerState) : Except String (Option (QueueType × ℕ)) :=
  match (f.remainingLoops s).head? with
  | none => .ok none
  | some (region, _) =>
    match (region.loopBodies.headD []).find? (fun opInfo => opInfo.allocationType = .compute) with
    | none => .ok none
    | some opInfo => (f.getQueueType opInfo.opIdx s).map (fun queueType => some (queueType, opInfo.opIdx))

def unscheduledOpsOnQueue (queueType : QueueType) (s : SchedulerState) : Bool :=
  s.cycleEndHeap.all (fun op => op.queueType_ ≠ queueType)

def nextComputeOps (loopNext : Option (QueueType × ℕ)) (s : SchedulerState) : List (ℕ × QueueType) :=
  s.computeOpOrder.filterMap (fun queue =>
    match queue.2.head? with
    | none => none
    | some firstOpInQueue =>
      if firstOpInQueue ∈ s.readyComputeOps && unscheduledOpsOnQueue queue.1 s &&
          !loopNext.any (fun next => next.1 = queue.1 && next.2 < firstOpInQueue) then
        some (firstOpInQueue, queue.1)
      else none)

structure Selection where
  selected : List (ℕ × QueueType)
  left : List (ℕ × QueueType)
  buffersToAllocate : List ℕ

def selectOp (selection : Selection) (op : ℕ × QueueType) : SchedulerM Selection := do
  let opBuffers ← readState (f.getBuffersToAllocateForOp op.1)
  let operationBuffers := selection.buffersToAllocate ∪ opBuffers
  let fits ← f.canAllocBuffers operationBuffers
  if fits then
    pure { selection with selected := selection.selected ++ [op], buffersToAllocate := operationBuffers }
  else pure { selection with left := selection.left ++ [op] }

def selectOps (nextOps : List (ℕ × QueueType)) : SchedulerM Selection := do
  let computeOps := nextOps.filter (fun op => !isNoInputDepComputeOp f op.1)
  let noInputDepComputeOps := nextOps.filter (fun op => isNoInputDepComputeOp f op.1)
  let selection ← computeOps.foldlM f.selectOp ⟨[], [], []⟩
  if selection.left.isEmpty then noInputDepComputeOps.foldlM f.selectOp selection else pure selection

def scheduleSelected (scheduledOps : List (ℕ × ℕ)) (op : ℕ × QueueType) : SchedulerM (List (ℕ × ℕ)) := do
  let opCycleEnd ← f.scheduleOp op.1 .originalOp
  modify (fun s => { s with readyComputeOps := s.readyComputeOps.filter (· ≠ op.1) })
  pure (scheduledOps ++ [(op.1, opCycleEnd)])

structure ScheduleStateSnapshot where
  captured : Bool
  readyComputeOps : List ℕ
  scan : BufferScan
  executorPipelines : QueueType → List ℕ
  cycleBeginHeap : List HeapEntry
  readyDataOps : List ℕ
  readySpilledOps : List (ℕ × ℕ)
  spillBufferMap : ℕ → Option (List ℕ)

def ScheduleStateSnapshot.create (s : SchedulerState) (needCapture : Bool) : ScheduleStateSnapshot :=
  if needCapture then
    ⟨true, s.readyComputeOps, s.scan, s.executorPipelines, s.cycleBeginHeap, s.readyDataOps, s.readySpilledOps,
      s.spillBufferMap⟩
  else ⟨false, [], s.scan, fun _ => [], [], [], [], fun _ => none⟩

def ScheduleStateSnapshot.rollback (snap : ScheduleStateSnapshot) (s : SchedulerState) : SchedulerState :=
  if snap.captured then
    { s with
      readyComputeOps := snap.readyComputeOps
      scan := snap.scan
      executorPipelines := snap.executorPipelines
      cycleBeginHeap := snap.cycleBeginHeap
      readyDataOps := snap.readyDataOps
      readySpilledOps := snap.readySpilledOps
      spillBufferMap := snap.spillBufferMap }
  else s

def resetScheduleComputeOpsDeltas (s : SchedulerState) : SchedulerState :=
  { s with
    prefetchFailedDueToFragmentation := false
    bufferProducerDeltas := .empty
    bufferLastCycleUseDeltas := .empty
    opIdxEndCycleMapDeltas := .empty }

def restoreStateBeforeScheduling (snap : ScheduleStateSnapshot) (s : SchedulerState) : SchedulerState :=
  let s := snap.rollback s
  { s with
    bufferProducer := s.bufferProducerDeltas.undo s.bufferProducer
    opIdxEndCycleMap := s.opIdxEndCycleMapDeltas.undo s.opIdxEndCycleMap
    bufferLastCycleUse := s.bufferLastCycleUseDeltas.undo s.bufferLastCycleUse }

/-- The candidate of `foundProperSpillCandidateToSupportPrefetch`; without alive buffers the old one stays. -/
def spillCandidateToSupportPrefetch (snap : ScheduleStateSnapshot) (s : SchedulerState) :
    Except String (Bool × Option EvictionCandidate) :=
  let aliveBuffers := snap.scan.handler.aliveValues
  if aliveBuffers.isEmpty then .ok (false, s.evictionCandidateToSupportPrefetch)
  else do
    let originalBufferProducer := s.bufferProducerDeltas.undo s.bufferProducer
    let candidate ← f.chooseCandidateForEvictionToSupportPrefetch aliveBuffers originalBufferProducer snap.scan s
    .ok (candidate.isSome, candidate)

def findSpillCandidate (snap : ScheduleStateSnapshot) : SchedulerM Bool := do
  let found ← readState (f.spillCandidateToSupportPrefetch snap)
  modify (fun s => { s with
    evictionCandidateToSupportPrefetch := found.2
    prefetchFailedDueToFragmentation := found.1 })
  pure found.1

def reduceInDegree (opIdx : ℕ) : SchedulerM (List ℕ) := do
  let s ← get
  let zeroInDegreeOps := (f.getConsumerOps opIdx).filter (fun consumer => (s.inDegreeTable consumer).getD 0 < 2)
  modify (fun s => { s with inDegreeTable := (f.getConsumerOps opIdx).foldl (fun table consumer =>
    Function.update table consumer
      (if (table consumer).getD 0 < 2 then none else some ((table consumer).getD 0 - 1))) s.inDegreeTable })
  pure zeroInDegreeOps

def distributeComputeOp (readyOpIdx : ℕ) : SchedulerM Unit := do
  let s ← get
  let queueType ← readState (f.getQueueType readyOpIdx)
  if isComputeExecutorKind queueType.execKind then do
    throwUnless (readyOpIdx ∉ s.readyComputeOps) s!"Operation already in ready compute list '{readyOpIdx}'"
    modify (fun s => { s with readyComputeOps := insertSorted readyOpIdx s.readyComputeOps })
  else do
    throwUnless (readyOpIdx ∉ s.readyDMAOps) s!"Operation already in ready compute DMA list '{readyOpIdx}'"
    modify (fun s => { s with readyDMAOps := insertSorted readyOpIdx s.readyDMAOps })

def distributeWithin : ℕ → List ℕ → SchedulerM Unit
  | 0, _ => throw "unreachable"
  | depth + 1, readyOps => readyOps.forM (fun readyOpIdx => do
    if isDataOp f readyOpIdx then do
      let s ← get
      throwUnless (readyOpIdx ∉ s.readyDataOps) s!"Operation already in the ready data list '{readyOpIdx}'"
      modify (fun s => { s with readyDataOps := insertSorted readyOpIdx s.readyDataOps })
      let newReadyOps ← f.reduceInDegree readyOpIdx
      distributeWithin depth newReadyOps
    else f.distributeComputeOp readyOpIdx)

def distributeReadyOps (readyOps : List ℕ) : SchedulerM Unit := f.distributeWithin (f.opCount + 1) readyOps

def sortAndAllocateBuffers (buffersToAllocate : List ℕ) : SchedulerM Unit :=
  if buffersToAllocate.isEmpty then pure ()
  else do
    modify (·.updateHandler (fun handler => buffersToAllocate.foldl (·.markAsAlive ·) handler))
    let ordered ← readState (fun _ => f.allocationOrder buffersToAllocate)
    let answer ← readState (fun s => s.scan.alloc f ordered)
    throwUnless answer.1 "Failed to statically allocate memory"
    modify (fun s => { s with scan := answer.2 })

def selectDMAOp (selection : List ℕ × List ℕ) (readyOpIdx : ℕ) : SchedulerM (List ℕ × List ℕ) := do
  let opBuffers ← readState (f.getBuffersToAllocateForOp readyOpIdx)
  let operationBuffers := selection.2 ∪ opBuffers
  let fits ← f.canAllocBuffers operationBuffers
  pure (if fits then (selection.1 ++ [readyOpIdx], operationBuffers) else selection)

def scheduleDMAOp (state : List (ℕ × ℕ) × List ℕ) (DMAOpIdx : ℕ) : SchedulerM (List (ℕ × ℕ) × List ℕ) := do
  let opCycleEnd ← f.scheduleOp DMAOpIdx .originalOp
  modify (fun s => { s with readyDMAOps := s.readyDMAOps.filter (· ≠ DMAOpIdx) })
  let newReadyOps ← f.reduceInDegree DMAOpIdx
  pure (state.1 ++ [(DMAOpIdx, opCycleEnd)], state.2 ++ newReadyOps)

def scheduleReadyDMAOps (scheduledOps : List (ℕ × ℕ)) (buffersToAllocate : List ℕ) : SchedulerM Unit := do
  let s ← get
  let (DMAOpIdxToSchedule, buffersToAllocate) ← s.readyDMAOps.foldlM f.selectDMAOp ([], buffersToAllocate)
  let (scheduledOps, readyOps) ← DMAOpIdxToSchedule.foldlM f.scheduleDMAOp (scheduledOps, [])
  f.distributeReadyOps readyOps
  let buffersToAllocate ←
    if DMAOpIdxToSchedule.isEmpty then pure buffersToAllocate
    else f.prefetchOps scheduledOps buffersToAllocate false
  f.sortAndAllocateBuffers buffersToAllocate

end

/-- The returns of `scheduleComputeOps`. -/
inductive ComputeOpsReturn
  | loopsFirst
  | rolledBack
  | scheduled
  deriving DecidableEq

def popComputeOps (selected : List (ℕ × QueueType)) (s : SchedulerState) : SchedulerState :=
  { s with computeOpOrder := selected.foldl (fun order op => order.map (fun queue =>
      if queue.1 = op.2 then (queue.1, queue.2.tail) else queue)) s.computeOpOrder }

def prefetchForCompute (snap : ScheduleStateSnapshot) (scheduledOps : List (ℕ × ℕ)) (buffersToAllocate : List ℕ) :
    SchedulerM (Bool × List ℕ) := do
  let buffersToAllocate ← f.prefetchOps scheduledOps buffersToAllocate f.activelySpillForPrefetching
  let s ← get
  if s.prefetchFailedDueToFragmentation then do
    let found ← f.findSpillCandidate snap
    pure (found, buffersToAllocate)
  else pure (false, buffersToAllocate)

def scheduleComputeOps : SchedulerM ComputeOpsReturn := do
  let readyLoopOps ← readState f.getReadyLoopOps
  if !readyLoopOps.isEmpty then pure .loopsFirst
  else do
    let loopNext ← readState f.loopNextIdx
    let s ← get
    let snap := ScheduleStateSnapshot.create s f.activelySpillForPrefetching
    modify resetScheduleComputeOpsDeltas
    let selection ← f.selectOps (nextComputeOps loopNext s)
    let scheduledOps ← selection.selected.foldlM f.scheduleSelected []
    if selection.selected.isEmpty then do
      f.scheduleReadyDMAOps scheduledOps selection.buffersToAllocate
      pure .scheduled
    else do
      let (rollBack, buffersToAllocate) ← f.prefetchForCompute snap scheduledOps selection.buffersToAllocate
      if rollBack then do
        modify (fun s => { s with
          prefetchFragmentationFailureFixedCount := s.prefetchFragmentationFailureFixedCount + 1 })
        modify (restoreStateBeforeScheduling snap)
        pure .rolledBack
      else do
        modify (·.updateHandler (fun handler => buffersToAllocate.foldl (·.markAsAlive ·) handler))
        modify (popComputeOps selection.selected)
        f.scheduleReadyDMAOps scheduledOps buffersToAllocate
        pure .scheduled

end FeasibleMemoryScheduler

end NpuCompiler.Schedule
