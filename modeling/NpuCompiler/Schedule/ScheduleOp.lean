import NpuCompiler.Schedule.SchedulerState

namespace NpuCompiler.Schedule

open Barrier (ExecutorKind)

namespace SchedulerState

variable (s : SchedulerState)

def updateHandler (g : LinearScanHandler → LinearScanHandler) : SchedulerState :=
  { s with scan := { s.scan with handler := g s.scan.handler } }

def updateBufferCycleUseAndProducer (opIdx opCycleEnd buffer : ℕ) (isNewProducer : Bool) : SchedulerState :=
  let s := if isNewProducer then
      { s with
        bufferProducer := Function.update s.bufferProducer buffer (some opIdx)
        bufferProducerDeltas := s.bufferProducerDeltas.assign s.bufferProducer 0 buffer }
    else s
  match s.bufferLastCycleUse buffer with
  | some cycleEnd =>
    { s with
      bufferLastCycleUse := Function.update s.bufferLastCycleUse buffer (some (max cycleEnd opCycleEnd))
      bufferLastCycleUseDeltas := s.bufferLastCycleUseDeltas.recordOriginal buffer cycleEnd }
  | none =>
    { s with
      bufferLastCycleUse := Function.update s.bufferLastCycleUse buffer (some opCycleEnd)
      bufferLastCycleUseDeltas := s.bufferLastCycleUseDeltas.recordNew buffer }

def insertInOpIdxCycleEndMap (opIdx endCycle : ℕ) : SchedulerState :=
  match s.opIdxEndCycleMap opIdx with
  | none =>
    { s with
      opIdxEndCycleMap := Function.update s.opIdxEndCycleMap opIdx (some endCycle)
      opIdxEndCycleMapDeltas := s.opIdxEndCycleMapDeltas.recordNew opIdx }
  | some cycleEnd =>
    if cycleEnd < endCycle then
      { s with
        opIdxEndCycleMap := Function.update s.opIdxEndCycleMap opIdx (some endCycle)
        opIdxEndCycleMapDeltas := s.opIdxEndCycleMapDeltas.recordOriginal opIdx cycleEnd }
    else s

/-- The buffers whose last use a new element of the heap changes, with what it becomes the producer of marked. -/
def buffersOf (f : FeasibleMemoryScheduler) (elem : HeapEntry) : List (ℕ × Bool) :=
  if elem.toElement.isSpillReadOp then elem.spillBuffer_.toList.map (fun buffer => (buffer, true))
  else if elem.toElement.isOriginalOp then
    (f.getOutputBuffers elem.op_).map (fun buffer => (buffer, true)) ++
      (f.getInputBuffers elem.op_).map (fun buffer => (buffer, false))
  else []

def pushToCycleBeginHeap (f : FeasibleMemoryScheduler) (elem : HeapEntry) : SchedulerState :=
  let s := { s with cycleBeginHeap := OrderedSet.insert HeapEntry.cycleBeginOrder elem s.cycleBeginHeap }
  let s := (buffersOf f elem).foldl
    (fun s buffer => s.updateBufferCycleUseAndProducer elem.op_ elem.cycleEnd_ buffer.1 buffer.2) s
  s.insertInOpIdxCycleEndMap elem.op_ elem.cycleEnd_

def updateCurrentCycleForExecutor (queueAndCycle : QueueAndCycleType) (nextAvailableCycle : ℕ) : SchedulerState :=
  let pipeline := (s.executorPipelines queueAndCycle.queueType).mapIdx
    (fun execInst cycle => if execInst ∈ queueAndCycle.execMask then nextAvailableCycle else cycle)
  { s with executorPipelines := Function.update s.executorPipelines queueAndCycle.queueType pipeline }

def eraseReadySpilled (buffer : ℕ) : SchedulerState :=
  { s with readySpilledOps := s.readySpilledOps.filter (fun entry => entry.1 ≠ buffer) }

def eraseSpillBuffer (opIdx buffer : ℕ) : SchedulerState :=
  let spilled := (s.spillBufferMap opIdx).getD []
  let left := if spilled.length > 1 then some (spilled.filter (· ≠ buffer)) else none
  { s with spillBufferMap := Function.update s.spillBufferMap opIdx left }

def eraseReadyData (opIdx : ℕ) : SchedulerState := { s with readyDataOps := s.readyDataOps.filter (· ≠ opIdx) }

end SchedulerState

namespace FeasibleMemoryScheduler

variable (f : FeasibleMemoryScheduler)

section

def getExecutorType (opIdx : ℕ) (s : SchedulerState) : ExecutorKind :=
  if (s.spillBufferMap opIdx).isSome then .dmaNN else executorKind f opIdx

def getQueueType (opIdx : ℕ) (s : SchedulerState) : Except String QueueType :=
  if (s.spillBufferMap opIdx).isSome then
    .error s!"Function does not support spilled operations, opIdx - '{opIdx}'"
  else .ok (f.executorQueue opIdx)

def getOpDemandForExecutorsInstances (opIdx : ℕ) (queueType : QueueType) (s : SchedulerState) : Except String ℕ :=
  let numOfExecutors := (s.executorPipelines queueType).length
  if numOfExecutors = 0 then .error "No executor of given type"
  else if numOfExecutors < 2 then .ok 1
  else if queueType.execKind = .dmaNN && (s.getUsedBuffers opIdx).any f.areMultipleDmaPortsNeeded then
    .ok numOfExecutors
  else .ok 1

def getBufferDemandForExecutorsInstances (buffer : ℕ) (queueType : QueueType) (s : SchedulerState) : ℕ :=
  let numOfExecutors := (s.executorPipelines queueType).length
  if numOfExecutors < 2 then 1
  else if queueType.execKind = .dmaNN && f.areMultipleDmaPortsNeeded buffer then numOfExecutors
  else 1

def lowestInstance (pipeline : List ℕ) : ℕ :=
  (pipeline.zipIdx.foldl (fun best inst => if inst.1 < best.2 then (inst.2, inst.1) else best) (0, 2 ^ 64 - 1)).1

def getExecutorInstanceMask (numOfNeededInstances : ℕ) (queueType : QueueType) (s : SchedulerState) :
    Except String (List ℕ) :=
  let pipeline := s.executorPipelines queueType
  if pipeline.length = 0 then .error "No available instances of given queue type"
  else if numOfNeededInstances ≠ 1 ∧ numOfNeededInstances ≠ pipeline.length then
    .error s!"Number of needed executors ('{numOfNeededInstances}') is different then number of all instances of executor"
  else if queueType.execKind = .dmaNN then
    if numOfNeededInstances = 1 then .ok [lowestInstance pipeline] else .ok (List.range pipeline.length)
  else .ok [0]

def freeFrom (queueType : QueueType) (execMask : List ℕ) (depEndCycle : ℕ) (s : SchedulerState) : ℕ :=
  execMask.foldl (fun cycle instIndex => max cycle ((s.executorPipelines queueType).getD instIndex 0)) depEndCycle

def getQueueAndCycle (opIdx depEndCycle : ℕ) (s : SchedulerState) : Except String QueueAndCycleType := do
  let queueType ← f.getQueueType opIdx s
  let numOfNeededInstances ← f.getOpDemandForExecutorsInstances opIdx queueType s
  let execMask ← getExecutorInstanceMask numOfNeededInstances queueType s
  .ok ⟨queueType, execMask, freeFrom queueType execMask depEndCycle s⟩

def getCurrentCycleAndExecutorInstanceMaskForSpill (buffer : ℕ) (spillType : EOpType) (depEndCycle : ℕ)
    (s : SchedulerState) : Except String QueueAndCycleType := do
  let queueId := if spillType = .implicitSpillReadOp then f.spillReadQueueId else f.spillWriteQueueId
  let queueType : QueueType := ⟨.dmaNN, queueId⟩
  let execMask ← getExecutorInstanceMask (f.getBufferDemandForExecutorsInstances buffer queueType s) queueType s
  .ok ⟨queueType, execMask, freeFrom queueType execMask depEndCycle s⟩

def opIdxEndCycleAt (opIdx : ℕ) : SchedulerM ℕ := do
  modify (fun s => { s with
    opIdxEndCycleMap := Function.update s.opIdxEndCycleMap opIdx (some ((s.opIdxEndCycleMap opIdx).getD 0)) })
  let s ← get
  pure ((s.opIdxEndCycleMap opIdx).getD 0)

def bufferProducerAt (buffer : ℕ) : SchedulerM ℕ := do
  modify (fun s => { s with
    bufferProducer := Function.update s.bufferProducer buffer (some ((s.bufferProducer buffer).getD 0)) })
  let s ← get
  pure ((s.bufferProducer buffer).getD 0)

def delayByOp (cycle opIdx : ℕ) : SchedulerM ℕ := do
  let cycleEnd ← opIdxEndCycleAt opIdx
  pure (max cycle cycleEnd)

def getCurrentCycleAndExecutorInstanceMask (opIdx depEndCycle : ℕ) : SchedulerM QueueAndCycleType := do
  let queueAndCycle ← readState (f.getQueueAndCycle opIdx depEndCycle)
  let earliestBeginCycle ← (f.getOpDeps opIdx).foldlM delayByOp queueAndCycle.cycle
  pure { queueAndCycle with cycle := earliestBeginCycle }

def delayByProducer (cycle buffer : ℕ) : SchedulerM ℕ := do
  let s ← get
  match s.bufferProducer buffer with
  | none => pure cycle
  | some producer => delayByOp cycle producer

def getEarliestComputeBeginCycle (opIdx : ℕ) : SchedulerM ℕ := do
  let queueAndCycle ← f.getCurrentCycleAndExecutorInstanceMask opIdx 0
  let s ← get
  (s.getUsedBuffers opIdx).foldlM delayByProducer queueAndCycle.cycle

def getNonAliveBuffersUsedByOperation (opIdx : ℕ) (s : SchedulerState) : List ℕ :=
  (s.getUsedBuffers opIdx).filter (fun buffer => !s.scan.handler.isAlive buffer)

/-- The recursion of `getBuffersToAllocateForOp` over the data operations that are not scheduled, to a depth. -/
def getBuffersWithin : ℕ → ℕ → SchedulerState → Except String (List ℕ)
  | 0, _, _ => .error "unreachable"
  | depth + 1, opIdx, s =>
    let unscheduled := (f.getOpDeps opIdx).filter (fun dep => (s.opIdxEndCycleMap dep).isNone)
    unscheduled.foldlM (fun buffersToAllocate dep => do
      if dep ∉ s.readyDataOps then
        .error s!"Failed to get buffers - operation not ready '{dep}'"
      else
        let depBuffers ← getBuffersWithin depth dep s
        .ok (depBuffers ∪ buffersToAllocate)) (getNonAliveBuffersUsedByOperation opIdx s)

def getBuffersToAllocateForOp (opIdx : ℕ) (s : SchedulerState) : Except String (List ℕ) :=
  f.getBuffersWithin (opIdx + 1) opIdx s

def allocationOrder (buffers : List ℕ) : Except String (List ℕ) :=
  if f.optimizeFragmentation then sortUsedBuffers f buffers else .ok (f.denseOrder buffers)

def canAllocBuffers (buffersToAllocate : List ℕ) : SchedulerM Bool := do
  let ordered ← readState (fun _ => f.allocationOrder buffersToAllocate)
  let s ← get
  let answer := s.scan.canAlloc f ordered
  modify (fun s => { s with scan := answer.2 })
  pure answer.1

def scheduleSpilledOpBuffer (opIdx buffer : ℕ) : SchedulerM ℕ := do
  let queueAndCycle ← readState (f.getCurrentCycleAndExecutorInstanceMaskForSpill buffer .implicitSpillReadOp 0)
  let s ← get
  throwUnless (s.readySpilledOps.any (fun entry => entry.1 = buffer)) "Failed to find spill buffer"
  modify (·.eraseReadySpilled buffer)
  throwUnless (s.spillBufferMap opIdx).isSome "Failed to find spill opIdx"
  modify (·.eraseSpillBuffer opIdx buffer)
  let handler ← readState (fun s => s.scan.handler.removeDynamicSpill buffer)
  modify (·.updateHandler (fun _ => handler))
  let opCycleCost := f.spillCycleCost buffer
  let nextAvailableCycle := queueAndCycle.cycle + opCycleCost
  modify (·.updateCurrentCycleForExecutor queueAndCycle nextAvailableCycle)
  modify (·.pushToCycleBeginHeap f (.create opIdx queueAndCycle opCycleCost .implicitSpillReadOp (some buffer)))
  pure nextAvailableCycle

def reviveBuffer (val : ℕ) : SchedulerM Unit := do
  modify (·.updateHandler (·.markAsAlive val))
  let s ← get
  if s.scan.handler.isDynamicSpill val then
    match s.bufferProducer val with
    | none => throw s!"Failed to find buffer producer for '{val}'"
    | some producer => do
      let _ ← f.scheduleSpilledOpBuffer producer val
      pure ()
  else pure ()

def addDemand (demands : List (ℕ ×ₗ ℕ)) (depIdx : ℕ) : SchedulerM (List (ℕ ×ₗ ℕ)) := do
  let s ← get
  if (s.opIdxEndCycleMap depIdx).isSome then pure demands
  else do
    throwUnless (depIdx ∈ s.readyDataOps) s!"Failed to schedule dependencies - operation not ready '{depIdx}'"
    let queueAndCycle ← f.getCurrentCycleAndExecutorInstanceMask depIdx 0
    pure (toLex (queueAndCycle.cycle, depIdx) :: demands)

def scheduleDependencies (schedule : ℕ → SchedulerM ℕ) (opIdx : ℕ) : SchedulerM ℕ := do
  let s ← get
  (getNonAliveBuffersUsedByOperation opIdx s).forM f.reviveBuffer
  let demands ← (f.getOpDeps opIdx).foldlM f.addDemand []
  (sortedOf demands).forM (fun demand => do
    let _ ← schedule (ofLex demand).2
    modify (·.eraseReadyData (ofLex demand).2))
  f.getEarliestComputeBeginCycle opIdx

def isLoopPrefetch (opIdx : ℕ) : Bool :=
  f.loopRegions.any (fun region => region.isLoop && region.loopBodies.any (fun loop =>
    loop.any (fun info => info.opIdx = opIdx && info.allocationType = .dataIn)))

def placeOp (opIdx : ℕ) (opType : EOpType) (depEndCycle : ℕ) : SchedulerM ℕ := do
  let queueAndCycle ← f.getCurrentCycleAndExecutorInstanceMask opIdx depEndCycle
  let opCycleCost := f.operationCycleCost opIdx
  let nextAvailableCycle := queueAndCycle.cycle + opCycleCost
  modify (·.updateCurrentCycleForExecutor queueAndCycle nextAvailableCycle)
  let opType := if f.isLoopPrefetch opIdx then .loopOp else opType
  modify (·.pushToCycleBeginHeap f (.create opIdx queueAndCycle opCycleCost opType none))
  pure nextAvailableCycle

def scheduleOpWithin : ℕ → ℕ → EOpType → SchedulerM ℕ
  | 0, _, _ => throw "unreachable"
  | depth + 1, opIdx, opType => do
    let depEndCycle ← f.scheduleDependencies (fun depIdx => scheduleOpWithin depth depIdx .originalOp) opIdx
    f.placeOp opIdx opType depEndCycle

def scheduleOp (opIdx : ℕ) (opType : EOpType) : SchedulerM ℕ := f.scheduleOpWithin (opIdx + 1) opIdx opType

end

end FeasibleMemoryScheduler

end NpuCompiler.Schedule
