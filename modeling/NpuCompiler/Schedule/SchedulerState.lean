import NpuCompiler.Library.StateInvariant
import NpuCompiler.Library.UndoLog
import NpuCompiler.Memory.LinearScan
import NpuCompiler.Memory.LoopAllocator
import NpuCompiler.Schedule.HeapOrder

namespace NpuCompiler.Schedule

open Barrier (ExecutorKind)
open Memory (AllocationType ComputeRegion Partitioner)

structure QueueType where
  execKind : ExecutorKind
  id : ℕ
  deriving DecidableEq, Repr

structure QueueAndCycleType where
  queueType : QueueType
  /-- The set bits of the mask, in increasing order. -/
  execMask : List ℕ
  cycle : ℕ
  deriving DecidableEq, Repr

structure HeapEntry where
  op_ : ℕ
  executorInstanceMask_ : List ℕ
  queueType_ : QueueType
  cycleBegin_ : ℕ
  cycleEnd_ : ℕ
  opType_ : EOpType
  spillBuffer_ : Option ℕ
  deriving DecidableEq, Repr

namespace HeapEntry

def create (opIdx : ℕ) (queueAndCycle : QueueAndCycleType) (cycleCost : ℕ) (opType : EOpType) (spillBuffer : Option ℕ) :
    HeapEntry where
  op_ := opIdx
  executorInstanceMask_ := queueAndCycle.execMask
  queueType_ := queueAndCycle.queueType
  cycleBegin_ := queueAndCycle.cycle
  cycleEnd_ := queueAndCycle.cycle + cycleCost
  opType_ := opType
  spillBuffer_ := spillBuffer

def toElement (e : HeapEntry) : HeapElement :=
  ⟨e.op_, e.cycleBegin_, e.cycleEnd_, e.opType_, e.spillBuffer_.map (fun buffer => .opResult buffer 0)⟩

def cycleBeginOrder (a b : HeapEntry) : Bool := cycleBeginMinHeapOrdering a.toElement b.toElement

end HeapEntry

structure EvictionCandidate where
  priority_ : ℕ
  earliestConsumerIdx_ : ℕ
  size_ : ℕ
  bufferWriterIdx_ : ℕ
  outputIdx_ : ℕ
  buffer_ : ℕ
  deriving DecidableEq, Repr

structure LinearScanHandler where
  valOffsets : ℕ → Option ℕ
  aliveValues : List ℕ
  dynamicSpillValues : List ℕ

namespace LinearScanHandler

variable (h : LinearScanHandler) (val : ℕ)

def isAlive : Bool := val ∈ h.aliveValues

def isDynamicSpill : Bool := val ∈ h.dynamicSpillValues

def markAsAlive : LinearScanHandler := { h with aliveValues := h.aliveValues.insert val }

def markAsDead : LinearScanHandler := { h with aliveValues := h.aliveValues.filter (· ≠ val) }

def removeDynamicSpill : Except String LinearScanHandler :=
  if val ∈ h.dynamicSpillValues then
    .ok { h with dynamicSpillValues := h.dynamicSpillValues.filter (· ≠ val) }
  else .error s!"Value '{val}' was not dynamic spilled"

end LinearScanHandler

structure BufferScan where
  partitioner : Partitioner
  liveRanges : List ℕ
  handler : LinearScanHandler

structure LoopRegion extends ComputeRegion where
  isLoop : Bool
  deriving DecidableEq, Repr

/-- What the scheduler is constructed from: operations by their index in the IR, buffers by that of their allocation. -/
structure FeasibleMemoryScheduler where
  opCount : ℕ
  getOpDeps : ℕ → List ℕ
  getConsumerOps : ℕ → List ℕ
  /-- Operations depend on operations before them. -/
  getOpDeps_lt : ∀ opIdx, ∀ dep ∈ getOpDeps opIdx, dep < opIdx
  getInputBuffers : ℕ → List ℕ
  getOutputBuffers : ℕ → List ℕ
  executorQueue : ℕ → QueueType
  operationCycleCost : ℕ → ℕ
  /-- The operation is a DMA from another memory into the one that is allocated. -/
  movesIntoMemKind : ℕ → Bool
  /-- The body calls the kernel `dequantize`. -/
  isSWDequant : ℕ → Bool
  getSize : ℕ → ℕ
  getAlignment : ℕ → ℕ
  /-- The offset of a buffer of a `StaticAllocOp`. -/
  staticOffset : ℕ → Option ℕ
  areMultipleDmaPortsNeeded : ℕ → Bool
  /-- A `ConcatViewOp` uses the buffer. -/
  hasConcatViewUser : ℕ → Bool
  /-- `getDMACost` of moving the buffer. -/
  spillCycleCost : ℕ → ℕ
  /-- The order in which a `DenseSet` of buffers is visited. -/
  denseOrder : List ℕ → List ℕ
  denseOrder_perm : ∀ buffers, (denseOrder buffers).Perm buffers
  spillReadQueueId : ℕ
  spillWriteQueueId : ℕ
  nceClusterCount : ℕ
  optimizeFragmentation : Bool
  activelySpillForPrefetching : Bool
  loopRegions : List LoopRegion

structure SchedulerState where
  cycleBeginHeap : List HeapEntry
  cycleEndHeap : List HeapEntry
  readyComputeOps : List ℕ
  readyDMAOps : List ℕ
  readyDataOps : List ℕ
  readySpilledOps : List (ℕ × ℕ)
  spillBufferMap : ℕ → Option (List ℕ)
  inDegreeTable : ℕ → Option ℕ
  bufferProducer : ℕ → Option ℕ
  bufferLastCycleUse : ℕ → Option ℕ
  opIdxEndCycleMap : ℕ → Option ℕ
  computeOpOrder : List (QueueType × List ℕ)
  executorPipelines : QueueType → List ℕ
  scan : BufferScan
  /-- The buffers that an operation still uses, as the live range information has them. -/
  getUsedBuffers : ℕ → List ℕ
  scheduledLoopRegionInd : List ℕ
  prefetchFailedDueToFragmentation : Bool
  prefetchFragmentationFailureCount : ℕ
  prefetchFragmentationFailureFixedCount : ℕ
  fragmentedBuffers : List ℕ
  evictionCandidateToSupportPrefetch : Option EvictionCandidate
  bufferProducerDeltas : UndoLog ℕ ℕ
  bufferLastCycleUseDeltas : UndoLog ℕ ℕ
  opIdxEndCycleMapDeltas : UndoLog ℕ ℕ

/-- A step of the scheduler; where it throws, the state stays as it is. -/
abbrev SchedulerM := EStateM String SchedulerState

def throwUnless (condition : Bool) (message : String) : SchedulerM Unit :=
  if condition then pure () else throw message

namespace BufferScan

variable (f : FeasibleMemoryScheduler) (scan : BufferScan)

def getAddress (val : ℕ) : ℕ := (f.staticOffset val).getD ((scan.handler.valOffsets val).getD 0)

def toLinearScan : Memory.LinearScan ℕ where
  partitioner := scan.partitioner
  liveRanges := scan.liveRanges
  handler :=
    { isAlive := scan.handler.isAlive
      isFixedAlloc := fun val => (f.staticOffset val).isSome
      getSize := f.getSize
      getAlignment := f.getAlignment
      getAddress := scan.getAddress f
      getSpillWeight := fun _ _ => 0
      acceptsSpill := fun _ _ => false
      log := [] }

def canAlloc (newLiveRanges : List ℕ) : Bool × BufferScan :=
  match (scan.toLinearScan f).canAlloc newLiveRanges .up with
  | (ok, after) => (ok, { scan with partitioner := after.partitioner })

def freeDeadRanges : BufferScan :=
  let after := (scan.toLinearScan f).freeDeadRanges
  { scan with partitioner := after.partitioner, liveRanges := after.liveRanges }

def alloc (newLiveRanges : List ℕ) : Except String (Bool × BufferScan) :=
  match (scan.toLinearScan f).alloc newLiveRanges false .up with
  | (false, after) => .ok (false, { scan with partitioner := after.partitioner })
  | (true, after) =>
    if newLiveRanges.any (fun val => (scan.handler.valOffsets val).isSome) then .error "Value was already allocated"
    else
      let valOffsets := fun val =>
        if val ∈ newLiveRanges then some (after.handler.getAddress val) else scan.handler.valOffsets val
      .ok (true, ⟨after.partitioner, after.liveRanges, { scan.handler with valOffsets := valOffsets }⟩)

end BufferScan

section
variable (f : FeasibleMemoryScheduler) (opIdx : ℕ)

def executorKind : ExecutorKind := (f.executorQueue opIdx).execKind

def isComputeExecutorKind (executorKind : ExecutorKind) : Bool :=
  executorKind = .dpu || executorKind = .shaveAct || executorKind = .m2i

def isOutputOp : Bool := (f.getConsumerOps opIdx).isEmpty

def isDataOpWithin : ℕ → ℕ → Bool
  | 0, _ => false
  | depth + 1, opIdx =>
    executorKind f opIdx = .dmaNN && !isOutputOp f opIdx && !(f.getOpDeps opIdx).any (isDataOpWithin depth) &&
      f.movesIntoMemKind opIdx

def isDataOp : Bool := isDataOpWithin f (opIdx + 1) opIdx

def isNoInputDepComputeOp : Bool :=
  executorKind f opIdx = .shaveAct && f.isSWDequant opIdx &&
    (f.getOpDeps opIdx).all (fun dep => isDataOp f dep && (f.getOpDeps dep).isEmpty)

def assignLevel (state : (ℕ → ℕ) × ℕ) (computeOpIdx : ℕ) : (ℕ → ℕ) × ℕ :=
  if isDataOp f computeOpIdx || !isComputeExecutorKind (executorKind f computeOpIdx) then state
  else
    let levels := Function.update state.1 computeOpIdx state.2
    ((f.getOpDeps computeOpIdx).foldl
      (fun levels dep => if levels dep ≠ 0 then levels else Function.update levels dep state.2) levels, state.2 + 1)

def opLevelVec : ℕ → ℕ := ((List.range f.opCount).foldl (assignLevel f) (fun _ => 0, 0)).1

def bufferOpIdxs (buffer : ℕ) : List ℕ :=
  (List.range f.opCount).filter (fun opIdx => buffer ∈ f.getOutputBuffers opIdx)

def outDegree (buffer : ℕ) : ℕ := ((bufferOpIdxs f buffer).map (fun opIdx => (f.getConsumerOps opIdx).length)).sum

def sortsBefore (val1 val2 : ℕ) : Bool :=
  if outDegree f val1 ≠ outDegree f val2 then outDegree f val2 < outDegree f val1
  else if f.getSize val1 ≠ f.getSize val2 then f.getSize val2 < f.getSize val1
  else val1 < val2

def sortUsedBuffers (operationBuffers : List ℕ) : Except String (List ℕ) :=
  if operationBuffers.all (fun val => !(bufferOpIdxs f val).isEmpty) then
    .ok (operationBuffers.insertionSort (fun val1 val2 => ¬ sortsBefore f val2 val1))
  else .error "Couldn't find the buffer in output async index map"

end

end NpuCompiler.Schedule
