import Mathlib.Data.BitVec
import NpuCompiler.Barrier.GraphSplit
import NpuCompiler.Barrier.SingleWait

namespace NpuCompiler.Barrier

structure TaskQueueType where
  type : ExecutorKind
  id : ℤ
  deriving DecidableEq, Repr

theorem dmaThenDpu_nodup : [(⟨.dmaNN, 0⟩ : TaskQueueType), ⟨.dpu, 0⟩].Nodup := by decide

structure OptimizeConfig where
  split : GraphSplit
  taskOp : ℕ → TaskOp
  getTaskQueueType : ℕ → TaskQueueType
  /-- The keys of `_taskQueueTypeMap`. -/
  taskQueueTypes : List TaskQueueType
  taskQueueTypes_nodup : taskQueueTypes.Nodup
  barrierMaxVariantSum : ℕ

structure FifoBarrierInfo where
  maps : BarrierInfo
  /-- `_allBarrierOps.size()`. -/
  numOfBarrierOps : ℕ
  /-- The temporary barriers, each with its parent and its child task. -/
  fifoDependencies : List (ℕ × ℕ × ℕ)
  deriving DecidableEq

namespace FifoBarrierInfo

open BarrierInfo GraphSplit

variable (config : OptimizeConfig) (s : FifoBarrierInfo)

def getBarriersForTaskBlock (blockInd : ℕ) (blockStartSyncPoint blockEndSyncPoint updateBarriers : Bool) :
    Except String (List ℕ) := do
  let (blockStartInd, blockEndInd) ←
    config.split.getControlGraphBlockTaskRange s.maps blockInd blockStartSyncPoint blockEndSyncPoint
  let barriers (taskInd : ℕ) := if updateBarriers then s.maps.getUpdateBarriers taskInd else s.maps.getWaitBarriers taskInd
  return (List.range (s.numOfBarrierOps + s.fifoDependencies.length)).filter (fun barIdx =>
    (tasksFrom blockStartInd (blockEndInd + 1)).any (fun taskInd => barIdx ∈ barriers taskInd))

section
variable {barrierSize : ℕ} (blockStartInd blockEndInd barrierOffset : ℕ)

def setBarrierMask (mask : BitVec barrierSize) (barriers : TaskSet) (offset : ℕ) : BitVec barrierSize :=
  barriers.toList.foldl (fun mask bar => mask ||| BitVec.twoPow barrierSize (bar - offset)) mask

def setBits (mask : BitVec barrierSize) : List ℕ := (List.range barrierSize).filter mask.getLsbD

def linkedTasks (own other : LinkMap 16) (taskInd : ℕ) : List ℕ :=
  (row own.right taskInd).toList.flatMap (fun barrierInd => (row other.left barrierInd).toList)

/-- The mask of a task gets its own barriers and those of the linked tasks, unless it is a sync point at `bound`. -/
def collectMask (own other : LinkMap 16) (bound : ℕ) (message : ℕ → ℕ → String) (masks : List (BitVec barrierSize))
    (taskInd : ℕ) : Except String (List (BitVec barrierSize)) := do
  let masks := masks.modify (taskInd - blockStartInd) (setBarrierMask · (row own.right taskInd) barrierOffset)
  let sync ← if taskInd = bound then config.split.isSyncPoint s.maps taskInd else .ok false
  if sync then return masks
  else
    (linkedTasks own other taskInd).foldlM (fun masks linkedInd =>
      if inRange blockStartInd blockEndInd linkedInd then
        .ok (masks.modify (taskInd - blockStartInd) (· ||| masks.getD (linkedInd - blockStartInd) 0))
      else .error (message taskInd linkedInd)) masks

def removeRedundant (other : LinkMap 16) (state : LinkMap 16 × List (BitVec barrierSize)) (taskInd : ℕ) :
    LinkMap 16 × List (BitVec barrierSize) :=
  let masks := (linkedTasks state.1 other taskInd).foldl (fun masks linkedInd =>
    if inRange blockStartInd blockEndInd linkedInd then
      masks.modify (taskInd - blockStartInd) (· &&& ~~~ masks.getD (linkedInd - blockStartInd) 0)
    else masks) state.2
  let targetBarriers := (setBits (masks.getD (taskInd - blockStartInd) 0)).map (· + barrierOffset)
  (state.1.setRight taskInd (SmallSet.ofList targetBarriers), masks)

end

/-- The common part of `optimizeBarrierProducers` and `optimizeBarrierConsumers`: `own` is the map that is reduced, `order`
the order of the tasks in the first loop, and `message` that of a linked task outside of the range. -/
def optimizeLinks (blockIdx : ℕ) (updateBarriers : Bool) (own other : LinkMap 16) (bound : ℕ → ℕ → ℕ)
    (order : List ℕ → List ℕ) (message : ℕ → ℕ → ℕ → ℕ → String) : Except String (LinkMap 16) := do
  let (blockStartInd, blockEndInd) ← config.split.getControlGraphBlockTaskRange s.maps blockIdx true true
  let barriersRangeVec ← s.getBarriersForTaskBlock config blockIdx true true updateBarriers
  if barriersRangeVec = [] then return own
  else
    let barrierOffset := barriersRangeVec.headD 0
    let blockEndInd := min blockEndInd (s.maps.getNumOfTasks - 1)
    if blockStartInd > blockEndInd then throw "Lower bound of task optimization range is greater than upper bound"
    else
      let blockSize := blockEndInd - blockStartInd + 1
      let barrierSize := barriersRangeVec.getLastD 0 - barriersRangeVec.headD 0 + 1
      let tasks := order (tasksFrom blockStartInd (blockEndInd + 1))
      let masks ← tasks.foldlM (s.collectMask config blockStartInd blockEndInd barrierOffset own other
        (bound blockStartInd blockEndInd) (fun taskInd linkedInd => message taskInd linkedInd blockStartInd blockEndInd))
        (List.replicate blockSize (0 : BitVec barrierSize))
      return (tasks.reverse.foldl (removeRedundant blockStartInd blockEndInd barrierOffset other) (own, masks)).1

def optimizeBarrierProducers (blockIdx : ℕ) : Except String FifoBarrierInfo := do
  let produce ← s.optimizeLinks config blockIdx true s.maps.produce s.maps.consume (fun _ blockEndInd => blockEndInd)
    List.reverse (fun taskInd childTaskInd blockStartInd blockEndInd =>
      s!"Task {taskInd} has update barriers with a consumer ({childTaskInd}) from outside of the current " ++
        s!"range [{blockStartInd}, {blockEndInd}].")
  return { s with maps := { s.maps with produce } }

def optimizeBarrierConsumers (blockIdx : ℕ) : Except String FifoBarrierInfo := do
  let consume ← s.optimizeLinks config blockIdx false s.maps.consume s.maps.produce (fun blockStartInd _ => blockStartInd)
    id (fun taskInd parentTaskInd blockStartInd blockEndInd =>
      s!"Task {taskInd} has wait barriers with a producer ({parentTaskInd}) from outside of the current range " ++
        s!"[{blockStartInd}, {blockEndInd}].")
  return { s with maps := { s.maps with consume } }

section
variable (checkValidSlotCount : Bool)

def slotsUsedByTasks (tasks : TaskSet) : ℕ := (tasks.toList.map (fun taskInd => (config.taskOp taskInd).numOfSlotsUsed)).sum

def legalMergeSlotCount (maps : BarrierInfo) (bar1 bar2 : ℕ) : Bool :=
  !checkValidSlotCount || slotsUsedByTasks config (maps.getBarrierProducers bar1) +
    slotsUsedByTasks config ((maps.getBarrierConsumers bar1).union (maps.getBarrierConsumers bar2)) ≤ config.barrierMaxVariantSum

/-- All consumers move to the first of two barriers with the same producers. The state holds the producers as they were
copied for the comparison. -/
def mergeSameProducers (barriersRangeVec : List ℕ) (state : BarrierInfo × List (List ℕ)) (inds : ℕ × ℕ) :
    BarrierInfo × List (List ℕ) :=
  let barInd := barriersRangeVec.getD inds.1 0
  let childBarInd := barriersRangeVec.getD inds.2 0
  if state.2.getD inds.1 [] = state.2.getD inds.2 [] ∧ legalMergeSlotCount config checkValidSlotCount state.1 barInd childBarInd then
    ((state.1.addConsumers barInd (state.1.getBarrierConsumers childBarInd).toList).resetBarrier childBarInd,
      state.2.set inds.2 [])
  else state

def optimizeBarriersWithSameProducers (blockIdx : ℕ) : Except String FifoBarrierInfo := do
  let barriersRangeVec ← s.getBarriersForTaskBlock config blockIdx true false true
  if barriersRangeVec = [] then return s
  else
    let maxBarrierIndex := s.numOfBarrierOps + s.fifoDependencies.length - 1
    if barriersRangeVec.headD 0 > maxBarrierIndex then
      throw "Invalid barrier index for lower limit of barrier range optimization"
    else if barriersRangeVec.getLastD 0 > maxBarrierIndex then
      throw "Invalid barrier index for upper limit of barrier range optimization"
    else
      let blockBarrierProducerMap := barriersRangeVec.map (fun barInd => (s.maps.getBarrierProducers barInd).toList)
      let inds := (List.range barriersRangeVec.length).flatMap (fun ind1 =>
        (tasksFrom (ind1 + 1) barriersRangeVec.length).map (fun ind2 => (ind1, ind2)))
      return { s with
        maps := (inds.foldl (mergeSameProducers config checkValidSlotCount barriersRangeVec) (s.maps, blockBarrierProducerMap)).1 }

def hasBarrierDependency (maps : BarrierInfo) (taskOneIdx taskTwoIdx : ℕ) : Option ℕ :=
  (maps.getUpdateBarriers taskOneIdx).toList.find? (fun barrier => barrier ∈ maps.getWaitBarriers taskTwoIdx)

def addTemporaryBarrierDependence (prevIndex currentIndex : ℕ) : FifoBarrierInfo :=
  let tempBarrierInd := s.maps.getNumOfBarrierOps
  { s with
    maps := (s.maps.addNewBarrier.addProducer tempBarrierInd prevIndex).addConsumer tempBarrierInd currentIndex
    fifoDependencies := s.fifoDependencies ++ [(tempBarrierInd, prevIndex, currentIndex)] }

def addFifoDependency (prevIndex currIndex : ℕ) : FifoBarrierInfo :=
  match hasBarrierDependency s.maps prevIndex currIndex with
  | none => s.addTemporaryBarrierDependence prevIndex currIndex
  | some _ => s

def linkFifoTasks (blockEndInd : ℕ) (s : FifoBarrierInfo) (prevIndex : ℕ) : List ℕ → FifoBarrierInfo
  | [] => s
  | currIndex :: fifoTasks =>
    if currIndex ≤ blockEndInd then linkFifoTasks blockEndInd (s.addFifoDependency prevIndex currIndex) currIndex fifoTasks
    else s

def linkQueue (executorKind : Option (List ExecutorKind)) (blockStartInd blockEndInd : ℕ) (s : FifoBarrierInfo)
    (entry : TaskQueueType × List ℕ) : FifoBarrierInfo :=
  let (queueType, fifoTasks) := entry
  if executorKind.any (fun kinds => queueType.type ∉ kinds) then s
  else if fifoTasks.length < 2 then s
  else match fifoTasks.find? (fun taskInd => blockStartInd ≤ taskInd && taskInd < blockEndInd) with
    | none => s
    | some prevIndex => linkFifoTasks blockEndInd s prevIndex (fifoTasks.filter (prevIndex < ·))

def buildTaskQueueTypeMap (numOfTasks : ℕ) : List (TaskQueueType × List ℕ) :=
  config.taskQueueTypes.map (fun queueType =>
    (queueType, (List.range numOfTasks).filter (fun taskInd => config.getTaskQueueType taskInd = queueType)))

def createBarrierDependenciesImpliedByFIFO (taskQueueTypeMap : List (TaskQueueType × List ℕ)) (blockIdx : ℕ)
    (executorKind : Option (List ExecutorKind)) : Except String FifoBarrierInfo := do
  if taskQueueTypeMap = [] then throw "TaskQueueTypeMap has not been created"
  else
    let (blockStartInd, blockEndInd) ← config.split.getControlGraphBlockTaskRange s.maps blockIdx false false
    return taskQueueTypeMap.foldl (linkQueue executorKind blockStartInd blockEndInd) s

def usersOfTemporaryBarriers (barrierMap : List TaskSet) : ℕ :=
  ((barrierMap.drop (barrierMap.length - s.fifoDependencies.length)).map SmallSet.size).sum

def removeTemporaryBarriers (barrierMap : List TaskSet) : List TaskSet :=
  barrierMap.take (barrierMap.length - s.fifoDependencies.length)

def removeBarrierDependency (maps : BarrierInfo) (dep : ℕ × ℕ × ℕ) : BarrierInfo :=
  let (barrierIdx, parentTaskIdx, childTaskIdx) := dep
  if hasBarrierDependency maps parentTaskIdx childTaskIdx = some barrierIdx then
    (maps.removeProducer barrierIdx parentTaskIdx).removeConsumer barrierIdx childTaskIdx
  else maps

def removeBarrierDependenciesImpliedByFIFO : Except String FifoBarrierInfo :=
  let maps := s.fifoDependencies.foldl removeBarrierDependency s.maps
  if s.usersOfTemporaryBarriers maps.produce.left ≠ 0 then .error "Found producers for temporary barrier."
  else if s.usersOfTemporaryBarriers maps.consume.left ≠ 0 then .error "Found consumers for temporary barrier."
  else .ok ⟨⟨⟨s.removeTemporaryBarriers maps.produce.left, maps.produce.right⟩,
    ⟨s.removeTemporaryBarriers maps.consume.left, maps.consume.right⟩⟩, s.numOfBarrierOps, []⟩

variable (considerTaskFifoDependency : Bool) (executors : List ExecutorKind)

def optimizeBlock (taskQueueTypeMap : List (TaskQueueType × List ℕ)) (numBarriersBeforeOptimization : ℕ)
    (s : FifoBarrierInfo) (taskBlockIndex : ℕ) : Except String FifoBarrierInfo := do
  let created := if considerTaskFifoDependency then
      s.createBarrierDependenciesImpliedByFIFO config taskQueueTypeMap taskBlockIndex (some executors)
    else .ok s
  let s ← created
  let s ← s.optimizeBarrierProducers config taskBlockIndex
  let s ← s.optimizeBarriersWithSameProducers config checkValidSlotCount taskBlockIndex
  let s ← s.optimizeBarrierConsumers config taskBlockIndex
  if s.numOfBarrierOps ≠ numBarriersBeforeOptimization then throw "Number of barriers changed during optimization."
  else if considerTaskFifoDependency then
    let s ← s.removeBarrierDependenciesImpliedByFIFO
    if s.numOfBarrierOps ≠ numBarriersBeforeOptimization then
      throw "Incorrect number of barriers after removing barrier representation of FIFO dependencies."
    else return s
  else return s

def optimizeBarriers : Except String FifoBarrierInfo :=
  (List.range config.split.getControlGraphBlockCount).foldlM
    (optimizeBlock config checkValidSlotCount considerTaskFifoDependency executors
      (buildTaskQueueTypeMap config s.maps.getNumOfTasks) s.numOfBarrierOps) s

end

end FifoBarrierInfo

end NpuCompiler.Barrier
