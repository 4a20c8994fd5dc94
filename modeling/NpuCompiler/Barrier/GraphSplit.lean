import Mathlib.Data.List.Sort
import NpuCompiler.Barrier.MutatorCalls

namespace NpuCompiler.Barrier

structure GraphSplit where
  syncTasksIds : List ℕ
  taskToBlockMap : List ℕ

namespace GraphSplit

variable (split : GraphSplit) (s : BarrierInfo)

def getControlGraphBlockIndex (taskInd : ℕ) : Except String ℕ :=
  if split.syncTasksIds = [] then .ok 0
  else
    let size := split.taskToBlockMap.length
    if taskInd < size then .ok (split.taskToBlockMap.getD taskInd 0)
    else .error s!"Task index '{taskInd}' out of range. Needs to be < '{size}"

def getControlGraphBlockCount : ℕ := split.syncTasksIds.length + 1

def isSyncPoint (taskIdx : ℕ) : Except String Bool :=
  let nTasks := s.getNumOfTasks
  let size := split.taskToBlockMap.length
  if taskIdx ≥ nTasks then .error s!"Requested task index ({taskIdx}) is too large for the number of tasks ({nTasks})"
  else if split.syncTasksIds = [] ∨ taskIdx = nTasks - 1 then .ok false
  else if size ≠ nTasks then .error s!"_taskToBlockMap was not initialized (size {size}) for {nTasks} tasks."
  else .ok (split.taskToBlockMap.getD (taskIdx + 1) 0 != split.taskToBlockMap.getD taskIdx 0)

def getBarrierLatestProducer (barInd : ℕ) : Except String ℕ :=
  if barInd ≥ s.getNumOfBarrierOps then .error s!"Barrier not found in _barrierProducerMap, '{barInd}'"
  else match (s.getBarrierProducers barInd).toList.max? with
    | none => .error s!"Barrier {barInd} does not have any producers."
    | some latest => .ok latest

def getBarrierBlockIndex (barInd : ℕ) : Except String ℕ := do
  let barrierLastProducer ← getBarrierLatestProducer s barInd
  let sync ← split.isSyncPoint s barrierLastProducer
  let blockInd ← split.getControlGraphBlockIndex barrierLastProducer
  return if sync then blockInd + 1 else blockInd

def getControlGraphSyncPoint (taskInd : ℕ) : Except String (Option ℕ) := do
  let blockInd ← split.getControlGraphBlockIndex taskInd
  return split.syncTasksIds[blockInd]?

def getPreviousBlockSyncPoint (taskInd : ℕ) : Except String (Option ℕ) := do
  let blockInd ← split.getControlGraphBlockIndex taskInd
  if blockInd = 0 then return none
  else if blockInd = split.syncTasksIds.length then return split.syncTasksIds.getLast?
  else return split.syncTasksIds[blockInd - 1]?

def getControlGraphBlockTaskRange (blockInd : ℕ) (blockStartSyncPoint blockEndSyncPoint : Bool) : Except String (ℕ × ℕ) :=
  if blockInd ≥ split.getControlGraphBlockCount then .error s!"Invalid task block index ({blockInd})"
  else
    let blockStartInd := if blockInd = 0 then 0
      else if blockStartSyncPoint then split.syncTasksIds.getD (blockInd - 1) 0
      else split.syncTasksIds.getD (blockInd - 1) 0 + 1
    let blockEndInd := if blockInd = split.getControlGraphBlockCount - 1 then s.getNumOfTasks - 1
      else if blockEndSyncPoint then split.syncTasksIds.getD blockInd 0
      else split.syncTasksIds.getD blockInd 0 - 1
    .ok (blockStartInd, blockEndInd)

abbrev TaskControlMap := List (List Bool)

def setBit (taskControlMap : TaskControlMap) (row bit : ℕ) : TaskControlMap :=
  taskControlMap.modify row (fun bits => bits.set bit true)

def orRow (taskControlMap : TaskControlMap) (row other : ℕ) : TaskControlMap :=
  taskControlMap.modify row (fun bits => bits.zipWith or (taskControlMap.getD other []))

def inRange (low high val : ℕ) : Bool := low ≤ val && val ≤ high

def childTasks (taskInd : ℕ) : List (ℕ × ℕ) :=
  (s.getUpdateBarriers taskInd).toList.flatMap (fun updateBarrierInd =>
    (s.getBarrierConsumers updateBarrierInd).toList.map (fun childTaskInd => (updateBarrierInd, childTaskInd)))

def tasksFrom (start stop : ℕ) : List ℕ := (List.range (stop - start)).map (start + ·)

/-- The block of each task. The state holds the map, the first task of the next block, and the index of that block. -/
def buildTaskBlockMap (syncTasksIds : List ℕ) (nTasks : ℕ) : List ℕ :=
  let fill (taskToBlockMap tasks : List ℕ) (blockInd : ℕ) := tasks.foldl (fun blocks taskInd => blocks.set taskInd blockInd) taskToBlockMap
  let (taskToBlockMap, blockStartInd, blockInd) := syncTasksIds.foldl (fun (taskToBlockMap, blockStartInd, blockInd) syncTaskInd =>
    (fill taskToBlockMap (tasksFrom blockStartInd (syncTaskInd + 1)) blockInd, syncTaskInd + 1, blockInd + 1))
    (List.replicate nTasks 0, 0, 0)
  fill taskToBlockMap (tasksFrom blockStartInd nTasks) blockInd

section
variable (blockStartInd blockEndInd : ℕ)

def directRows (taskControlMap : TaskControlMap) (taskInd : ℕ) : TaskControlMap :=
  (childTasks s taskInd).foldl (fun taskControlMap (_, consumerIdx) =>
    if inRange blockStartInd blockEndInd consumerIdx then
      setBit taskControlMap (taskInd - blockStartInd) (consumerIdx - blockStartInd)
    else taskControlMap) taskControlMap

def inheritRows (taskControlMap : TaskControlMap) (taskInd : ℕ) : TaskControlMap :=
  (childTasks s taskInd).foldl (fun taskControlMap (_, childTaskInd) =>
    if inRange blockStartInd blockEndInd childTaskInd then
      orRow taskControlMap (taskInd - blockStartInd) (childTaskInd - blockStartInd)
    else taskControlMap) taskControlMap

def inheritTask (ignoreOutOfBlockDependencies : Bool) (state : TaskControlMap × List ℕ) (taskInd : ℕ) :
    Except String (TaskControlMap × List ℕ) := do
  let sync ← if taskInd = blockEndInd then split.isSyncPoint s taskInd else .ok false
  if sync then return state
  else
    let back := (childTasks s taskInd).filter (fun (_, child) => inRange blockStartInd blockEndInd child && child < taskInd)
    let inherited := (inheritRows s blockStartInd blockEndInd state.1 taskInd, state.2 ++ back.map (fun _ => taskInd))
    match (childTasks s taskInd).find? (fun (_, child) => !inRange blockStartInd blockEndInd child) with
    | none => return inherited
    | some (updateBarrierInd, childTaskInd) =>
      if ignoreOutOfBlockDependencies then return inherited
      else throw (s!"Task {taskInd} has update barrier {updateBarrierInd} with a consumer ({childTaskInd}) " ++
        s!"from outside of the current range [{blockStartInd}, {blockEndInd}].")

def revisitRows (taskControlMap : TaskControlMap) (tasksWithDepsToSmallerIndexes : List ℕ) : TaskControlMap :=
  match tasksWithDepsToSmallerIndexes.max? with
  | none => taskControlMap
  | some highestTaskInd =>
    let revisited := (tasksWithDepsToSmallerIndexes.insertionSort (· ≤ ·)).foldl
      (inheritRows s blockStartInd blockEndInd) taskControlMap
    (tasksFrom blockStartInd highestTaskInd).reverse.foldl (inheritRows s blockStartInd blockEndInd) revisited

end

def buildTaskControlMap (blockIdx : ℕ) (ignoreOutOfBlockDependencies : Bool) : Except String (TaskControlMap × ℕ) := do
  let (blockStartInd, blockEndInd) ← split.getControlGraphBlockTaskRange s blockIdx true true
  if blockStartInd > blockEndInd then
    throw s!"Invalid range of tasks for building task control map [{blockStartInd}, {blockEndInd}]"
  else
    let size := blockEndInd - blockStartInd + 1
    let tasks := (tasksFrom blockStartInd (blockEndInd + 1)).reverse
    let direct := tasks.foldl (directRows s blockStartInd blockEndInd) (List.replicate size (List.replicate size false))
    let (taskControlMap, tasksWithDepsToSmallerIndexes) ← tasks.foldlM
      (split.inheritTask s blockStartInd blockEndInd ignoreOutOfBlockDependencies) (direct, [])
    return (revisitRows s blockStartInd blockEndInd taskControlMap tasksWithDepsToSmallerIndexes, blockStartInd)

def controlPathExistsBetweenTasksInSameBlock (taskControlMap : TaskControlMap) (taskAInd taskBInd : ℕ)
    (biDirection : Bool) : Except String Bool :=
  let get (a b : ℕ) : Bool := (taskControlMap.getD a []).getD b false
  if taskControlMap = [] then .error "Task control map not initialized"
  else if taskAInd ≥ taskControlMap.length then .error s!"taskAInd out of range {taskAInd}"
  else if taskBInd ≥ taskControlMap.length then .error s!"taskBInd out of range {taskBInd}"
  else if taskAInd = taskBInd then .ok true
  else if biDirection then .ok (get taskAInd taskBInd || get taskBInd taskAInd)
  else .ok (get taskAInd taskBInd)

end GraphSplit

end NpuCompiler.Barrier

namespace NpuCompiler.Barrier

open GraphSplit

/-- An exception of the source, or a step for which it has no defined result. -/
inductive Failure
  | thrown (message : String)
  | undefined
  deriving DecidableEq

structure Traced where
  info : BarrierInfo
  calls : List (BarrierInfo × Call)

abbrev GraphM := EStateM Failure Traced

def ask {α : Type} (f : BarrierInfo → Except String α) : GraphM α := readState (fun s => (f s.info).mapError .thrown)

def perform (call : Call) : GraphM PUnit := fun s =>
  let calls := s.calls ++ [(s.info, call)]
  match call.apply s.info with
  | some info => .ok ⟨⟩ ⟨info, calls⟩
  | none => .error .undefined ⟨s.info, calls⟩

structure Adjusting where
  dependenciesChanged : Bool
  controlMapBlockInd : ℕ
  taskControlMap : TaskControlMap
  controlMapOffset : ℕ

section
variable (split : GraphSplit)

def updateControlMap (taskBlockInd : ℕ) (state : Adjusting) : GraphM Adjusting :=
  if state.controlMapBlockInd = taskBlockInd then pure state
  else do
    let (taskControlMap, controlMapOffset) ← ask (split.buildTaskControlMap · taskBlockInd true)
    return { state with controlMapBlockInd := taskBlockInd, taskControlMap, controlMapOffset }

def offsetFrom (taskInd controlMapOffset : ℕ) : ℕ := (taskInd + 2 ^ 64 - controlMapOffset) % 2 ^ 64

def controlPathExists (state : Adjusting) (taskA taskB : ℕ) : GraphM Bool :=
  ask (fun _ => controlPathExistsBetweenTasksInSameBlock state.taskControlMap (offsetFrom taskA state.controlMapOffset)
    (offsetFrom taskB state.controlMapOffset) false)

def linkToSyncPoint (taskInd syncPoint : ℕ) (syncPointWaitBars : TaskSet) (state : Adjusting) : GraphM Adjusting := do
  let path ← controlPathExists state taskInd syncPoint
  if path then return state
  else
    syncPointWaitBars.toList.forM (fun syncPointWaitBar => perform (.addProducer syncPointWaitBar taskInd))
    return state

def adjustUpdateBarrier (taskInd taskBlockInd : ℕ) (taskSyncPoint : Option ℕ) (state : Adjusting) (updateBarrierInd : ℕ) :
    GraphM Adjusting := do
  let barrierBlockIndex ← ask (split.getBarrierBlockIndex · updateBarrierInd)
  match taskSyncPoint with
  | none =>
    if barrierBlockIndex ≠ taskBlockInd then
      throw (.thrown s!"taskInd '{taskInd}' does not have sync point and should not have out-of-block consumers")
    else return state
  | some syncPoint =>
    if taskBlockInd = barrierBlockIndex then return state
    else
      let sync ← ask (split.isSyncPoint · taskInd)
      if sync && taskBlockInd + 1 = barrierBlockIndex then return state
      else
        perform (.removeProducer updateBarrierInd taskInd)
        let syncPointWaitBars ← ask (fun s => .ok (s.getWaitBarriers syncPoint))
        if syncPointWaitBars.toList = [] then
          throw (.thrown s!"Sync point '{syncPoint}' does not have wait barriers.")
        else
          let state ← updateControlMap split taskBlockInd { state with dependenciesChanged := true }
          if sync then return state else linkToSyncPoint taskInd syncPoint syncPointWaitBars state

def removeProducersWithoutConsumers (waitBarrierInd : ℕ) : GraphM PUnit := do
  let barrierConsumers ← ask (fun s => .ok (s.getBarrierConsumers waitBarrierInd))
  if barrierConsumers.toList = [] then perform (.removeOwnProducers waitBarrierInd) else return ⟨⟩

def linkToPreviousSyncPoint (taskInd taskBlockInd : ℕ) (state : Adjusting) : GraphM Adjusting := do
  let prevSyncPoint ← ask (fun _ => split.getPreviousBlockSyncPoint taskInd)
  match prevSyncPoint with
  | none => throw (.thrown s!"There's not sync-point preceding task {taskInd}")
  | some syncPoint =>
    let state ← updateControlMap split taskBlockInd { state with dependenciesChanged := true }
    let sync ← ask (split.isSyncPoint · taskInd)
    if sync then return state
    else
      let path ← controlPathExists state syncPoint taskInd
      if path then return state
      else
        let prevSyncPointUpdateBarriers ← ask (fun s => .ok (s.getUpdateBarriers syncPoint))
        prevSyncPointUpdateBarriers.toList.forM (fun syncPointUpdateBarrierInd =>
          perform (.addConsumer syncPointUpdateBarrierInd taskInd))
        return state

def adjustWaitBarrier (taskInd taskBlockInd : ℕ) (state : Adjusting) (waitBarrierInd : ℕ) : GraphM Adjusting := do
  let barrierBlockIndex ← ask (split.getBarrierBlockIndex · waitBarrierInd)
  let barrierLastProducer ← ask (getBarrierLatestProducer · waitBarrierInd)
  if taskBlockInd = barrierBlockIndex then return state
  else
    let lastSync ← ask (split.isSyncPoint · barrierLastProducer)
    if lastSync && taskBlockInd - 1 = barrierBlockIndex then return state
    else
      perform (.removeConsumer waitBarrierInd taskInd)
      removeProducersWithoutConsumers waitBarrierInd
      linkToPreviousSyncPoint split taskInd taskBlockInd state

def adjustTask (state : Adjusting) (taskInd : ℕ) : GraphM Adjusting := do
  let taskBlockInd ← ask (fun _ => split.getControlGraphBlockIndex taskInd)
  let taskSyncPoint ← ask (fun _ => split.getControlGraphSyncPoint taskInd)
  let taskUpdateBarriers ← ask (fun s => .ok (s.getUpdateBarriers taskInd))
  let state ← taskUpdateBarriers.toList.foldlM (adjustUpdateBarrier split taskInd taskBlockInd taskSyncPoint) state
  let taskWaitBarriers ← ask (fun s => .ok (s.getWaitBarriers taskInd))
  taskWaitBarriers.toList.foldlM (adjustWaitBarrier split taskInd taskBlockInd) state

def adjustTasksDependenciesToGraphSplitConstraints (tasks : List ℕ) : GraphM Bool :=
  if split.syncTasksIds = [] then pure false
  else do
    let state ← tasks.foldlM (adjustTask split) ⟨false, 2 ^ 64 - 1, [], 0⟩
    return state.dependenciesChanged

end

end NpuCompiler.Barrier
