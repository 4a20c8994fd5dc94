import NpuCompiler.Barrier.OptimizeBarriers

namespace NpuCompiler.Barrier

def TaskQueueType.before (a b : TaskQueueType) : Bool :=
  if a.type = b.type then a.id < b.id else a.type.ctorIdx < b.type.ctorIdx

abbrev QueueTaskMap := List (TaskQueueType × ℕ)

def QueueTaskMap.set (map : QueueTaskMap) (queueType : TaskQueueType) (taskInd : ℕ) : QueueTaskMap :=
  map.filter (fun entry => entry.1.before queueType) ++ (queueType, taskInd) :: map.filter (fun entry => queueType.before entry.1)

/-- `syncTaskWaitAndUpdateBarrierIndMap`: the wait and the update barrier of each sync task. -/
abbrev SyncBarriers := List (ℕ × ℕ × ℕ)

def SyncBarriers.waitBar (map : SyncBarriers) (syncTaskInd : ℕ) : ℕ := ((map.lookup syncTaskInd).getD (0, 0)).1

def SyncBarriers.updateBar (map : SyncBarriers) (syncTaskInd : ℕ) : ℕ := ((map.lookup syncTaskInd).getD (0, 0)).2

structure SplitConfig where
  blockSize : ℕ
  tasksSize : ℕ
  barriersCount : ℕ
  getTaskQueueType : ℕ → TaskQueueType

namespace SplitConfig

open GraphSplit

variable (config : SplitConfig) (syncBarriers : SyncBarriers)

def numOfBlocks : ℕ :=
  config.tasksSize / config.blockSize + if config.tasksSize % config.blockSize > 0 then 1 else 0

def isSyncPoint (taskIdx : ℕ) : Bool := taskIdx ≠ config.tasksSize - 1 && (taskIdx + 1) % config.blockSize = 0

section

def addSyncBarriers (state : BarrierInfo × SyncBarriers) (blockInd : ℕ) : BarrierInfo × SyncBarriers :=
  let syncTaskInd := blockInd * config.blockSize - 1
  let waitBarInd := state.1.getNumOfBarrierOps
  let s := state.1.addNewBarrier.addConsumer waitBarInd syncTaskInd
  let updateBarInd := s.getNumOfBarrierOps
  (s.addNewBarrier.addProducer updateBarInd syncTaskInd, state.2 ++ [(syncTaskInd, waitBarInd, updateBarInd)])

structure QueueEnds where
  info : BarrierInfo
  firstTaskWithNoWaitBar : QueueTaskMap
  lastTaskWithNoUpdateBar : QueueTaskMap

def linkLastTasks (state : QueueEnds) (taskInd : ℕ) : QueueEnds :=
  let taskBlockInd := taskInd / config.blockSize
  let syncTaskInd := taskBlockInd * config.blockSize + config.blockSize - 1
  if taskBlockInd < config.numOfBlocks - 1 then
    if taskInd = syncTaskInd then
      { state with
        info := state.info.addProducers (syncBarriers.waitBar syncTaskInd) (state.lastTaskWithNoUpdateBar.map Prod.snd)
        lastTaskWithNoUpdateBar := [] }
    else if (state.info.getUpdateBarriers taskInd).toList = [] then
      { state with lastTaskWithNoUpdateBar := state.lastTaskWithNoUpdateBar.set (config.getTaskQueueType taskInd) taskInd }
    else state
  else state

/-- The first task without wait barriers of each queue is linked to the sync task of the previous block. -/
def linkFirstTasks (state : QueueEnds) (taskInd : ℕ) : QueueEnds :=
  let taskBlockInd := taskInd / config.blockSize
  let syncTaskInd := taskBlockInd * config.blockSize + config.blockSize - 1
  if taskBlockInd > 0 then
    if taskInd = syncTaskInd ∨ taskInd = config.tasksSize - 1 then
      let prevSyncTaskInd := taskBlockInd * config.blockSize - 1
      { state with
        info := state.info.addConsumers (syncBarriers.updateBar prevSyncTaskInd) (state.firstTaskWithNoWaitBar.map Prod.snd)
        firstTaskWithNoWaitBar := [] }
    else if (state.info.getWaitBarriers taskInd).toList = [] then
      let queueType := config.getTaskQueueType taskInd
      if queueType ∈ state.firstTaskWithNoWaitBar.map Prod.fst then state
      else { state with firstTaskWithNoWaitBar := state.firstTaskWithNoWaitBar.set queueType taskInd }
    else state
  else state

def linkQueueEnds (state : QueueEnds) (taskInd : ℕ) : QueueEnds :=
  config.linkFirstTasks syncBarriers (config.linkLastTasks syncBarriers state taskInd) taskInd

def blockTasks (tasks : TaskSet) : List (ℕ × TaskSet) :=
  (sortedOf (tasks.toList.map (· / config.blockSize))).map (fun blockInd =>
    (blockInd, SmallSet.ofList (tasks.toList.filter (· / config.blockSize = blockInd))))

def getSetWithNoSyncTasks (taskSet : TaskSet) : TaskSet := SmallSet.ofList (taskSet.toList.filter (!config.isSyncPoint ·))

def moveToSyncTask (s : BarrierInfo) (blockId : ℕ) (tasks : TaskSet) : BarrierInfo :=
  let nextSyncTaskInd := blockId * config.blockSize - 1 + config.blockSize
  if nextSyncTaskInd < config.tasksSize then
    s.addProducers (syncBarriers.waitBar nextSyncTaskInd) (config.getSetWithNoSyncTasks tasks).toList
  else s

def addBlockBarrier (s : BarrierInfo) (tasks consumers : TaskSet) : BarrierInfo :=
  let newBarInd := s.getNumOfBarrierOps
  (s.addNewBarrier.addProducers newBarInd tasks.toList).addConsumers newBarInd consumers.toList

def moveProducers (barInd barBlockId lastProdBlockId : ℕ) (barConsBlockTasks : List (ℕ × TaskSet)) (s : BarrierInfo)
    (barProdBlockTasks : ℕ × TaskSet) : BarrierInfo :=
  let (blockId, tasks) := barProdBlockTasks
  if blockId = barBlockId then s
  else
    let removed := tasks.toList.foldl (fun s taskInd => s.removeProducer barInd taskInd) s
    let moved := match if blockId ≠ lastProdBlockId then none else barConsBlockTasks.lookup blockId with
      | none => config.moveToSyncTask syncBarriers removed blockId tasks
      | some consumers => addBlockBarrier removed tasks consumers
    moved.addConsumers (syncBarriers.updateBar (blockId * config.blockSize - 1)) (config.getSetWithNoSyncTasks tasks).toList

def dropConsumers (barInd barBlockId : ℕ) (s : BarrierInfo) (barConsBlockTasks : ℕ × TaskSet) : BarrierInfo :=
  let (blockId, tasks) := barConsBlockTasks
  if blockId = barBlockId then s
  else tasks.toList.foldl (fun s taskInd => s.removeConsumer barInd taskInd) s

def moveConsumers (barBlockId : ℕ) (s : BarrierInfo) (barConsBlockTasks : ℕ × TaskSet) : BarrierInfo :=
  let (blockId, tasks) := barConsBlockTasks
  if blockId = barBlockId then s
  else s.addConsumers (syncBarriers.updateBar (blockId * config.blockSize - 1)) (config.getSetWithNoSyncTasks tasks).toList

/-- A barrier with tasks of several blocks keeps those of the first one. The sync task of that block becomes its consumer,
unless it was the first producer. -/
def splitBarrier (s : BarrierInfo) (barInd barBlockId : ℕ) (barProdBlockTasks barConsBlockTasks : List (ℕ × TaskSet)) : BarrierInfo :=
  let lastProdBlockId := (barProdBlockTasks.map Prod.fst).getLastD 0
  let s := barProdBlockTasks.foldl (config.moveProducers syncBarriers barInd barBlockId lastProdBlockId barConsBlockTasks) s
  let s := barConsBlockTasks.foldl (dropConsumers barInd barBlockId) s
  let barSyncTaskInd := barBlockId * config.blockSize + config.blockSize - 1
  let firstProducer := ((barProdBlockTasks.lookup barBlockId).getD ∅).toList.headD 0
  let s := if firstProducer ≠ barSyncTaskInd then (s.removeProducer barInd barSyncTaskInd).addConsumer barInd barSyncTaskInd else s
  barConsBlockTasks.foldl (config.moveConsumers syncBarriers barBlockId) s

def splitBarriers (s : BarrierInfo) : List ℕ → Except String BarrierInfo
  | [] => .ok s
  | barInd :: barInds =>
    if (s.getBarrierProducers barInd).toList = [] then .error "Barrier has no producers"
    else if (s.getBarrierConsumers barInd).toList = [] then .error "Barrier has no consumers"
    else
      let barProdBlockTasks := config.blockTasks (s.getBarrierProducers barInd)
      let barConsBlockTasks := config.blockTasks (s.getBarrierConsumers barInd)
      let blocks := sortedOf (barProdBlockTasks.map Prod.fst ++ barConsBlockTasks.map Prod.fst)
      if blocks.length < 2 then splitBarriers s barInds
      else
        let barBlockId := min ((barProdBlockTasks.map Prod.fst).headD 0) ((barConsBlockTasks.map Prod.fst).headD 0)
        if barBlockId = config.numOfBlocks + 1 then .ok s
        else splitBarriers (config.splitBarrier syncBarriers s barInd barBlockId barProdBlockTasks barConsBlockTasks) barInds

def linkSyncTasks (s : BarrierInfo) (blockInd : ℕ) : BarrierInfo :=
  s.addConsumer (syncBarriers.updateBar ((blockInd - 1) * config.blockSize - 1)) (blockInd * config.blockSize - 1)

def sanitizeBarrier (s : BarrierInfo) (barInd : ℕ) : Except String BarrierInfo :=
  let linked :=
    if (s.getBarrierConsumers barInd).toList = [] ∧ (s.getBarrierProducers barInd).toList ≠ [] then
      ((s.getBarrierProducers barInd).toList.foldl (fun s taskInd =>
        let syncTaskInd := taskInd / config.blockSize * config.blockSize + config.blockSize - 1
        if syncTaskInd < config.tasksSize ∧ taskInd ≠ syncTaskInd then s.addProducer (syncBarriers.waitBar syncTaskInd) taskInd
        else s) s).resetBarrier barInd
    else s
  if (linked.getBarrierProducers barInd).toList = [] ∧ (linked.getBarrierConsumers barInd).toList ≠ [] then
    .error s!"Barrier {barInd} has no producers but has consumers"
  else .ok linked

def resetSyncBarriers (s : BarrierInfo) (syncTask : ℕ × ℕ × ℕ) : BarrierInfo :=
  let waitBarInd := syncTask.2.1
  let updateBarInd := syncTask.2.1
  let s := if (s.getBarrierProducers waitBarInd).toList = [] then s.resetBarrier waitBarInd else s
  if (s.getBarrierConsumers updateBarInd).toList = [] then s.resetBarrier updateBarInd else s

end

def laterBlocks (firstBlock : ℕ) : List ℕ := tasksFrom firstBlock config.numOfBlocks

def splitToBlocks (s : BarrierInfo) : Except String BarrierInfo := do
  let (s, syncBarriers) := (config.laterBlocks 1).foldl config.addSyncBarriers (s, [])
  let ends := (List.range config.tasksSize).foldl (config.linkQueueEnds syncBarriers) ⟨s, [], []⟩
  let s ← config.splitBarriers syncBarriers ends.info (List.range config.barriersCount)
  let s := (config.laterBlocks 2).foldl (config.linkSyncTasks syncBarriers) s
  let s ← (List.range config.barriersCount).foldlM (config.sanitizeBarrier syncBarriers) s
  return syncBarriers.foldl resetSyncBarriers s

end SplitConfig

def splitControlGraphToBlocks (getTaskQueueType : ℕ → TaskQueueType) (syncTasksIds : List ℕ) (s : BarrierInfo) (blockSize : ℕ) :
    Except String (BarrierInfo × List ℕ) := do
  if blockSize < 2 then throw s!"Minimal block size is 2, requested size - {blockSize}"
  else if syncTasksIds ≠ [] then
    throw (s!"Partitioning on control graph was already performed, size - {syncTasksIds.headD 0 + 1}, " ++
      s!"requested size - {blockSize}")
  else
    let tasksSize := s.getNumOfTasks
    if blockSize ≥ tasksSize then return (s, [])
    else
      let config : SplitConfig := ⟨blockSize, tasksSize, s.getNumOfBarrierOps, getTaskQueueType⟩
      let s ← config.splitToBlocks s
      return (s, (config.laterBlocks 1).map (fun blockInd => blockInd * blockSize - 1))

end NpuCompiler.Barrier
