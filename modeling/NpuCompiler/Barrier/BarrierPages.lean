import NpuCompiler.Barrier.BlockRanges

namespace NpuCompiler.Barrier

structure BarrierPagesSplitHandler where
  barrierInfo : BarrierInfo
  split : GraphSplit
  pageSize : ℕ
  fifoPerShaveEngineEnabled : Bool
  taskQueueTypeMap : List (TaskQueueType × List ℕ)

structure BarrierPages where
  pageInd : ℕ
  barriersInPage : ℕ
  processedSyncPoints : TaskSet
  firstBarrierInPage : List ℕ
  barrierToPageAssignment : List ℕ

structure TaskPages where
  taskPageAssignment : List ℕ
  firstAndLastTaskPerPage : List (Option (ℕ × ℕ))

namespace BarrierPages

def pageCount (pages : BarrierPages) : ℕ := pages.pageInd + 1

def getBarrierPage (pages : BarrierPages) (barInd : ℕ) : Except String ℕ :=
  let size := pages.barrierToPageAssignment.length
  if barInd < size then .ok (pages.barrierToPageAssignment.getD barInd 0)
  else .error s!"Barrier index {barInd} out of range {size}"

end BarrierPages

namespace BarrierPagesSplitHandler

variable (handler : BarrierPagesSplitHandler)

def startPageAtSync (barInd : ℕ) (pages : BarrierPages) (producer : ℕ) : Except String BarrierPages := do
  let sync ← handler.split.isSyncPoint handler.barrierInfo producer
  if !sync then return pages
  else if producer ∈ pages.processedSyncPoints then return pages
  else return { pages with
    pageInd := pages.pageInd + 1
    barriersInPage := 0
    processedSyncPoints := pages.processedSyncPoints.insert producer
    firstBarrierInPage := pages.firstBarrierInPage ++ [barInd] }

def assignBarrierPage (pages : BarrierPages) (barInd : ℕ) : Except String BarrierPages := do
  let started ←
    if pages.barriersInPage = handler.pageSize then .ok { pages with
      barriersInPage := 0
      pageInd := pages.pageInd + 1
      firstBarrierInPage := pages.firstBarrierInPage ++ [barInd] }
    else (handler.barrierInfo.getBarrierProducers barInd).toList.foldlM (handler.startPageAtSync barInd) pages
  return { started with
    barrierToPageAssignment := started.barrierToPageAssignment.set barInd started.pageInd
    barriersInPage := started.barriersInPage + 1 }

def assignBarrierPages (n : ℕ) : Except String BarrierPages :=
  (List.range n).foldlM handler.assignBarrierPage
    ⟨0, 0, ∅, [0], List.replicate handler.barrierInfo.getNumOfBarrierOps 0⟩

def initializeBarrierToPageAssignment : Except String BarrierPages :=
  handler.assignBarrierPages handler.barrierInfo.getNumOfBarrierOps

def getWaitPage (pages : BarrierPages) (taskInd : ℕ) : Except String ℕ :=
  match (handler.barrierInfo.getWaitBarriers taskInd).toList.max? with
  | none => .ok 0
  | some barInd => pages.getBarrierPage barInd

def getTaskPage (checkPageOfPrevTask : Bool) (taskPageAssignment : List ℕ) (waitPage : ℕ) : Option ℕ → ℕ
  | none => waitPage
  | some prevTaskInd =>
    if checkPageOfPrevTask then max waitPage (taskPageAssignment.getD prevTaskInd 0) else waitPage

def assignTaskPages (pages : BarrierPages) (checkPageOfPrevTask : Bool) :
    Option ℕ → List ℕ → List ℕ → Except String (List ℕ)
  | _, [], taskPageAssignment => .ok taskPageAssignment
  | prev, taskInd :: taskVec, taskPageAssignment => do
    let waitPage ← handler.getWaitPage pages taskInd
    let taskPage := getTaskPage checkPageOfPrevTask taskPageAssignment waitPage prev
    assignTaskPages pages checkPageOfPrevTask (some taskInd) taskVec (taskPageAssignment.set taskInd taskPage)

def checkPageOfPrevTask (taskQueueType : TaskQueueType) : Bool :=
  handler.fifoPerShaveEngineEnabled || taskQueueType.type != .shaveAct

def assignQueuePages (pages : BarrierPages) (taskPageAssignment : List ℕ) (queue : TaskQueueType × List ℕ) :
    Except String (List ℕ) :=
  handler.assignTaskPages pages (handler.checkPageOfPrevTask queue.1) none queue.2 taskPageAssignment

def updateFirstAndLast (taskPageAssignment : List ℕ) (firstAndLast : List (Option (ℕ × ℕ))) (taskInd : ℕ) :
    List (Option (ℕ × ℕ)) :=
  firstAndLast.modify (taskPageAssignment.getD taskInd 0) (fun
    | none => some (taskInd, taskInd)
    | some (first, _) => some (first, taskInd))

def initializeTaskToPageAssignment (pages : BarrierPages) : Except String TaskPages := do
  let numOfTasks := handler.barrierInfo.getNumOfTasks
  let taskPageAssignment ← handler.taskQueueTypeMap.foldlM (handler.assignQueuePages pages) (List.replicate numOfTasks 0)
  return ⟨taskPageAssignment, (List.range numOfTasks).foldl (updateFirstAndLast taskPageAssignment)
    (List.replicate pages.pageCount none)⟩

def initializePages : Except String (BarrierPages × TaskPages) := do
  let pages ← handler.initializeBarrierToPageAssignment
  let tasks ← handler.initializeTaskToPageAssignment pages
  return (pages, tasks)

end BarrierPagesSplitHandler

end NpuCompiler.Barrier
