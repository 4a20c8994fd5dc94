import NpuCompiler.Barrier.BarrierInfo

namespace NpuCompiler.Barrier

inductive ExecutorKind
  | dmaNN
  | nce
  | dpu
  | shaveNN
  | shaveAct
  | m2i
  | unknown
  deriving DecidableEq, Repr

structure TaskOp where
  numOfSlotsUsed : ℕ
  executorKind : ExecutorKind
  deriving DecidableEq, Repr

structure LegalizationConfig where
  taskOp : ℕ → TaskOp
  availableSlots : ℕ
  considerTaskExecutorType : Bool
  enableUnevenVariantSplit : Bool

def getMinEntry (entries : TaskSet) : ℕ := entries.toList.min?.getD 0

def getMaxEntry (entries : TaskSet) : ℕ := entries.toList.max?.getD (2 ^ 64 - 1)

section
variable (config : LegalizationConfig)

def slotCount (tasks : TaskSet) : ℕ := (tasks.toList.map (fun taskInd => (config.taskOp taskInd).numOfSlotsUsed)).sum

def canMergeBarriersForTasks (producers : TaskSet) (availableSlots : ℕ) : Bool := slotCount config producers ≤ availableSlots

structure VariantBatches where
  legalBatches : List TaskSet
  curBatch : TaskSet
  totalSlotCount : ℕ
  curBatchExecutorKind : ExecutorKind

def addToBatches (batches : VariantBatches) (taskInd : ℕ) : VariantBatches :=
  let taskOp := config.taskOp taskInd
  if batches.totalSlotCount + taskOp.numOfSlotsUsed > config.availableSlots ∨
      (config.considerTaskExecutorType ∧ taskOp.executorKind ≠ batches.curBatchExecutorKind) then
    ⟨batches.legalBatches ++ [batches.curBatch], (∅ : TaskSet).insert taskInd, taskOp.numOfSlotsUsed, taskOp.executorKind⟩
  else
    { batches with
      curBatch := batches.curBatch.insert taskInd
      totalSlotCount := batches.totalSlotCount + taskOp.numOfSlotsUsed }

def createLegalVariantBatches (tasks : TaskSet) : List TaskSet :=
  let orderedTasks := sortedOf tasks.toList
  let batches := orderedTasks.foldl (addToBatches config) ⟨[], ∅, 0, (config.taskOp (orderedTasks.headD 0)).executorKind⟩
  batches.legalBatches ++ [batches.curBatch]

def producerBatches (s : BarrierInfo) : List ℕ → List TaskSet → ℕ → List TaskSet
  | [], legalBatches, _ => legalBatches
  | waitBarrierInd :: waitBarriers, legalBatches, prevLastUserInd =>
    let barrierProducers := s.getBarrierProducers waitBarrierInd
    let batches := if canMergeBarriersForTasks config barrierProducers config.availableSlots then [barrierProducers]
      else createLegalVariantBatches config barrierProducers
    if legalBatches = [] then producerBatches s waitBarriers batches (getMaxEntry barrierProducers)
    else if prevLastUserInd ≥ getMinEntry barrierProducers then []
    else
      let currentBatchPlusBarrierProducers := (legalBatches.getLastD ∅).union barrierProducers
      if canMergeBarriersForTasks config currentBatchPlusBarrierProducers config.availableSlots then
        producerBatches s waitBarriers (legalBatches.dropLast ++ [currentBatchPlusBarrierProducers])
          (getMaxEntry barrierProducers)
      else producerBatches s waitBarriers (legalBatches ++ batches) (getMaxEntry barrierProducers)

def createProducerBatches (s : BarrierInfo) (waitBarriers : TaskSet) : List TaskSet :=
  producerBatches config s waitBarriers.toList [] (2 ^ 64 - 1)

def addBarrier (s : BarrierInfo) (producers consumers : TaskSet) : BarrierInfo :=
  let newBarrier := s.getNumOfBarrierOps
  (s.addNewBarrier.addProducers newBarrier producers.toList).addConsumers newBarrier consumers.toList

def linkBatches : BarrierInfo → List TaskSet → TaskSet → BarrierInfo
  | s, [], _ => s
  | s, batch :: legalBatches, nextBatch => linkBatches (addBarrier s batch nextBatch) legalBatches batch

def linearizeLegalParallelProducers (s : BarrierInfo) (taskInd : ℕ) (parallelProducers parallelConsumers : TaskSet) :
    BarrierInfo :=
  let producerBatches := createProducerBatches config s (s.getWaitBarriers taskInd)
  let legalBatches := if producerBatches = [] then createLegalVariantBatches config parallelProducers else producerBatches
  linkBatches s legalBatches.reverse parallelConsumers

def mergeLegalParallelProducers (s : BarrierInfo) (parallelProducers parallelConsumers : TaskSet) : BarrierInfo :=
  addBarrier s parallelProducers parallelConsumers

def getBarriersProducerTasks (s : BarrierInfo) (waitBarriers : TaskSet) : TaskSet :=
  waitBarriers.toList.foldl (fun tasks waitBarrierInd => tasks.union (s.getBarrierProducers waitBarrierInd)) ∅

def getBarriersConsumerTasks (s : BarrierInfo) (waitBarriers : TaskSet) : TaskSet :=
  waitBarriers.toList.foldl (fun tasks waitBarrierInd => tasks.union (s.getBarrierConsumers waitBarrierInd)) ∅

def selectConsumers (s : BarrierInfo) (waitBarriers : TaskSet) (availableSlotsForConsumer : ℕ) :
    List ℕ → ℕ → TaskSet → TaskSet
  | [], _, selected => selected
  | consumer :: consumers, parallelConsumerSlotCount, selected =>
    if !waitBarriers.beq (s.getWaitBarriers consumer) then
      selectConsumers s waitBarriers availableSlotsForConsumer consumers parallelConsumerSlotCount selected
    else
      let slotCount := parallelConsumerSlotCount + (config.taskOp consumer).numOfSlotsUsed
      if slotCount > availableSlotsForConsumer then selected
      else selectConsumers s waitBarriers availableSlotsForConsumer consumers slotCount (selected.insert consumer)

def unlinkTasksFromBarrier (tasks : TaskSet) (s : BarrierInfo) (waitBarrierInd : ℕ) : BarrierInfo :=
  if (s.getBarrierConsumers waitBarrierInd).size = tasks.size then s.resetBarrier waitBarrierInd
  else tasks.toList.foldl (fun s taskInd => s.removeConsumer waitBarrierInd taskInd) s

def availableSlotsForConsumer (s : BarrierInfo) (waitBarriers parallelProducers parallelConsumers : TaskSet) : ℕ :=
  let totalSlots := 2 * config.availableSlots
  let parallelProducerSlotCount := slotCount config parallelProducers
  if config.enableUnevenVariantSplit ∧ parallelProducerSlotCount < totalSlots ∧
      ∀ consumer ∈ parallelConsumers.toList, waitBarriers.beq (s.getWaitBarriers consumer) →
        (config.taskOp consumer).numOfSlotsUsed ≤ totalSlots - parallelProducerSlotCount then
    totalSlots - parallelProducerSlotCount
  else config.availableSlots

def eliminateParallelWaitBarriers (s : BarrierInfo) (taskInd : ℕ) : Except String BarrierInfo :=
  let waitBarriers := s.getWaitBarriers taskInd
  let parallelConsumers := getBarriersConsumerTasks s waitBarriers
  let parallelProducers := getBarriersProducerTasks s waitBarriers
  let slotsForConsumer := availableSlotsForConsumer config s waitBarriers parallelProducers parallelConsumers
  let parallelConsumersToMerge := selectConsumers config s waitBarriers slotsForConsumer parallelConsumers.toList 0 ∅
  if parallelConsumersToMerge.size = 0 then .error "parallel consumers are empty"
  else
    let linked := if canMergeBarriersForTasks config parallelProducers (2 * config.availableSlots - slotsForConsumer) then
        mergeLegalParallelProducers s parallelProducers parallelConsumersToMerge
      else linearizeLegalParallelProducers config s taskInd parallelProducers parallelConsumersToMerge
    .ok (waitBarriers.toList.foldl (unlinkTasksFromBarrier parallelConsumersToMerge) linked)

def getTasksWithParallelWaitBarriers (s : BarrierInfo) : TaskSet :=
  SmallSet.ofList ((List.range s.getNumOfTasks).filter (fun taskInd => (s.getWaitBarriers taskInd).size ≥ 2))

def walkTasks (s : BarrierInfo) : Except String BarrierInfo :=
  (List.range s.getNumOfTasks).foldlM (fun s taskInd =>
    if (s.getWaitBarriers taskInd).size < 2 then .ok s else eliminateParallelWaitBarriers config s taskInd) s

def ensureTasksDrivenBySingleBarrier (mergeWaitBarriersIteratively : Bool) :
    ℕ → BarrierInfo → Except String BarrierInfo
  | 0, _ => .error "out of fuel"
  | fuel + 1, s =>
    let tasksWithParallelWaitBarriers := getTasksWithParallelWaitBarriers s
    if tasksWithParallelWaitBarriers.size = 0 then .ok s
    else do
      let s ← walkTasks config s
      if (getTasksWithParallelWaitBarriers s).beq tasksWithParallelWaitBarriers then
        throw ("Merging parallel wait barriers encountered an identical batch of tasks as in previous iteration. " ++
          "Cannot enforce single wait barrier per task.")
      if mergeWaitBarriersIteratively then ensureTasksDrivenBySingleBarrier mergeWaitBarriersIteratively fuel s
      else return s

end

end NpuCompiler.Barrier
