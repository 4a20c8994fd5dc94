import Mathlib.Data.List.Sort
import NpuCompiler.Barrier.SingleWait
import NpuCompiler.Memory.Partitioner

namespace NpuCompiler.Schedule

open Barrier (ExecutorKind)
open Memory (addrAdd addrSub)

inductive EOpType
  | originalOp
  | originalPrefetchedOp
  | originalSpillReadOp
  | originalSpillWriteOp
  | implicitSpillReadOp
  | implicitSpillWriteOp
  | implicitSpillWriteFragOp
  | loopOp
  deriving DecidableEq, Repr

structure ScheduledOpInfo where
  op : ℕ
  opType : EOpType
  isDataOp : Bool
  execKind : ExecutorKind
  cycleBegin : ℕ
  cycleEnd : ℕ
  deriving DecidableEq, Repr

def ScheduledOpInfo.isOriginalOp (op : ScheduledOpInfo) : Bool :=
  op.opType = .originalOp || op.opType = .originalPrefetchedOp || op.opType = .originalSpillWriteOp ||
    op.opType = .originalSpillReadOp || op.opType = .loopOp

structure CycleInfo where
  opIdx : ℕ
  cycleBegin : ℕ
  cycleCost : ℕ
  executorKind : ExecutorKind
  cycleCost_lt : cycleCost < 2 ^ 64
  deriving DecidableEq

def CycleInfo.of (opIdx cycleBegin cycleCost : ℕ) (executorKind : ExecutorKind) : CycleInfo :=
  ⟨opIdx, cycleBegin, cycleCost % 2 ^ 64, executorKind, Nat.mod_lt _ (by decide)⟩

def CycleInfo.getCycleEnd (info : CycleInfo) : ℕ := addrAdd info.cycleBegin info.cycleCost

structure PrefetchDataOps where
  scheduledOps : List ScheduledOpInfo
  getOpDeps : ℕ → List ℕ

structure Pipelines where
  operationCycles : List CycleInfo
  prefetchPipeline : List CycleInfo
  prefetchPipelineStalls : List CycleInfo
  executorPipelineCycles : ExecutorKind → List CycleInfo

namespace Pipelines

def empty : Pipelines := ⟨[], [], [], fun _ => []⟩

variable (s : Pipelines)

def cyclesOf (opIdx : ℕ) : Option CycleInfo := s.operationCycles.find? (fun info => info.opIdx = opIdx)

def isScheduled (opIdx : ℕ) : Bool := (s.cyclesOf opIdx).isSome

def getCycleEndOf (opIdx : ℕ) : ℕ := ((s.cyclesOf opIdx).map CycleInfo.getCycleEnd).getD 0

def recordCycles (info : CycleInfo) : List CycleInfo :=
  s.operationCycles.filter (fun other => other.opIdx ≠ info.opIdx) ++ [info]

def schedulePrefetchOp (info : CycleInfo) : Pipelines :=
  { s with prefetchPipeline := s.prefetchPipeline ++ [info], operationCycles := s.recordCycles info }

def scheduleOp (info : CycleInfo) : Pipelines :=
  { s with
    executorPipelineCycles := fun kind =>
      if kind = info.executorKind then s.executorPipelineCycles kind ++ [info] else s.executorPipelineCycles kind
    operationCycles := s.recordCycles info }

end Pipelines

def nextFreeCycle (pipeline : List CycleInfo) : ℕ := (pipeline.getLast?.map CycleInfo.getCycleEnd).getD 0

def updateReversed (fromCycle toCycle adjustCycles : ℕ) : List CycleInfo → List CycleInfo
  | [] => []
  | op :: ops =>
    if op.getCycleEnd > toCycle then op :: updateReversed fromCycle toCycle adjustCycles ops
    else if op.cycleBegin < fromCycle then op :: ops
    else { op with cycleBegin := addrSub op.cycleBegin adjustCycles } :: updateReversed fromCycle toCycle adjustCycles ops

def updatePrefetchPipeline (pipeline : List CycleInfo) (fromCycle toCycle adjustCycles : ℕ) : List CycleInfo :=
  (updateReversed fromCycle toCycle adjustCycles pipeline.reverse).reverse

def stallsToRemove (targetRollback cyclesFreed : ℕ) : List CycleInfo → List CycleInfo × ℕ
  | [] => ([], cyclesFreed)
  | stall :: stalls =>
    if cyclesFreed < targetRollback then
      let rest := stallsToRemove targetRollback (addrAdd cyclesFreed stall.cycleCost) stalls
      (stall :: rest.1, rest.2)
    else ([], cyclesFreed)

def attempts (cyclesFreed : ℕ) : List CycleInfo → ℕ
  | [] => 0
  | stall :: _ => if stall.cycleCost ≤ cyclesFreed then stall.cycleCost + 1 else stall.cycleCost - cyclesFreed

theorem attempts_lt {stall : CycleInfo} {stalls : List CycleInfo} {cyclesFreed : ℕ}
    (h : ¬ stall.cycleCost ≤ addrSub cyclesFreed stall.cycleCost) :
    attempts (addrSub cyclesFreed stall.cycleCost) (stall :: stalls) < attempts cyclesFreed (stall :: stalls) := by
  have hlt := stall.cycleCost_lt
  simp only [attempts]
  rw [if_neg h]
  by_cases hc : stall.cycleCost ≤ cyclesFreed
  · rw [if_pos hc]
    omega
  · rw [if_neg hc]
    -- the difference has wrapped around and is larger than what there was before
    have hleft : addrSub cyclesFreed stall.cycleCost = 2 ^ 64 + cyclesFreed - stall.cycleCost :=
      Nat.mod_eq_of_lt (by omega)
    omega

/-- A stall is left once the cycles still to be freed are no fewer than its own, else it is treated again. -/
def removeStalls (pipeline : List CycleInfo) (cyclesFreed rangeEnd : ℕ) (stalls : List CycleInfo) : List CycleInfo :=
  match stalls with
  | [] => pipeline
  | stall :: stalls =>
    if stall.cycleCost ≤ addrSub cyclesFreed stall.cycleCost then
      removeStalls (updatePrefetchPipeline pipeline stall.getCycleEnd rangeEnd cyclesFreed)
        (addrSub cyclesFreed stall.cycleCost) stall.cycleBegin stalls
    else
      removeStalls (updatePrefetchPipeline pipeline stall.getCycleEnd rangeEnd cyclesFreed)
        (addrSub cyclesFreed stall.cycleCost) stall.cycleBegin (stall :: stalls)
termination_by (stalls.length, attempts cyclesFreed stalls)
decreasing_by
  · exact Prod.Lex.left _ _ (Nat.lt_succ_self _)
  · rename_i h
    exact Prod.Lex.right _ (attempts_lt h)

def reducePrefetchPipelineStalls (s : Pipelines) (targetRollback : ℕ) : Pipelines :=
  let removed := stallsToRemove targetRollback 0 s.prefetchPipelineStalls.reverse
  { s with
    prefetchPipeline :=
      removeStalls s.prefetchPipeline (min removed.2 targetRollback) (2 ^ 64 - 1) removed.1
    prefetchPipelineStalls := s.prefetchPipelineStalls.take (s.prefetchPipelineStalls.length - removed.1.length) }

namespace PrefetchDataOps

variable (p : PrefetchDataOps)

def dataOpIdx (opIdx : ℕ) : Bool :=
  p.scheduledOps.any (fun op => op.op = opIdx && op.execKind = .dmaNN && op.isDataOp)

def computeExecutorKindOpIdx (opIdx : ℕ) : Bool :=
  p.scheduledOps.any (fun op => op.op = opIdx && op.execKind ≠ .dmaNN)

def operationCycleCost (opIdx : ℕ) : Option ℕ :=
  (p.scheduledOps.reverse.find? (fun op => op.op = opIdx)).map (fun op => addrSub op.cycleEnd op.cycleBegin)

def getOperationCycleCost (opIdx : ℕ) : Except String ℕ :=
  match p.operationCycleCost opIdx with
  | none => throw s!"No cycle cost for '{opIdx}'"
  | some cost => pure cost

def hasDependencies (opIdx : ℕ) : Bool := p.getOpDeps opIdx ≠ []

def dependenciesScheduled (s : Pipelines) (opIdx : ℕ) : Bool := (p.getOpDeps opIdx).all s.isScheduled

def getDependencyCycleEnd (s : Pipelines) (opIdx : ℕ) : Except String ℕ :=
  (p.getOpDeps opIdx).foldlM (fun cycleEnd dep =>
    match s.cyclesOf dep with
    | none => throw s!"Dependency '{dep}' was not scheduled for '{opIdx}'"
    | some info => pure (max cycleEnd info.getCycleEnd)) 0

def schedulePrefetchDMA (s : Pipelines) (opIdx optimalCycleEnd : ℕ) : Except String Pipelines := do
  let earliestScheduleCycle := nextFreeCycle s.prefetchPipeline
  let cycleCost ← p.getOperationCycleCost opIdx
  let cycleEnd := addrAdd earliestScheduleCycle cycleCost
  if cycleEnd < optimalCycleEnd then
    let stall := CycleInfo.of (2 ^ 64 - 1) earliestScheduleCycle
      (addrSub (addrSub optimalCycleEnd cycleCost) earliestScheduleCycle) .dmaNN
    let s' := { s with prefetchPipelineStalls := s.prefetchPipelineStalls ++ [stall] }
    pure (s'.schedulePrefetchOp (.of opIdx (addrSub optimalCycleEnd cycleCost) cycleCost .dmaNN))
  else if cycleEnd > optimalCycleEnd then
    let s' := if s.prefetchPipelineStalls = [] then s
      else reducePrefetchPipelineStalls s (cycleEnd - optimalCycleEnd)
    pure (s'.schedulePrefetchOp (.of opIdx (addrSub (max cycleCost optimalCycleEnd) cycleCost) cycleCost .dmaNN))
  else
    pure (s.schedulePrefetchOp (.of opIdx (addrSub cycleEnd cycleCost) cycleCost .dmaNN))

def scheduleDMA (s : Pipelines) (opIdx optimalCycleEnd : ℕ) : Except String Pipelines := do
  let dependencyCycleEnd ← p.getDependencyCycleEnd s opIdx
  let earliestScheduleCycle := max (nextFreeCycle (s.executorPipelineCycles .dmaNN)) dependencyCycleEnd
  let cycleCost ← p.getOperationCycleCost opIdx
  let cycleBegin :=
    if cycleCost ≤ optimalCycleEnd then max earliestScheduleCycle (addrSub optimalCycleEnd cycleCost)
    else earliestScheduleCycle
  pure (s.scheduleOp (.of opIdx cycleBegin cycleCost .dmaNN))

def prefetchLoop (dmaTargetEndCycle : ℕ) (s : Pipelines) : List CycleInfo → Except String (Pipelines × List CycleInfo)
  | [] => pure (s, [])
  | nextDMA :: dmas =>
    if ¬ p.dependenciesScheduled s nextDMA.opIdx then do
      let (s', left) ← prefetchLoop dmaTargetEndCycle s dmas
      pure (s', nextDMA :: left)
    else if s.isScheduled nextDMA.opIdx then prefetchLoop dmaTargetEndCycle s dmas
    else if nextDMA.cycleBegin > dmaTargetEndCycle then pure (s, nextDMA :: dmas)
    else do
      let s' ← p.scheduleDMA s nextDMA.opIdx 0
      prefetchLoop dmaTargetEndCycle s' dmas

def prefetchDataOps (s : Pipelines) (dmaTargetEndCycle : ℕ) : Except String Pipelines := do
  let (s', left) ← p.prefetchLoop dmaTargetEndCycle s s.prefetchPipeline
  pure { s' with prefetchPipeline := left }

def scheduleDependency (prefetchOpsDefined : Bool) (state : Pipelines × ℕ) (dep : ℕ) :
    Except String (Pipelines × ℕ) := do
  if state.1.isScheduled dep then return state
  let s' ←
    if prefetchOpsDefined || p.hasDependencies dep then p.scheduleDMA state.1 dep state.2
    else p.schedulePrefetchDMA state.1 dep state.2
  return (s', max state.2 (s'.getCycleEndOf dep))

def scheduleDependenciesForCompute (prefetchOpsDefined : Bool) (s : Pipelines) (opIdx : ℕ)
    (executorKind : ExecutorKind) : Except String (Pipelines × ℕ) :=
  let dataOpTargetCycleEnd := (p.getOpDeps opIdx).foldl
    (fun target dep => if s.isScheduled dep then max target (s.getCycleEndOf dep) else target)
    (nextFreeCycle (s.executorPipelineCycles executorKind))
  (p.getOpDeps opIdx).foldlM (p.scheduleDependency prefetchOpsDefined) (s, dataOpTargetCycleEnd)

def scheduleComputeOperation (prefetchOpsDefined : Bool) (s : Pipelines) (opIdx : ℕ) (executorKind : ExecutorKind) :
    Except String Pipelines := do
  let (s₁, computeCycleBegin) ← p.scheduleDependenciesForCompute prefetchOpsDefined s opIdx executorKind
  let computeOpCycleCost ← p.getOperationCycleCost opIdx
  if prefetchOpsDefined && executorKind ≠ .dmaNN then
    let cycleEnd := addrAdd computeCycleBegin computeOpCycleCost
    let s₂ ← p.prefetchDataOps s₁ cycleEnd
    let cycleEnd := max cycleEnd (nextFreeCycle (s₂.executorPipelineCycles .dmaNN))
    return s₂.scheduleOp (.of opIdx (addrSub cycleEnd computeOpCycleCost) computeOpCycleCost executorKind)
  return s₁.scheduleOp (.of opIdx computeCycleBegin computeOpCycleCost executorKind)

def performStep (prefetchOpsDefined : Bool) (s : Pipelines) (op : ScheduledOpInfo) : Except String Pipelines :=
  if !op.isOriginalOp then pure s
  else if op.isDataOp || (prefetchOpsDefined && s.isScheduled op.op) then pure s
  else p.scheduleComputeOperation prefetchOpsDefined s op.op op.execKind

def performCycleScheduling (prefetchOpsDefined : Bool) (s : Pipelines) : Except String Pipelines :=
  p.scheduledOps.foldlM (p.performStep prefetchOpsDefined) s

def optimalCycles (dmaFIFORev : ℕ) (front : CycleInfo) : CycleInfo :=
  let newCycleEnd := max (min dmaFIFORev front.getCycleEnd) front.cycleCost
  .of front.opIdx (addrSub newCycleEnd front.cycleCost) front.cycleCost .dmaNN

/-- The loop over both FIFOs from their ends, into `DataOpPipeline`; it fails where it reads in front of the first operation
of the prefetch FIFO. -/
def mergePipelines (pipeline : List CycleInfo) (dmaFIFORev : ℕ) (dma prefetch : List CycleInfo) :
    Except String (List CycleInfo) :=
  match dma, prefetch with
  | [], [] => pure pipeline
  | [], front :: prefetch =>
    mergePipelines (pipeline ++ [optimalCycles dmaFIFORev front]) (optimalCycles dmaFIFORev front).cycleBegin [] prefetch
  | dmaFront :: dma, [] =>
    if ¬ p.dataOpIdx dmaFront.opIdx then mergePipelines pipeline dmaFIFORev dma []
    else if dmaFront.getCycleEnd = 0 then throw "prefetchFrontRev is at rend"
    else
      mergePipelines (pipeline ++ [optimalCycles dmaFIFORev dmaFront]) (optimalCycles dmaFIFORev dmaFront).cycleBegin dma []
  | dmaFront :: dma, front :: prefetch =>
    if ¬ p.dataOpIdx dmaFront.opIdx then mergePipelines pipeline dmaFIFORev dma (front :: prefetch)
    else if dmaFront.getCycleEnd ≤ front.cycleBegin then
      mergePipelines (pipeline ++ [optimalCycles dmaFIFORev front]) (optimalCycles dmaFIFORev front).cycleBegin
        (dmaFront :: dma) prefetch
    else
      mergePipelines (pipeline ++ [optimalCycles dmaFIFORev dmaFront]) (optimalCycles dmaFIFORev dmaFront).cycleBegin
        dma (front :: prefetch)
termination_by dma.length + prefetch.length

def createDataOpPipeline (s : Pipelines) : Except String Pipelines := do
  let pipeline ← p.mergePipelines [] (2 ^ 64 - 1) (s.executorPipelineCycles .dmaNN).reverse s.prefetchPipeline.reverse
  pure { s with
    prefetchPipeline := pipeline.reverse
    operationCycles := []
    executorPipelineCycles := fun _ => [] }

def sortsBefore (op1 op2 : CycleInfo) : Bool :=
  if op1.cycleBegin ≠ op2.cycleBegin then op1.cycleBegin < op2.cycleBegin
  else if op1.executorKind ≠ op2.executorKind ∧ op1.executorKind = .dmaNN then true
  else if op1.executorKind ≠ op2.executorKind ∧ op2.executorKind = .dmaNN then false
  else if op1.getCycleEnd ≠ op2.getCycleEnd then op1.getCycleEnd < op2.getCycleEnd
  else op1.opIdx < op2.opIdx

def sortOps (ops : List CycleInfo) : List CycleInfo := ops.insertionSort (fun op1 op2 => ¬ sortsBefore op2 op1)

def advanceComputeExecutorKindOpsForPrefetch : ℕ := 2

def nextComputeCycleBegin (cycleBegin computeCount : ℕ) : List CycleInfo → ℕ
  | [] => cycleBegin
  | op :: ops =>
    if computeCount < advanceComputeExecutorKindOpsForPrefetch then
      nextComputeCycleBegin op.cycleBegin
        (if p.computeExecutorKindOpIdx op.opIdx then computeCount + 1 else computeCount) ops
    else cycleBegin

def depsIn (order : List CycleInfo) (opIdx : ℕ) : Bool :=
  (p.getOpDeps opIdx).all (fun dep => dep ∈ order.map CycleInfo.opIdx)

/-- The loop over the data operations before one compute operation: the order so far and the operations left. -/
def scheduleDataOps (nextComputeCycleBegin : ℕ) (order : List CycleInfo) : List CycleInfo → List CycleInfo × List CycleInfo
  | [] => (order, [])
  | dataOp :: dataOps =>
    if dataOp.cycleBegin ≥ nextComputeCycleBegin then (order, dataOp :: dataOps)
    else if ¬ p.depsIn order dataOp.opIdx then
      let rest := scheduleDataOps nextComputeCycleBegin order dataOps
      (rest.1, dataOp :: rest.2)
    else scheduleDataOps nextComputeCycleBegin (order ++ [dataOp]) dataOps

def mergeOrders : ℕ → List CycleInfo → List CycleInfo → List CycleInfo → Option (List CycleInfo)
  | 0, _, _, _ => none
  | _ + 1, order, [], [] => some order
  | fuel + 1, order, [], computeOp :: computeOps => mergeOrders fuel (order ++ [computeOp]) [] computeOps
  -- the operation is added to the order and stays in `sortedDataOps`
  | fuel + 1, order, dataOp :: dataOps, [] => mergeOrders fuel (order ++ [dataOp]) (dataOp :: dataOps) []
  | fuel + 1, order, dataOp :: dataOps, computeOp :: computeOps =>
    let nextComputeCycleBegin := p.nextComputeCycleBegin (2 ^ 64 - 1) 0 (computeOp :: computeOps)
    let rest := p.scheduleDataOps nextComputeCycleBegin order (dataOp :: dataOps)
    mergeOrders fuel (rest.1 ++ [computeOp]) rest.2 computeOps

def getNewOrder (fuel : ℕ) (s : Pipelines) : Option (List CycleInfo) :=
  p.mergeOrders fuel [] (sortOps (s.operationCycles.filter (fun info => p.dataOpIdx info.opIdx)))
    (sortOps (s.operationCycles.filter (fun info => ¬ p.dataOpIdx info.opIdx)))

/-- The first scheduling, the order of the data operations made from it, and the scheduling with this order. -/
def cycleSchedules : Except String Pipelines := do
  let s₁ ← p.performCycleScheduling false .empty
  let s₂ ← p.createDataOpPipeline s₁
  p.performCycleScheduling true s₂

def newOpOrder (fuel : ℕ) : Except String (Option (List CycleInfo)) := do
  let s ← p.cycleSchedules
  pure (p.getNewOrder fuel s)

end PrefetchDataOps

end NpuCompiler.Schedule
