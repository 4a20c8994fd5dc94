import NpuCompiler.Barrier.BarrierSimulator
import NpuCompiler.Library.SmallSet

namespace NpuCompiler.Barrier.Simulator

def freeIds (toVirtual : List (Option ℕ)) : List ℕ := (List.range toVirtual.length).filter (fun p => toVirtual[p]? = some none)

def updateNextReal (toVirtual : List (Option ℕ)) : RingBuffer ℕ :=
  (freeIds toVirtual).foldl RingBuffer.push (RingBuffer.reset toVirtual.length)

section
variable (wlmPidProgramming : Bool)

def notMappedMessage : String := "Found not mapped barrier with exceeding barriers"

def isNoneInBatch (batch : List ℕ) : List (Option ℕ) → Bool → Except String Bool
  | [], activeBarrierIsMapped => .ok activeBarrierIsMapped
  | none :: toVirtual, activeBarrierIsMapped =>
    if !wlmPidProgramming then .error notMappedMessage else isNoneInBatch batch toVirtual activeBarrierIsMapped
  | some activeBar :: toVirtual, _ => if activeBar ∈ batch then .ok false else isNoneInBatch batch toVirtual true

def isNewBatchNeeded (toVirtual : List (Option ℕ)) (barrierBatchesToLegalize : List (List ℕ)) : Except String Bool :=
  match barrierBatchesToLegalize.getLast? with
  | none => .ok true
  | some batch => if batch = [] then .ok false else isNoneInBatch wlmPidProgramming batch toVirtual false

def insertActive (batches : List (List ℕ)) : Option ℕ → Except String (List (List ℕ))
  | none => if !wlmPidProgramming then .error notMappedMessage else .ok batches
  | some activeBar => .ok (batches.modify (batches.length - 1) (insertSorted activeBar))

def storeBarriersToLegalize (toVirtual : List (Option ℕ)) (barrierBatchesToLegalize : List (List ℕ)) :
    Except String (List (List ℕ)) := do
  let created ← isNewBatchNeeded wlmPidProgramming toVirtual barrierBatchesToLegalize
  toVirtual.foldlM (insertActive wlmPidProgramming) (if created then barrierBatchesToLegalize ++ [[]] else barrierBatchesToLegalize)

variable (activeBarrierLimit : ℕ)

def remapBarrier (toVirtual : List (Option ℕ)) (state : List BarrierConfig × ℕ) (index : ℕ) : List BarrierConfig × ℕ :=
  match toVirtual.getD index none with
  | some v => (state.1.modify v (fun b => { b with realId := some (index - state.2) }), state.2)
  | none => if toVirtual.length - state.2 > activeBarrierLimit then (state.1, state.2 + 1) else state

/-- The free barriers are removed from the first one on. The indices are those at the time of the removal. -/
def removeFree : ℕ → List (Option ℕ) → List ℕ → List (Option ℕ) × List ℕ
  | 0, toVirtual, indexesRemoved => (toVirtual, indexesRemoved)
  | n + 1, toVirtual, indexesRemoved =>
    let index := toVirtual.findIdx (· = none)
    if index < toVirtual.length ∧ toVirtual.length > activeBarrierLimit then
      removeFree n (toVirtual.eraseIdx index) (insertSorted index indexesRemoved)
    else (toVirtual, indexesRemoved)

def removeIndex (prevVidOfPhysBar : List (Option ℕ)) (indexToRemove : ℕ) : Except String (List (Option ℕ)) :=
  if indexToRemove ≥ prevVidOfPhysBar.length then
    .error s!"Incorrect index to remove - {indexToRemove} >= {prevVidOfPhysBar.length}"
  else .ok (prevVidOfPhysBar.eraseIdx indexToRemove)

def reduceBarriers (s : SimState) : Except String SimState := do
  let remapped := (List.range s.toVirtual.length).foldl (remapBarrier activeBarrierLimit s.toVirtual) (s.barriers, 0)
  let (toVirtual, indexesRemoved) := removeFree activeBarrierLimit s.toVirtual.length s.toVirtual []
  let prevVidOfPhysBar ← indexesRemoved.reverse.foldlM removeIndex s.prevVidOfPhysBar
  return { s with barriers := remapped.1, toVirtual, prevVidOfPhysBar, nextReal := updateNextReal toVirtual }

def increaseBarriers (s : SimState) : SimState :=
  { s with
    toVirtual := s.toVirtual ++ [none]
    prevVidOfPhysBar := s.prevVidOfPhysBar ++ [none]
    nextReal := updateNextReal (s.toVirtual ++ [none]) }

def updateProgress (wlmPidProgramming progressed : Bool) (s : SimState) : Except String SimState :=
  let freeBarriers := s.toVirtual.count none
  if !progressed then
    if !wlmPidProgramming && freeBarriers > 0 then
      .error s!"Simulation not progressed and there are '{freeBarriers}' free barriers"
    else .ok (increaseBarriers s)
  else if freeBarriers > 0 ∧ s.toVirtual.length > activeBarrierLimit then reduceBarriers activeBarrierLimit s
  else .ok s

end

structure LegalizationState where
  cur : SimState
  barrierBatchesToLegalize : List (List ℕ)
  /-- Ghost: which physical barrier each index stands for. -/
  slots : List ℕ
  /-- Ghost: how many physical barriers there have been. -/
  slotCount : ℕ
  /-- Ghost: the physical barriers and the barriers that were mapped to them. -/
  mappings : List (ℕ × ℕ)

inductive LegalizationOutcome
  /-- There are no barriers to legalize. -/
  | legal
  | illegal
  | failed
  | thrown (message : String)
  | outOfFuel
  deriving DecidableEq

def removeSlots (activeBarrierLimit : ℕ) : ℕ → List (Option ℕ) → List ℕ → List ℕ
  | 0, _, slots => slots
  | n + 1, toVirtual, slots =>
    let index := toVirtual.findIdx (· = none)
    if index < toVirtual.length ∧ toVirtual.length > activeBarrierLimit then
      removeSlots activeBarrierLimit n (toVirtual.eraseIdx index) (slots.eraseIdx index)
    else slots

def LegalizationState.next (state : LegalizationState) (activeBarrierLimit : ℕ) (progressed : Bool) (s s' : SimState)
    (batches : List (List ℕ)) : LegalizationState where
  cur := s'
  barrierBatchesToLegalize := batches
  slots := if progressed then removeSlots activeBarrierLimit s.toVirtual.length s.toVirtual state.slots
    else state.slots ++ [state.slotCount]
  slotCount := if progressed then state.slotCount else state.slotCount + 1
  mappings := state.mappings ++ (List.range' state.cur.bar (s.bar - state.cur.bar)).map (fun v =>
    (state.slots.getD ((s.realId v).getD 0) 0, v))

namespace Simulator

variable (sim : Simulator) (activeBarrierLimit : ℕ)

def runIteration (state : LegalizationState) : Except LegalizationOutcome (Run × List (List ℕ)) :=
  let mapped := sim.mapNewBarriers (state.cur.barriers.length - state.cur.bar) ⟨state.cur, [], false⟩
  let stored := if mapped.cur.toVirtual.length > activeBarrierLimit then
      storeBarriersToLegalize sim.barrierWlmHandler.isSome mapped.cur.toVirtual state.barrierBatchesToLegalize
    else .ok state.barrierBatchesToLegalize
  match stored with
  | .error message => .error (.thrown message)
  | .ok batches =>
    match sim.processQueues mapped with
    | none => .error .failed
    | some run => .ok (run, batches)

def legalizationIteration (state : LegalizationState) : Except LegalizationOutcome LegalizationState :=
  match sim.runIteration activeBarrierLimit state with
  | .error outcome => .error outcome
  | .ok (run, batches) =>
    match updateProgress activeBarrierLimit sim.barrierWlmHandler.isSome run.progressed run.cur with
    | .error message => .error (.thrown message)
    | .ok s => .ok (state.next activeBarrierLimit run.progressed run.cur s batches)

def hasBarrierBatchesToLegalize (state : LegalizationState) : Bool :=
  state.barrierBatchesToLegalize.any (fun batch => batch.any (fun v =>
    sim.queues.any (fun users => users.any (fun user => v ∈ user.consumer || v ∈ user.producer))))

def legalizationLoop : ℕ → LegalizationState → LegalizationOutcome × LegalizationState
  | 0, state => (.outOfFuel, state)
  | fuel + 1, state =>
    if isComplete state.cur then (if sim.hasBarrierBatchesToLegalize state then .illegal else .legal, state)
    else match sim.legalizationIteration activeBarrierLimit state with
      | .error outcome => (outcome, state)
      | .ok state => legalizationLoop fuel state

def initialLegalization : LegalizationState where
  cur := sim.initialState activeBarrierLimit
  barrierBatchesToLegalize := []
  slots := List.range activeBarrierLimit
  slotCount := activeBarrierLimit
  mappings := []

def legalizeBarriers (fuel : ℕ) (numBarriers : Option ℕ) : LegalizationOutcome × LegalizationState :=
  let activeBarrierLimit := numBarriers.getD sim.availableBarriers
  let availableBarriers := sim.availableBarriers
  if activeBarrierLimit > availableBarriers then
    (.thrown s!"Provided number of barriers '{activeBarrierLimit}' is greater than HW limitation '{availableBarriers}'",
      sim.initialLegalization activeBarrierLimit)
  else sim.legalizationLoop activeBarrierLimit fuel (sim.initialLegalization activeBarrierLimit)

end Simulator

end NpuCompiler.Barrier.Simulator
