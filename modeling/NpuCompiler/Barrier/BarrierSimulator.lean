import NpuCompiler.Library.RingBuffer

namespace NpuCompiler.Barrier.Simulator

structure BarrierConfig where
  realId : Option ℕ
  producerCount : ℕ
  consumerCount : ℕ
  deriving DecidableEq

instance : Inhabited BarrierConfig := ⟨⟨none, 0, 0⟩⟩

structure BarrierUser where
  consumer : List ℕ
  producer : List ℕ
  count : ℕ
  count_pos : 0 < count

inductive Status
  | success
  | skip
  | fail
  deriving DecidableEq

structure BarrierState where
  barriers : List BarrierConfig
  /-- The virtual barrier of each physical one, if there is one. -/
  toVirtual : List (Option ℕ)
  nextReal : RingBuffer ℕ

namespace BarrierState

def realId (s : BarrierState) (v : ℕ) : Option ℕ := (s.barriers.getD v default).realId

def producerCount (s : BarrierState) (v : ℕ) : ℕ := (s.barriers.getD v default).producerCount

def consumerCount (s : BarrierState) (v : ℕ) : ℕ := (s.barriers.getD v default).consumerCount

end BarrierState

section
variable (isDynamicBarriers : Bool)

def isBarrierMapped (s : BarrierState) (v : ℕ) : Bool :=
  match s.realId v with
  | none => false
  | some r => r < s.toVirtual.length && (isDynamicBarriers || s.toVirtual.getD r none = some v)

def consume (count : ℕ) (s : BarrierState) (v : ℕ) : Option BarrierState :=
  match s.realId v with
  | none => none
  | some r =>
    if !isBarrierMapped isDynamicBarriers s v then none
    else if s.producerCount v ≠ 0 ∨ s.consumerCount v < count then none
    else
      let barriers := s.barriers.modify v (fun b => { b with consumerCount := b.consumerCount - count })
      if s.consumerCount v - count = 0 then
        some ⟨barriers, s.toVirtual.set r none, if isDynamicBarriers then s.nextReal.push r else s.nextReal⟩
      else some { s with barriers }

def produce (count : ℕ) (s : BarrierState) (v : ℕ) : Option BarrierState :=
  if !isBarrierMapped isDynamicBarriers s v then none
  else if s.producerCount v < count then none
  else some { s with barriers := s.barriers.modify v (fun b => { b with producerCount := b.producerCount - count }) }

def processSim (s : BarrierState) (user : BarrierUser) : Status × BarrierState :=
  if user.consumer.all (fun v => isBarrierMapped isDynamicBarriers s v && s.producerCount v = 0) &&
      user.producer.all (isBarrierMapped isDynamicBarriers s) then
    match (user.consumer.foldlM (consume isDynamicBarriers user.count) s).bind
      (user.producer.foldlM (produce isDynamicBarriers user.count)) with
    | none => (.fail, s)
    | some s' => (.success, s')
  else (.skip, s)

end

structure BarrierWlmHandler where
  barrierProducers : ℕ → List ℕ
  barrierConsumers : ℕ → List ℕ
  controlGraphBlockIndex : ℕ → ℕ
  controlPathExists : ℕ → ℕ → Bool

def BarrierWlmHandler.canBarrierReusePidFromBarrier (handler : BarrierWlmHandler) (vid prevVid : ℕ) : Bool :=
  (handler.barrierConsumers prevVid).all (fun prevBarConsumer => (handler.barrierProducers vid).all (fun barProducer =>
    handler.controlGraphBlockIndex barProducer ≠ handler.controlGraphBlockIndex prevBarConsumer ||
      handler.controlPathExists prevBarConsumer barProducer))

structure SimState extends BarrierState where
  prevVidOfPhysBar : List (Option ℕ)
  bar : ℕ
  queues : List (List BarrierUser)

structure Run where
  cur : SimState
  history : List SimState
  progressed : Bool

def Run.advance (run : Run) (s : SimState) : Run := ⟨s, run.history ++ [run.cur], true⟩

/-- What the simulation is given: the mode, the restriction on the reuse of physical ids, and the limit of the device. -/
structure Simulator where
  isDynamicBarriers : Bool
  barrierWlmHandler : Option BarrierWlmHandler
  availableBarriers : ℕ
  barriers : List BarrierConfig
  queues : List (List BarrierUser)

inductive Outcome
  | success
  | blocked
  /-- A task had the status `Fail`. -/
  | failed
  | thrown (message : String)
  | outOfFuel
  deriving DecidableEq

namespace Simulator

variable (sim : Simulator)

def hasBarriersToMap (s : SimState) : Bool :=
  if sim.isDynamicBarriers then !s.nextReal.isEmpty
  else match s.realId s.bar with
    | none => false
    | some r => s.toVirtual[r]? = some none

def pickReusable (handler : BarrierWlmHandler) (s : SimState) : ℕ → RingBuffer ℕ → Option ℕ × RingBuffer ℕ
  | 0, nextReal => (none, nextReal)
  | numOfAvailablePhysBars + 1, nextReal =>
    let real := nextReal.front
    match s.prevVidOfPhysBar.getD real none with
    | none => (some real, nextReal.pop)
    | some prevVid =>
      if handler.canBarrierReusePidFromBarrier s.bar prevVid then (some real, nextReal.pop)
      else pickReusable handler s numOfAvailablePhysBars (nextReal.pop.push real)

def pickReal (s : SimState) : Option ℕ × RingBuffer ℕ :=
  if sim.isDynamicBarriers then
    match sim.barrierWlmHandler with
    | some handler => pickReusable handler s s.nextReal.size s.nextReal
    | none => (some s.nextReal.front, s.nextReal.pop)
  else (s.realId s.bar, s.nextReal)

def setReal (s : SimState) (real : ℕ) (nextReal : RingBuffer ℕ) : SimState :=
  { s with
    barriers := s.barriers.modify s.bar (fun b => { b with realId := some real })
    toVirtual := s.toVirtual.set real (some s.bar)
    nextReal
    prevVidOfPhysBar := s.prevVidOfPhysBar.set real (some s.bar)
    bar := s.bar + 1 }

def mapNewBarriers : ℕ → Run → Run
  | 0, run => run
  | n + 1, run =>
    if sim.hasBarriersToMap run.cur then
      match sim.pickReal run.cur with
      | (none, nextReal) => { run with cur := { run.cur with nextReal } }
      | (some real, nextReal) => mapNewBarriers n (run.advance (setReal run.cur real nextReal))
    else run

def processQueue (i : ℕ) : List BarrierUser → Run → Option Run
  | [], run => some run
  | user :: users, run =>
    match processSim sim.isDynamicBarriers run.cur.toBarrierState user with
    | (.skip, _) => some run
    | (.fail, _) => none
    | (.success, s) =>
      processQueue i users (run.advance { run.cur with toBarrierState := s, queues := run.cur.queues.set i users })

def processQueues (run : Run) : Option Run :=
  (List.range run.cur.queues.length).foldlM (fun run i => sim.processQueue i (run.cur.queues.getD i []) run) run

def isComplete (s : SimState) : Bool := s.bar ≥ s.barriers.length && s.queues.all List.isEmpty

def blockedOutcome (s : SimState) : Outcome :=
  match (List.range s.toVirtual.length).findSome? (fun pid => (s.toVirtual.getD pid none).bind (fun vid =>
    if s.realId vid = some pid then none else some vid)) with
  | none => .blocked
  | some vid => .thrown s!"Mismatch in barrier config: VID {vid}"

def simulationLoop : ℕ → Run → Outcome × Run
  | 0, run => (.outOfFuel, run)
  | fuel + 1, run =>
    if isComplete run.cur then (.success, run)
    else
      let mapped := sim.mapNewBarriers (run.cur.barriers.length - run.cur.bar) { run with progressed := false }
      match sim.processQueues mapped with
      | none => (.failed, mapped)
      | some run => if !run.progressed then (blockedOutcome run.cur, run) else simulationLoop fuel run

def initialState (activeBarrierLimit : ℕ) : SimState where
  barriers := sim.barriers
  toVirtual := List.replicate activeBarrierLimit none
  nextReal := if sim.isDynamicBarriers then (List.range activeBarrierLimit).foldl RingBuffer.push (RingBuffer.reset activeBarrierLimit)
    else RingBuffer.reset 0
  prevVidOfPhysBar := List.replicate activeBarrierLimit none
  bar := 0
  queues := sim.queues

def remaining (s : SimState) : ℕ := (s.barriers.length - s.bar) + (s.queues.map List.length).sum

def simulateBarriers (numBarriers : Option ℕ) : Outcome × Run :=
  let activeBarrierLimit := numBarriers.getD sim.availableBarriers
  let availableBarriers := sim.availableBarriers
  let run := ⟨sim.initialState activeBarrierLimit, [], false⟩
  if activeBarrierLimit > availableBarriers then
    (.thrown s!"Provided number of barriers '{activeBarrierLimit}' is greater than HW limitation '{availableBarriers}'", run)
  else sim.simulationLoop (remaining run.cur + 1) run

end Simulator

end NpuCompiler.Barrier.Simulator
