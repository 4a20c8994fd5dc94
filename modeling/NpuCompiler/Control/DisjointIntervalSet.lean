import Mathlib.Algebra.Ring.Nat
import Mathlib.Data.List.Basic
import Mathlib.Order.Lattice

namespace NpuCompiler.Control

def unitPred (x : ℕ) : ℕ := (2 ^ 64 + x - 1) % 2 ^ 64

def unitSucc (x : ℕ) : ℕ := (x + 1) % 2 ^ 64

def unitMax : ℕ := 2 ^ 64 - 1

namespace IntervalUtils

def intersects (abeg aend bbeg bend : ℕ) : Bool := decide (max abeg bbeg ≤ min aend bend)

def isSubset (abeg aend bbeg bend : ℕ) : Bool :=
  if max abeg bbeg > min aend bend then false
  else decide (max abeg bbeg = abeg) && decide (min aend bend = aend)

def intervalXor (abeg aend bbeg bend : ℕ) : List (ℕ × ℕ) :=
  if intersects abeg aend bbeg bend then
    let ubeg := min abeg bbeg
    let uend := max aend bend
    let obeg := unitPred (max abeg bbeg)
    let oend := unitSucc (min aend bend)
    (if ubeg ≤ obeg ∧ obeg < min aend bend then [(ubeg, obeg)] else []) ++
      (if oend ≤ uend ∧ max abeg bbeg < oend then [(oend, uend)] else [])
  else [(abeg, aend), (bbeg, bend)]

end IntervalUtils

inductive OrientType
  | leftEnd
  | rightEnd
  deriving DecidableEq, Repr

structure EndPoint where
  x : ℕ
  orient : OrientType
  deriving DecidableEq, Repr

namespace EndPoint

def isLeftEnd (e : EndPoint) : Bool := e.orient = .leftEnd

def isRightEnd (e : EndPoint) : Bool := e.orient = .rightEnd

def rank (e : EndPoint) : ℕ := if e.isLeftEnd then 0 else 1

def less (e o : EndPoint) : Bool := if e.x ≠ o.x then decide (e.x < o.x) else decide (e.rank < o.rank)

end EndPoint

/-- The `std::map` of end points, in key order; an iterator is the key it points to, `none` is `end()`. -/
abbrev EndPointTree (V : Type) := List (EndPoint × V)

namespace EndPointTree

variable {V : Type}

def lowerBound (t : EndPointTree V) (k : EndPoint) : Option EndPoint :=
  (t.find? (fun e => !e.1.less k)).map Prod.fst

def next (t : EndPointTree V) (k : EndPoint) : Option EndPoint := (t.find? (fun e => k.less e.1)).map Prod.fst

def prev (t : EndPointTree V) (k : EndPoint) : Option EndPoint :=
  ((t.filter (fun e => e.1.less k)).getLast?).map Prod.fst

def find (t : EndPointTree V) (k : EndPoint) : Option V := (t.find? (fun e => e.1 = k)).map Prod.snd

def insertKey (k : EndPoint) (v : V) : EndPointTree V → EndPointTree V
  | [] => [(k, v)]
  | e :: t => if k.less e.1 then (k, v) :: e :: t else if e.1.less k then e :: insertKey k v t else e :: t

def eraseKey (t : EndPointTree V) (k : EndPoint) : EndPointTree V := t.filter (fun e => e.1 ≠ k)

end EndPointTree

structure IntervalIterator where
  itrBegin : Option EndPoint
  itrEnd : Option EndPoint
  deriving DecidableEq, Repr

namespace DisjointIntervalSet

open EndPointTree

variable {V : Type}

def isEnd (itr : IntervalIterator) : Bool := itr.itrBegin = itr.itrEnd

def advance (t : EndPointTree V) (itr : IntervalIterator) : Option IntervalIterator := do
  let left ← itr.itrBegin
  let right ← t.next left
  return { itr with itrBegin := t.next right }

def intervalBegin (itr : IntervalIterator) : Option ℕ := itr.itrBegin.map EndPoint.x

def intervalEnd (t : EndPointTree V) (itr : IntervalIterator) : Option ℕ := do
  let left ← itr.itrBegin
  let right ← t.next left
  return right.x

def getProdCons (t : EndPointTree V) (itr : IntervalIterator) : Option V := do
  let left ← itr.itrBegin
  t.find left

def isIntervalDisjoint (lkey rkey : EndPoint) (lkeyLowerBound : Option EndPoint) : Bool :=
  match lkeyLowerBound with
  | none => true
  | some lkeyLb => lkeyLb.isLeftEnd && decide (lkey.x < lkeyLb.x) && decide (rkey.x < lkeyLb.x)

def insert (t : EndPointTree V) (ibeg iend : ℕ) (v : V) : Bool × EndPointTree V :=
  let lkey : EndPoint := ⟨ibeg, .leftEnd⟩
  let rkey : EndPoint := ⟨iend, .rightEnd⟩
  if isIntervalDisjoint lkey rkey (t.lowerBound lkey) then (true, insertKey rkey v (insertKey lkey v t))
  else (false, t)

def erase (t : EndPointTree V) (ibeg iend : ℕ) : Bool × EndPointTree V :=
  if (t.find ⟨ibeg, .leftEnd⟩).isNone || (t.find ⟨iend, .rightEnd⟩).isNone then (false, t)
  else (true, (t.eraseKey ⟨ibeg, .leftEnd⟩).eraseKey ⟨iend, .rightEnd⟩)

def query (t : EndPointTree V) (ibeg iend : ℕ) : IntervalIterator :=
  let litr := t.lowerBound ⟨ibeg, .leftEnd⟩
  let litr := match litr with
    | some k => if k.isRightEnd then t.prev k else litr
    | none => litr
  let ritr := t.lowerBound ⟨iend, .rightEnd⟩
  let ritr := match ritr with
    | some k => if k.isRightEnd then t.next k else ritr
    | none => ritr
  ⟨litr, ritr⟩

end DisjointIntervalSet

end NpuCompiler.Control

namespace NpuCompiler.Control

structure ResourceView where
  buffer : ℕ
  offset : List ℤ
  shape : List ℤ
  staticStrides : List ℤ
  deriving DecidableEq, Repr

inductive ResRelation
  | producer
  | consumer
  deriving DecidableEq, Repr

structure ScheduledOpOneResource where
  op : ℕ
  addressStart : ℕ
  addressEnd : ℕ
  resRelation : ResRelation
  resourceView : Option ResourceView
  deriving DecidableEq, Repr

namespace ScheduledOpOneResource

def less (a b : ScheduledOpOneResource) : Bool :=
  if a.addressStart = b.addressStart ∧ a.addressEnd = b.addressEnd then decide (a.op < b.op)
  else if a.addressStart ≠ b.addressStart then decide (a.addressStart < b.addressStart)
  else decide (a.addressEnd < b.addressEnd)

def canOverlap (a b : ScheduledOpOneResource) : Bool :=
  if a.addressEnd < b.addressStart ∨ a.addressStart > b.addressEnd then true
  else if a.addressStart = b.addressStart ∧ a.addressEnd = b.addressEnd then
    match a.resourceView, b.resourceView with
    | some v, some w =>
      decide (v.buffer = w.buffer ∧ v.staticStrides = w.staticStrides ∧ v.offset ≠ w.offset)
    | _, _ => false
  else false

def isProducer (a : ScheduledOpOneResource) : Bool := a.resRelation = .producer

end ScheduledOpOneResource

def setInsert {α : Type*} (less : α → α → Bool) (x : α) : List α → List α
  | [] => [x]
  | y :: ys => if less x y then x :: y :: ys else if less y x then y :: setInsert less x ys else y :: ys

structure ProdCons where
  producers : List ScheduledOpOneResource
  consumers : List ScheduledOpOneResource
  deriving DecidableEq, Repr

namespace ProdCons

def ofProducer (prod : ScheduledOpOneResource) : ProdCons := ⟨[prod], []⟩

def newProducer (_ : ProdCons) (prod : ScheduledOpOneResource) : ProdCons := ⟨[prod], []⟩

def addProducer (pc : ProdCons) (prod : ScheduledOpOneResource) : ProdCons :=
  { pc with producers := setInsert ScheduledOpOneResource.less prod pc.producers }

def addConsumer (pc : ProdCons) (cons : ScheduledOpOneResource) : ProdCons :=
  { pc with consumers := setInsert ScheduledOpOneResource.less cons pc.consumers }

end ProdCons

structure ControlEdge where
  source : ℕ
  sink : ℕ
  deriving DecidableEq, Repr

abbrev ControlEdgeSet := List ControlEdge

namespace ControlEdgeGenerator

open DisjointIntervalSet IntervalUtils

abbrev IntervalTree := EndPointTree ProdCons

def canProdCoexist (curr : ScheduledOpOneResource) (pc : ProdCons) : Bool :=
  pc.producers.all (fun prod => curr.canOverlap prod)

def sourcesOfCurrProducers (pc : ProdCons) (output : ControlEdgeSet) : List ℕ :=
  let currProducers := pc.producers.map (·.op)
  (output.filter (fun e => e.sink ∈ currProducers && e.source ≠ e.sink)).foldl
    (fun sources e => setInsert (fun a b => decide (a < b)) e.source sources) []

def newEdges (curr : ScheduledOpOneResource) (pc : ProdCons) (output : ControlEdgeSet) : ControlEdgeSet :=
  if curr.isProducer then
    if canProdCoexist curr pc then (sourcesOfCurrProducers pc output).map (fun source => ⟨source, curr.op⟩)
    else if pc.consumers.isEmpty then pc.producers.map (fun prod => ⟨prod.op, curr.op⟩)
    else pc.consumers.map (fun cons => ⟨cons.op, curr.op⟩)
  else (pc.producers.filter (fun prod => !curr.canOverlap prod)).map (fun prod => ⟨prod.op, curr.op⟩)

def newProdCons (curr : ScheduledOpOneResource) (pc : ProdCons) : ProdCons :=
  if curr.isProducer then if canProdCoexist curr pc then pc.addProducer curr else pc.newProducer curr
  else pc.addConsumer curr

structure State where
  intervalTree : IntervalTree
  inserted : Bool
  outputDependency : ControlEdgeSet
  deriving DecidableEq, Repr

def State.insert (s : State) (ibeg iend : ℕ) (pc : ProdCons) : State :=
  let (status, tree) := DisjointIntervalSet.insert s.intervalTree ibeg iend pc
  { s with intervalTree := tree, inserted := s.inserted && status }

def State.erase (s : State) (ibeg iend : ℕ) : State :=
  { s with intervalTree := (DisjointIntervalSet.erase s.intervalTree ibeg iend).2 }

def insertParts (s : State) (curr : ScheduledOpOneResource) (pc newPc : ProdCons)
    (qbeg qend currRemBeg currRemEnd : ℕ) : State × ℕ × ℕ :=
  let interBeg := max currRemBeg qbeg
  let interEnd := min currRemEnd qend
  -- a part of the xor belongs to `curr` if it lies in its remainder, to the stored interval otherwise
  let parts := (intervalXor qbeg qend currRemBeg currRemEnd).map
    (fun r => (r.1, r.2, isSubset r.1 r.2 currRemBeg currRemEnd))
  let resultVal := fun (ofCurr : Bool) => if ofCurr then ProdCons.ofProducer curr else pc
  let (s, rest) := match parts with
    | [] => (s, [])
    | part :: rest =>
      if part.2.1 < interBeg then (s.insert part.1 part.2.1 (resultVal part.2.2), rest) else (s, part :: rest)
  let s := s.insert interBeg interEnd newPc
  match rest with
  | [] => (s, unitMax, 0)
  | (rbeg, rend, ofCurr) :: _ =>
    if !ofCurr then (s.insert rbeg rend pc, unitMax, 0) else (s, rbeg, rend)

/-- The loop over the overlapping intervals. `none` is a loop that runs out of `fuel` or an iterator that
is dereferenced or advanced where it must not. -/
def foreachOverlap (curr : ScheduledOpOneResource) :
    ℕ → State → IntervalIterator → ℕ → ℕ → ℕ → Option (State × ℕ × ℕ × ℕ)
  | 0, _, _, _, _, _ => none
  | fuel + 1, s, qitr, currRemBeg, currRemEnd, edgeCount =>
    if isEnd qitr then some (s, currRemBeg, currRemEnd, edgeCount)
    else do
      let qbeg ← intervalBegin qitr
      let qend ← intervalEnd s.intervalTree qitr
      if !intersects qbeg qend currRemBeg currRemEnd then return (s, currRemBeg, currRemEnd, edgeCount)
      let pc ← getProdCons s.intervalTree qitr
      let edges := newEdges curr pc s.outputDependency
      let newPc := newProdCons curr pc
      let qitrNext ← advance s.intervalTree qitr
      let s := { s with outputDependency := s.outputDependency ++ edges }
      let (s, nextRemBeg, nextRemEnd) := insertParts (s.erase qbeg qend) curr pc newPc qbeg qend currRemBeg currRemEnd
      foreachOverlap curr fuel s qitrNext nextRemBeg nextRemEnd (edgeCount + edges.length)

def mergeLoop (currIntervalProdCons : ProdCons) :
    ℕ → State → IntervalIterator → ℕ → Option (State × ℕ)
  | 0, _, _, _ => none
  | fuel + 1, s, qitr, prevRightEnd =>
    if isEnd qitr then some (s, prevRightEnd)
    else do
      let pc ← getProdCons s.intervalTree qitr
      let qbeg ← intervalBegin qitr
      if pc = currIntervalProdCons ∧ unitSucc prevRightEnd = qbeg then
        let qend ← intervalEnd s.intervalTree qitr
        let qitrNext ← advance s.intervalTree qitr
        mergeLoop currIntervalProdCons fuel (s.erase qbeg qend) qitrNext qend
      else return (s, prevRightEnd)

def mergeAbuttingIntervals (fuel : ℕ) (s : State) (curr : ScheduledOpOneResource) : Option State :=
  let qitr := query s.intervalTree curr.addressStart curr.addressEnd
  let currIntervalProdCons := ProdCons.ofProducer curr
  if isEnd qitr then some s
  else do
    let pc ← getProdCons s.intervalTree qitr
    if pc ≠ currIntervalProdCons then return s
    let prevLeftEnd ← intervalBegin qitr
    let startEnd ← intervalEnd s.intervalTree qitr
    let qitrNext ← advance s.intervalTree qitr
    let (s, prevRightEnd) ← mergeLoop currIntervalProdCons fuel s qitrNext startEnd
    let startEnd ← intervalEnd s.intervalTree qitr
    if prevRightEnd > startEnd then
      return (s.erase prevLeftEnd startEnd).insert prevLeftEnd prevRightEnd currIntervalProdCons
    else return s

def processNextInterval (fuel : ℕ) (s : State) (curr : ScheduledOpOneResource) : Option (State × ℕ) := do
  let qitr := query s.intervalTree curr.addressStart curr.addressEnd
  let (s, currRemBeg, currRemEnd, edgeCount) ←
    foreachOverlap curr fuel s qitr curr.addressStart curr.addressEnd 0
  let s := if currRemBeg ≤ currRemEnd then s.insert currRemBeg currRemEnd (ProdCons.ofProducer curr) else s
  if curr.isProducer then return (← mergeAbuttingIntervals fuel s curr, edgeCount)
  else return (s, edgeCount)

def generateControlEdges (fuel : ℕ) : List ScheduledOpOneResource → State → ℕ → Option (State × ℕ)
  | [], s, edgeCount => some (s, edgeCount)
  | curr :: rest, s, edgeCount =>
    if curr.addressStart > curr.addressEnd then generateControlEdges fuel rest s edgeCount
    else do
      let (s, count) ← processNextInterval fuel s curr
      generateControlEdges fuel rest s (edgeCount + count)

def init : State := ⟨[], true, []⟩

end ControlEdgeGenerator

end NpuCompiler.Control
