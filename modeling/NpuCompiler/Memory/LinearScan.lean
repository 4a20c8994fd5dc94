import NpuCompiler.Memory.Partitioner

namespace NpuCompiler.Memory

inductive Event (R : Type*)
  | allocated (range : R) (addr : ℕ)
  | freed (range : R)
  | spilled (range : R) (accepted : Bool)

structure Handler (R : Type*) where
  isAlive : R → Bool
  isFixedAlloc : R → Bool
  getSize : R → ℕ
  getAlignment : R → ℕ
  getAddress : R → ℕ
  getSpillWeight : List (Event R) → R → ℤ
  acceptsSpill : List (Event R) → R → Bool
  log : List (Event R)

variable {R : Type*} [DecidableEq R]

namespace Handler

def allocated (h : Handler R) (range : R) (addr : ℕ) : Handler R :=
  { h with getAddress := Function.update h.getAddress range addr, log := h.log ++ [.allocated range addr] }

def freed (h : Handler R) (range : R) : Handler R := { h with log := h.log ++ [.freed range] }

def spilled (h : Handler R) (range : R) : Bool × Handler R :=
  let accepted := h.acceptsSpill h.log range
  (accepted, { h with log := h.log ++ [.spilled range accepted] })

end Handler

structure LinearScan (R : Type*) where
  partitioner : Partitioner
  liveRanges : List R
  handler : Handler R

/-- The `(address, size)` pairs an `AllocationGuard` or a `TempAllocationTester` gives back at its end. -/
abbrev Recorded := List (ℕ × ℕ)

def Recorded.recordAllocation (guard : Recorded) (addr size : ℕ) : Recorded :=
  if addr ≠ invalidAddress then guard ++ [(addr, size)] else guard

namespace Partitioner

def allocFixedAll (p : Partitioner) (ranges : Recorded) : Partitioner :=
  ranges.foldl (fun p r => p.allocFixed r.1 r.2) p

def freeAll (p : Partitioner) (ranges : Recorded) : Partitioner :=
  ranges.foldl (fun p r => p.free r.1 r.2) p

end Partitioner

def swapAndPop (v : List R) (idx : ℕ) : List R :=
  match v.getLast? with
  | none => v
  | some back => (v.set idx back).dropLast

namespace LinearScan

def create (size : ℕ) (reservedVec : Recorded) (handler : Handler R) : LinearScan R :=
  ⟨(Partitioner.init size).allocFixedAll reservedVec, [], handler⟩

def freeLiveRangeAt (s : LinearScan R) (idx : ℕ) : LinearScan R :=
  match s.liveRanges[idx]? with
  | none => s
  | some range =>
    { partitioner := s.partitioner.free (s.handler.getAddress range) (s.handler.getSize range)
      liveRanges := swapAndPop s.liveRanges idx
      handler := s.handler.freed range }

def freeDeadRange (s : LinearScan R) (idx : ℕ) : LinearScan R :=
  match s.liveRanges[idx]? with
  | none => s
  | some range => if s.handler.isAlive range then s else s.freeLiveRangeAt idx

def freeDeadRanges (s : LinearScan R) : LinearScan R :=
  (List.range s.liveRanges.length).reverse.foldl freeDeadRange s

def getSpillCandidate (s : LinearScan R) : Option (R × LinearScan R) :=
  let weight := s.handler.getSpillWeight s.handler.log
  match s.liveRanges.findIdx? (fun r => s.liveRanges.all (fun r' => !decide (weight r' < weight r))) with
  | none => none
  | some idx =>
    match s.liveRanges[idx]? with
    | none => none
    | some spillCandidate =>
      some (spillCandidate,
        { s with
          partitioner := s.partitioner.free (s.handler.getAddress spillCandidate) (s.handler.getSize spillCandidate)
          liveRanges := swapAndPop s.liveRanges idx })

def spillConflictingRange (s : LinearScan R) (range : R) : Bool × LinearScan R :=
  let (accepted, handler) := s.handler.spilled range
  if accepted then (true, { s with handler := handler.freed range }) else (false, { s with handler := handler })

def restoreNonConflictingRange (s : LinearScan R) (range : R) (addr size : ℕ) : LinearScan R :=
  { partitioner := s.partitioner.allocFixed addr size
    liveRanges := s.liveRanges ++ [range]
    handler := s.handler.allocated range addr }

def processSpillCandidates (newRangeAddr newRangeSize : ℕ) : List R → LinearScan R → Bool × LinearScan R
  | [], s => (true, s)
  | candidate :: rest, s =>
    let candidateAddr := s.handler.getAddress candidate
    let candidateSize := s.handler.getSize candidate
    if Partitioner.intersects candidateAddr candidateSize newRangeAddr newRangeSize then
      match s.spillConflictingRange candidate with
      | (true, s') => processSpillCandidates newRangeAddr newRangeSize rest s'
      | (false, s') => (false, s')
    else
      processSpillCandidates newRangeAddr newRangeSize rest
        (s.restoreNonConflictingRange candidate candidateAddr candidateSize)

def missesLiveRanges (s : LinearScan R) (addr size : ℕ) : Bool :=
  s.liveRanges.all
    (fun r => !Partitioner.intersects addr size (s.handler.getAddress r) (s.handler.getSize r))

def spillUntilMissed (addr size : ℕ) (allowSpills : Bool) :
    ℕ → List R → LinearScan R → Bool × List R × LinearScan R
  | 0, spillCandidates, s => (s.missesLiveRanges addr size, spillCandidates, s)
  | fuel + 1, spillCandidates, s =>
    if s.missesLiveRanges addr size then (true, spillCandidates, s)
    else if !allowSpills then (false, spillCandidates, s)
    else
      match s.getSpillCandidate with
      | none => (false, spillCandidates, s)
      | some (candidate, s') =>
        spillUntilMissed addr size allowSpills fuel (spillCandidates ++ [candidate]) s'

def allocFixedRange (s : LinearScan R) (newRange : R) (allowSpills : Bool) (guard : Recorded) :
    Bool × LinearScan R × Recorded :=
  let addr := s.handler.getAddress newRange
  let size := s.handler.getSize newRange
  match spillUntilMissed addr size allowSpills s.liveRanges.length [] s with
  | (false, _, s) => (false, s, guard)
  | (true, spillCandidates, s) =>
    match processSpillCandidates addr size spillCandidates s with
    | (false, s) => (false, s, guard)
    | (true, s) =>
      (true, { s with partitioner := s.partitioner.allocFixed addr size }, guard.recordAllocation addr size)

def spillUntilFound (size alignment : ℕ) (dir : Direction) (allowSpills : Bool) :
    ℕ → List R → LinearScan R → Option ℕ × List R × LinearScan R
  | fuel, spillCandidates, s =>
    let (addr, p) := s.partitioner.alloc size alignment dir
    let allocated : LinearScan R := { s with partitioner := p }
    if addr ≠ invalidAddress then (some addr, spillCandidates, allocated)
    else if !allowSpills then (none, spillCandidates, allocated)
    else
      match fuel, allocated.getSpillCandidate with
      | fuel + 1, some (candidate, s') =>
        spillUntilFound size alignment dir allowSpills fuel (spillCandidates ++ [candidate]) s'
      | _, _ => (none, spillCandidates, allocated)

def allocDynamicRange (s : LinearScan R) (newRange : R) (allowSpills : Bool) (dir : Direction)
    (guard : Recorded) : Option ℕ × LinearScan R × Recorded :=
  let size := s.handler.getSize newRange
  let alignment := s.handler.getAlignment newRange
  match spillUntilFound size alignment dir allowSpills s.liveRanges.length [] s with
  | (none, _, s) => (none, s, guard)
  | (some addr, spillCandidates, s) =>
    match processSpillCandidates addr size spillCandidates s with
    | (false, s) => (none, s, guard)
    | (true, s) => (some addr, s, guard.recordAllocation addr size)

abbrev Pending (R : Type*) := List (R × ℕ)

def allocFixedRanges (allowSpills : Bool) : List R → LinearScan R → Recorded → Pending R →
    Bool × LinearScan R × Recorded × Pending R
  | [], s, guard, pending => (true, s, guard, pending)
  | newRange :: rest, s, guard, pending =>
    match s.allocFixedRange newRange allowSpills guard with
    | (false, s, guard) => (false, s, guard, pending)
    | (true, s, guard) =>
      allocFixedRanges allowSpills rest s guard (pending ++ [(newRange, s.handler.getAddress newRange)])

def allocDynamicRanges (allowSpills : Bool) (dir : Direction) : List R → LinearScan R → Recorded → Pending R →
    Bool × LinearScan R × Recorded × Pending R
  | [], s, guard, pending => (true, s, guard, pending)
  | newRange :: rest, s, guard, pending =>
    match s.allocDynamicRange newRange allowSpills dir guard with
    | (none, s, guard) => (false, s, guard, pending)
    | (some addr, s, guard) =>
      allocDynamicRanges allowSpills dir rest s guard (pending ++ [(newRange, addr)])

def rollback (s : LinearScan R) (guard : Recorded) : LinearScan R :=
  { s with partitioner := s.partitioner.freeAll guard }

def commit (s : LinearScan R) (pending : Pending R) : LinearScan R :=
  pending.foldl (fun s e => { s with handler := s.handler.allocated e.1 e.2, liveRanges := s.liveRanges ++ [e.1] }) s

def alloc (s : LinearScan R) (newLiveRanges : List R) (allowSpills : Bool) (dir : Direction) :
    Bool × LinearScan R :=
  match allocFixedRanges allowSpills (newLiveRanges.filter (fun r => s.handler.isFixedAlloc r)) s [] [] with
  | (false, s, guard, _) => (false, s.rollback guard)
  | (true, s, guard, pending) =>
    match allocDynamicRanges allowSpills dir (newLiveRanges.filter (fun r => !s.handler.isFixedAlloc r)) s
        guard pending with
    | (false, s, guard, _) => (false, s.rollback guard)
    | (true, s, _, pending) => (true, s.commit pending)

def allocWithReservedSpace (s : LinearScan R) (newLiveRanges : List R) (reservedSpaceSize baseAlignment : ℕ)
    (allowSpills : Bool) (dir : Direction) : ℕ × LinearScan R :=
  match s.partitioner.alloc reservedSpaceSize baseAlignment dir with
  | (allocAddr, p) =>
    if allocAddr = invalidAddress then (invalidAddress, { s with partitioner := p })
    else
      match ({ s with partitioner := p } : LinearScan R).alloc newLiveRanges allowSpills dir with
      | (allocSuccess, s) =>
        (if allocSuccess then allocAddr else invalidAddress,
          { s with partitioner := s.partitioner.free allocAddr reservedSpaceSize })

def allocWithExcludedRegion (s : LinearScan R) (excludedRanges : Recorded) (newLiveRanges : List R)
    (allowSpills : Bool) (dir : Direction) : Bool × LinearScan R :=
  let excluded : LinearScan R := { s with partitioner := s.partitioner.allocFixedAll excludedRanges }
  match excluded.alloc newLiveRanges allowSpills dir with
  | (allocSuccess, s) => (allocSuccess, { s with partitioner := s.partitioner.freeAll excludedRanges })

def testAll (handler : Handler R) (dir : Direction) : List R → Partitioner → Recorded →
    Bool × Partitioner × Recorded
  | [], p, temp => (true, p, temp)
  | newRange :: rest, p, temp =>
    match p.alloc (handler.getSize newRange) (handler.getAlignment newRange) dir with
    | (addr, p') =>
      let temp := temp.recordAllocation addr (handler.getSize newRange)
      if addr = invalidAddress then (false, p', temp) else testAll handler dir rest p' temp

def endTest (s : LinearScan R) : Bool × Partitioner × Recorded → Bool × LinearScan R
  | (ok, p, temp) => (ok, { s with partitioner := p.freeAll temp })

def canAlloc (s : LinearScan R) (newLiveRanges : List R) (dir : Direction) : Bool × LinearScan R :=
  s.endTest (testAll s.handler dir newLiveRanges s.partitioner [])

def canAllocWithReservedSpace (s : LinearScan R) (newLiveRanges : List R)
    (reservedSpaceSize baseAlignment : ℕ) (dir : Direction) : Bool × LinearScan R :=
  match s.partitioner.alloc reservedSpaceSize baseAlignment dir with
  | (addr, p) =>
    let temp := Recorded.recordAllocation [] addr reservedSpaceSize
    if addr = invalidAddress then s.endTest (false, p, temp)
    else s.endTest (testAll s.handler dir newLiveRanges p temp)

def canAllocWithExcludedRegion (s : LinearScan R) (excludedRanges : Recorded) (newLiveRanges : List R)
    (dir : Direction) : Bool × LinearScan R :=
  let temp := excludedRanges.foldl (fun temp r => Recorded.recordAllocation temp r.1 r.2) []
  s.endTest (testAll s.handler dir newLiveRanges (s.partitioner.allocFixedAll excludedRanges) temp)

end LinearScan

end NpuCompiler.Memory
