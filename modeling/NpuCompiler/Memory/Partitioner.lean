import Mathlib.Algebra.Ring.Nat
import Mathlib.Data.List.Basic

namespace NpuCompiler.Memory

def addrAdd (a b : ℕ) : ℕ := (a + b) % 2 ^ 64

def addrSub (a b : ℕ) : ℕ := (2 ^ 64 + a - b) % 2 ^ 64

def invalidAddress : ℕ := 2 ^ 64 - 1

def alignValUp (val align : ℕ) : ℕ := addrAdd val (addrSub align 1) / align * align

inductive Direction
  | up
  | down
  deriving DecidableEq, Repr

structure Gap where
  begin_ : ℕ
  end_ : ℕ
  deriving DecidableEq, Repr

def Gap.size (g : Gap) : ℕ := addrSub g.end_ g.begin_

structure Partitioner where
  gaps : List Gap
  totalSize : ℕ
  deriving DecidableEq, Repr

namespace Partitioner

def init (totalSize : ℕ) : Partitioner := ⟨[⟨0, totalSize⟩], totalSize⟩

def getAddrFromGap (g : Gap) (size alignment : ℕ) (dir : Direction) : ℕ :=
  if g.size < size then invalidAddress
  else match dir with
  | .up =>
    let alignedBegin := alignValUp g.begin_ alignment
    if addrAdd alignedBegin size > g.end_ then invalidAddress else alignedBegin
  | .down =>
    let alignedBegin := alignValUp (addrSub g.end_ size) alignment
    if addrAdd alignedBegin size > g.end_ then
      if addrAdd g.begin_ alignment > alignedBegin then invalidAddress
      else
        let lowered := addrSub alignedBegin alignment
        if addrAdd lowered size > g.end_ then invalidAddress else lowered
    else alignedBegin

def useGap (gaps : List Gap) (pos : ℕ) (alignedBegin size : ℕ) : List Gap :=
  match gaps[pos]? with
  | none => gaps
  | some g =>
    let newGapLeft := addrSub alignedBegin g.begin_
    let newGapRight := addrSub g.end_ (addrAdd alignedBegin size)
    if newGapLeft = 0 ∧ newGapRight = 0 then gaps.eraseIdx pos
    else if newGapLeft > 0 ∧ newGapRight = 0 then gaps.set pos ⟨g.begin_, alignedBegin⟩
    else if newGapLeft = 0 ∧ newGapRight > 0 then gaps.set pos ⟨addrAdd alignedBegin size, g.end_⟩
    else (gaps.set pos ⟨addrAdd alignedBegin size, g.end_⟩).insertIdx pos ⟨g.begin_, alignedBegin⟩

def considerGap (gaps : List Gap) (size alignment : ℕ) (dir : Direction)
    (best : Option ℕ × ℕ) (i : ℕ) : Option ℕ × ℕ :=
  match gaps[i]? with
  | none => best
  | some g =>
    if getAddrFromGap g size alignment dir ≠ invalidAddress then
      if g.size < best.2 then (some i, g.size) else best
    else best

def searchOrder (numGaps : ℕ) : Direction → List ℕ
  | .up => List.range (numGaps - 1)
  | .down => (List.range' 1 (numGaps - 1)).reverse

def lastGap (numGaps : ℕ) : Direction → ℕ
  | .up => numGaps - 1
  | .down => 0

def minGapInd (gaps : List Gap) (size alignment : ℕ) (dir : Direction) : Option ℕ :=
  match ((searchOrder gaps.length dir).foldl (considerGap gaps size alignment dir)
      (none, 2 ^ 64 - 1)).1 with
  | some i => some i
  | none =>
    match gaps[lastGap gaps.length dir]? with
    | none => none
    | some g =>
      if getAddrFromGap g size alignment dir ≠ invalidAddress then some (lastGap gaps.length dir)
      else none

def chooseMinimalGap (p : Partitioner) (size alignment : ℕ) (dir : Direction) :
    ℕ × Partitioner :=
  match minGapInd p.gaps size alignment dir with
  | none => (invalidAddress, p)
  | some pos =>
    match p.gaps[pos]? with
    | none => (invalidAddress, p)
    | some g =>
      let alignedBegin := getAddrFromGap g size alignment dir
      (alignedBegin, { p with gaps := useGap p.gaps pos alignedBegin size })

def alloc (p : Partitioner) (size alignment : ℕ) (dir : Direction) :
    ℕ × Partitioner :=
  p.chooseMinimalGap size alignment dir

def cutPrevious (before after : List Gap) (addr size : ℕ) : List Gap :=
  match before.getLast? with
  | none => before ++ after
  | some elem =>
    let end_ := addrAdd addr size
    if elem.end_ = end_ then before.dropLast ++ ⟨elem.begin_, addr⟩ :: after
    else before.dropLast ++ ⟨elem.begin_, addr⟩ :: ⟨end_, addrAdd end_ (addrSub elem.end_ end_)⟩ :: after

def allocFixed (p : Partitioner) (addr size : ℕ) : Partitioner :=
  -- `std::lower_bound` on the sorted gaps stops at the first gap that does not begin before `addr`
  let before := p.gaps.takeWhile (fun g => decide (g.begin_ < addr))
  let after := p.gaps.dropWhile (fun g => decide (g.begin_ < addr))
  match after with
  | [] => { p with gaps := cutPrevious before after addr size }
  | elem :: rest =>
    if elem.begin_ = addr then
      if elem.size = size then { p with gaps := before ++ rest }
      else { p with gaps := before ++ ⟨addrAdd elem.begin_ size, elem.end_⟩ :: rest }
    else { p with gaps := cutPrevious before after addr size }

def freeBetween (addr size : ℕ) : List Gap → Option (List Gap)
  | gap :: nextGap :: rest =>
    let end_ := addrAdd addr size
    if addr ≥ gap.end_ ∧ end_ ≤ nextGap.begin_ then
      some <|
        if addr = gap.end_ then
          if end_ = nextGap.begin_ then
            ⟨gap.begin_, addrAdd gap.end_ (addrAdd size nextGap.size)⟩ :: rest
          else ⟨gap.begin_, addrAdd gap.end_ size⟩ :: nextGap :: rest
        else if end_ = nextGap.begin_ then gap :: ⟨addrSub nextGap.begin_ size, nextGap.end_⟩ :: rest
        else gap :: ⟨addr, end_⟩ :: nextGap :: rest
    else (freeBetween addr size (nextGap :: rest)).map (gap :: ·)
  | _ => none

def freeAtLast (addr size : ℕ) (gaps : List Gap) : List Gap :=
  match gaps.getLast? with
  | none => gaps
  | some lastGap =>
    let end_ := addrAdd addr size
    if end_ < lastGap.begin_ then gaps.dropLast ++ [⟨addr, end_⟩, lastGap]
    else if end_ = lastGap.begin_ then gaps.dropLast ++ [⟨addrSub lastGap.begin_ size, lastGap.end_⟩]
    else if addr = lastGap.end_ then gaps.dropLast ++ [⟨lastGap.begin_, addrAdd lastGap.end_ size⟩]
    else gaps ++ [⟨addr, end_⟩]

def freeGaps (addr size : ℕ) : List Gap → List Gap
  | [] => [⟨addr, addrAdd addr size⟩]
  | firstGap :: rest =>
    let end_ := addrAdd addr size
    if end_ = firstGap.begin_ then ⟨addrSub firstGap.begin_ size, firstGap.end_⟩ :: rest
    else if end_ < firstGap.begin_ then ⟨addr, end_⟩ :: firstGap :: rest
    else (freeBetween addr size (firstGap :: rest)).getD (freeAtLast addr size (firstGap :: rest))

def free (p : Partitioner) (addr size : ℕ) : Partitioner :=
  { p with gaps := freeGaps addr size p.gaps }

def totalFreeSize (p : Partitioner) : ℕ :=
  p.gaps.foldl (fun res g => addrAdd res g.size) 0

def intersects (addr1 size1 addr2 size2 : ℕ) : Bool :=
  let end1 := addrAdd addr1 size1
  let end2 := addrAdd addr2 size2
  let inRange := fun (b e v : ℕ) => decide (b ≤ v) && decide (v < e)
  inRange addr1 end1 addr2 || inRange addr1 end1 (addrSub end2 1) ||
    inRange addr2 end2 addr1 || inRange addr2 end2 (addrSub end1 1)

example : ((init 33).alloc 2 16 .down).1 = 16 := by decide

end Partitioner

end NpuCompiler.Memory
