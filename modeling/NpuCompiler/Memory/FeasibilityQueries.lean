import NpuCompiler.Memory.LinearScanRuns

namespace NpuCompiler.Memory.LinearScan

open Partitioner

variable {R : Type*}

inductive Query
  | canAlloc
  | canAllocWithReservedSpace (reservedSpaceSize baseAlignment : ℕ)
  | canAllocWithExcludedRegion (excludedRanges : Recorded)

namespace Query

def toCall (new : List R) (dir : Direction) : Query → Call R
  | .canAlloc => .canAlloc new dir
  | .canAllocWithReservedSpace size alignment => .canAllocWithReservedSpace new size alignment dir
  | .canAllocWithExcludedRegion excluded => .canAllocWithExcludedRegion excluded new dir

def ask (s : LinearScan R) (new : List R) (dir : Direction) : Query → Bool × LinearScan R
  | .canAlloc => s.canAlloc new dir
  | .canAllocWithReservedSpace size alignment => s.canAllocWithReservedSpace new size alignment dir
  | .canAllocWithExcludedRegion excluded => s.canAllocWithExcludedRegion excluded new dir

variable [DecidableEq R]

def Succeeds (s : LinearScan R) (new : List R) (dir : Direction) : Query → Prop
  | .canAlloc => (s.alloc new false dir).1 = true
  | .canAllocWithReservedSpace size alignment =>
    (s.allocWithReservedSpace new size alignment false dir).1 ≠ invalidAddress
  | .canAllocWithExcludedRegion excluded => (s.allocWithExcludedRegion excluded new false dir).1 = true

end Query

section
variable [DecidableEq R] {new : List R} {dir : Direction}

theorem allocDynamicRanges_testAll (s : LinearScan R) (p : Partitioner) (guard temp : Recorded) (pending : Pending R) :
    (allocDynamicRanges false dir new { s with partitioner := p } guard pending).1 =
      (testAll s.handler dir new p temp).1 := by
  induction new generalizing p guard temp pending with
  | nil => rfl
  | cons r new ih =>
    have hw : WontSpill { s with partitioner := p } false := .inl rfl
    have hstep := allocDynamicRange_of_wontSpill hw r dir guard
    simp only [allocDynamicRanges, testAll, hstep]
    by_cases hv : (p.alloc (s.handler.getSize r) (s.handler.getAlignment r) dir).1 = invalidAddress
    · simp [hv]
    · simp only [ne_eq, hv, not_false_eq_true, if_true, if_false]
      apply ih

theorem alloc_testAll (s : LinearScan R) (dir : Direction) (hdyn : ∀ r ∈ new, s.handler.isFixedAlloc r = false)
    (temp : Recorded) :
    (s.alloc new false dir).1 = (testAll s.handler dir new s.partitioner temp).1 := by
  have hfixed : new.filter (fun r => s.handler.isFixedAlloc r) = [] := by
    simpa using hdyn
  have hall : new.filter (fun r => !s.handler.isFixedAlloc r) = new := by
    simpa using hdyn
  rw [← allocDynamicRanges_testAll s s.partitioner [] temp []]
  unfold alloc
  simp only [hfixed, allocFixedRanges, hall]
  split
  case h_1 heq => simp [heq]
  case h_2 heq => simp [heq]

theorem ask_iff (s : LinearScan R) (hdyn : ∀ r ∈ new, s.handler.isFixedAlloc r = false) (q : Query) :
    (q.ask s new dir).1 = true ↔ q.Succeeds s new dir := by
  cases q with
  | canAlloc =>
    simp only [Query.ask, Query.Succeeds, canAlloc, endTest]
    rw [alloc_testAll s dir hdyn []]
  | canAllocWithReservedSpace size alignment =>
    simp only [Query.ask, Query.Succeeds, canAllocWithReservedSpace, allocWithReservedSpace]
    by_cases hv : (s.partitioner.alloc size alignment dir).1 = invalidAddress
    · simp [hv, endTest]
    · have halloc := alloc_testAll { s with partitioner := (s.partitioner.alloc size alignment dir).2 } dir hdyn
        (Recorded.recordAllocation [] (s.partitioner.alloc size alignment dir).1 size)
      simp only [hv, if_false, endTest, ← halloc]
      split_ifs with hok <;> simp [hok, hv]
  | canAllocWithExcludedRegion excluded =>
    simp only [Query.ask, Query.Succeeds, canAllocWithExcludedRegion, allocWithExcludedRegion, endTest]
    rw [alloc_testAll { s with partitioner := s.partitioner.allocFixedAll excluded } dir hdyn]

end

theorem ask_unchanged {t : ℕ} {reserved : Recorded} {s : LinearScan R} {new : List R} {dir : Direction}
    (hok : s.partitioner.Ok) (q : Query) (ha : s.Allowed reserved (q.toCall new dir))
    (hc : s.Safe t (q.toCall new dir)) : (q.ask s new dir).2 = s := by
  cases q with
  | canAlloc => exact canAlloc_unchanged hok ha hc
  | canAllocWithReservedSpace size alignment => exact canAllocWithReservedSpace_unchanged hok ha hc
  | canAllocWithExcludedRegion excluded => exact canAllocWithExcludedRegion_unchanged hok ha hc

variable [DecidableEq R]

structure Query.Exact (s : LinearScan R) (new : List R) (dir : Direction) (q : Query) : Prop where
  answer : (q.ask s new dir).1 = true ↔ q.Succeeds s new dir
  gaps_eq : (q.ask s new dir).2.partitioner.gaps = s.partitioner.gaps

/-- A query answers as the allocation would and leaves the gaps as they were, if no alignment sum wraps. -/
theorem query_exact {t : ℕ} {reserved : Recorded} {s : LinearScan R} {new : List R} {dir : Direction} {q : Query}
    (hok : s.partitioner.Ok) (hdyn : ∀ r ∈ new, s.handler.isFixedAlloc r = false)
    (ha : s.Allowed reserved (q.toCall new dir)) (hc : s.Safe t (q.toCall new dir)) : q.Exact s new dir := by
  refine ⟨ask_iff s hdyn q, ?_⟩
  rw [ask_unchanged hok q ha hc]

theorem query_exact_ten : Query.Exact (create 100 [(0, 10)] (tenFixed 4)) [1, 2] .down (.canAllocWithReservedSpace 8 16) := by
  have hregions : Regions [(0, 10)] := regions_cons.mpr ⟨by decide, by simp [occupied_nil], regions_nil⟩
  have hin : occupied [(0, 10)] ⊆ Set.Ico 0 100 := by
    rintro x ⟨r, hr, hx⟩
    obtain rfl := List.mem_singleton.mp hr
    exact ⟨Nat.zero_le x, lt_trans hx.2 (by decide)⟩
  have hreach : Reaches 100 [(0, 10)] (tenFixed 4) (Safe 100) (create 100 [(0, 10)] (tenFixed 4)) := .create
  have hallowed : Allowed [(0, 10)] (create 100 [(0, 10)] (tenFixed 4))
      (.canAllocWithReservedSpace [1, 2] 8 16 .down) := by
    refine ⟨?_, by decide, by decide, by decide⟩
    unfold Positive
    decide
  have hsafe : Safe 100 (create 100 [(0, 10)] (tenFixed 4)) (.canAllocWithReservedSpace [1, 2] 8 16 .down) := by
    refine ⟨by decide, ?_⟩
    dsimp only
    decide
  exact query_exact (invariant_run (by decide) (by decide) hregions hin hreach).holds.ok (by decide) hallowed hsafe

/-- Dynamic range 1 is tried at address 0, below the only gap, and giving it back leaves three gaps. -/
theorem query_overflow :
    ∃ s : LinearScan ℕ, Reaches 100 [] (tenFixed (2 ^ 64 - 20)) (Safe 100) s ∧ s.handler.isFixedAlloc 1 = false ∧
      s.Allowed [] (.canAlloc [1] .down) ∧ ¬ Query.Exact s [1] .down .canAlloc := by
  refine ⟨(create 100 [] (tenFixed (2 ^ 64 - 20))).run (.alloc [0] .down), .call .create ?_ ?_, by decide, ?_, ?_⟩
  · exact ⟨by unfold Positive; decide, List.pairwise_singleton _ _, by simp [occupied_nil], by simp [create]⟩
  · refine ⟨?_, by decide, ?_⟩
    · rintro x ⟨r, hr, hx⟩
      obtain rfl : r = (0, 10) := by simpa [fixedRegions, fixedOf, create, tenFixed, region] using hr
      exact ⟨Nat.zero_le x, lt_trans hx.2 (by decide)⟩
    · exact fun _ => trivial
  · unfold Allowed Positive
    decide +kernel
  · intro h
    exact absurd h.gaps_eq (by decide +kernel)

end NpuCompiler.Memory.LinearScan
