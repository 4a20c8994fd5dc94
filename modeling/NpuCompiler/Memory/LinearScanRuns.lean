import NpuCompiler.Memory.LinearScanInvariant

namespace NpuCompiler.Memory.LinearScan

open Partitioner List

variable {R : Type*} {t : ℕ} {reserved : Recorded} {s : LinearScan R}

theorem fixedOf_nodup {newLiveRanges : List R} (hr : s.Requested reserved newLiveRanges) :
    (s.fixedOf newLiveRanges).Nodup := by
  have hapart := hr.fixed_apart
  rw [fixedRegions, pairwise_map] at hapart
  apply hapart.imp_of_mem
  rintro r r' hmem - hd rfl
  have hs := (hr.positive r (mem_of_mem_filter hmem)).1
  have hunit : (s.region r).1 ∈ units (s.region r) := ⟨le_refl _, by simp only [region]; omega⟩
  exact Set.disjoint_left.mp hd hunit hunit

theorem Invariant.takesOutAll (h : Invariant t reserved s) {p : Partitioner} {rs : Recorded}
    (ht : TakesOutAll s.partitioner p rs) : Invariant t (rs ++ reserved) { s with partitioner := p } :=
  ⟨(h.holds.takesOutAll ht).perm (perm_append_comm_assoc _ _ _), h.aligned⟩

theorem Invariant.freeAll {rs : Recorded} (h : Invariant t (rs ++ reserved) s) :
    Invariant t reserved { s with partitioner := s.partitioner.freeAll rs } := by
  refine ⟨Holds.freeAll (subset_refl _) ?_, h.aligned⟩
  exact h.holds.perm (perm_append_comm_assoc _ _ _)

theorem keys_nodup {newLiveRanges : List R} {dir : Direction} (hr : s.Requested reserved newLiveRanges)
    (hp : s.Placeable t newLiveRanges dir) : (s.fixedOf newLiveRanges ++ s.dynamicOf newLiveRanges).Nodup := by
  apply nodup_append.mpr
  refine ⟨fixedOf_nodup hr, hp.dynamic_nodup, ?_⟩
  rintro r hf r' hd rfl
  have h1 := (mem_filter.mp hf).2
  have h2 := (mem_filter.mp hd).2
  simp [h1] at h2

theorem Invariant.freeLiveRangeAt (h : Invariant t reserved s) (idx : ℕ) :
    Invariant t reserved (s.freeLiveRangeAt idx) := by
  unfold LinearScan.freeLiveRangeAt
  cases hg : s.liveRanges[idx]? with
  | none => exact h
  | some r =>
    have hperm := swapAndPop_perm hg
    refine ⟨(h.holds.perm ((hperm.map s.region).append_right reserved)).free (subset_refl _), ?_⟩
    · intro r' hmem hdyn
      exact h.aligned r' (hperm.mem_iff.mpr (mem_cons_of_mem _ hmem)) hdyn

theorem Invariant.freeDeadRanges (h : Invariant t reserved s) : Invariant t reserved s.freeDeadRanges := by
  have step (s : LinearScan R) (idx : ℕ) (h : Invariant t reserved s) : Invariant t reserved (s.freeDeadRange idx) := by
    unfold freeDeadRange
    split
    · exact h
    · split_ifs
      · exact h
      · exact h.freeLiveRangeAt idx
  unfold LinearScan.freeDeadRanges
  generalize (List.range s.liveRanges.length).reverse = order
  induction order generalizing s with
  | nil => exact h
  | cons idx order ih => exact ih (step s idx h)

theorem testAll_takesOutAll {q : Partitioner} (hq : q.Ok) (h : Handler R) (dir : Direction) (rs : List R)
    (hpos : Positive h rs) {p : Partitioner} {temp : Recorded} (hfit : RequestsFit h dir rs p)
    (hp : TakesOutAll q p temp) :
    ∃ ok p' temp', testAll h dir rs p temp = (ok, p', temp') ∧ TakesOutAll q p' temp' := by
  induction rs generalizing p temp with
  | nil => exact ⟨true, p, temp, rfl, hp⟩
  | cons r rs ih =>
    obtain ⟨hs, ha, ha'⟩ := hpos r (by simp)
    obtain ⟨hno, hrest⟩ := hfit
    rcases alloc_cases hp.ok hs ha ha' hno with he | ⟨addr, p₁, he, hv, -, hout⟩
    · refine ⟨false, p, temp, ?_, hp⟩
      rw [testAll, he]
      simp [Recorded.recordAllocation]
    · rw [he] at hrest
      have hsub := hout.subset
      rw [hp.complement] at hsub
      have hrec : temp.recordAllocation addr (h.getSize r) = temp ++ [(addr, h.getSize r)] :=
        recordAllocation_eq hq temp hs (hsub.trans Set.sdiff_subset)
      obtain ⟨ok, p', temp', heq, hp'⟩ := ih (fun r' hr' => hpos r' (by simp [hr'])) (hrest hv) (hp.snoc hs hout)
      refine ⟨ok, p', temp', ?_, hp'⟩
      rw [testAll, he]
      simp only [hrec, if_neg hv]
      exact heq

theorem endTest_testAll {q : Partitioner} (hok : s.partitioner.Ok) {dir : Direction} {rs : List R}
    {temp : Recorded} (hpos : Positive s.handler rs) (hfit : RequestsFit s.handler dir rs q)
    (hq : TakesOutAll s.partitioner q temp) : (s.endTest (testAll s.handler dir rs q temp)).2 = s := by
  obtain ⟨ok, p', temp', heq, hp'⟩ := testAll_takesOutAll hok s.handler dir rs hpos hfit hq
  rw [heq]
  simp only [endTest, hp'.freeAll_eq hok]

variable [DecidableEq R]

structure SameRanges (h h' : Handler R) : Prop where
  isFixedAlloc : h'.isFixedAlloc = h.isFixedAlloc
  getSize : h'.getSize = h.getSize
  getAlignment : h'.getAlignment = h.getAlignment

theorem commit_cons (s : LinearScan R) (e : R × ℕ) (pending : Pending R) :
    s.commit (e :: pending) = ({ s with
      handler := s.handler.allocated e.1 e.2, liveRanges := s.liveRanges ++ [e.1] } : LinearScan R).commit pending :=
  rfl

theorem commit_partitioner (s : LinearScan R) (pending : Pending R) :
    (s.commit pending).partitioner = s.partitioner := by
  induction pending generalizing s with
  | nil => rfl
  | cons e pending ih => rw [commit_cons, ih]

theorem commit_liveRanges (s : LinearScan R) (pending : Pending R) :
    (s.commit pending).liveRanges = s.liveRanges ++ pending.map Prod.fst := by
  induction pending generalizing s with
  | nil => simp [commit]
  | cons e pending ih => rw [commit_cons, ih, map_cons, append_assoc, singleton_append]

theorem commit_sameRanges (s : LinearScan R) (pending : Pending R) :
    SameRanges s.handler (s.commit pending).handler := by
  induction pending generalizing s with
  | nil => exact ⟨rfl, rfl, rfl⟩
  | cons e pending ih =>
    rw [commit_cons]
    obtain ⟨h1, h2, h3⟩ := ih { s with
      handler := s.handler.allocated e.1 e.2, liveRanges := s.liveRanges ++ [e.1] }
    exact ⟨h1, h2, h3⟩

theorem commit_getAddress_of_notMem (s : LinearScan R) {pending : Pending R} {r : R}
    (h : r ∉ pending.map Prod.fst) : (s.commit pending).handler.getAddress r = s.handler.getAddress r := by
  induction pending generalizing s with
  | nil => rfl
  | cons e pending ih =>
    obtain ⟨hne, htail⟩ := not_or.mp (mem_cons.not.mp h)
    rw [commit_cons, ih _ htail]
    exact Function.update_of_ne hne _ _

theorem commit_getAddress_of_mem (s : LinearScan R) {pending : Pending R} (hn : (pending.map Prod.fst).Nodup)
    {e : R × ℕ} (he : e ∈ pending) : (s.commit pending).handler.getAddress e.1 = e.2 := by
  induction pending generalizing s with
  | nil => simp at he
  | cons e' pending ih =>
    obtain ⟨hhead, htail⟩ := nodup_cons.mp hn
    rw [commit_cons]
    rcases mem_cons.mp he with rfl | he
    · rw [commit_getAddress_of_notMem _ hhead]
      exact Function.update_self _ _ _
    · exact ih _ htail he

section
variable {newLiveRanges : List R} {dir : Direction} (hr : s.Requested reserved newLiveRanges)
  (hpl : s.Placeable t newLiveRanges dir) {p : Partitioner} {guard : Recorded} {pending : Pending R}
  (hp : s.Placed p guard pending) (hkeys : pending.map Prod.fst = s.fixedOf newLiveRanges ++ s.dynamicOf newLiveRanges)
include hr hpl hp hkeys

theorem commit_getAddress_of_live {r : R}
    (hlive : r ∈ s.liveRanges) :
    (({ s with partitioner := p } : LinearScan R).commit pending).handler.getAddress r = s.handler.getAddress r := by
  by_cases hmem : r ∈ pending.map Prod.fst
  · obtain ⟨e, he, rfl⟩ := mem_map.mp hmem
    have hn : (pending.map Prod.fst).Nodup := hkeys ▸ keys_nodup hr hpl
    rw [commit_getAddress_of_mem _ hn he]
    apply hp.fixed e he
    rw [hkeys, mem_append] at hmem
    rcases hmem with hf | hd
    · simpa using (mem_filter.mp hf).2
    · exact absurd hlive (hr.dynamic_new e.1 hd)
  · exact commit_getAddress_of_notMem _ hmem

theorem commit_liveRegions :
    (({ s with partitioner := p } : LinearScan R).commit pending).liveRegions = s.liveRegions ++ guard := by
  have hsize := (commit_sameRanges ({ s with partitioner := p } : LinearScan R) pending).getSize
  have hn : (pending.map Prod.fst).Nodup := hkeys ▸ keys_nodup hr hpl
  rw [liveRegions, commit_liveRanges, map_append]
  congr 1
  · apply map_congr_left
    intro r hmem
    simp only [region, hsize, commit_getAddress_of_live hr hpl hp hkeys hmem]
  · rw [hp.guard_eq, map_map]
    apply map_congr_left
    intro e he
    simp only [Function.comp_apply, region, hsize, commit_getAddress_of_mem _ hn he]

end

theorem Invariant.commit {newLiveRanges : List R} {dir : Direction} (h : Invariant t reserved s)
    (hr : s.Requested reserved newLiveRanges) (hpl : s.Placeable t newLiveRanges dir) {p : Partitioner}
    {guard : Recorded} {pending : Pending R} (hp : s.Placed p guard pending)
    (hkeys : pending.map Prod.fst = s.fixedOf newLiveRanges ++ s.dynamicOf newLiveRanges) :
    Invariant t reserved (({ s with partitioner := p } : LinearScan R).commit pending) := by
  have hsame := commit_sameRanges ({ s with partitioner := p } : LinearScan R) pending
  constructor
  · rw [commit_partitioner, commit_liveRegions hr hpl hp hkeys, append_assoc]
    apply (h.holds.takesOutAll hp.takesOut).perm
    exact perm_append_comm_assoc _ _ _
  · intro r hmem hdyn
    rw [commit_liveRanges, mem_append] at hmem
    rw [hsame.isFixedAlloc] at hdyn
    rw [hsame.getAlignment]
    rcases hmem with hmem | hmem
    · rw [commit_getAddress_of_live hr hpl hp hkeys hmem]
      exact h.aligned r hmem hdyn
    · obtain ⟨e, he, rfl⟩ := mem_map.mp hmem
      have hn : (pending.map Prod.fst).Nodup := hkeys ▸ keys_nodup hr hpl
      rw [commit_getAddress_of_mem _ hn he]
      exact hp.dynamic e he hdyn

theorem Invariant.alloc (h : Invariant t reserved s) {newLiveRanges : List R} {dir : Direction}
    (hr : s.Requested reserved newLiveRanges) (hp : s.Placeable t newLiveRanges dir) :
    Invariant t reserved (s.alloc newLiveRanges false dir).2 := by
  have hwell : s.WellFormed t reserved newLiveRanges :=
    ⟨hr.positive, hr.fixed_apart, hr.fixed_clear, hp.fixed_inside⟩
  rcases alloc_of_wontSpill h (.inl rfl) hwell hp.no_wrap with he | ⟨p, guard, pending, he, hpl, hkeys⟩
  · rw [he]
    exact h
  · rw [he]
    exact h.commit hr hp hpl hkeys

inductive Call (R : Type*)
  | freeDeadRanges (isAlive : R → Bool)
  | alloc (newLiveRanges : List R) (dir : Direction)
  | allocWithReservedSpace (newLiveRanges : List R) (reservedSpaceSize baseAlignment : ℕ) (dir : Direction)
  | allocWithExcludedRegion (excludedRanges : Recorded) (newLiveRanges : List R) (dir : Direction)
  | canAlloc (newLiveRanges : List R) (dir : Direction)
  | canAllocWithReservedSpace (newLiveRanges : List R) (reservedSpaceSize baseAlignment : ℕ) (dir : Direction)
  | canAllocWithExcludedRegion (excludedRanges : Recorded) (newLiveRanges : List R) (dir : Direction)

def run (s : LinearScan R) : Call R → LinearScan R
  | .freeDeadRanges isAlive => freeDeadRanges { s with handler := { s.handler with isAlive := isAlive } }
  | .alloc new dir => (s.alloc new false dir).2
  | .allocWithReservedSpace new size alignment dir => (s.allocWithReservedSpace new size alignment false dir).2
  | .allocWithExcludedRegion excluded new dir => (s.allocWithExcludedRegion excluded new false dir).2
  | .canAlloc new dir => (s.canAlloc new dir).2
  | .canAllocWithReservedSpace new size alignment dir => (s.canAllocWithReservedSpace new size alignment dir).2
  | .canAllocWithExcludedRegion excluded new dir => (s.canAllocWithExcludedRegion excluded new dir).2

def CurrentlyFree (s : LinearScan R) (excludedRanges : Recorded) : Prop :=
  Regions excludedRanges ∧ occupied excludedRanges ⊆ freeSet s.partitioner.gaps

def Allowed (reserved : Recorded) (s : LinearScan R) : Call R → Prop
  | .freeDeadRanges _ => True
  | .alloc new _ => s.Requested reserved new
  | .allocWithReservedSpace new size alignment _ =>
    s.Requested reserved new ∧ 0 < size ∧ 0 < alignment ∧ alignment < 2 ^ 64
  | .allocWithExcludedRegion excluded new _ => s.Requested reserved new ∧ s.CurrentlyFree excluded
  | .canAlloc new _ => Positive s.handler new
  | .canAllocWithReservedSpace new size alignment _ =>
    Positive s.handler new ∧ 0 < size ∧ 0 < alignment ∧ alignment < 2 ^ 64
  | .canAllocWithExcludedRegion excluded new _ => Positive s.handler new ∧ s.CurrentlyFree excluded

/-- No alignment sum wraps on a gap that the call takes, no range is asked for twice at once, and the fixed ranges lie in the
memory, off the region that the call itself sets aside. -/
def Safe (t : ℕ) (s : LinearScan R) : Call R → Prop
  | .freeDeadRanges _ => True
  | .alloc new dir => s.Placeable t new dir
  | .allocWithReservedSpace new size alignment dir =>
    s.partitioner.TakenNoOverflow size alignment dir ∧
      let (addr, p) := s.partitioner.alloc size alignment dir
      addr ≠ invalidAddress → Disjoint (occupied (s.fixedRegions new)) (units (addr, size)) ∧
        Placeable t { s with partitioner := p } new dir
  | .allocWithExcludedRegion excluded new dir =>
    Disjoint (occupied (s.fixedRegions new)) (occupied excluded) ∧
      Placeable t { s with partitioner := s.partitioner.allocFixedAll excluded } new dir
  | .canAlloc new dir => RequestsFit s.handler dir new s.partitioner
  | .canAllocWithReservedSpace new size alignment dir =>
    s.partitioner.TakenNoOverflow size alignment dir ∧
      let (addr, p) := s.partitioner.alloc size alignment dir
      addr ≠ invalidAddress → RequestsFit s.handler dir new p
  | .canAllocWithExcludedRegion excluded new dir =>
    RequestsFit s.handler dir new (s.partitioner.allocFixedAll excluded)

omit [DecidableEq R] in
theorem Requested.aside {rs : Recorded} {p : Partitioner} {new : List R} (h : s.Requested reserved new)
    (hd : Disjoint (occupied (s.fixedRegions new)) (occupied rs)) :
    Requested (rs ++ reserved) { s with partitioner := p } new := by
  refine ⟨h.positive, h.fixed_apart, ?_, h.dynamic_new⟩
  rw [occupied_append]
  exact Set.disjoint_union_right.mpr ⟨hd, h.fixed_clear⟩

theorem foldl_recordAllocation {p : Partitioner} (hp : p.Ok) (rs : Recorded) (temp : Recorded) (hr : Regions rs)
    (hfree : occupied rs ⊆ freeSet p.gaps) :
    rs.foldl (fun temp r => Recorded.recordAllocation temp r.1 r.2) temp = temp ++ rs := by
  induction rs generalizing temp with
  | nil => simp
  | cons r rs ih =>
    obtain ⟨hs, -, hrs⟩ := regions_cons.mp hr
    rw [occupied_cons] at hfree
    obtain ⟨hone, hrest⟩ := Set.union_subset_iff.mp hfree
    have hrec : Recorded.recordAllocation temp r.1 r.2 = temp ++ [r] := recordAllocation_eq hp temp hs hone
    rw [foldl_cons, hrec, ih _ hrs hrest, append_assoc, singleton_append]

omit [DecidableEq R] in
theorem CurrentlyFree.takesOutAll {excluded : Recorded} (hf : s.CurrentlyFree excluded) (hok : s.partitioner.Ok) :
    TakesOutAll s.partitioner (s.partitioner.allocFixedAll excluded) excluded :=
  Holds.allocFixedAll (takesOutAll_nil hok) hf.1 hf.2

omit [DecidableEq R] in
theorem canAlloc_unchanged (hok : s.partitioner.Ok) {new : List R} {dir : Direction}
    (ha : s.Allowed reserved (.canAlloc new dir)) (hc : s.Safe t (.canAlloc new dir)) : (s.canAlloc new dir).2 = s :=
  endTest_testAll hok ha hc (takesOutAll_nil hok)

omit [DecidableEq R] in
theorem canAllocWithReservedSpace_unchanged (hok : s.partitioner.Ok) {new : List R} {size alignment : ℕ}
    {dir : Direction} (ha : s.Allowed reserved (.canAllocWithReservedSpace new size alignment dir))
    (hc : s.Safe t (.canAllocWithReservedSpace new size alignment dir)) :
    (s.canAllocWithReservedSpace new size alignment dir).2 = s := by
  obtain ⟨hpos, hs, ha0, ha1⟩ := ha
  obtain ⟨hno, hsafe⟩ := hc
  unfold canAllocWithReservedSpace
  rcases alloc_cases hok hs ha0 ha1 hno with he | ⟨addr, p, he, hv, -, hout⟩
  · rw [he]
    rfl
  · rw [he] at hsafe ⊢
    have hrec : Recorded.recordAllocation [] addr size = [(addr, size)] :=
      recordAllocation_eq hok [] hs hout.subset
    simp only [if_neg hv, hrec]
    exact endTest_testAll hok hpos (hsafe hv) (hout.all hs)

omit [DecidableEq R] in
theorem canAllocWithExcludedRegion_unchanged (hok : s.partitioner.Ok) {excluded : Recorded} {new : List R}
    {dir : Direction} (ha : s.Allowed reserved (.canAllocWithExcludedRegion excluded new dir))
    (hc : s.Safe t (.canAllocWithExcludedRegion excluded new dir)) :
    (s.canAllocWithExcludedRegion excluded new dir).2 = s := by
  obtain ⟨hpos, hf⟩ := ha
  rw [canAllocWithExcludedRegion, foldl_recordAllocation hok excluded [] hf.1 hf.2, nil_append]
  exact endTest_testAll hok hpos hc (hf.takesOutAll hok)

theorem invariant_step {c : Call R} (h : Invariant t reserved s) (ha : s.Allowed reserved c) (hc : s.Safe t c) :
    Invariant t reserved (s.run c) := by
  have hok := h.holds.ok
  cases c with
  | freeDeadRanges isAlive =>
    apply Invariant.freeDeadRanges
    exact ⟨h.holds, h.aligned⟩
  | alloc new dir => exact h.alloc ha hc
  | allocWithReservedSpace new size alignment dir =>
    obtain ⟨hr, hs, ha0, ha1⟩ := ha
    obtain ⟨hno, hsafe⟩ := hc
    simp only [run, LinearScan.allocWithReservedSpace]
    rcases alloc_cases hok hs ha0 ha1 hno with he | ⟨addr, p, he, hv, -, hout⟩
    · rw [he]
      exact h
    · rw [he] at hsafe ⊢
      obtain ⟨hd, hp⟩ := hsafe hv
      have haside : Invariant t ([(addr, size)] ++ reserved) { s with partitioner := p } := h.takesOutAll (hout.all hs)
      have hreq : Requested ([(addr, size)] ++ reserved) { s with partitioner := p } new := by
        apply hr.aside
        rwa [occupied_cons, occupied_nil, Set.union_empty]
      have hdone := (haside.alloc hreq hp).freeAll
      simp only [if_neg hv]
      exact hdone
  | allocWithExcludedRegion excluded new dir =>
    obtain ⟨hr, hf⟩ := ha
    obtain ⟨hd, hp⟩ := hc
    have haside := h.takesOutAll (hf.takesOutAll hok)
    exact (haside.alloc (hr.aside hd) hp).freeAll
  | canAlloc new dir =>
    rw [run, canAlloc_unchanged hok ha hc]
    exact h
  | canAllocWithReservedSpace new size alignment dir =>
    rw [run, canAllocWithReservedSpace_unchanged hok ha hc]
    exact h
  | canAllocWithExcludedRegion excluded new dir =>
    rw [run, canAllocWithExcludedRegion_unchanged hok ha hc]
    exact h

/-- The states of the runs from a fresh scan whose calls all satisfy `safe`. -/
inductive Reaches (t : ℕ) (reserved : Recorded) (handler : Handler R)
    (safe : LinearScan R → Call R → Prop) : LinearScan R → Prop
  | create : Reaches t reserved handler safe (create t reserved handler)
  | call {s : LinearScan R} {c : Call R} (hs : Reaches t reserved handler safe s) (ha : s.Allowed reserved c)
      (hc : safe s c) : Reaches t reserved handler safe (s.run c)

theorem invariant_run (h0 : 0 < t) (ht : t < 2 ^ 64) (hr : Regions reserved)
    (hin : occupied reserved ⊆ Set.Ico 0 t) {handler : Handler R}
    (h : Reaches t reserved handler (Safe t) s) : Invariant t reserved s := by
  induction h with
  | create => exact ⟨(holds_init h0 ht).allocFixedAll hr hin, by simp [create]⟩
  | call hs ha hc ih => exact invariant_step ih ha hc

structure MemorySafe (t : ℕ) (reserved : Recorded) (s : LinearScan R) : Prop where
  apart : s.liveRanges.Pairwise (fun r r' => Disjoint (units (s.region r)) (units (s.region r')))
  off_reserved : ∀ r ∈ s.liveRanges, ∀ q ∈ reserved, Disjoint (units (s.region r)) (units q)
  inside : ∀ r ∈ s.liveRanges, (s.region r).1 + (s.region r).2 ≤ t
  aligned : ∀ r ∈ s.liveRanges, s.handler.isFixedAlloc r = false →
    s.handler.getAlignment r ∣ s.handler.getAddress r
  complement : freeSet s.partitioner.gaps = Set.Ico 0 t \ (occupied s.liveRegions ∪ occupied reserved)
  canonical : GapsOk t s.partitioner.gaps

omit [DecidableEq R] in
theorem Invariant.memorySafe (h : Invariant t reserved s) : MemorySafe t reserved s := by
  obtain ⟨hlive, -, hoff⟩ := regions_append.mp h.holds.regions
  have hin := h.holds.inside
  rw [occupied_append] at hin
  refine ⟨?_, ?_, ?_, h.aligned, ?_, ?_⟩
  · have hpair := hlive.apart
    rwa [liveRegions, pairwise_map] at hpair
  · intro r hr q hq
    have hone : units (s.region r) ⊆ occupied s.liveRegions := fun x hx => ⟨_, mem_map_of_mem hr, hx⟩
    exact disjoint_occupied.mp (hoff.mono_left hone) q hq
  · intro r hr
    have hpos := hlive.positive _ (mem_map_of_mem hr)
    have hunit : (s.region r).1 + (s.region r).2 - 1 ∈ units (s.region r) := ⟨by omega, by omega⟩
    have hlast := (hin (.inl ⟨_, mem_map_of_mem hr, hunit⟩)).2
    omega
  · rw [h.holds.complement, occupied_append]
  · rw [← h.holds.total_eq]
    exact h.holds.ok.gapsOk

theorem memorySafe_of_run {t : ℕ} (h0 : 0 < t) (ht : t < 2 ^ 64) {reserved : Recorded} (hr : Regions reserved)
    (hin : occupied reserved ⊆ Set.Ico 0 t) {handler : Handler R} {s : LinearScan R}
    (h : Reaches t reserved handler (Safe t) s) : MemorySafe t reserved s :=
  (invariant_run h0 ht hr hin h).memorySafe

def tenFixed (alignment : ℕ) : Handler ℕ where
  isAlive _ := true
  isFixedAlloc r := r == 0
  getSize r := if r = 0 then 10 else 1
  getAlignment r := if r = 0 then 1 else alignment
  getAddress _ := 0
  getSpillWeight _ _ := 0
  acceptsSpill _ _ := true
  log := []

theorem memorySafe_of_run_ten : MemorySafe 100 [] ((create 100 [] (tenFixed 4)).run (.alloc [0, 1] .up)) := by
  apply memorySafe_of_run (by decide) (by decide) regions_nil (by simp [occupied_nil])
  apply Reaches.call Reaches.create
  · refine ⟨by unfold Positive; decide, ?_, by simp [occupied_nil], by simp [create]⟩
    exact pairwise_singleton _ _
  · refine ⟨?_, by decide, ?_⟩
    · rintro x ⟨r, hr, hx⟩
      obtain rfl : r = (0, 10) := by simpa [fixedRegions, fixedOf, create, tenFixed, region] using hr
      exact ⟨Nat.zero_le x, lt_trans hx.2 (by decide)⟩
    · exact fun _ => ⟨by decide, fun _ => trivial⟩

/-- With an alignment close to `2 ^ 64` the dynamic range 1 is placed inside the fixed range 0. -/
theorem memorySafe_overflow : ¬ ∀ (t : ℕ) (reserved : Recorded) (handler : Handler ℕ) (s : LinearScan ℕ), 0 < t → t < 2 ^ 64 →
      Regions reserved → occupied reserved ⊆ Set.Ico 0 t → Reaches t reserved handler (fun _ _ => True) s →
      MemorySafe t reserved s := by
  intro h
  have hrun : Reaches 100 [] (tenFixed (2 ^ 64 - 20)) (fun _ _ => True)
      (((create 100 [] (tenFixed (2 ^ 64 - 20))).run (.alloc [0] .down)).run (.alloc [1] .down)) := by
    refine .call (.call .create ?_ trivial) ?_ trivial
    · exact ⟨by unfold Positive; decide, pairwise_singleton _ _, by simp [occupied_nil], by simp [create]⟩
    · refine ⟨by unfold Positive; decide +kernel, ?_, by simp [occupied_nil], by decide +kernel⟩
      exact List.Pairwise.nil
  have hapart := (h 100 [] _ _ (by decide) (by decide) regions_nil (by simp [occupied_nil]) hrun).apart
  have hlive : (((create 100 [] (tenFixed (2 ^ 64 - 20))).run (.alloc [0] .down)).run (.alloc [1] .down)).liveRanges =
      [0, 1] := by decide +kernel
  have hregions : (((create 100 [] (tenFixed (2 ^ 64 - 20))).run (.alloc [0] .down)).run (.alloc [1] .down)).region 0 =
      (0, 10) ∧ (((create 100 [] (tenFixed (2 ^ 64 - 20))).run (.alloc [0] .down)).run (.alloc [1] .down)).region 1 =
      (0, 1) := by decide +kernel
  rw [hlive] at hapart
  have hbad := (pairwise_cons.mp hapart).1 1 (by simp)
  rw [hregions.1, hregions.2] at hbad
  exact Set.disjoint_left.mp hbad (show 0 ∈ units (0, 10) from ⟨le_refl _, by decide⟩) ⟨le_refl _, by decide⟩

end NpuCompiler.Memory.LinearScan
