import NpuCompiler.Memory.TakenRegions

namespace NpuCompiler.Memory

open Partitioner List

variable {R : Type*}

theorem swapAndPop_perm {v : List R} {idx : ℕ} {x : R} (h : v[idx]? = some x) :
    v.Perm (x :: swapAndPop v idx) := by
  rcases v.eq_nil_or_concat with rfl | ⟨w, back, rfl⟩
  · simp at h
  simp only [concat_eq_append] at h ⊢
  simp only [swapAndPop, getLast?_append, getLast?_singleton, Option.some_or]
  by_cases hlt : idx < w.length
  · rw [getElem?_append_left hlt] at h
    obtain ⟨hsplit, hlen⟩ := split_at_index h
    rw [set_append_left _ _ hlt, dropLast_concat]
    have hset : w.set idx back = w.take idx ++ back :: w.drop (idx + 1) := set_eq_take_append_cons_drop .. |>.trans (if_pos hlt)
    rw [hset]
    nth_rewrite 1 [hsplit]
    rw [append_assoc, cons_append]
    refine perm_middle.trans (List.Perm.cons x ?_)
    rw [← append_assoc]
    exact (perm_append_singleton back _).trans perm_middle.symm
  · have hidx : idx = w.length := by
      have := (List.getElem?_eq_some_iff.mp h).1
      simp only [length_append, length_singleton] at this
      omega
    subst hidx
    obtain rfl : back = x := by simpa using h
    rw [set_append_right _ _ (le_refl _), Nat.sub_self, set_cons_zero, dropLast_concat]
    exact perm_append_singleton back w

namespace LinearScan

def region (s : LinearScan R) (r : R) : ℕ × ℕ := (s.handler.getAddress r, s.handler.getSize r)

def liveRegions (s : LinearScan R) : Recorded := s.liveRanges.map s.region

def fixedOf (s : LinearScan R) (newLiveRanges : List R) : List R :=
  newLiveRanges.filter (fun r => s.handler.isFixedAlloc r)

def dynamicOf (s : LinearScan R) (newLiveRanges : List R) : List R :=
  newLiveRanges.filter (fun r => !s.handler.isFixedAlloc r)

def fixedRegions (s : LinearScan R) (newLiveRanges : List R) : Recorded :=
  (s.fixedOf newLiveRanges).map s.region

structure Invariant (t : ℕ) (reserved : Recorded) (s : LinearScan R) : Prop where
  holds : Holds t (Set.Ico 0 t) s.partitioner (s.liveRegions ++ reserved)
  aligned : ∀ r ∈ s.liveRanges, s.handler.isFixedAlloc r = false →
    s.handler.getAlignment r ∣ s.handler.getAddress r

def RequestsFit (h : Handler R) (dir : Direction) : List R → Partitioner → Prop
  | [], _ => True
  | r :: rest, p =>
    p.TakenNoOverflow (h.getSize r) (h.getAlignment r) dir ∧
      ((p.alloc (h.getSize r) (h.getAlignment r) dir).1 ≠ invalidAddress →
        RequestsFit h dir rest (p.alloc (h.getSize r) (h.getAlignment r) dir).2)

instance decidableRequestsFit (h : Handler R) (dir : Direction) :
    (rs : List R) → (p : Partitioner) → Decidable (RequestsFit h dir rs p)
  | [], _ => .isTrue trivial
  | r :: rest, p =>
    have := decidableRequestsFit h dir rest (p.alloc (h.getSize r) (h.getAlignment r) dir).2
    inferInstanceAs (Decidable (TakenNoOverflow _ _ _ _ ∧ (_ → _)))

def Positive (h : Handler R) (newLiveRanges : List R) : Prop :=
  ∀ r ∈ newLiveRanges, 0 < h.getSize r ∧ 0 < h.getAlignment r ∧ h.getAlignment r < 2 ^ 64

structure Requested (reserved : Recorded) (s : LinearScan R) (newLiveRanges : List R) : Prop where
  positive : Positive s.handler newLiveRanges
  fixed_apart : (s.fixedRegions newLiveRanges).Pairwise Apart
  fixed_clear : Disjoint (occupied (s.fixedRegions newLiveRanges)) (occupied reserved)
  dynamic_new : ∀ r ∈ s.dynamicOf newLiveRanges, r ∉ s.liveRanges

/-- `RequestsFit` for the dynamic ranges, which are only looked at when every fixed range found its place. -/
def NoWrap (s : LinearScan R) (newLiveRanges : List R) (dir : Direction) : Prop :=
  (∀ r ∈ s.fixedOf newLiveRanges, s.missesLiveRanges (s.region r).1 (s.region r).2 = true) →
    RequestsFit s.handler dir (s.dynamicOf newLiveRanges)
      (s.partitioner.allocFixedAll (s.fixedRegions newLiveRanges))

structure Placeable (t : ℕ) (s : LinearScan R) (newLiveRanges : List R) (dir : Direction) : Prop where
  fixed_inside : occupied (s.fixedRegions newLiveRanges) ⊆ Set.Ico 0 t
  dynamic_nodup : (s.dynamicOf newLiveRanges).Nodup
  no_wrap : s.NoWrap newLiveRanges dir

structure WellFormed (t : ℕ) (reserved : Recorded) (s : LinearScan R) (newLiveRanges : List R) : Prop where
  positive : Positive s.handler newLiveRanges
  fixed_apart : (s.fixedRegions newLiveRanges).Pairwise Apart
  fixed_clear : Disjoint (occupied (s.fixedRegions newLiveRanges)) (occupied reserved)
  fixed_inside : occupied (s.fixedRegions newLiveRanges) ⊆ Set.Ico 0 t

section
variable {s : LinearScan R} {allowSpills : Bool}

def WontSpill (s : LinearScan R) (allowSpills : Bool) : Prop := allowSpills = false ∨ s.liveRanges = []

theorem spillUntilMissed_of_wontSpill (h : s.WontSpill allowSpills) (addr size : ℕ) (spillCandidates : List R) :
    spillUntilMissed addr size allowSpills s.liveRanges.length spillCandidates s =
      (s.missesLiveRanges addr size, spillCandidates, s) := by
  rcases h with rfl | h
  · cases s.liveRanges.length with
    | zero => rfl
    | succ n =>
      unfold spillUntilMissed
      cases s.missesLiveRanges addr size <;> rfl
  · rw [h]
    rfl

theorem spillUntilFound_of_wontSpill (h : s.WontSpill allowSpills) (size alignment : ℕ) (dir : Direction)
    (spillCandidates : List R) :
    spillUntilFound size alignment dir allowSpills s.liveRanges.length spillCandidates s =
      (if (s.partitioner.alloc size alignment dir).1 ≠ invalidAddress then
          some (s.partitioner.alloc size alignment dir).1 else none,
        spillCandidates, { s with partitioner := (s.partitioner.alloc size alignment dir).2 }) := by
  unfold spillUntilFound
  by_cases hv : (s.partitioner.alloc size alignment dir).1 ≠ invalidAddress
  · simp only [if_pos hv]
  · simp only [if_neg hv]
    rcases h with rfl | h
    · rfl
    · simp [h]

variable [DecidableEq R]

theorem allocFixedRange_of_wontSpill (h : s.WontSpill allowSpills) (r : R) (guard : Recorded) :
    s.allocFixedRange r allowSpills guard =
      if s.missesLiveRanges (s.region r).1 (s.region r).2 then
        (true, { s with partitioner := s.partitioner.allocFixed (s.region r).1 (s.region r).2 },
          guard.recordAllocation (s.region r).1 (s.region r).2)
      else (false, s, guard) := by
  unfold allocFixedRange
  simp only [spillUntilMissed_of_wontSpill h]
  cases hm : s.missesLiveRanges (s.handler.getAddress r) (s.handler.getSize r) with
  | false => simp only [region, hm, Bool.false_eq_true, if_false]
  | true => simp only [region, hm, if_true, processSpillCandidates]

theorem allocDynamicRange_of_wontSpill (h : s.WontSpill allowSpills) (r : R) (dir : Direction) (guard : Recorded) :
    s.allocDynamicRange r allowSpills dir guard =
      let a := s.partitioner.alloc (s.handler.getSize r) (s.handler.getAlignment r) dir
      if a.1 ≠ invalidAddress then
        (some a.1, { s with partitioner := a.2 }, guard.recordAllocation a.1 (s.handler.getSize r))
      else (none, { s with partitioner := a.2 }, guard) := by
  unfold allocDynamicRange
  simp only [spillUntilFound_of_wontSpill h]
  by_cases hv : (s.partitioner.alloc (s.handler.getSize r) (s.handler.getAlignment r) dir).1 ≠ invalidAddress
  · simp only [if_pos hv]
    rfl
  · simp only [if_neg hv]

end

variable [DecidableEq R] {t : ℕ} {reserved : Recorded} {s : LinearScan R}

structure Placed (s : LinearScan R) (p : Partitioner) (guard : Recorded) (pending : Pending R) : Prop where
  takesOut : TakesOutAll s.partitioner p guard
  guard_eq : guard = pending.map (fun e => (e.2, s.handler.getSize e.1))
  fixed : ∀ e ∈ pending, s.handler.isFixedAlloc e.1 = true → e.2 = s.handler.getAddress e.1
  dynamic : ∀ e ∈ pending, s.handler.isFixedAlloc e.1 = false → s.handler.getAlignment e.1 ∣ e.2

omit [DecidableEq R] in
theorem Invariant.disjoint_of_misses (h : Invariant t reserved s) {r : ℕ × ℕ} (hs : 0 < r.2)
    (hin : units r ⊆ Set.Ico 0 t) (hm : s.missesLiveRanges r.1 r.2 = true) :
    Disjoint (units r) (occupied s.liveRegions) := by
  have hlt := h.holds.ok.total_lt
  rw [h.holds.total_eq] at hlt
  have hend : r.1 + r.2 ≤ t := by
    have hlast := (hin ⟨show r.1 ≤ r.1 + r.2 - 1 by omega, by omega⟩).2
    omega
  rw [disjoint_occupied]
  intro r' hr'
  obtain ⟨l, hl, rfl⟩ := mem_map.mp hr'
  have hmem : s.region l ∈ s.liveRegions ++ reserved := mem_append_left _ hr'
  have hs' := h.holds.regions.positive _ hmem
  have hend' : (s.region l).1 + (s.region l).2 ≤ t := by
    have hunit : (s.region l).1 + (s.region l).2 - 1 ∈ units (s.region l) := ⟨by omega, by omega⟩
    have hlast := (h.holds.inside ⟨_, hmem, hunit⟩).2
    omega
  have hmiss := all_eq_true.mp hm l hl
  apply (intersects_eq_false hs hs' (by omega) (by omega)).mp
  simpa [region] using hmiss

theorem allocFixedRanges_placed (h : Invariant t reserved s) {allowSpills : Bool} (hw : s.WontSpill allowSpills)
    (rs : List R) (hfix : ∀ r ∈ rs, s.handler.isFixedAlloc r = true)
    (hin : occupied (rs.map s.region) ⊆ Set.Ico 0 t)
    (hclear : Disjoint (occupied (rs.map s.region)) (occupied reserved)) {p : Partitioner} {guard : Recorded}
    {pending : Pending R} (hp : Placed s p guard pending) (hr : Regions (guard ++ rs.map s.region)) :
    ∃ ok p' guard' pending',
      allocFixedRanges allowSpills rs { s with partitioner := p } guard pending =
        (ok, { s with partitioner := p' }, guard', pending') ∧
      Placed s p' guard' pending' ∧
      (ok = true → pending'.map Prod.fst = pending.map Prod.fst ++ rs ∧
        p' = p.allocFixedAll (rs.map s.region) ∧
        ∀ r ∈ rs, s.missesLiveRanges (s.region r).1 (s.region r).2 = true) := by
  induction rs generalizing p guard pending with
  | nil => exact ⟨true, p, guard, pending, rfl, hp, fun _ => ⟨by simp, rfl, by simp⟩⟩
  | cons r rs ih =>
    rw [map_cons, occupied_cons] at hin hclear
    obtain ⟨hin_r, hin_rs⟩ := Set.union_subset_iff.mp hin
    obtain ⟨hclear_r, hclear_rs⟩ := Set.disjoint_union_left.mp hclear
    have hw' : WontSpill { s with partitioner := p } allowSpills := hw
    have hstep : allocFixedRange { s with partitioner := p } r allowSpills guard =
        if s.missesLiveRanges (s.region r).1 (s.region r).2 then
          (true, { s with partitioner := p.allocFixed (s.region r).1 (s.region r).2 },
            guard.recordAllocation (s.region r).1 (s.region r).2)
        else (false, { s with partitioner := p }, guard) := allocFixedRange_of_wontSpill hw' r guard
    by_cases hm : s.missesLiveRanges (s.region r).1 (s.region r).2 = true
    · obtain ⟨-, htail, hd⟩ := regions_append.mp hr
      have hpos := (regions_cons.mp htail).1
      rw [map_cons, occupied_cons] at hd
      have hfree : units (s.region r) ⊆ freeSet s.partitioner.gaps := by
        rw [h.holds.complement, occupied_append]
        apply Set.subset_sdiff.mpr
        refine ⟨hin_r, Set.disjoint_union_right.mpr ⟨?_, hclear_r⟩⟩
        exact h.disjoint_of_misses hpos hin_r hm
      have hrec : guard.recordAllocation (s.region r).1 (s.region r).2 = guard ++ [s.region r] :=
        recordAllocation_eq h.holds.ok guard hpos hfree
      have hplaced : Placed s (p.allocFixed (s.region r).1 (s.region r).2) (guard ++ [s.region r])
          (pending ++ [(r, s.handler.getAddress r)]) := by
        refine ⟨?_, ?_, ?_, ?_⟩
        · exact hp.takesOut.allocFixed hpos hfree (Set.disjoint_union_right.mp hd).1.symm
        · rw [map_append, ← hp.guard_eq]
          rfl
        · intro e he hf
          rcases mem_append.mp he with he | he
          · exact hp.fixed e he hf
          · obtain rfl := mem_singleton.mp he
            rfl
        · intro e he hf
          rcases mem_append.mp he with he | he
          · exact hp.dynamic e he hf
          · obtain rfl := mem_singleton.mp he
            simp [hfix r (by simp)] at hf
      obtain ⟨ok, p', guard', pending', heq, hp', hok⟩ := ih (fun r' hr' => hfix r' (by simp [hr']))
        hin_rs hclear_rs hplaced (by simpa using hr)
      refine ⟨ok, p', guard', pending', ?_, hp', ?_⟩
      · rw [allocFixedRanges, hstep, if_pos hm, ← heq, hrec]
      · intro htrue
        obtain ⟨h1, h2, h3⟩ := hok htrue
        refine ⟨by simpa using h1, h2, ?_⟩
        intro r' hr'
        rcases mem_cons.mp hr' with rfl | hr'
        · exact hm
        · exact h3 r' hr'
    · refine ⟨false, p, guard, pending, ?_, hp, by simp⟩
      rw [allocFixedRanges, hstep, if_neg hm]

theorem allocDynamicRanges_placed (hok : s.partitioner.Ok) {allowSpills : Bool} (hw : s.WontSpill allowSpills)
    (dir : Direction) (rs : List R) (hdyn : ∀ r ∈ rs, s.handler.isFixedAlloc r = false)
    (hpos : Positive s.handler rs) {p : Partitioner} {guard : Recorded} {pending : Pending R}
    (hfit : RequestsFit s.handler dir rs p) (hp : Placed s p guard pending) :
    ∃ ok p' guard' pending',
      allocDynamicRanges allowSpills dir rs { s with partitioner := p } guard pending =
        (ok, { s with partitioner := p' }, guard', pending') ∧
      Placed s p' guard' pending' ∧ (ok = true → pending'.map Prod.fst = pending.map Prod.fst ++ rs) := by
  induction rs generalizing p guard pending with
  | nil => exact ⟨true, p, guard, pending, rfl, hp, by simp⟩
  | cons r rs ih =>
    obtain ⟨hs, ha, ha'⟩ := hpos r (by simp)
    obtain ⟨hno, hrest⟩ := hfit
    have hw' : WontSpill { s with partitioner := p } allowSpills := hw
    have hstep := allocDynamicRange_of_wontSpill hw' r dir guard
    simp only at hstep
    rcases alloc_cases hp.takesOut.ok hs ha ha' hno with he | ⟨addr, p₁, he, hv, hdvd, hout⟩
    · refine ⟨false, p, guard, pending, ?_, hp, by simp⟩
      simp only [allocDynamicRanges, hstep, he, ne_eq, not_true_eq_false, if_false]
    · rw [he] at hrest hstep
      have hsub := hout.subset
      rw [hp.takesOut.complement] at hsub
      have hfree : units (addr, s.handler.getSize r) ⊆ freeSet s.partitioner.gaps := hsub.trans Set.sdiff_subset
      have hrec := recordAllocation_eq hok guard hs hfree
      have hplaced : Placed s p₁ (guard ++ [(addr, s.handler.getSize r)]) (pending ++ [(r, addr)]) := by
        refine ⟨hp.takesOut.snoc hs hout, ?_, ?_, ?_⟩
        · rw [map_append, ← hp.guard_eq]
          rfl
        · intro e he hf
          rcases mem_append.mp he with he | he
          · exact hp.fixed e he hf
          · obtain rfl := mem_singleton.mp he
            simp [hdyn r (by simp)] at hf
        · intro e he hf
          rcases mem_append.mp he with he | he
          · exact hp.dynamic e he hf
          · obtain rfl := mem_singleton.mp he
            exact hdvd
      obtain ⟨ok, p', guard', pending', heq, hp', hkeys⟩ := ih (fun r' hr' => hdyn r' (by simp [hr']))
        (fun r' hr' => hpos r' (by simp [hr'])) (hrest hv) hplaced
      refine ⟨ok, p', guard', pending', ?_, hp', fun htrue => by simpa using hkeys htrue⟩
      rw [← heq, ← hrec, allocDynamicRanges, hstep, if_pos hv]

theorem alloc_of_wontSpill (h : Invariant t reserved s) {allowSpills : Bool} (hw : s.WontSpill allowSpills)
    {newLiveRanges : List R} {dir : Direction} (hr : s.WellFormed t reserved newLiveRanges)
    (hn : s.NoWrap newLiveRanges dir) :
    s.alloc newLiveRanges allowSpills dir = (false, s) ∨
      ∃ p guard pending, s.alloc newLiveRanges allowSpills dir =
          (true, ({ s with partitioner := p } : LinearScan R).commit pending) ∧
        Placed s p guard pending ∧
        pending.map Prod.fst = s.fixedOf newLiveRanges ++ s.dynamicOf newLiveRanges := by
  have hstart : Placed s s.partitioner [] [] := ⟨takesOutAll_nil h.holds.ok, by simp, by simp, by simp⟩
  have hregions : Regions ([] ++ s.fixedRegions newLiveRanges) := by
    refine ⟨?_, hr.fixed_apart⟩
    intro q hq
    obtain ⟨r, hmem, rfl⟩ := mem_map.mp hq
    exact (hr.positive r (mem_of_mem_filter hmem)).1
  obtain ⟨ok, p₁, guard₁, pending₁, heq, hp₁, hok⟩ := allocFixedRanges_placed h hw (s.fixedOf newLiveRanges)
    (fun r hmem => by simpa using (mem_filter.mp hmem).2) hr.fixed_inside hr.fixed_clear hstart hregions
  have rolled_back {p : Partitioner} {guard : Recorded} {pending : Pending R} (hpl : Placed s p guard pending) :
      rollback { s with partitioner := p } guard = s := by
    unfold rollback
    simp only [hpl.takesOut.freeAll_eq h.holds.ok]
  cases ok with
  | false =>
    left
    unfold alloc
    have heq' : allocFixedRanges allowSpills (newLiveRanges.filter (fun r => s.handler.isFixedAlloc r)) s [] [] = _ :=
      heq
    simp only [heq', rolled_back hp₁]
  | true =>
    obtain ⟨hkeys₁, hall, hmiss⟩ := hok rfl
    have hfit := hn hmiss
    rw [show s.fixedRegions newLiveRanges = (s.fixedOf newLiveRanges).map s.region from rfl, ← hall] at hfit
    obtain ⟨ok, p₂, guard₂, pending₂, heq₂, hp₂, hkeys₂⟩ := allocDynamicRanges_placed h.holds.ok hw dir
      (s.dynamicOf newLiveRanges) (fun r hmem => by simpa using (mem_filter.mp hmem).2)
      (fun r hmem => hr.positive r (mem_of_mem_filter hmem)) hfit hp₁
    have heq' : allocFixedRanges allowSpills (newLiveRanges.filter (fun r => s.handler.isFixedAlloc r)) s [] [] = _ := heq
    have heq₂' : allocDynamicRanges allowSpills dir (newLiveRanges.filter (fun r => !s.handler.isFixedAlloc r)) _ _ _ = _ := heq₂
    unfold alloc
    simp only [heq', heq₂']
    cases ok with
    | false =>
      left
      simp only [rolled_back hp₂]
    | true =>
      right
      refine ⟨p₂, guard₂, pending₂, rfl, hp₂, ?_⟩
      rw [hkeys₂ rfl, hkeys₁]
      rfl

end LinearScan

end NpuCompiler.Memory
