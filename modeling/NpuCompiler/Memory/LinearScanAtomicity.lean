import Mathlib.Data.List.MinMax
import Mathlib.Data.List.Perm.Subperm
import NpuCompiler.Memory.LinearScanRuns

namespace NpuCompiler.Memory.LinearScan

open Partitioner List

variable {R : Type*}

theorem getSpillCandidate_none {s : LinearScan R} (h : s.getSpillCandidate = none) : s.liveRanges = [] := by
  by_contra hne
  obtain ⟨r, hleast⟩ := Option.ne_none_iff_exists'.mp
    (mt argmin_eq_none.mp hne : s.liveRanges.argmin (s.handler.getSpillWeight s.handler.log) ≠ none)
  have hr : r ∈ s.liveRanges := argmin_mem hleast
  unfold getSpillCandidate at h
  simp only at h
  split at h
  · rename_i hidx
    have hno := findIdx?_eq_none_iff.mp hidx r hr
    have hyes : s.liveRanges.all (fun r' => !decide (s.handler.getSpillWeight s.handler.log r' <
        s.handler.getSpillWeight s.handler.log r)) = true := by
      apply all_eq_true.mpr
      intro r' hr'
      simpa using not_lt_of_mem_argmin hr' hleast
    rw [hyes] at hno
    exact absurd hno (by simp)
  · rename_i idx hidx
    obtain ⟨hlt, -⟩ := findIdx?_eq_some_iff_getElem.mp hidx
    rw [getElem?_eq_getElem hlt] at h
    simp at h

theorem getSpillCandidate_some {s s' : LinearScan R} {candidate : R}
    (h : s.getSpillCandidate = some (candidate, s')) :
    s'.handler = s.handler ∧ s'.liveRanges.length + 1 = s.liveRanges.length := by
  unfold getSpillCandidate at h
  simp only at h
  split at h
  · simp at h
  · split at h
    · simp at h
    · rename_i hg
      obtain ⟨rfl, rfl⟩ := Prod.mk.inj (Option.some.inj h)
      exact ⟨rfl, by simpa using (swapAndPop_perm hg).length_eq.symm⟩

theorem missesLiveRanges_nil {s : LinearScan R} (h : s.liveRanges = []) (addr size : ℕ) :
    s.missesLiveRanges addr size = true := by
  unfold missesLiveRanges
  rw [h]
  rfl

theorem spillUntilMissed_true {addr size fuel : ℕ} {spillCandidates spillCandidates' : List R}
    {s s' : LinearScan R} {ok : Bool} (hf : fuel = s.liveRanges.length)
    (h : spillUntilMissed addr size true fuel spillCandidates s = (ok, spillCandidates', s')) :
    ok = true ∧ s'.liveRanges.length + spillCandidates'.length = s.liveRanges.length + spillCandidates.length := by
  induction fuel generalizing s spillCandidates with
  | zero =>
    obtain ⟨rfl, rfl, rfl⟩ : s.missesLiveRanges addr size = ok ∧ spillCandidates = spillCandidates' ∧ s = s' := by
      simpa [spillUntilMissed] using h
    exact ⟨missesLiveRanges_nil (length_eq_zero_iff.mp hf.symm) addr size, rfl⟩
  | succ fuel ih =>
    unfold spillUntilMissed at h
    split_ifs at h with hm hs
    · obtain ⟨rfl, rfl, rfl⟩ : true = ok ∧ spillCandidates = spillCandidates' ∧ s = s' := by simpa using h
      exact ⟨rfl, rfl⟩
    · simp at hs
    · cases hc : s.getSpillCandidate with
      | none => exact absurd (missesLiveRanges_nil (getSpillCandidate_none hc) addr size) hm
      | some c =>
        obtain ⟨candidate, s₁⟩ := c
        have hlen := (getSpillCandidate_some hc).2
        rw [hc] at h
        obtain ⟨hok, hsum⟩ := ih (by omega) h
        refine ⟨hok, ?_⟩
        rw [length_append, length_singleton] at hsum
        omega

theorem spillUntilFound_true {size alignment fuel : ℕ} {dir : Direction}
    {spillCandidates spillCandidates' : List R} {s s' : LinearScan R} {found : Option ℕ}
    (hf : fuel = s.liveRanges.length)
    (h : spillUntilFound size alignment dir true fuel spillCandidates s = (found, spillCandidates', s')) :
    (found = none → s'.liveRanges = []) ∧
      s'.liveRanges.length + spillCandidates'.length = s.liveRanges.length + spillCandidates.length := by
  induction fuel generalizing s spillCandidates with
  | zero =>
    have hnil : s.liveRanges = [] := length_eq_zero_iff.mp hf.symm
    rw [spillUntilFound] at h
    simp only at h
    split_ifs at h
    · obtain ⟨rfl, rfl, rfl⟩ := by simpa using h
      exact ⟨by simp, rfl⟩
    · simp_all
    · obtain ⟨rfl, rfl, rfl⟩ := by simpa using h
      exact ⟨fun _ => hnil, rfl⟩
  | succ fuel ih =>
    rw [spillUntilFound] at h
    simp only at h
    split_ifs at h with hv hs
    · obtain ⟨rfl, rfl, rfl⟩ := by simpa using h
      exact ⟨by simp, rfl⟩
    · simp at hs
    · cases hc : getSpillCandidate { s with partitioner := (s.partitioner.alloc size alignment dir).2 } with
      | none =>
        rw [hc] at h
        obtain ⟨rfl, rfl, rfl⟩ := by simpa using h
        exact ⟨fun _ => getSpillCandidate_none hc, rfl⟩
      | some c =>
        obtain ⟨candidate, s₁⟩ := c
        have hlen := (getSpillCandidate_some hc).2
        simp only at hlen
        rw [hc] at h
        obtain ⟨hnone, hsum⟩ := ih (by omega) h
        refine ⟨hnone, ?_⟩
        rw [length_append, length_singleton] at hsum
        omega

variable [DecidableEq R]

theorem processSpillCandidates_length {addr size : ℕ} {spillCandidates : List R} {s s' : LinearScan R} {ok : Bool}
    (h : processSpillCandidates addr size spillCandidates s = (ok, s')) :
    s'.liveRanges.length ≤ s.liveRanges.length + spillCandidates.length ∧
      (ok = false → s'.liveRanges.length < s.liveRanges.length + spillCandidates.length) := by
  induction spillCandidates generalizing s with
  | nil =>
    obtain ⟨rfl, rfl⟩ : true = ok ∧ s = s' := by simpa [processSpillCandidates] using h
    exact ⟨le_refl _, by simp⟩
  | cons candidate rest ih =>
    simp only [processSpillCandidates] at h
    rw [length_cons]
    split_ifs at h with hi
    · cases hc : s.spillConflictingRange candidate with
      | mk accepted s₁ =>
        have hlive : s₁.liveRanges = s.liveRanges := by
          unfold spillConflictingRange at hc
          simp only at hc
          split_ifs at hc <;> (obtain ⟨rfl, rfl⟩ := Prod.mk.inj hc; rfl)
        rw [hc] at h
        cases accepted with
        | false =>
          -- the refused candidate is not put back
          obtain ⟨rfl, rfl⟩ : false = ok ∧ s₁ = s' := by simpa using h
          rw [hlive]
          exact ⟨by omega, fun _ => by omega⟩
        | true =>
          obtain ⟨hle, hlt⟩ := ih h
          rw [hlive] at hle hlt
          exact ⟨by omega, fun hf => (hlt hf).trans_le (by omega)⟩
    · obtain ⟨hle, hlt⟩ := ih h
      simp only [restoreNonConflictingRange, length_append, length_singleton] at hle hlt
      exact ⟨by omega, fun hf => (hlt hf).trans_le (by omega)⟩

theorem allocFixedRange_length {s s' : LinearScan R} {r : R} {guard guard' : Recorded} {ok : Bool}
    (h : s.allocFixedRange r true guard = (ok, s', guard')) :
    s'.liveRanges.length ≤ s.liveRanges.length ∧ (ok = false → s'.liveRanges.length < s.liveRanges.length) := by
  unfold allocFixedRange at h
  simp only at h
  cases hm : spillUntilMissed (s.handler.getAddress r) (s.handler.getSize r) true s.liveRanges.length [] s with
  | mk missed rest =>
    obtain ⟨spillCandidates, s₁⟩ := rest
    obtain ⟨rfl, hsum⟩ := spillUntilMissed_true rfl hm
    rw [hm] at h
    cases hp : processSpillCandidates (s.handler.getAddress r) (s.handler.getSize r) spillCandidates s₁ with
    | mk processed s₂ =>
      obtain ⟨hle, hlt⟩ := processSpillCandidates_length hp
      simp only [hp] at h
      rw [length_nil] at hsum
      cases processed with
      | false =>
        obtain ⟨rfl, rfl, -⟩ := by simpa using h
        have := hlt rfl
        omega
      | true =>
        obtain ⟨rfl, rfl, -⟩ := by simpa using h
        simp only [reduceCtorEq, false_implies, and_true]
        omega

theorem allocDynamicRange_length {s s' : LinearScan R} {r : R} {dir : Direction} {guard guard' : Recorded}
    {found : Option ℕ} (h : s.allocDynamicRange r true dir guard = (found, s', guard')) :
    s'.liveRanges.length ≤ s.liveRanges.length ∧
      (found = none → s'.liveRanges.length < s.liveRanges.length ∨ s'.liveRanges = []) := by
  unfold allocDynamicRange at h
  simp only at h
  cases hm : spillUntilFound (s.handler.getSize r) (s.handler.getAlignment r) dir true s.liveRanges.length [] s with
  | mk place rest =>
    obtain ⟨spillCandidates, s₁⟩ := rest
    obtain ⟨hnone, hsum⟩ := spillUntilFound_true rfl hm
    rw [hm] at h
    rw [length_nil] at hsum
    cases place with
    | none =>
      obtain ⟨rfl, rfl, -⟩ := by simpa using h
      exact ⟨by omega, fun _ => .inr (hnone rfl)⟩
    | some addr =>
      cases hp : processSpillCandidates addr (s.handler.getSize r) spillCandidates s₁ with
      | mk processed s₂ =>
        obtain ⟨hle, hlt⟩ := processSpillCandidates_length hp
        simp only [hp] at h
        cases processed with
        | false =>
          obtain ⟨rfl, rfl, -⟩ := by simpa using h
          have := hlt rfl
          exact ⟨by omega, fun _ => .inl (by omega)⟩
        | true =>
          obtain ⟨rfl, rfl, -⟩ := by simpa using h
          exact ⟨by omega, by simp⟩

theorem allocFixedRanges_length {rs : List R} {s s' : LinearScan R} {guard guard' : Recorded}
    {pending pending' : Pending R} {ok : Bool}
    (h : allocFixedRanges true rs s guard pending = (ok, s', guard', pending')) :
    s'.liveRanges.length ≤ s.liveRanges.length ∧ (ok = false → s'.liveRanges.length < s.liveRanges.length) := by
  induction rs generalizing s guard pending with
  | nil =>
    obtain ⟨rfl, rfl, -⟩ := by simpa [allocFixedRanges] using h
    exact ⟨le_refl _, by simp⟩
  | cons r rs ih =>
    rw [allocFixedRanges] at h
    cases hc : s.allocFixedRange r true guard with
    | mk placed rest =>
      obtain ⟨s₁, guard₁⟩ := rest
      obtain ⟨hle, hlt⟩ := allocFixedRange_length hc
      rw [hc] at h
      cases placed with
      | false =>
        obtain ⟨rfl, rfl, -⟩ := by simpa using h
        exact ⟨hle, hlt⟩
      | true =>
        have hrec := ih h
        exact ⟨by omega, fun hf => (hrec.2 hf).trans_le hle⟩

theorem allocDynamicRanges_length {dir : Direction} {rs : List R} {s s' : LinearScan R} {guard guard' : Recorded}
    {pending pending' : Pending R} {ok : Bool}
    (h : allocDynamicRanges true dir rs s guard pending = (ok, s', guard', pending')) :
    s'.liveRanges.length ≤ s.liveRanges.length ∧
      (ok = false → s'.liveRanges.length < s.liveRanges.length ∨ s'.liveRanges = []) := by
  induction rs generalizing s guard pending with
  | nil =>
    obtain ⟨rfl, rfl, -⟩ := by simpa [allocDynamicRanges] using h
    exact ⟨le_refl _, by simp⟩
  | cons r rs ih =>
    rw [allocDynamicRanges] at h
    cases hc : s.allocDynamicRange r true dir guard with
    | mk found rest =>
      obtain ⟨s₁, guard₁⟩ := rest
      obtain ⟨hle, hlt⟩ := allocDynamicRange_length hc
      rw [hc] at h
      cases found with
      | none =>
        obtain ⟨rfl, rfl, -⟩ := by simpa using h
        exact ⟨hle, fun _ => hlt rfl⟩
      | some addr =>
        have hrec := ih h
        exact ⟨by omega, fun hf => (hrec.2 hf).imp_left (fun h' => h'.trans_le hle)⟩

theorem alloc_failed_length {s s' : LinearScan R} {newLiveRanges : List R} {dir : Direction}
    (hne : s.liveRanges ≠ []) (h : s.alloc newLiveRanges true dir = (false, s')) :
    s'.liveRanges.length < s.liveRanges.length := by
  have hpos : 0 < s.liveRanges.length := length_pos_iff.mpr hne
  unfold alloc at h
  cases hf : allocFixedRanges true (newLiveRanges.filter (fun r => s.handler.isFixedAlloc r)) s [] [] with
  | mk ok rest =>
    obtain ⟨s₁, guard₁, pending₁⟩ := rest
    obtain ⟨hle, hlt⟩ := allocFixedRanges_length hf
    rw [hf] at h
    cases ok with
    | false =>
      obtain rfl : s₁.rollback guard₁ = s' := by simpa using h
      exact hlt rfl
    | true =>
      simp only at h
      cases hd : allocDynamicRanges true dir (newLiveRanges.filter (fun r => !s₁.handler.isFixedAlloc r)) s₁
          guard₁ pending₁ with
      | mk ok rest =>
        obtain ⟨s₂, guard₂, pending₂⟩ := rest
        obtain ⟨hle₂, hlt₂⟩ := allocDynamicRanges_length hd
        rw [hd] at h
        cases ok with
        | true => simp at h
        | false =>
          obtain rfl : s₂.rollback guard₂ = s' := by simpa using h
          change s₂.liveRanges.length < _
          rcases hlt₂ rfl with h' | h'
          · omega
          · rw [h', length_nil]
            exact hpos

structure Unchanged (s s' : LinearScan R) : Prop where
  gaps : s'.partitioner.gaps = s.partitioner.gaps
  live : ∀ r, r ∈ s'.liveRanges ↔ r ∈ s.liveRanges
  reported : ∃ events, s'.handler.log = s.handler.log ++ events ∧
    ∀ e ∈ events, ∃ range addr, e = .allocated range addr

omit [DecidableEq R] in
theorem Invariant.liveRanges_nodup {t : ℕ} {reserved : Recorded} {s : LinearScan R} (h : Invariant t reserved s) :
    s.liveRanges.Nodup := by
  have hlive := (regions_append.mp h.holds.regions).1
  have hapart := hlive.apart
  rw [liveRegions, pairwise_map] at hapart
  apply hapart.imp_of_mem
  rintro r r' hmem - hd rfl
  have hs := hlive.positive _ (mem_map_of_mem hmem)
  have hunit : (s.region r).1 ∈ units (s.region r) := ⟨le_refl _, by omega⟩
  exact Set.disjoint_left.mp hd hunit hunit

/-- A failed `alloc` with something to spill has always changed the live ranges. One with nothing to spill rolls its requests
back if they are such as the partitioner asserts, and no alignment sum wraps on a gap that one takes. -/
theorem alloc_failed_unchanged_iff {t : ℕ} {reserved : Recorded} {s s' : LinearScan R} {newLiveRanges : List R}
    {allowSpills : Bool} {dir : Direction} (h : Invariant t reserved s)
    (hf : s.alloc newLiveRanges allowSpills dir = (false, s')) :
    ((allowSpills = false ∨ s.liveRanges = []) ∧ s.WellFormed t reserved newLiveRanges ∧ s.NoWrap newLiveRanges dir →
      Unchanged s s') ∧ (Unchanged s s' → allowSpills = false ∨ s.liveRanges = []) := by
  constructor
  · rintro ⟨hno, hwell, hwrap⟩
    rcases alloc_of_wontSpill h hno hwell hwrap with he | ⟨p, guard, pending, he, -, -⟩
    · rw [he] at hf
      obtain rfl : s = s' := by simpa using hf
      exact ⟨rfl, fun _ => Iff.rfl, [], by simp, by simp⟩
    · rw [he] at hf
      simp at hf
  · intro hu
    by_contra hspill
    obtain ⟨hallow, hne⟩ := not_or.mp hspill
    obtain rfl : allowSpills = true := by simpa using hallow
    have hlt := alloc_failed_length hne hf
    have hsub : s.liveRanges ⊆ s'.liveRanges := fun r hr => (hu.live r).mpr hr
    have hle := (List.Nodup.subperm h.liveRanges_nodup hsub).length_le
    omega

def fourThenFive : Handler ℕ where
  isAlive _ := true
  isFixedAlloc _ := false
  getSize r := if r = 0 then 4 else 5
  getAlignment _ := 1
  getAddress _ := 0
  getSpillWeight _ _ := 0
  acceptsSpill _ _ := true
  log := []

theorem fourThenFive_reaches : Reaches 4 [] fourThenFive (Safe 4) ((create 4 [] fourThenFive).run (.alloc [0] .up)) := by
  apply Reaches.call Reaches.create
  · exact ⟨by unfold Positive; decide, List.Pairwise.nil, by simp [occupied_nil], by simp [create]⟩
  · refine ⟨?_, by decide, ?_⟩
    · change occupied [] ⊆ _
      rw [occupied_nil]
      exact Set.empty_subset _
    · intro _
      exact ⟨by decide +kernel, fun _ => trivial⟩

theorem alloc_failed_unchanged_iff_four : Unchanged ((create 4 [] fourThenFive).run (.alloc [0] .up))
    (((create 4 [] fourThenFive).run (.alloc [0] .up)).alloc [1] false .up).2 := by
  have hinv := invariant_run (by decide) (by decide) regions_nil (by simp [occupied_nil]) fourThenFive_reaches
  have hfail : (((create 4 [] fourThenFive).run (.alloc [0] .up)).alloc [1] false .up).1 = false := by decide +kernel
  apply (alloc_failed_unchanged_iff hinv (Prod.ext hfail rfl)).1
  refine ⟨.inl rfl, ⟨by unfold Positive; decide +kernel, List.Pairwise.nil, ?_, ?_⟩, ?_⟩
  · rw [occupied_nil]
    exact Set.disjoint_empty _
  · change occupied [] ⊆ _
    rw [occupied_nil]
    exact Set.empty_subset _
  · intro _
    refine ⟨by decide +kernel, fun _ => trivial⟩

/-- The spill loop of a hopeless request empties the live set before it gives up. -/
theorem alloc_failed_changed :
    ¬ ∀ (t : ℕ) (reserved : Recorded) (handler : Handler ℕ) (s s' : LinearScan ℕ) (newLiveRanges : List ℕ)
      (allowSpills : Bool) (dir : Direction), Reaches t reserved handler (Safe t) s →
      s.alloc newLiveRanges allowSpills dir = (false, s') → Unchanged s s' := by
  intro h
  have hfail : (((create 4 [] fourThenFive).run (.alloc [0] .up)).alloc [1] true .up).1 = false := by decide +kernel
  have hlive : (((create 4 [] fourThenFive).run (.alloc [0] .up)).alloc [1] true .up).2.liveRanges = [] := by
    decide +kernel
  have hbefore : ((create 4 [] fourThenFive).run (.alloc [0] .up)).liveRanges = [0] := by decide +kernel
  have hu := h 4 [] fourThenFive _ _ [1] true .up fourThenFive_reaches (Prod.ext hfail rfl)
  have hmem := (hu.live 0).mpr (by rw [hbefore]; simp)
  rw [hlive] at hmem
  simp at hmem

end NpuCompiler.Memory.LinearScan
