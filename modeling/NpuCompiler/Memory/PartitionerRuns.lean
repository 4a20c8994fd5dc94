import NpuCompiler.Memory.GapInvariant

namespace NpuCompiler.Memory

open Partitioner

inductive PartitionerCall
  | alloc (size alignment : ℕ) (dir : Direction)
  | allocFixed (addr size : ℕ)
  | free (addr size : ℕ)

structure Client where
  partitioner : Partitioner
  held : Set ℕ

namespace Client

def start (totalSize : ℕ) : Client := ⟨init totalSize, ∅⟩

def run (s : Client) : PartitionerCall → Client
  | .alloc size alignment dir =>
    let (addr, p) := s.partitioner.alloc size alignment dir
    ⟨p, if addr = invalidAddress then s.held else s.held ∪ Set.Ico addr (addr + size)⟩
  | .allocFixed addr size =>
    ⟨s.partitioner.allocFixed addr size, s.held ∪ Set.Ico addr (addr + size)⟩
  | .free addr size => ⟨s.partitioner.free addr size, s.held \ Set.Ico addr (addr + size)⟩

def Allowed (s : Client) : PartitionerCall → Prop
  | .alloc size alignment _ => 0 < size ∧ size < 2 ^ 64 ∧ 0 < alignment ∧ alignment < 2 ^ 64
  | .allocFixed addr size => 0 < size ∧ ∃ g ∈ s.partitioner.gaps, g.begin_ ≤ addr ∧ addr + size ≤ g.end_
  | .free addr size => 0 < size ∧ Set.Ico addr (addr + size) ⊆ s.held

def AlignmentFits (s : Client) : PartitionerCall → Prop
  | .alloc size alignment dir => ∀ g ∈ s.partitioner.gaps, NoOverflow size alignment dir g
  | _ => True

/-- The states of the runs from a fresh partitioner whose calls all satisfy `safe`. -/
inductive Reaches (totalSize : ℕ) (safe : Client → PartitionerCall → Prop) : Client → Prop
  | start : Reaches totalSize safe (start totalSize)
  | call {s : Client} {c : PartitionerCall} (hs : Reaches totalSize safe s) (ha : s.Allowed c)
      (hc : safe s c) : Reaches totalSize safe (s.run c)

structure Represents (totalSize : ℕ) (s : Client) : Prop where
  proper : ∀ g ∈ s.partitioner.gaps, g.begin_ < g.end_ ∧ g.end_ ≤ totalSize
  separated : s.partitioner.gaps.Pairwise (fun g g' => g.end_ < g'.begin_)
  complement : freeSet s.partitioner.gaps = Set.Ico 0 totalSize \ s.held

structure Invariant (totalSize : ℕ) (s : Client) : Prop where
  ok : s.partitioner.Ok
  total_eq : s.partitioner.totalSize = totalSize
  held_subset : s.held ⊆ Set.Ico 0 totalSize
  complement : freeSet s.partitioner.gaps = Set.Ico 0 totalSize \ s.held

theorem Invariant.represents {t : ℕ} {s : Client} (h : Invariant t s) : Represents t s where
  proper g hg := ⟨h.ok.gapsOk.canonical.proper g hg, h.total_eq ▸ h.ok.gapsOk.end_le g hg⟩
  separated := h.ok.gapsOk.canonical.separated
  complement := h.complement

theorem Invariant.takesOut {t : ℕ} {s : Client} {p : Partitioner} {addr size : ℕ} (h : Invariant t s)
    (ht : TakesOut s.partitioner p addr size) :
    Invariant t ⟨p, s.held ∪ Set.Ico addr (addr + size)⟩ where
  ok := ht.ok
  total_eq := ht.total_eq.trans h.total_eq
  held_subset := by
    have hsub := ht.subset.trans h.ok.freeSet_subset
    rw [h.total_eq] at hsub
    exact Set.union_subset h.held_subset hsub
  complement := by rw [ht.freeSet_eq, h.complement]; exact sdiff_sdiff_left

theorem Invariant.givesBack {t : ℕ} {s : Client} {p : Partitioner} {addr size : ℕ} (h : Invariant t s)
    (hheld : Set.Ico addr (addr + size) ⊆ s.held) (hg : GivesBack s.partitioner p addr size) :
    Invariant t ⟨p, s.held \ Set.Ico addr (addr + size)⟩ where
  ok := hg.ok
  total_eq := hg.total_eq.trans h.total_eq
  held_subset := Set.sdiff_subset.trans h.held_subset
  complement := by
    rw [hg.freeSet_eq, h.complement]
    ext x
    have := @hheld x
    have := @h.held_subset x
    simp only [Set.mem_union, Set.mem_sdiff] at *
    tauto

theorem invariant_step {t : ℕ} {s : Client} {c : PartitionerCall} (h : Invariant t s) (ha : s.Allowed c)
    (hc : s.AlignmentFits c) : Invariant t (s.run c) := by
  cases c with
  | alloc size alignment dir =>
    obtain ⟨h0, -, ha0, ha1⟩ := ha
    simp only [run]
    rcases alloc_cases h.ok h0 ha0 ha1 (fun _ _ g hg => hc g (List.mem_of_getElem? hg)) with he | ⟨addr, p, he, hv, -, hout⟩
    · rw [he]
      simpa using h
    · rw [he]
      simp only [hv, if_false]
      exact h.takesOut hout
  | allocFixed addr size =>
    obtain ⟨h0, g, hg, hlo, hhi⟩ := ha
    refine h.takesOut (allocFixed_takesOut h.ok h0 ?_)
    rintro x ⟨h1, h2⟩
    exact ⟨g, hg, by omega, by omega⟩
  | free addr size =>
    obtain ⟨h0, hheld⟩ := ha
    have hend : addr + size ≤ s.partitioner.totalSize := by
      have hlast : addr + size - 1 ∈ s.held := hheld ⟨by omega, by omega⟩
      have := (h.held_subset hlast).2
      rw [h.total_eq]
      omega
    have hdisj : Disjoint (Set.Ico addr (addr + size)) (freeSet s.partitioner.gaps) := by
      rw [h.complement]
      exact Set.disjoint_sdiff_right.mono_left hheld
    exact h.givesBack hheld (free_givesBack h.ok h0 hend hdisj)

theorem invariant_run {t : ℕ} (h0 : 0 < t) (ht : t < 2 ^ 64) {s : Client}
    (h : Reaches t AlignmentFits s) : Invariant t s := by
  induction h with
  | start => exact ⟨init_ok h0 ht, rfl, by simp [start], by simp [start, freeSet_init]⟩
  | call hs ha hc ih => exact invariant_step ih ha hc

theorem gaps_eq_of_held_eq {t : ℕ} {s s' : Client} (h : Invariant t s) (h' : Invariant t s')
    (he : s'.held = s.held) : s'.partitioner.gaps = s.partitioner.gaps :=
  h'.ok.gapsOk.eq_of_freeSet h.ok.gapsOk (by rw [h.complement, h'.complement, he])

/-- Runs without alignment overflow: the gaps are canonical, are the complement of the held units, and
depend on nothing else. -/
theorem gaps_of_run {t : ℕ} (h0 : 0 < t) (ht : t < 2 ^ 64) {s : Client} (h : Reaches t AlignmentFits s) :
    Represents t s ∧ (s.held = ∅ → s.partitioner.gaps = [⟨0, t⟩]) ∧
      ∀ s', Reaches t AlignmentFits s' → s'.held = s.held → s'.partitioner.gaps = s.partitioner.gaps := by
  have hinv := invariant_run h0 ht h
  refine ⟨hinv.represents, ?_, ?_⟩
  · intro hempty
    have hstart : Invariant t (start t) := invariant_run h0 ht .start
    exact gaps_eq_of_held_eq hstart hinv hempty
  · intro s' h' he
    exact gaps_eq_of_held_eq hinv (invariant_run h0 ht h') he

/-- Two units at a fixed address, three aligned to four from above, and the two freed again. -/
def runEight : Client := (((start 8).run (.allocFixed 2 2)).run (.alloc 3 4 .down)).run (.free 2 2)

theorem gaps_of_run_eight : Represents 8 runEight ∧
      (runEight.held = ∅ → runEight.partitioner.gaps = [⟨0, 8⟩]) ∧
      ∀ s', Reaches 8 AlignmentFits s' → s'.held = runEight.held → s'.partitioner.gaps = runEight.partitioner.gaps := by
  refine gaps_of_run (by decide) (by decide) (.call (.call (.call .start ?_ trivial) ?_ ?_) ?_ trivial)
  · exact ⟨by decide, ⟨0, 8⟩, by simp [start, init], by decide, by decide⟩
  · exact ⟨by decide, by decide, by decide, by decide⟩
  · have hgaps : ((start 8).run (.allocFixed 2 2)).partitioner.gaps = [⟨0, 2⟩, ⟨4, 8⟩] := by decide
    intro g hg
    rw [hgaps, List.mem_pair] at hg
    obtain rfl | rfl := hg
    · decide
    · decide
  · have haddr : (((start 8).partitioner.allocFixed 2 2).alloc 3 4 .down).1 = 4 := by decide
    have hheld : (((start 8).run (.allocFixed 2 2)).run (.alloc 3 4 .down)).held =
        (start 8).held ∪ Set.Ico 2 4 ∪ Set.Ico 4 7 := by
      simp [run, haddr, invalidAddress]
    exact ⟨by decide, hheld ▸ Set.subset_union_right.trans Set.subset_union_left⟩

/-- With an alignment close to `2 ^ 64` the sum in `alignValUp` wraps, and `alloc` returns a held address. -/
theorem gaps_overflow : ¬ ∀ (t : ℕ) (s : Client), 0 < t → t < 2 ^ 64 → Reaches t (fun _ _ => True) s → Represents t s := by
  intro h
  have hrun : Reaches 100 (fun _ _ => True)
      (((start 100).run (.allocFixed 0 10)).run (.alloc 1 (2 ^ 64 - 20) .down)) := by
    refine .call (.call .start ?_ trivial) ?_ trivial
    · exact ⟨by decide, ⟨0, 100⟩, by simp [start, init], by decide, by decide⟩
    · exact ⟨by decide, by decide, by decide, by decide⟩
  have hgaps : (((start 100).run (.allocFixed 0 10)).run (.alloc 1 (2 ^ 64 - 20) .down)).partitioner.gaps =
      [⟨10, 0⟩, ⟨1, 100⟩] := by decide
  have hbad := (h 100 _ (by decide) (by decide) hrun).proper ⟨10, 0⟩ (by rw [hgaps]; simp)
  exact absurd hbad.1 (by decide)

end Client

end NpuCompiler.Memory
