import Mathlib.Order.Interval.Set.Disjoint
import NpuCompiler.Memory.GapInvariant
import NpuCompiler.Memory.LinearScan

namespace NpuCompiler.Memory

open Spans Partitioner List

abbrev units (r : ℕ × ℕ) : Set ℕ := Set.Ico r.1 (r.1 + r.2)

def occupied (rs : Recorded) : Set ℕ := cover Prod.fst (fun r => r.1 + r.2) rs

theorem mem_occupied {rs : Recorded} {x : ℕ} : x ∈ occupied rs ↔ ∃ r ∈ rs, x ∈ units r := Iff.rfl

theorem occupied_nil : occupied [] = ∅ := cover_nil

theorem occupied_cons (r : ℕ × ℕ) (rs : Recorded) : occupied (r :: rs) = units r ∪ occupied rs :=
  cover_cons r rs

theorem occupied_append (rs rs' : Recorded) : occupied (rs ++ rs') = occupied rs ∪ occupied rs' :=
  cover_append rs rs'

theorem occupied_perm {rs rs' : Recorded} (h : rs.Perm rs') : occupied rs = occupied rs' := by
  ext x
  simp only [mem_occupied, h.mem_iff]

theorem disjoint_occupied {rs : Recorded} {s : Set ℕ} :
    Disjoint s (occupied rs) ↔ ∀ r ∈ rs, Disjoint s (units r) := by
  simp only [Set.disjoint_left, mem_occupied]
  grind

abbrev Apart (r r' : ℕ × ℕ) : Prop := Disjoint (units r) (units r')

theorem apart_comm {r r' : ℕ × ℕ} (h : Apart r r') : Apart r' r := Disjoint.symm h

structure Regions (rs : Recorded) : Prop where
  positive : ∀ r ∈ rs, 0 < r.2
  apart : rs.Pairwise Apart

theorem regions_nil : Regions [] := ⟨by simp, List.Pairwise.nil⟩

theorem regions_cons {r : ℕ × ℕ} {rs : Recorded} :
    Regions (r :: rs) ↔ 0 < r.2 ∧ Disjoint (units r) (occupied rs) ∧ Regions rs := by
  rw [disjoint_occupied]
  constructor
  · rintro ⟨hp, ha⟩
    obtain ⟨h1, h2⟩ := pairwise_cons.mp ha
    exact ⟨hp r (by simp), h1, fun r' h => hp r' (by simp [h]), h2⟩
  · rintro ⟨h1, h2, hp, ha⟩
    exact ⟨by simpa using ⟨h1, fun a b => hp (a, b)⟩, pairwise_cons.mpr ⟨h2, ha⟩⟩

theorem Regions.perm {rs rs' : Recorded} (h : Regions rs) (hp : rs.Perm rs') : Regions rs' :=
  ⟨fun r hr => h.positive r (hp.mem_iff.mpr hr), hp.pairwise h.apart apart_comm⟩

theorem regions_append {rs rs' : Recorded} :
    Regions (rs ++ rs') ↔ Regions rs ∧ Regions rs' ∧ Disjoint (occupied rs) (occupied rs') := by
  induction rs with
  | nil => simp [regions_nil, occupied_nil]
  | cons r rs ih =>
    simp only [cons_append, regions_cons, ih, occupied_append, occupied_cons, Set.disjoint_union_left,
      Set.disjoint_union_right]
    tauto

namespace Partitioner

structure Holds (t : ℕ) (avail : Set ℕ) (p : Partitioner) (taken : Recorded) : Prop where
  ok : p.Ok
  total_eq : p.totalSize = t
  regions : Regions taken
  inside : occupied taken ⊆ avail
  complement : freeSet p.gaps = avail \ occupied taken

abbrev TakesOutAll (p p' : Partitioner) (rs : Recorded) : Prop := Holds p.totalSize (freeSet p.gaps) p' rs

theorem holds_init {t : ℕ} (h0 : 0 < t) (ht : t < 2 ^ 64) : Holds t (Set.Ico 0 t) (init t) [] :=
  ⟨init_ok h0 ht, rfl, regions_nil, by simp [occupied_nil], by rw [freeSet_init, occupied_nil, Set.sdiff_empty]⟩

theorem takesOutAll_nil {p : Partitioner} (h : p.Ok) : TakesOutAll p p [] :=
  ⟨h, rfl, regions_nil, by simp [occupied_nil], by simp [occupied_nil]⟩

theorem TakesOutAll.eq_of_nil {p p' : Partitioner} (hp : p.Ok) (h : TakesOutAll p p' []) : p' = p := by
  apply h.ok.ext hp h.total_eq
  rw [h.complement, occupied_nil, Set.sdiff_empty]

theorem TakesOut.all {p p' : Partitioner} {addr size : ℕ} (hs : 0 < size) (h : TakesOut p p' addr size) :
    TakesOutAll p p' [(addr, size)] := by
  have hone : occupied [(addr, size)] = Set.Ico addr (addr + size) := by
    rw [occupied_cons, occupied_nil, Set.union_empty]
  refine ⟨h.ok, h.total_eq, regions_cons.mpr ⟨hs, by simp [occupied_nil], regions_nil⟩, ?_, ?_⟩
  · rw [hone]
    exact h.subset
  · rw [hone]
    exact h.freeSet_eq

section
variable {t : ℕ} {avail : Set ℕ} {p p' : Partitioner} {taken rs : Recorded}

theorem Holds.perm {taken' : Recorded} (h : Holds t avail p taken) (hp : taken.Perm taken') :
    Holds t avail p taken' :=
  ⟨h.ok, h.total_eq, h.regions.perm hp, occupied_perm hp ▸ h.inside, occupied_perm hp ▸ h.complement⟩

theorem Holds.takesOutAll (h : Holds t avail p taken) (ht : TakesOutAll p p' rs) :
    Holds t avail p' (rs ++ taken) := by
  have hsub := ht.inside
  rw [h.complement] at hsub
  refine ⟨ht.ok, ht.total_eq.trans h.total_eq, ?_, ?_, ?_⟩
  · apply regions_append.mpr
    exact ⟨ht.regions, h.regions, Set.disjoint_sdiff_left.mono_left hsub⟩
  · rw [occupied_append]
    exact Set.union_subset (hsub.trans Set.sdiff_subset) h.inside
  · rw [ht.complement, h.complement, occupied_append, Set.union_comm]
    exact sdiff_sdiff_left

theorem Holds.snoc {addr size : ℕ} (h : Holds t avail p taken) (hs : 0 < size)
    (ht : TakesOut p p' addr size) : Holds t avail p' (taken ++ [(addr, size)]) :=
  (h.takesOutAll (ht.all hs)).perm perm_append_comm

theorem Holds.allocFixed {addr size : ℕ} (h : Holds t avail p taken) (hs : 0 < size)
    (hin : units (addr, size) ⊆ avail) (hd : Disjoint (units (addr, size)) (occupied taken)) :
    Holds t avail (p.allocFixed addr size) (taken ++ [(addr, size)]) := by
  apply h.snoc hs
  apply allocFixed_takesOut h.ok hs
  rw [h.complement]
  exact Set.subset_sdiff.mpr ⟨hin, hd⟩

theorem Holds.allocFixedAll (h : Holds t avail p taken) (hr : Regions (taken ++ rs)) (hin : occupied rs ⊆ avail) :
    Holds t avail (p.allocFixedAll rs) (taken ++ rs) := by
  induction rs generalizing p taken with
  | nil => rwa [append_nil]
  | cons r rs ih =>
    obtain ⟨-, htail, hdisj⟩ := regions_append.mp hr
    rw [occupied_cons] at hin hdisj
    have hone := h.allocFixed (regions_cons.mp htail).1 (Set.subset_union_left.trans hin)
      (hdisj.mono_right Set.subset_union_left).symm
    have hrec := ih hone (by simpa using hr) (Set.subset_union_right.trans hin)
    rwa [append_assoc] at hrec

theorem Holds.free {r : ℕ × ℕ} (ha : avail ⊆ Set.Ico 0 t) (h : Holds t avail p (r :: taken)) :
    Holds t avail (p.free r.1 r.2) taken := by
  obtain ⟨hs, hd, hrs⟩ := regions_cons.mp h.regions
  have hin := h.inside
  rw [occupied_cons] at hin
  obtain ⟨hr, hin'⟩ := Set.union_subset_iff.mp hin
  have hend : r.1 + r.2 ≤ p.totalSize := by
    have hlast := (ha (hr ⟨show r.1 ≤ r.1 + r.2 - 1 by omega, by omega⟩)).2
    rw [h.total_eq]
    omega
  have hdisj : Disjoint (units r) (freeSet p.gaps) := by
    rw [h.complement, occupied_cons]
    exact Set.disjoint_sdiff_right.mono_left Set.subset_union_left
  have hfree := free_givesBack h.ok hs hend hdisj
  refine ⟨hfree.ok, hfree.total_eq.trans h.total_eq, hrs, hin', ?_⟩
  rw [hfree.freeSet_eq, h.complement, occupied_cons]
  ext x
  have hx : x ∈ units r → x ∉ occupied taken := fun h => Set.disjoint_left.mp hd h
  have hx' : x ∈ units r → x ∈ avail := fun h => hr h
  simp only [Set.mem_union, Set.mem_sdiff]
  tauto

theorem Holds.freeAll (ha : avail ⊆ Set.Ico 0 t) (h : Holds t avail p (rs ++ taken)) :
    Holds t avail (p.freeAll rs) taken := by
  induction rs generalizing p with
  | nil => exact h
  | cons r rs ih => exact ih (h.free ha)

theorem TakesOutAll.freeAll_eq (hp : p.Ok) (h : TakesOutAll p p' rs) : p'.freeAll rs = p := by
  apply TakesOutAll.eq_of_nil hp
  apply Holds.freeAll hp.freeSet_subset
  rwa [append_nil]

end

theorem units_subset_total {p : Partitioner} (hp : p.Ok) {r : ℕ × ℕ} (hs : 0 < r.2)
    (h : units r ⊆ freeSet p.gaps) : r.1 + r.2 ≤ p.totalSize := by
  have hlast := (hp.freeSet_subset (h ⟨show r.1 ≤ r.1 + r.2 - 1 by omega, by omega⟩)).2
  omega

theorem recordAllocation_eq {p : Partitioner} (hp : p.Ok) {addr size : ℕ} (guard : Recorded) (hs : 0 < size)
    (h : units (addr, size) ⊆ freeSet p.gaps) : guard.recordAllocation addr size = guard ++ [(addr, size)] := by
  have hle := units_subset_total hp hs h
  have hlt := hp.total_lt
  have hvalid : addr ≠ invalidAddress := by
    unfold invalidAddress
    simp only at hle
    omega
  rw [Recorded.recordAllocation, if_pos hvalid]

theorem intersects_eq_false {r r' : ℕ × ℕ} (hs : 0 < r.2) (hs' : 0 < r'.2) (he : r.1 + r.2 < 2 ^ 64)
    (he' : r'.1 + r'.2 < 2 ^ 64) : intersects r.1 r.2 r'.1 r'.2 = false ↔ Apart r r' := by
  have h1 : addrAdd r.1 r.2 = r.1 + r.2 := addrAdd_eq he
  have h2 : addrAdd r'.1 r'.2 = r'.1 + r'.2 := addrAdd_eq he'
  have h3 : addrSub (r.1 + r.2) 1 = r.1 + r.2 - 1 := addrSub_eq he (by omega)
  have h4 : addrSub (r'.1 + r'.2) 1 = r'.1 + r'.2 - 1 := addrSub_eq he' (by omega)
  simp only [intersects, h1, h2, h3, h4, Bool.or_eq_false_iff, Bool.and_eq_false_imp, decide_eq_true_eq,
    decide_eq_false_iff_not, Apart, units, Set.Ico_disjoint_Ico]
  omega

end Partitioner

end NpuCompiler.Memory
