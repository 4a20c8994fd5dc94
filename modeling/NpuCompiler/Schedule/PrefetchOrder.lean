import Mathlib.Data.Prod.Lex
import NpuCompiler.Schedule.PrefetchRuns

namespace NpuCompiler.Schedule

open List

open Barrier (ExecutorKind)
open Memory (addrAdd addrSub addrAdd_eq)

def sortKey (op : CycleInfo) : ℕ ×ₗ ℕ ×ₗ ℕ ×ₗ ℕ :=
  toLex (op.cycleBegin, toLex (if op.executorKind = .dmaNN then 0 else 1, toLex (op.getCycleEnd, op.opIdx)))

theorem sortsBefore_iff (op1 op2 : CycleInfo) :
    PrefetchDataOps.sortsBefore op1 op2 = true ↔ sortKey op1 < sortKey op2 := by
  unfold PrefetchDataOps.sortsBefore sortKey
  simp only [Prod.Lex.toLex_lt_toLex]
  by_cases hbegin : op1.cycleBegin = op2.cycleBegin
  · rw [if_neg (not_not.mpr hbegin)]
    by_cases h1 : op1.executorKind = .dmaNN <;> by_cases h2 : op2.executorKind = .dmaNN <;>
      by_cases hend : op1.getCycleEnd = op2.getCycleEnd <;> by_cases hkind : op1.executorKind = op2.executorKind <;>
        simp_all
  · rw [if_pos hbegin]
    simp [hbegin]

namespace PrefetchDataOps

instance : Std.Total (fun op1 op2 : CycleInfo => ¬ sortsBefore op2 op1) := ⟨fun op1 op2 => by
  rw [sortsBefore_iff, sortsBefore_iff, not_lt, not_lt]
  exact le_total _ _⟩

instance : IsTrans CycleInfo (fun op1 op2 : CycleInfo => ¬ sortsBefore op2 op1) := ⟨fun op1 op2 op3 h12 h23 => by
  rw [sortsBefore_iff, not_lt] at h12 h23 ⊢
  exact h12.trans h23⟩

theorem perm_sortOps (ops : List CycleInfo) : (sortOps ops).Perm ops := perm_insertionSort _ ops

theorem pairwise_sortOps (ops : List CycleInfo) : (sortOps ops).Pairwise (fun op1 op2 => ¬ sortsBefore op2 op1) :=
  pairwise_insertionSort _ ops

theorem cycleBegin_le {op1 op2 : CycleInfo} (h : ¬ sortsBefore op2 op1) : op1.cycleBegin ≤ op2.cycleBegin := by
  by_contra hlt
  apply h
  rw [sortsBefore_iff]
  exact Prod.Lex.toLex_lt_toLex.mpr (.inl (not_le.mp hlt))

variable {p : PrefetchDataOps} {s : Pipelines} {order dataOps computeOps : List CycleInfo} {op computeOp : CycleInfo}
  {w : ℕ}

def Linear (p : PrefetchDataOps) (order : List CycleInfo) : Prop :=
  ∀ (i : ℕ) (op : CycleInfo), order[i]? = some op → ∀ dep ∈ p.getOpDeps op.opIdx, dep ∈ (order.take i).map CycleInfo.opIdx

theorem linear_nil : Linear p [] := fun i op h => by simp at h

theorem depsIn_iff : p.depsIn order op.opIdx = true ↔ ∀ dep ∈ p.getOpDeps op.opIdx, dep ∈ order.map CycleInfo.opIdx := by
  unfold depsIn
  simp only [all_eq_true, decide_eq_true_eq]

theorem Linear.append (h : Linear p order) (hop : p.depsIn order op.opIdx = true) : Linear p (order ++ [op]) := by
  intro i other hi dep hdep
  by_cases hlt : i < order.length
  · rw [getElem?_append_left hlt] at hi
    rw [take_append_of_le_length hlt.le]
    exact h i other hi dep hdep
  · rw [getElem?_append_right (not_lt.mp hlt)] at hi
    have hzero : i - order.length = 0 := by
      have := (List.getElem?_eq_some_iff.mp hi).1
      rw [length_singleton] at this
      omega
    rw [hzero, getElem?_cons_zero, Option.some_inj] at hi
    rw [← hi] at hdep
    rw [show i = order.length by omega, take_left]
    exact depsIn_iff.mp hop dep hdep

theorem Linear.mem (h : Linear p order) (hop : op ∈ order) : ∀ dep ∈ p.getOpDeps op.opIdx, dep ∈ order.map CycleInfo.opIdx := by
  intro dep hdep
  obtain ⟨i, hi⟩ := mem_iff_getElem?.mp hop
  exact (take_sublist i order).map CycleInfo.opIdx |>.subset (h i op hi dep hdep)

theorem scheduleDataOps_moved (p : PrefetchDataOps) (w : ℕ) (order dataOps : List CycleInfo) :
    ∃ moved, (p.scheduleDataOps w order dataOps).1 = order ++ moved ∧
      (moved ++ (p.scheduleDataOps w order dataOps).2).Perm dataOps ∧
      (p.scheduleDataOps w order dataOps).2.Sublist dataOps ∧ ∀ op ∈ moved, op.cycleBegin < w := by
  induction dataOps generalizing order with
  | nil => exact ⟨[], by simp [scheduleDataOps], by simp [scheduleDataOps], by simp [scheduleDataOps], by simp⟩
  | cons dataOp dataOps ih =>
    unfold scheduleDataOps
    by_cases hbegin : dataOp.cycleBegin ≥ w
    · rw [if_pos hbegin]
      exact ⟨[], by simp, by simp, List.Sublist.refl _, by simp⟩
    rw [if_neg hbegin]
    by_cases hdeps : p.depsIn order dataOp.opIdx = true
    · rw [if_neg (not_not.mpr hdeps)]
      obtain ⟨moved, hfirst, hperm, hsub, hmoved⟩ := ih (order ++ [dataOp])
      refine ⟨dataOp :: moved, ?_, hperm.cons _, hsub.cons _, forall_mem_cons.mpr ⟨not_le.mp hbegin, hmoved⟩⟩
      rw [hfirst, append_assoc]
      rfl
    · rw [if_pos hdeps]
      obtain ⟨moved, hfirst, hperm, hsub, hmoved⟩ := ih order
      exact ⟨moved, hfirst, perm_middle.trans (hperm.cons _), hsub.cons_cons _, hmoved⟩

theorem scheduleDataOps_spec (h : Linear p order) (hsorted : dataOps.Pairwise (fun op1 op2 => op1.cycleBegin ≤ op2.cycleBegin)) :
    Linear p (p.scheduleDataOps w order dataOps).1 ∧ ∀ op, op ∈ order ∨ op ∈ dataOps ∧ op.cycleBegin < w ∧
      p.depsIn order op.opIdx = true → op ∈ (p.scheduleDataOps w order dataOps).1 := by
  induction dataOps generalizing order with
  | nil => exact ⟨h, fun op hop => hop.resolve_right (fun hmem => not_mem_nil hmem.1)⟩
  | cons dataOp dataOps ih =>
    obtain ⟨hhead, htail⟩ := pairwise_cons.mp hsorted
    unfold scheduleDataOps
    by_cases hbegin : dataOp.cycleBegin ≥ w
    · rw [if_pos hbegin]
      refine ⟨h, fun op hop => hop.resolve_right ?_⟩
      rintro ⟨hmem, hlt, -⟩
      have hle : dataOp.cycleBegin ≤ op.cycleBegin := by
        cases mem_cons.mp hmem with
        | inl heq => rw [heq]
        | inr hmem => exact hhead op hmem
      omega
    rw [if_neg hbegin]
    by_cases hdeps : p.depsIn order dataOp.opIdx = true
    · rw [if_neg (not_not.mpr hdeps)]
      obtain ⟨hlinear, hmoved⟩ := ih (h.append hdeps) htail
      refine ⟨hlinear, fun op hop => hmoved op ?_⟩
      rcases hop with hold | ⟨hmem, hlt, hready⟩
      · exact .inl (mem_append_left _ hold)
      · cases mem_cons.mp hmem with
        | inl heq => exact .inl (mem_append_right _ (mem_singleton.mpr heq))
        | inr hmem =>
          refine .inr ⟨hmem, hlt, ?_⟩
          rw [depsIn_iff] at hready ⊢
          intro dep hdep
          rw [map_append]
          exact mem_append_left _ (hready dep hdep)
    · rw [if_pos hdeps]
      obtain ⟨hlinear, hmoved⟩ := ih h htail
      refine ⟨hlinear, fun op hop => hmoved op (hop.imp_right (fun hop => ?_))⟩
      obtain ⟨hmem, hlt, hready⟩ := hop
      refine ⟨(mem_cons.mp hmem).resolve_left (fun heq => hdeps ?_), hlt, hready⟩
      rwa [← heq]

theorem le_nextComputeCycleBegin {b cycleBegin computeCount : ℕ} (hb : b ≤ cycleBegin)
    (h : ∀ op ∈ computeOps, b ≤ op.cycleBegin) : b ≤ p.nextComputeCycleBegin cycleBegin computeCount computeOps := by
  induction computeOps generalizing cycleBegin computeCount with
  | nil => exact hb
  | cons op ops ih =>
    unfold nextComputeCycleBegin
    split
    · exact ih (h op mem_cons_self) (fun other hother => h other (mem_cons_of_mem _ hother))
    · exact hb

theorem nextComputeCycleBegin_anti {b c c' : ℕ} (hsorted : computeOps.Pairwise (fun op1 op2 => op1.cycleBegin ≤ op2.cycleBegin))
    (hb : ∀ op ∈ computeOps, b ≤ op.cycleBegin) (hc : c' ≤ c) :
    p.nextComputeCycleBegin b c computeOps ≤ p.nextComputeCycleBegin b c' computeOps := by
  induction computeOps generalizing b c c' with
  | nil => exact le_refl b
  | cons op ops ih =>
    obtain ⟨hhead, htail⟩ := pairwise_cons.mp hsorted
    by_cases hlt : c < advanceComputeExecutorKindOpsForPrefetch
    · rw [nextComputeCycleBegin, nextComputeCycleBegin, if_pos hlt, if_pos (hc.trans_lt hlt)]
      apply ih htail hhead
      split
      · exact Nat.succ_le_succ hc
      · exact hc
    · rw [nextComputeCycleBegin, if_neg hlt]
      exact le_nextComputeCycleBegin (le_refl b) hb

/-- The cycle that the data operations are compared to before a compute operation. -/
def beginAhead (p : PrefetchDataOps) (computeOps : List CycleInfo) (op : CycleInfo) : ℕ :=
  p.nextComputeCycleBegin (2 ^ 64 - 1) 0 (computeOps.dropWhile (fun other => other.opIdx ≠ op.opIdx))

theorem beginAhead_cons_self (computeOp : CycleInfo) (computeOps : List CycleInfo) :
    p.beginAhead (computeOp :: computeOps) computeOp = p.nextComputeCycleBegin (2 ^ 64 - 1) 0 (computeOp :: computeOps) := by
  unfold beginAhead
  rw [dropWhile_cons_of_neg (by simp)]

theorem beginAhead_cons_of_ne (h : computeOp.opIdx ≠ op.opIdx) :
    p.beginAhead (computeOp :: computeOps) op = p.beginAhead computeOps op := by
  unfold beginAhead
  rw [dropWhile_cons_of_pos (by simpa using h)]

/-- It does not decrease from round to round. -/
theorem nextComputeCycleBegin_le_beginAhead (hsorted : computeOps.Pairwise (fun op1 op2 => op1.cycleBegin ≤ op2.cycleBegin))
    (hop : op ∈ computeOps) : p.nextComputeCycleBegin (2 ^ 64 - 1) 0 computeOps ≤ p.beginAhead computeOps op := by
  induction computeOps with
  | nil => exact absurd hop not_mem_nil
  | cons first rest ih =>
    by_cases heq : first.opIdx = op.opIdx
    · unfold beginAhead
      rw [dropWhile_cons_of_neg (by simpa using heq)]
    · obtain ⟨hhead, htail⟩ := pairwise_cons.mp hsorted
      have hrest : op ∈ rest := (mem_cons.mp hop).resolve_left (fun hfirst => heq (by rw [hfirst]))
      rw [beginAhead_cons_of_ne heq]
      refine le_trans ?_ (ih htail hrest)
      obtain ⟨second, others, rfl⟩ := exists_cons_of_ne_nil (ne_nil_of_mem hrest)
      obtain ⟨hsecond, hothers⟩ := pairwise_cons.mp htail
      have hpos : (0 : ℕ) < advanceComputeExecutorKindOpsForPrefetch := by decide
      rw [nextComputeCycleBegin, if_pos hpos, nextComputeCycleBegin.eq_def p _ 0]
      simp only [if_pos hpos]
      by_cases hkind : p.computeExecutorKindOpIdx first.opIdx = true
      · rw [if_pos hkind, nextComputeCycleBegin, if_pos (by decide)]
        apply nextComputeCycleBegin_anti hothers hsecond
        split
        · exact Nat.le_succ _
        · exact Nat.zero_le _
      · rw [if_neg hkind, nextComputeCycleBegin, if_pos hpos]

def computeOrder (p : PrefetchDataOps) (cycles : List CycleInfo) : List CycleInfo :=
  sortOps (cycles.filter (fun info => ¬ p.dataOpIdx info.opIdx))

/-- What the loop needs of the cycles: the order of the compute operations fits the dependencies, and data operations begin
before the cycle that they are compared to. -/
structure Separated (p : PrefetchDataOps) (cycles : List CycleInfo) : Prop where
  nodup : (cycles.map CycleInfo.opIdx).Nodup
  deps : ∀ op ∈ cycles, ∀ dep ∈ p.getOpDeps op.opIdx, ∃ d ∈ cycles, d.opIdx = dep
  compute : ∀ op ∈ cycles, ∀ d ∈ cycles, p.dataOpIdx op.opIdx = false → p.dataOpIdx d.opIdx = false →
    d.opIdx ∈ p.getOpDeps op.opIdx → sortsBefore d op = true
  data : ∀ op ∈ cycles, ∀ d ∈ cycles, p.dataOpIdx op.opIdx = false → p.dataOpIdx d.opIdx = true →
    d.opIdx ∈ p.getOpDeps op.opIdx → d.cycleBegin < p.beginAhead (p.computeOrder cycles) op
  /-- The dependencies of a data operation come before its users. -/
  dataDeps : ∀ op ∈ cycles, ∀ d ∈ cycles, p.dataOpIdx op.opIdx = false → p.dataOpIdx d.opIdx = true →
    d.opIdx ∈ p.getOpDeps op.opIdx → ∀ e ∈ cycles, e.opIdx ∈ p.getOpDeps d.opIdx →
      p.dataOpIdx e.opIdx = false ∧ sortsBefore e op = true
  used : ∀ d ∈ cycles, p.dataOpIdx d.opIdx = true → ∃ op ∈ cycles, p.dataOpIdx op.opIdx = false ∧
    d.opIdx ∈ p.getOpDeps op.opIdx

structure Merging (p : PrefetchDataOps) (cycles order dataOps computeOps : List CycleInfo) : Prop where
  perm : (order ++ (dataOps ++ computeOps)).Perm cycles
  linear : Linear p order
  data : ∀ op ∈ dataOps, p.dataOpIdx op.opIdx = true
  compute : ∀ op ∈ computeOps, p.dataOpIdx op.opIdx = false
  dataSorted : dataOps.Pairwise (fun op1 op2 => op1.cycleBegin ≤ op2.cycleBegin)
  computeSorted : computeOps.Pairwise (fun op1 op2 => ¬ sortsBefore op2 op1)
  suffix : ∃ before, p.computeOrder cycles = before ++ computeOps

section
variable {cycles : List CycleInfo}

theorem Merging.mem_cycles (h : Merging p cycles order dataOps computeOps) :
    ∀ op, op ∈ order ∨ op ∈ dataOps ∨ op ∈ computeOps → op ∈ cycles := by
  intro op hop
  rw [← h.perm.mem_iff, mem_append, mem_append]
  exact hop

theorem Merging.mem_order (h : Merging p cycles order dataOps (computeOp :: computeOps)) {d : CycleInfo} (hd : d ∈ cycles)
    (hcompute : p.dataOpIdx d.opIdx = false) (hbefore : sortsBefore d computeOp = true) : d ∈ order := by
  rw [← h.perm.mem_iff, mem_append, mem_append] at hd
  rcases hd with hd | hd | hd
  · exact hd
  · rw [h.data d hd] at hcompute
    cases hcompute
  · cases mem_cons.mp hd with
    | inl heq =>
      rw [heq, sortsBefore_iff] at hbefore
      exact absurd hbefore (lt_irrefl _)
    | inr hmem => exact absurd hbefore ((pairwise_cons.mp h.computeSorted).1 d hmem)

theorem Merging.beginAhead_eq (hs : Separated p cycles) (h : Merging p cycles order dataOps (computeOp :: computeOps)) :
    p.beginAhead (p.computeOrder cycles) computeOp = p.nextComputeCycleBegin (2 ^ 64 - 1) 0 (computeOp :: computeOps) := by
  obtain ⟨before, hsuffix⟩ := h.suffix
  have hnodup : ((p.computeOrder cycles).map CycleInfo.opIdx).Nodup := by
    apply ((perm_sortOps _).map CycleInfo.opIdx).nodup_iff.mpr
    exact hs.nodup.sublist (filter_sublist.map CycleInfo.opIdx)
  rw [← beginAhead_cons_self]
  unfold beginAhead
  rw [hsuffix, map_append, nodup_append] at hnodup
  rw [hsuffix, dropWhile_append_of_pos]
  intro other hother
  exact decide_eq_true (hnodup.2.2 _ (mem_map_of_mem hother) _ mem_cons_self)

theorem Merging.round (hs : Separated p cycles) (h : Merging p cycles order dataOps (computeOp :: computeOps))
    (hw : w = p.nextComputeCycleBegin (2 ^ 64 - 1) 0 (computeOp :: computeOps)) :
    Merging p cycles ((p.scheduleDataOps w order dataOps).1 ++ [computeOp]) (p.scheduleDataOps w order dataOps).2 computeOps := by
  obtain ⟨moved, hfirst, hperm, hsub, -⟩ := scheduleDataOps_moved p w order dataOps
  obtain ⟨hlinear, hmoved⟩ := scheduleDataOps_spec (p := p) (w := w) h.linear h.dataSorted
  rw [hfirst] at hlinear hmoved
  have hcomputeOp : computeOp ∈ cycles := h.mem_cycles _ (.inr (.inr mem_cons_self))
  have hcompute := h.compute computeOp mem_cons_self
  rw [hfirst]
  constructor
  · refine List.Perm.trans ?_ h.perm
    rw [append_assoc, append_assoc]
    apply List.Perm.append_left
    refine List.Perm.trans ?_ (hperm.append_right (computeOp :: computeOps))
    rw [append_assoc]
    apply List.Perm.append_left
    rw [singleton_append]
    exact perm_middle.symm
  · apply hlinear.append
    rw [depsIn_iff]
    intro dep hdep
    obtain ⟨d, hd, rfl⟩ := hs.deps computeOp hcomputeOp dep hdep
    apply mem_map_of_mem
    cases hdata : p.dataOpIdx d.opIdx with
    | false => exact mem_append_left _ (h.mem_order hd hdata (hs.compute computeOp hcomputeOp d hd hcompute hdata hdep))
    | true =>
      rw [← h.perm.mem_iff, mem_append, mem_append] at hd
      rcases hd with hd | hd | hd
      · exact mem_append_left _ hd
      · -- not yet in the order: it begins before the compute operation, and its dependencies are there
        have hmem : d ∈ cycles := h.mem_cycles _ (.inr (.inl hd))
        have hlt := hs.data computeOp hcomputeOp d hmem hcompute hdata hdep
        rw [h.beginAhead_eq hs, ← hw] at hlt
        refine hmoved d (.inr ⟨hd, hlt, ?_⟩)
        rw [depsIn_iff]
        intro dep' hdep'
        obtain ⟨e, he, rfl⟩ := hs.deps d hmem dep' hdep'
        obtain ⟨hdata', hbefore⟩ := hs.dataDeps computeOp hcomputeOp d hmem hcompute hdata hdep e he hdep'
        exact mem_map_of_mem (h.mem_order he hdata' hbefore)
      · rw [h.compute d hd] at hdata
        cases hdata
  · exact fun op hop => h.data op (hsub.subset hop)
  · exact fun op hop => h.compute op (mem_cons_of_mem _ hop)
  · exact h.dataSorted.sublist hsub
  · exact (pairwise_cons.mp h.computeSorted).2
  · obtain ⟨before, hsuffix⟩ := h.suffix
    exact ⟨before ++ [computeOp], by rw [hsuffix, append_assoc]; rfl⟩

theorem Merging.dataOps_eq_nil (hs : Separated p cycles) (h : Merging p cycles order dataOps []) : dataOps = [] := by
  rw [eq_nil_iff_forall_not_mem]
  intro d hd
  obtain ⟨user, huser, hcompute, hdep⟩ := hs.used d (h.mem_cycles d (.inr (.inl hd))) (h.data d hd)
  have horder : user ∈ order := by
    rw [← h.perm.mem_iff, append_nil, mem_append] at huser
    cases huser with
    | inl hmem => exact hmem
    | inr hmem =>
      rw [h.data user hmem] at hcompute
      cases hcompute
  obtain ⟨d', hd', heq⟩ := mem_map.mp (h.linear.mem horder _ hdep)
  have hnodup := (h.perm.map CycleInfo.opIdx).nodup_iff.mpr hs.nodup
  rw [map_append, nodup_append] at hnodup
  exact hnodup.2.2 _ (mem_map_of_mem hd') _ (mem_map_of_mem (mem_append_left _ hd)) heq

theorem mergeOrders_spec (hs : Separated p cycles) (h : Merging p cycles order dataOps computeOps) :
    ∃ newOrder, newOrder.Perm cycles ∧ Linear p newOrder ∧
      ∀ fuel, computeOps.length < fuel → p.mergeOrders fuel order dataOps computeOps = some newOrder := by
  induction computeOps generalizing order dataOps with
  | nil =>
    obtain rfl := h.dataOps_eq_nil hs
    refine ⟨order, by simpa using h.perm, h.linear, ?_⟩
    intro fuel hfuel
    obtain ⟨n, rfl⟩ := Nat.exists_eq_succ_of_ne_zero hfuel.ne'
    rw [mergeOrders]
  | cons computeOp computeOps ih =>
    obtain ⟨newOrder, hperm, hlinear, hrun⟩ := ih (h.round hs rfl)
    refine ⟨newOrder, hperm, hlinear, ?_⟩
    intro fuel hfuel
    obtain ⟨n, rfl⟩ := Nat.exists_eq_succ_of_ne_zero (Nat.zero_lt_of_lt hfuel).ne'
    rw [length_cons] at hfuel
    cases dataOps with
    | nil =>
      rw [mergeOrders]
      exact hrun n (by omega)
    | cons dataOp dataOps =>
      rw [mergeOrders]
      exact hrun n (by omega)

end

theorem mergeOrders_left (fuel : ℕ) (order : List CycleInfo) (dataOp : CycleInfo) (dataOps : List CycleInfo) :
    p.mergeOrders fuel order (dataOp :: dataOps) [] = none := by
  induction fuel generalizing order with
  | zero => rw [mergeOrders]
  | succ fuel ih => rw [mergeOrders, ih]

/-- A round puts data operations that begin before the compared cycle in front of the next compute operation. -/
theorem mergeOrders_cons {fuel : ℕ} {newOrder : List CycleInfo}
    (h : p.mergeOrders (fuel + 1) order dataOps (computeOp :: computeOps) = some newOrder) :
    ∃ moved rest, (moved ++ rest).Perm dataOps ∧
      (∀ op ∈ moved, op.cycleBegin < p.nextComputeCycleBegin (2 ^ 64 - 1) 0 (computeOp :: computeOps)) ∧
      p.mergeOrders fuel (order ++ moved ++ [computeOp]) rest computeOps = some newOrder := by
  cases dataOps with
  | nil =>
    rw [mergeOrders] at h
    exact ⟨[], [], Perm.refl _, fun op hop => absurd hop not_mem_nil, by rwa [append_nil]⟩
  | cons dataOp dataOps =>
    obtain ⟨moved, hfirst, hperm, -, hmoved⟩ := scheduleDataOps_moved p
      (p.nextComputeCycleBegin (2 ^ 64 - 1) 0 (computeOp :: computeOps)) order (dataOp :: dataOps)
    rw [mergeOrders] at h
    simp only [hfirst] at h
    exact ⟨moved, _, hperm, hmoved, h⟩

theorem mergeOrders_perm {fuel : ℕ} {newOrder : List CycleInfo} (h : p.mergeOrders fuel order dataOps computeOps = some newOrder) :
    (∃ rest, newOrder = order ++ rest) ∧ newOrder.Perm (order ++ (dataOps ++ computeOps)) := by
  induction fuel generalizing order dataOps computeOps with
  | zero =>
    rw [mergeOrders] at h
    cases h
  | succ fuel ih =>
    cases computeOps with
    | nil =>
      cases dataOps with
      | nil =>
        rw [mergeOrders] at h
        cases h
        exact ⟨⟨[], (append_nil _).symm⟩, by simp⟩
      | cons dataOp dataOps =>
        rw [mergeOrders_left] at h
        cases h
    | cons computeOp computeOps =>
      obtain ⟨moved, rest, hperm, -, hrun⟩ := mergeOrders_cons h
      obtain ⟨⟨back, hback⟩, hall⟩ := ih hrun
      refine ⟨⟨moved ++ computeOp :: back, ?_⟩, hall.trans ?_⟩
      · rw [hback]
        simp
      · rw [append_assoc, append_assoc]
        apply Perm.append_left
        refine Perm.trans ?_ (hperm.append_right (computeOp :: computeOps))
        rw [append_assoc]
        apply Perm.append_left
        rw [singleton_append]
        exact perm_middle.symm

theorem sortsBefore_of_not {op1 op2 : CycleInfo} (h : ¬ sortsBefore op2 op1) (hne : op1.opIdx ≠ op2.opIdx) :
    sortsBefore op1 op2 = true := by
  rw [sortsBefore_iff, not_lt] at h
  rw [sortsBefore_iff]
  refine lt_of_le_of_ne h (fun heq => hne ?_)
  have hkeys := congrArg (fun key : ℕ ×ₗ ℕ ×ₗ ℕ ×ₗ ℕ => (ofLex (ofLex (ofLex key).2).2).2) heq
  exact hkeys

/-- What stands before a compute operation in the order: compute operations that are sorted before it, and data operations that
begin before the cycle that they are compared to. -/
theorem mergeOrders_before {fuel : ℕ} {newOrder front back : List CycleInfo}
    (h : p.mergeOrders fuel order dataOps computeOps = some newOrder)
    (hnodup : (newOrder.map CycleInfo.opIdx).Nodup) (hsorted : computeOps.Pairwise (fun op1 op2 => ¬ sortsBefore op2 op1))
    (hsplit : newOrder = front ++ op :: back) (hop : op ∈ computeOps) :
    ∀ x ∈ front, (x ∈ computeOps → sortsBefore x op = true) ∧ (x ∈ dataOps → x.cycleBegin < p.beginAhead computeOps op) := by
  induction computeOps generalizing fuel order dataOps with
  | nil => exact absurd hop not_mem_nil
  | cons first computeOps ih =>
    obtain ⟨hhead, htail⟩ := pairwise_cons.mp hsorted
    cases fuel with
    | zero =>
      rw [mergeOrders] at h
      cases h
    | succ fuel =>
    obtain ⟨moved, rest, hperm, hmoved, hrun⟩ := mergeOrders_cons h
    obtain ⟨rest', hprefix⟩ := (mergeOrders_perm hrun).1
    have hall := (mergeOrders_perm h).2
    have hdistinct := (hall.map CycleInfo.opIdx).nodup_iff.mp hnodup
    rw [map_append, nodup_append, map_append, nodup_append, map_cons, nodup_cons] at hdistinct
    obtain ⟨-, ⟨-, ⟨hfirstNew, -⟩, hdataCompute⟩, horderRest⟩ := hdistinct
    have horder : ∀ x ∈ order, x ∉ dataOps ∧ x ∉ first :: computeOps := by
      intro x hx
      constructor
      · exact fun hmem => horderRest _ (mem_map_of_mem hx) _ (mem_append_left _ (mem_map_of_mem hmem)) rfl
      · exact fun hmem => horderRest _ (mem_map_of_mem hx) _ (mem_append_right _ (mem_map_of_mem hmem)) rfl
    have hdata : ∀ x ∈ dataOps, x ∉ first :: computeOps :=
      fun x hx hmem => hdataCompute _ (mem_map_of_mem hx) _ (mem_map_of_mem hmem) rfl
    by_cases hfirst : first = op
    · -- what stands before it is the order so far and what the round adds
      subst hfirst
      have hfront : front = order ++ moved := by
        rw [hsplit, map_append, map_cons, nodup_append, nodup_cons] at hnodup
        have hnotFront : first ∉ front := fun hmem => hnodup.2.2 _ (mem_map_of_mem hmem) _ mem_cons_self rfl
        have hnotBack : first ∉ back := fun hmem => hnodup.2.1.1 (mem_map_of_mem hmem)
        rw [hsplit, append_assoc (order ++ moved), singleton_append] at hprefix
        exact ((append_cons_inj_of_notMem hnotFront hnotBack).mp hprefix).1
      intro x hx
      rw [hfront, mem_append] at hx
      rw [beginAhead_cons_self]
      cases hx with
      | inl hx => exact ⟨fun hmem => absurd hmem (horder x hx).2, fun hmem => absurd hmem (horder x hx).1⟩
      | inr hx =>
        have hmem : x ∈ dataOps := hperm.subset (mem_append_left _ hx)
        exact ⟨fun hmem' => absurd hmem' (hdata x hmem), fun _ => hmoved x hx⟩
    · have hop' : op ∈ computeOps := (mem_cons.mp hop).resolve_left (Ne.symm hfirst)
      have hne : first.opIdx ≠ op.opIdx := fun heq => hfirstNew (heq ▸ mem_map_of_mem hop')
      have hbegins : (first :: computeOps).Pairwise (fun op1 op2 => op1.cycleBegin ≤ op2.cycleBegin) :=
        hsorted.imp cycleBegin_le
      have hwindow := nextComputeCycleBegin_le_beginAhead (p := p) hbegins hop
      rw [beginAhead_cons_of_ne hne] at hwindow ⊢
      intro x hx
      obtain ⟨hcompute, hrest⟩ := ih hrun htail hop' x hx
      constructor
      · intro hmem
        cases mem_cons.mp hmem with
        | inl heq =>
          rw [heq]
          exact sortsBefore_of_not (hhead op hop') hne
        | inr hmem => exact hcompute hmem
      · intro hmem
        cases mem_append.mp (hperm.symm.subset hmem) with
        | inl hmem => exact (hmoved x hmem).trans_le hwindow
        | inr hmem => exact hrest hmem

/-- The condition on the compared cycles: a data operation begins before the cycle that it is compared to in front of its
user, and an operation of another executor that a DMA waits for, itself or through a data operation, begins before the DMA. -/
structure CyclesFit (p : PrefetchDataOps) (cycles : List CycleInfo) : Prop where
  data : ∀ op ∈ cycles, ∀ d ∈ cycles, p.dataOpIdx op.opIdx = false → p.dataOpIdx d.opIdx = true →
    d.opIdx ∈ p.getOpDeps op.opIdx → d.cycleBegin < p.beginAhead (p.computeOrder cycles) op
  dma : ∀ op ∈ cycles, ∀ d ∈ cycles, p.dataOpIdx op.opIdx = false → p.dataOpIdx d.opIdx = false → op.executorKind = .dmaNN →
    d.executorKind ≠ .dmaNN → (d.opIdx ∈ p.getOpDeps op.opIdx ∨
      ∃ c, p.dataOpIdx c = true ∧ c ∈ p.getOpDeps op.opIdx ∧ d.opIdx ∈ p.getOpDeps c) → d.cycleBegin < op.cycleBegin

theorem Ordered.getCycleEnd_eq (ht : Timed p s) (ho : Ordered p s) (hv : ValidSchedule p) (hop : op ∈ s.operationCycles) :
    op.getCycleEnd = op.cycleBegin + p.cost op.opIdx := by
  have hlt := ht.spent_lt hv
  obtain ⟨hcost, hle⟩ := ho.fits op hop
  rw [CycleInfo.getCycleEnd, ← hcost]
  exact addrAdd_eq (by omega)

/-- An operation that ends before another begins is sorted before it, if it does not begin together with a DMA. -/
theorem sortsBefore_of_end (hv : ValidSchedule p) (ht : Timed p s) (ho : Ordered p s)
    {d : CycleInfo} (hop : op ∈ s.operationCycles) (hd : d ∈ s.operationCycles) (hlt : d.opIdx < op.opIdx)
    (hle : d.cycleBegin + p.cost d.opIdx ≤ op.cycleBegin)
    (hdma : op.executorKind = .dmaNN → d.executorKind ≠ .dmaNN → d.cycleBegin < op.cycleBegin) : sortsBefore d op = true := by
  unfold sortsBefore
  by_cases hbegin : d.cycleBegin = op.cycleBegin
  swap
  · rw [if_pos hbegin]
    exact decide_eq_true (by omega)
  rw [if_neg (not_not.mpr hbegin)]
  by_cases hfirst : d.executorKind ≠ op.executorKind ∧ d.executorKind = .dmaNN
  · rw [if_pos hfirst]
  rw [if_neg hfirst]
  by_cases hlast : d.executorKind ≠ op.executorKind ∧ op.executorKind = .dmaNN
  · have hless := hdma hlast.2 (fun heq => hlast.1 (heq.trans hlast.2.symm))
    omega
  rw [if_neg hlast, ho.getCycleEnd_eq ht hv hd, ho.getCycleEnd_eq ht hv hop]
  by_cases hend : d.cycleBegin + p.cost d.opIdx = op.cycleBegin + p.cost op.opIdx
  · rw [if_neg (not_not.mpr hend)]
    exact decide_eq_true hlt
  · rw [if_pos hend]
    exact decide_eq_true (by omega)

theorem separated (hv : ValidSchedule p) (ht : Timed p s) (ho : Ordered p s)
    (hall : ∀ op ∈ p.originalOps, s.isScheduled op = true) (hfit : CyclesFit p s.operationCycles) :
    Separated p s.operationCycles := by
  have hbegin (op d : CycleInfo) (hop : op ∈ s.operationCycles) (hd : d ∈ s.operationCycles)
      (hdep : d.opIdx ∈ p.getOpDeps op.opIdx) : d.cycleBegin + p.cost d.opIdx ≤ op.cycleBegin := by
    obtain ⟨d', hd', heq, hend⟩ := ho.deps op hop _ hdep
    obtain rfl := inj_on_of_nodup_map ht.nodup hd' hd heq
    rwa [← ho.getCycleEnd_eq ht hv hd]
  have hless (op d : CycleInfo) (hop : op ∈ s.operationCycles) (hdep : d.opIdx ∈ p.getOpDeps op.opIdx) : d.opIdx < op.opIdx :=
    hv.deps_lt _ (ht.known op hop) _ hdep
  constructor
  · exact ht.nodup
  · intro op hop dep hdep
    obtain ⟨d, hd, heq, -⟩ := ho.deps op hop dep hdep
    exact ⟨d, hd, heq⟩
  · intro op hop d hd hcompute hcompute' hdep
    exact sortsBefore_of_end hv ht ho hop hd (hless op d hop hdep) (hbegin op d hop hd hdep)
      (fun hdma hkind => hfit.dma op hop d hd hcompute hcompute' hdma hkind (.inl hdep))
  · exact hfit.data
  · intro op hop d hd hcompute hdata hdep e he hdep'
    have hcompute' := hv.data_deps _ (ht.known d hd) hdata _ hdep'
    refine ⟨hcompute', sortsBefore_of_end hv ht ho hop he ((hless d e hd hdep').trans (hless op d hop hdep)) ?_ ?_⟩
    · have := hbegin op d hop hd hdep
      have := hbegin d e hd he hdep'
      omega
    · exact fun hdma hkind => hfit.dma op hop e he hcompute hcompute' hdma hkind (.inr ⟨d.opIdx, hdata, hdep, hdep'⟩)
  · intro d hd hdata
    obtain ⟨user, huser, hdep⟩ := hv.data_used _ (ht.known d hd) hdata
    obtain ⟨op, hop, rfl⟩ := isScheduled_iff.mp (hall user huser)
    refine ⟨op, hop, ?_, hdep⟩
    rw [Bool.eq_false_iff]
    intro hdata'
    rw [hv.data_deps _ huser hdata' _ hdep] at hdata
    cases hdata

theorem getNewOrder_linear {fuel : ℕ} (hs : Separated p s.operationCycles) (hfuel : s.operationCycles.length < fuel) :
    ∃ order, p.getNewOrder fuel s = some order ∧ order.Perm s.operationCycles ∧ Linear p order ∧
      ∀ fuel', s.operationCycles.length < fuel' → p.getNewOrder fuel' s = some order := by
  have hstart : Merging p s.operationCycles []
      (sortOps (s.operationCycles.filter (fun info => p.dataOpIdx info.opIdx))) (p.computeOrder s.operationCycles) := by
    constructor
    · refine ((perm_sortOps _).append (perm_sortOps _)).trans ?_
      simpa only [Bool.not_eq_true, Bool.decide_eq_false] using filter_append_perm _ _
    · exact linear_nil
    · intro op hop
      exact (mem_filter.mp ((perm_sortOps _).mem_iff.mp hop)).2
    · intro op hop
      simpa using (mem_filter.mp ((perm_sortOps _).mem_iff.mp hop)).2
    · exact (pairwise_sortOps _).imp cycleBegin_le
    · exact pairwise_sortOps _
    · exact ⟨[], rfl⟩
  obtain ⟨order, horder, hlinear, hrun⟩ := mergeOrders_spec hs hstart
  have hlength : (p.computeOrder s.operationCycles).length ≤ s.operationCycles.length := by
    unfold computeOrder
    rw [(perm_sortOps _).length_eq]
    exact length_filter_le _ _
  exact ⟨order, hrun fuel (by omega), horder, hlinear, fun fuel' hfuel' => hrun fuel' (by omega)⟩

theorem cyclesFit {fuel : ℕ} {order : List CycleInfo} (hnodup : (s.operationCycles.map CycleInfo.opIdx).Nodup)
    (hrun : p.getNewOrder fuel s = some order) (hlinear : Linear p order) : CyclesFit p s.operationCycles := by
  have hall : order.Perm s.operationCycles := by
    refine (mergeOrders_perm hrun).2.trans ?_
    rw [nil_append]
    refine ((perm_sortOps _).append (perm_sortOps _)).trans ?_
    simpa only [Bool.not_eq_true, Bool.decide_eq_false] using filter_append_perm _ _
  have hnodup' : (order.map CycleInfo.opIdx).Nodup := (hall.map CycleInfo.opIdx).nodup_iff.mpr hnodup
  have hcompute (x : CycleInfo) : x ∈ sortOps (s.operationCycles.filter (fun info => ¬ p.dataOpIdx info.opIdx)) ↔
      x ∈ s.operationCycles ∧ p.dataOpIdx x.opIdx = false := by
    rw [(perm_sortOps _).mem_iff, mem_filter]
    simp
  -- a dependency of an operation stands before it
  have hdeps (front back : List CycleInfo) (x : CycleInfo) (hsplit : order = front ++ x :: back) :
      ∀ dep ∈ p.getOpDeps x.opIdx, dep ∈ front.map CycleInfo.opIdx := by
    intro dep hdep
    have hx : order[front.length]? = some x := by
      rw [hsplit, getElem?_append_right (le_refl _), Nat.sub_self]
      rfl
    have hmem := hlinear front.length x hx dep hdep
    rwa [hsplit, take_left] at hmem
  have hearlier (front back : List CycleInfo) (x d : CycleInfo) (hsplit : order = front ++ x :: back)
      (hd : d ∈ s.operationCycles) (hdep : d.opIdx ∈ p.getOpDeps x.opIdx) : d ∈ front := by
    obtain ⟨y, hy, heq⟩ := mem_map.mp (hdeps front back x hsplit d.opIdx hdep)
    have hyAll : y ∈ s.operationCycles := hall.subset (hsplit ▸ mem_append_left _ hy)
    rwa [← inj_on_of_nodup_map hnodup hyAll hd heq]
  constructor
  · intro op hop d hd hcomputeOp hdata hdep
    obtain ⟨front, back, hsplit⟩ := append_of_mem (hall.symm.subset hop)
    refine (mergeOrders_before hrun hnodup' (pairwise_sortOps _) hsplit ((hcompute op).mpr ⟨hop, hcomputeOp⟩) d
      (hearlier front back op d hsplit hd hdep)).2 ?_
    rw [(perm_sortOps _).mem_iff, mem_filter]
    exact ⟨hd, hdata⟩
  · intro op hop d hd hcomputeOp hcomputeD hdma hkind hdep
    obtain ⟨front, back, hsplit⟩ := append_of_mem (hall.symm.subset hop)
    have hfront : d ∈ front := by
      rcases hdep with hdep | ⟨c, hdata, hc, hdep⟩
      · exact hearlier front back op d hsplit hd hdep
      · obtain ⟨y, hy, rfl⟩ := mem_map.mp (hdeps front back op hsplit c hc)
        obtain ⟨front', back', hfront⟩ := append_of_mem hy
        rw [hfront]
        refine mem_append_left _ (hearlier front' (back' ++ op :: back) y d ?_ hd hdep)
        rw [hsplit, hfront, append_assoc]
        rfl
    have hbefore := (mergeOrders_before hrun hnodup' (pairwise_sortOps _) hsplit ((hcompute op).mpr ⟨hop, hcomputeOp⟩) d
      hfront).1 ((hcompute d).mpr ⟨hd, hcomputeD⟩)
    unfold sortsBefore at hbefore
    split at hbefore
    · exact of_decide_eq_true hbefore
    · rw [if_neg (fun hfirst => hkind hfirst.2), if_pos ⟨fun heq => hkind (heq.trans hdma), hdma⟩] at hbefore
      cases hbefore

/-- With enough rounds the new order is computed, and it is an order of the operations of the schedule in which each stands
after its dependencies, if and only if the compared cycles fit. -/
theorem newOpOrder_linear_iff (hv : ValidSchedule p) :
    (∃ order, (∀ fuel, p.originalOps.length < fuel → p.newOpOrder fuel = .ok (some order)) ∧
      (order.map CycleInfo.opIdx).Perm p.originalOps ∧ Linear p order) ↔
    DmaFifoEnds p ∧ ∀ s, p.cycleSchedules = .ok s → CyclesFit p s.operationCycles := by
  constructor
  · rintro ⟨order, hrun, -, hlinear⟩
    have hok := hrun _ (Nat.lt_succ_self _)
    obtain ⟨s, hs, hnew⟩ := bind_eq_ok.mp hok
    have hends := dmaFifoEnds_of_ok hs
    refine ⟨hends, fun s' hs' => ?_⟩
    obtain rfl : s = s' := Except.ok.inj (hs.symm.trans hs')
    obtain ⟨s', hs', ht, -⟩ := cycleSchedules_spec hv hends
    obtain rfl : s = s' := Except.ok.inj (hs.symm.trans hs')
    exact cyclesFit ht.nodup (Except.ok.inj hnew) hlinear
  · rintro ⟨hends, hfit⟩
    obtain ⟨s, hok, ht, ho, hall⟩ := cycleSchedules_spec hv hends
    have hperm : (s.operationCycles.map CycleInfo.opIdx).Perm p.originalOps := by
      rw [perm_ext_iff_of_nodup ht.nodup hv.nodup]
      intro op
      constructor
      · intro hop
        obtain ⟨info, hinfo, rfl⟩ := mem_map.mp hop
        exact ht.known info hinfo
      · intro hop
        obtain ⟨info, hinfo, rfl⟩ := isScheduled_iff.mp (hall op hop)
        exact mem_map_of_mem hinfo
    have hlength : s.operationCycles.length = p.originalOps.length := by rw [← hperm.length_eq, length_map]
    obtain ⟨order, -, horder, hlinear, hrun⟩ :=
      getNewOrder_linear (separated hv ht ho hall (hfit s hok)) (Nat.lt_succ_self _)
    refine ⟨order, fun fuel hfuel => ?_, (horder.map _).trans hperm, hlinear⟩
    unfold newOpOrder
    simp only [hok, bind, Except.bind]
    rw [hrun fuel (hlength.trans_lt hfuel)]
    rfl

def loadsAndUse : PrefetchDataOps where
  scheduledOps := [⟨0, .originalOp, true, .dmaNN, 0, 0⟩, ⟨1, .originalOp, true, .dmaNN, 0, 1⟩, ⟨2, .originalOp, false, .dpu, 1, 2⟩]
  getOpDeps := fun opIdx => if opIdx = 2 then [0, 1] else []

theorem loadsAndUse_valid : ValidSchedule loadsAndUse := by
  refine ⟨by decide, ?_, by decide, by decide, by decide, by decide, by decide, by decide⟩
  intro before op after hsplit
  match before with
  | [] =>
    cases hsplit
    exact fun dep hdep => absurd hdep not_mem_nil
  | [_] =>
    cases hsplit
    exact fun dep hdep => absurd hdep not_mem_nil
  | [_, _] =>
    cases hsplit
    exact fun dep hdep => hdep
  | _ :: _ :: _ :: _ => simp [loadsAndUse, ScheduledOpInfo.isOriginalOp] at hsplit

/-- An operation that takes no time does no harm where the compute operation begins later. -/
theorem newOpOrder_linear_iff_loads : ∃ order,
    (∀ fuel, loadsAndUse.originalOps.length < fuel → loadsAndUse.newOpOrder fuel = .ok (some order)) ∧
      (order.map CycleInfo.opIdx).Perm loadsAndUse.originalOps ∧ Linear loadsAndUse order := by
  refine (newOpOrder_linear_iff loadsAndUse_valid).mpr ⟨?_, ?_⟩
  · have hfifo : (loadsAndUse.performCycleScheduling false .empty).map (fun s => s.executorPipelineCycles .dmaNN) = .ok [] := by
      decide +kernel
    intro s hs info hinfo
    rw [hs] at hfifo
    have hnil : s.executorPipelineCycles .dmaNN = [] := Except.ok.inj hfifo
    rw [hnil] at hinfo
    exact absurd hinfo not_mem_nil
  · have hcycles : loadsAndUse.cycleSchedules.map Pipelines.operationCycles =
        .ok [.of 0 0 0 .dmaNN, .of 1 0 1 .dmaNN, .of 2 1 1 .dpu] := by
      decide +kernel
    intro s hs
    rw [hs] at hcycles
    have hs : s.operationCycles = [.of 0 0 0 .dmaNN, .of 1 0 1 .dmaNN, .of 2 1 1 .dpu] := Except.ok.inj hcycles
    rw [hs]
    refine ⟨by decide, fun op hop d hd hcompute _ hdma _ _ => ?_⟩
    have hnone : ∀ op ∈ [CycleInfo.of 0 0 0 .dmaNN, .of 1 0 1 .dmaNN, .of 2 1 1 .dpu], op.executorKind = .dmaNN →
        loadsAndUse.dataOpIdx op.opIdx = true := by
      decide
    rw [hnone op hop hdma] at hcompute
    cases hcompute

def loadAndUse : PrefetchDataOps where
  scheduledOps := [⟨0, .originalOp, true, .dmaNN, 0, 0⟩, ⟨1, .originalOp, false, .dpu, 0, 5⟩]
  getOpDeps := fun opIdx => if opIdx = 1 then [0] else []

theorem loadAndUse_valid : ValidSchedule loadAndUse := by
  refine ⟨by decide, ?_, by decide, by decide, by decide, by decide, by decide, by decide⟩
  intro before op after hsplit
  match before with
  | [] =>
    cases hsplit
    exact fun dep hdep => absurd hdep not_mem_nil
  | [_] =>
    cases hsplit
    exact fun dep hdep => hdep
  | _ :: _ :: _ => simp [loadAndUse, ScheduledOpInfo.isOriginalOp] at hsplit

/-- With no time to load, the data operation begins together with its user and is still there after it. -/
theorem newOpOrder_noTime : ValidSchedule loadAndUse ∧ ∀ fuel, loadAndUse.newOpOrder fuel = .ok none := by
  refine ⟨loadAndUse_valid, fun fuel => ?_⟩
  have hcycles : loadAndUse.cycleSchedules.map Pipelines.operationCycles =
      .ok [.of 0 0 0 .dmaNN, .of 1 0 5 .dpu] := by
    decide +kernel
  unfold newOpOrder
  cases hok : loadAndUse.cycleSchedules with
  | error e =>
    rw [hok] at hcycles
    cases hcycles
  | ok s =>
    rw [hok] at hcycles
    have hs : s.operationCycles = [.of 0 0 0 .dmaNN, .of 1 0 5 .dpu] := Except.ok.inj hcycles
    have hdata : sortOps (s.operationCycles.filter (fun info => loadAndUse.dataOpIdx info.opIdx)) =
        [.of 0 0 0 .dmaNN] := by
      rw [hs]
      decide
    have hcompute : sortOps (s.operationCycles.filter (fun info => ¬ loadAndUse.dataOpIdx info.opIdx)) =
        [.of 1 0 5 .dpu] := by
      rw [hs]
      decide
    have hround : loadAndUse.scheduleDataOps
        (loadAndUse.nextComputeCycleBegin (2 ^ 64 - 1) 0 [.of 1 0 5 .dpu]) [] [.of 0 0 0 .dmaNN] =
        ([], [.of 0 0 0 .dmaNN]) := by
      decide
    change Except.ok (loadAndUse.getNewOrder fuel s) = _
    congr 1
    rw [getNewOrder, hdata, hcompute]
    cases fuel with
    | zero => rw [mergeOrders]
    | succ fuel => rw [mergeOrders, hround, mergeOrders_left]

end PrefetchDataOps

end NpuCompiler.Schedule
