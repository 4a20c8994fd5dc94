import Mathlib.Algebra.Order.BigOperators.Group.Finset
import NpuCompiler.Library.FoldRules
import NpuCompiler.Memory.GapInvariant
import NpuCompiler.Schedule.PrefetchDataOps

namespace NpuCompiler.Schedule

open List

open Barrier (ExecutorKind)
open Memory (addrAdd addrSub addrAdd_eq addrSub_eq)

theorem addrSub_lt_pow (a b : ℕ) : addrSub a b < 2 ^ 64 := Nat.mod_lt _ (by decide)

theorem addrAdd_addrSub {a b : ℕ} (ha : a < 2 ^ 64) (hb : b < 2 ^ 64) : addrAdd (addrSub a b) b = a := by
  unfold addrAdd addrSub
  by_cases h : b ≤ a
  · have hsub : (2 ^ 64 + a - b) % 2 ^ 64 = a - b := by
      rw [show 2 ^ 64 + a - b = a - b + 2 ^ 64 by omega, Nat.add_mod_right]
      exact Nat.mod_eq_of_lt (by omega)
    rw [hsub, Nat.sub_add_cancel h]
    exact Nat.mod_eq_of_lt ha
  · rw [Nat.mod_eq_of_lt (show 2 ^ 64 + a - b < 2 ^ 64 by omega), Nat.sub_add_cancel (by omega), Nat.add_mod_left]
    exact Nat.mod_eq_of_lt ha

theorem updateReversed_opIdx (fromCycle toCycle adjustCycles : ℕ) (ops : List CycleInfo) :
    (updateReversed fromCycle toCycle adjustCycles ops).map CycleInfo.opIdx = ops.map CycleInfo.opIdx := by
  induction ops with
  | nil => rfl
  | cons op ops ih =>
    unfold updateReversed
    split
    · rw [map_cons, ih, map_cons]
    · split
      · rfl
      · rw [map_cons, ih, map_cons]

theorem updatePrefetchPipeline_opIdx (pipeline : List CycleInfo) (fromCycle toCycle adjustCycles : ℕ) :
    (updatePrefetchPipeline pipeline fromCycle toCycle adjustCycles).map CycleInfo.opIdx = pipeline.map CycleInfo.opIdx := by
  unfold updatePrefetchPipeline
  rw [map_reverse, updateReversed_opIdx, map_reverse, reverse_reverse]

theorem removeStalls_opIdx (pipeline : List CycleInfo) (cyclesFreed rangeEnd : ℕ) (stalls : List CycleInfo) :
    (removeStalls pipeline cyclesFreed rangeEnd stalls).map CycleInfo.opIdx = pipeline.map CycleInfo.opIdx := by
  induction pipeline, cyclesFreed, rangeEnd, stalls using removeStalls.induct with
  | case1 pipeline cyclesFreed rangeEnd => rw [removeStalls]
  | case2 pipeline cyclesFreed rangeEnd stall stalls h ih =>
    rw [removeStalls, if_pos h, ih, updatePrefetchPipeline_opIdx]
  | case3 pipeline cyclesFreed rangeEnd stall stalls h ih =>
    rw [removeStalls, if_neg h, ih, updatePrefetchPipeline_opIdx]

namespace PrefetchDataOps

variable (p : PrefetchDataOps)

def originalOps : List ℕ := (p.scheduledOps.filter (·.isOriginalOp)).map ScheduledOpInfo.op

def cost (opIdx : ℕ) : ℕ := (p.operationCycleCost opIdx).getD 0

structure ValidSchedule : Prop where
  nodup : p.originalOps.Nodup
  deps_before : ∀ before op after, p.scheduledOps.filter (·.isOriginalOp) = before ++ op :: after →
    ∀ dep ∈ p.getOpDeps op.op, dep ∈ before.map ScheduledOpInfo.op
  deps_lt : ∀ op ∈ p.originalOps, ∀ dep ∈ p.getOpDeps op, dep < op
  data_kind : ∀ op ∈ p.scheduledOps, op.isDataOp = true → op.execKind = .dmaNN
  data_same : ∀ op ∈ p.scheduledOps, ∀ op' ∈ p.scheduledOps, op.op = op'.op → op.isDataOp = op'.isDataOp
  /-- An operation that depends on a data operation is not a data operation. -/
  data_deps : ∀ op ∈ p.originalOps, p.dataOpIdx op = true → ∀ dep ∈ p.getOpDeps op, p.dataOpIdx dep = false
  data_used : ∀ op ∈ p.originalOps, p.dataOpIdx op = true → ∃ user ∈ p.originalOps, op ∈ p.getOpDeps user
  total : (p.originalOps.map p.cost).sum < 2 ^ 64

def spent (s : Pipelines) : ℕ := (s.operationCycles.map (fun info => p.cost info.opIdx)).sum

structure Timed (s : Pipelines) : Prop where
  nodup : (s.operationCycles.map CycleInfo.opIdx).Nodup
  known : ∀ info ∈ s.operationCycles, info.opIdx ∈ p.originalOps
  ends : ∀ info ∈ s.operationCycles, info.getCycleEnd ≤ p.spent s
  fifo : ∀ kind, ∀ info ∈ s.executorPipelineCycles kind,
    info.opIdx ∈ p.originalOps ∧ info.getCycleEnd ≤ p.spent s ∧ p.cost info.opIdx ≤ info.getCycleEnd
  prefetch : ∀ info ∈ s.prefetchPipeline, info.opIdx ∈ p.originalOps ∧ p.dataOpIdx info.opIdx = true

structure Ordered (s : Pipelines) : Prop where
  fits : ∀ info ∈ s.operationCycles, info.cycleCost = p.cost info.opIdx ∧ info.cycleBegin + info.cycleCost ≤ p.spent s
  deps : ∀ info ∈ s.operationCycles, ∀ dep ∈ p.getOpDeps info.opIdx, ∃ d ∈ s.operationCycles,
    d.opIdx = dep ∧ d.getCycleEnd ≤ info.cycleBegin
  kinds : ∀ info ∈ s.operationCycles, ∃ op ∈ p.scheduledOps,
    op.isOriginalOp = true ∧ op.op = info.opIdx ∧ op.execKind = info.executorKind

section
variable {p} {s s' : Pipelines} {op opIdx optimalCycleEnd : ℕ} {info : CycleInfo}

theorem cost_lt (opIdx : ℕ) : p.cost opIdx < 2 ^ 64 := by
  unfold cost operationCycleCost
  cases p.scheduledOps.reverse.find? (fun op => op.op = opIdx) with
  | none => exact Nat.two_pow_pos 64
  | some op => exact addrSub_lt_pow _ _

theorem getOperationCycleCost_ok (h : opIdx ∈ p.originalOps) : p.getOperationCycleCost opIdx = .ok (p.cost opIdx) := by
  obtain ⟨op, hop, rfl⟩ := mem_map.mp h
  have hfind : (p.scheduledOps.reverse.find? (fun other => other.op = op.op)).isSome = true := by
    rw [find?_isSome]
    exact ⟨op, mem_reverse.mpr (mem_of_mem_filter hop), decide_eq_true rfl⟩
  obtain ⟨last, hlast⟩ := Option.isSome_iff_exists.mp hfind
  unfold getOperationCycleCost cost operationCycleCost
  rw [hlast]
  rfl

theorem sum_cost_le (hv : ValidSchedule p) {ops : List ℕ} (hn : ops.Nodup) (hops : ∀ op ∈ ops, op ∈ p.originalOps) :
    (ops.map p.cost).sum ≤ (p.originalOps.map p.cost).sum := by
  rw [← sum_toFinset _ hn, ← sum_toFinset _ hv.nodup]
  apply Finset.sum_le_sum_of_subset
  intro op hop
  exact mem_toFinset.mpr (hops op (mem_toFinset.mp hop))

theorem spent_eq (s : Pipelines) : p.spent s = ((s.operationCycles.map CycleInfo.opIdx).map p.cost).sum := by
  rw [spent, map_map]
  rfl

theorem Timed.spent_le (hv : ValidSchedule p) (h : Timed p s) : p.spent s ≤ (p.originalOps.map p.cost).sum := by
  rw [spent_eq]
  apply sum_cost_le hv h.nodup
  intro op hop
  obtain ⟨info, hinfo, rfl⟩ := mem_map.mp hop
  exact h.known info hinfo

theorem Timed.spent_lt (hv : ValidSchedule p) (h : Timed p s) : p.spent s < 2 ^ 64 := lt_of_le_of_lt (h.spent_le hv) hv.total

theorem isScheduled_iff : s.isScheduled opIdx = true ↔ ∃ info ∈ s.operationCycles, info.opIdx = opIdx := by
  unfold Pipelines.isScheduled Pipelines.cyclesOf
  rw [find?_isSome]
  simp only [decide_eq_true_eq]

theorem Timed.spent_add_lt (hv : ValidSchedule p) (h : Timed p s) (hop : opIdx ∈ p.originalOps)
    (hnew : s.isScheduled opIdx = false) : p.spent s + p.cost opIdx < 2 ^ 64 := by
  have hsum := sum_cost_le hv (nodup_cons.mpr ⟨(?_ : opIdx ∉ s.operationCycles.map CycleInfo.opIdx), h.nodup⟩)
    (by
      intro op hmem
      cases mem_cons.mp hmem with
      | inl heq => rwa [heq]
      | inr hold =>
        obtain ⟨info, hinfo, rfl⟩ := mem_map.mp hold
        exact h.known info hinfo)
  · rw [map_cons, sum_cons, ← spent_eq] at hsum
    have := hv.total
    omega
  · intro hmem
    obtain ⟨info, hinfo, heq⟩ := mem_map.mp hmem
    rw [isScheduled_iff.mpr ⟨info, hinfo, heq⟩] at hnew
    cases hnew

theorem recordCycles_eq (h : s.isScheduled info.opIdx = false) : s.recordCycles info = s.operationCycles ++ [info] := by
  unfold Pipelines.recordCycles
  congr 1
  rw [filter_eq_self]
  intro other hother
  simp only [decide_eq_true_eq]
  intro heq
  rw [isScheduled_iff.mpr ⟨other, hother, heq⟩] at h
  cases h

theorem Timed.cyclesOf_eq (h : Timed p s) (hinfo : info ∈ s.operationCycles) : s.cyclesOf info.opIdx = some info := by
  obtain ⟨other, hother⟩ := Option.isSome_iff_exists.mp (isScheduled_iff.mpr ⟨info, hinfo, rfl⟩)
  rw [hother]
  congr 1
  have hmem : other ∈ s.operationCycles := mem_of_find?_eq_some hother
  have heq : other.opIdx = info.opIdx := by simpa using find?_some hother
  exact inj_on_of_nodup_map h.nodup hmem hinfo heq

theorem Timed.getCycleEndOf_eq (h : Timed p s) (hinfo : info ∈ s.operationCycles) :
    s.getCycleEndOf info.opIdx = info.getCycleEnd := by
  unfold Pipelines.getCycleEndOf
  rw [h.cyclesOf_eq hinfo]
  rfl

theorem Timed.getCycleEndOf_le (h : Timed p s) (opIdx : ℕ) : s.getCycleEndOf opIdx ≤ p.spent s := by
  unfold Pipelines.getCycleEndOf
  cases hc : s.cyclesOf opIdx with
  | none => exact Nat.zero_le _
  | some info => exact h.ends info (mem_of_find?_eq_some hc)

theorem Timed.nextFreeCycle_le (h : Timed p s) (kind : ExecutorKind) :
    nextFreeCycle (s.executorPipelineCycles kind) ≤ p.spent s := by
  unfold nextFreeCycle
  cases hl : (s.executorPipelineCycles kind).getLast? with
  | none => exact Nat.zero_le _
  | some info => exact (h.fifo kind info (mem_of_getLast? hl)).2.1

theorem spent_append {cycles : List CycleInfo} (h : s'.operationCycles = cycles ++ [info]) (hs : s.operationCycles = cycles) :
    p.spent s' = p.spent s + p.cost info.opIdx := by
  unfold spent
  rw [h, hs, map_append, sum_append, map_singleton, sum_singleton]

theorem Timed.record (h : Timed p s) (hnew : s.isScheduled info.opIdx = false) (hop : info.opIdx ∈ p.originalOps)
    (hend : info.getCycleEnd ≤ p.spent s + p.cost info.opIdx)
    (hcycles : s'.operationCycles = s.operationCycles ++ [info])
    (hfifo : ∀ kind, ∀ other ∈ s'.executorPipelineCycles kind, other ∈ s.executorPipelineCycles kind ∨
      (other = info ∧ p.cost info.opIdx ≤ info.getCycleEnd))
    (hprefetch : ∀ other ∈ s'.prefetchPipeline, other.opIdx ∈ s.prefetchPipeline.map CycleInfo.opIdx ∨
      (other.opIdx = info.opIdx ∧ p.dataOpIdx info.opIdx = true)) : Timed p s' := by
  have hspent : p.spent s' = p.spent s + p.cost info.opIdx := spent_append hcycles rfl
  constructor
  · rw [hcycles, map_append, map_singleton, nodup_append]
    refine ⟨h.nodup, pairwise_singleton _ _, ?_⟩
    intro x hx y hy
    obtain ⟨other, hother, rfl⟩ := mem_map.mp hx
    rw [mem_singleton.mp hy]
    intro heq
    rw [isScheduled_iff.mpr ⟨other, hother, heq⟩] at hnew
    cases hnew
  · intro other hother
    rw [hcycles] at hother
    cases mem_append.mp hother with
    | inl hold => exact h.known other hold
    | inr heq => rwa [mem_singleton.mp heq]
  · intro other hother
    rw [hcycles] at hother
    rw [hspent]
    cases mem_append.mp hother with
    | inl hold => exact (h.ends other hold).trans (Nat.le_add_right _ _)
    | inr heq => rwa [mem_singleton.mp heq]
  · intro kind other hother
    rw [hspent]
    cases hfifo kind other hother with
    | inl hold =>
      obtain ⟨h1, h2, h3⟩ := h.fifo kind other hold
      exact ⟨h1, h2.trans (Nat.le_add_right _ _), h3⟩
    | inr hinfo =>
      rw [hinfo.1]
      exact ⟨hop, hend, hinfo.2⟩
  · intro other hother
    cases hprefetch other hother with
    | inl hold =>
      obtain ⟨old, hmem, heq⟩ := mem_map.mp hold
      rw [← heq]
      exact h.prefetch old hmem
    | inr hinfo =>
      rw [hinfo.1]
      exact ⟨hop, hinfo.2⟩

theorem Timed.scheduleOp (h : Timed p s) (hnew : s.isScheduled info.opIdx = false) (hop : info.opIdx ∈ p.originalOps)
    (hend : info.getCycleEnd ≤ p.spent s + p.cost info.opIdx) (hcost : p.cost info.opIdx ≤ info.getCycleEnd) :
    Timed p (s.scheduleOp info) := by
  apply h.record hnew hop hend (recordCycles_eq hnew)
  · intro kind other hother
    unfold Pipelines.scheduleOp at hother
    by_cases hk : kind = info.executorKind
    · simp only [if_pos hk] at hother
      cases mem_append.mp hother with
      | inl hold => exact .inl hold
      | inr heq => exact .inr ⟨mem_singleton.mp heq, hcost⟩
    · simp only [if_neg hk] at hother
      exact .inl hother
  · exact fun other hother => .inl (mem_map_of_mem hother)

theorem Ordered.scheduleOp (h : Ordered p s) (hnew : s.isScheduled info.opIdx = false)
    (hcost : info.cycleCost = p.cost info.opIdx) (hbegin : info.cycleBegin ≤ p.spent s)
    (hdeps : ∀ dep ∈ p.getOpDeps info.opIdx, ∃ d ∈ s.operationCycles, d.opIdx = dep ∧ d.getCycleEnd ≤ info.cycleBegin)
    (hkind : ∃ op ∈ p.scheduledOps, op.isOriginalOp = true ∧ op.op = info.opIdx ∧ op.execKind = info.executorKind) :
    Ordered p (s.scheduleOp info) := by
  have hcycles : (s.scheduleOp info).operationCycles = s.operationCycles ++ [info] := recordCycles_eq hnew
  have hspent : p.spent (s.scheduleOp info) = p.spent s + p.cost info.opIdx := spent_append hcycles rfl
  constructor
  · intro other hother
    rw [hcycles] at hother
    rw [hspent]
    cases mem_append.mp hother with
    | inl hold =>
      obtain ⟨h1, h2⟩ := h.fits other hold
      exact ⟨h1, h2.trans (Nat.le_add_right _ _)⟩
    | inr heq =>
      rw [mem_singleton.mp heq]
      exact ⟨hcost, by omega⟩
  · intro other hother dep hdep
    rw [hcycles] at hother ⊢
    have hold : ∃ d ∈ s.operationCycles, d.opIdx = dep ∧ d.getCycleEnd ≤ other.cycleBegin := by
      cases mem_append.mp hother with
      | inl hold => exact h.deps other hold dep hdep
      | inr heq =>
        rw [mem_singleton.mp heq] at hdep ⊢
        exact hdeps dep hdep
    obtain ⟨d, hd, hd'⟩ := hold
    exact ⟨d, mem_append_left _ hd, hd'⟩
  · intro other hother
    rw [hcycles] at hother
    cases mem_append.mp hother with
    | inl hold => exact h.kinds other hold
    | inr heq =>
      rw [mem_singleton.mp heq]
      exact hkind

theorem getDependencyCycleEnd_ok (h : Timed p s) (hdeps : ∀ dep ∈ p.getOpDeps opIdx, s.isScheduled dep = true) :
    ∃ cycleEnd, p.getDependencyCycleEnd s opIdx = .ok cycleEnd ∧ cycleEnd ≤ p.spent s ∧
      ∀ dep ∈ p.getOpDeps opIdx, s.getCycleEndOf dep ≤ cycleEnd := by
  unfold getDependencyCycleEnd
  refine @foldlM_establishes String ℕ ℕ (fun cycleEnd => cycleEnd ≤ p.spent s)
    (fun dep cycleEnd => s.getCycleEndOf dep ≤ cycleEnd) (p.getOpDeps opIdx) 0 _ (Nat.zero_le _) ?_
  intro dep hdep cycleEnd hcycleEnd
  have hle := h.getCycleEndOf_le dep
  obtain ⟨info, hinfo⟩ := Option.isSome_iff_exists.mp (hdeps dep hdep)
  unfold Pipelines.getCycleEndOf at hle ⊢
  rw [hinfo] at hle ⊢
  exact ⟨_, rfl, max_le hcycleEnd hle, le_max_right _ _, fun b hb => hb.trans (le_max_left _ _)⟩

theorem scheduleDMA_spec (h : Timed p s) (hop : opIdx ∈ p.originalOps)
    (hdeps : ∀ dep ∈ p.getOpDeps opIdx, s.isScheduled dep = true) (hoptimal : optimalCycleEnd ≤ p.spent s)
    (hlt : p.spent s < 2 ^ 64) :
    ∃ info : CycleInfo, p.scheduleDMA s opIdx optimalCycleEnd = .ok (s.scheduleOp info) ∧ info.opIdx = opIdx ∧
      info.executorKind = .dmaNN ∧ info.cycleCost = p.cost opIdx ∧ info.cycleBegin ≤ p.spent s ∧
      ∀ dep ∈ p.getOpDeps opIdx, s.getCycleEndOf dep ≤ info.cycleBegin := by
  obtain ⟨cycleEnd, hok, hle, hdeps'⟩ := getDependencyCycleEnd_ok h hdeps
  have hnext := h.nextFreeCycle_le .dmaNN
  unfold scheduleDMA
  rw [hok, getOperationCycleCost_ok hop]
  refine ⟨_, rfl, rfl, rfl, Nat.mod_eq_of_lt (cost_lt opIdx), ?_, ?_⟩
  · simp only [CycleInfo.of]
    split
    · rw [addrSub_eq (by omega) (by assumption)]
      exact max_le (max_le hnext hle) (by omega)
    · exact max_le hnext hle
  · intro dep hdep
    have hdep' := hdeps' dep hdep
    simp only [CycleInfo.of]
    split
    · exact (hdep'.trans (le_max_right _ _)).trans (le_max_left _ _)
    · exact hdep'.trans (le_max_right _ _)

def Good (p : PrefetchDataOps) (prefetchOpsDefined : Bool) (s : Pipelines) : Prop :=
  Timed p s ∧ (prefetchOpsDefined = true → Ordered p s)

structure Advances (p : PrefetchDataOps) (s s' : Pipelines) : Prop where
  kept : ∀ info ∈ s.operationCycles, info ∈ s'.operationCycles
  added : ∀ info ∈ s'.operationCycles, info ∈ s.operationCycles ∨ p.dataOpIdx info.opIdx = true

theorem Advances.refl (s : Pipelines) : Advances p s s := ⟨fun _ h => h, fun _ h => .inl h⟩

theorem Advances.trans {s'' : Pipelines} (h : Advances p s s') (h' : Advances p s' s'') : Advances p s s'' := by
  constructor
  · exact fun info hinfo => h'.kept info (h.kept info hinfo)
  · intro info hinfo
    cases h'.added info hinfo with
    | inl hold => exact h.added info hold
    | inr hdata => exact .inr hdata

theorem Advances.isScheduled (h : Advances p s s') (hs : s.isScheduled opIdx = true) : s'.isScheduled opIdx = true := by
  obtain ⟨info, hinfo, heq⟩ := isScheduled_iff.mp hs
  exact isScheduled_iff.mpr ⟨info, h.kept info hinfo, heq⟩

theorem Advances.record (hcycles : s'.operationCycles = s.operationCycles ++ [info]) (hdata : p.dataOpIdx info.opIdx = true) :
    Advances p s s' := by
  constructor
  · intro other hother
    rw [hcycles]
    exact mem_append_left _ hother
  · intro other hother
    rw [hcycles] at hother
    cases mem_append.mp hother with
    | inl hold => exact .inl hold
    | inr heq =>
      rw [mem_singleton.mp heq]
      exact .inr hdata

theorem exists_scheduled {deps : List ℕ} {cycle : ℕ} (h : Timed p s) (hs : ∀ dep ∈ deps, s.isScheduled dep = true)
    (hend : ∀ dep ∈ deps, s.getCycleEndOf dep ≤ cycle) :
    ∀ dep ∈ deps, ∃ d ∈ s.operationCycles, d.opIdx = dep ∧ d.getCycleEnd ≤ cycle := by
  intro dep hdep
  obtain ⟨d, hd, rfl⟩ := isScheduled_iff.mp (hs dep hdep)
  refine ⟨d, hd, rfl, ?_⟩
  rw [← h.getCycleEndOf_eq hd]
  exact hend _ hdep

theorem exists_dataOp (hop : opIdx ∈ p.originalOps) (hv : ValidSchedule p) (hdata : p.dataOpIdx opIdx = true) :
    ∃ op ∈ p.scheduledOps, op.isOriginalOp = true ∧ op.op = opIdx ∧ op.execKind = .dmaNN := by
  obtain ⟨op, hentry, rfl⟩ := mem_map.mp hop
  obtain ⟨hmem, horig⟩ := mem_filter.mp hentry
  obtain ⟨other, hother, hcond⟩ := any_eq_true.mp hdata
  simp only [Bool.and_eq_true, decide_eq_true_eq] at hcond
  have hflag := hv.data_same other hother op hmem hcond.1.1
  exact ⟨op, hmem, horig, rfl, hv.data_kind op hmem (by rw [← hflag]; exact hcond.2)⟩

theorem Good.scheduleDMA {defined : Bool} (hv : ValidSchedule p) (h : Good p defined s) (hop : opIdx ∈ p.originalOps)
    (hdata : p.dataOpIdx opIdx = true) (hnew : s.isScheduled opIdx = false)
    (hdeps : ∀ dep ∈ p.getOpDeps opIdx, s.isScheduled dep = true) (hoptimal : optimalCycleEnd ≤ p.spent s) :
    ∃ s' info, p.scheduleDMA s opIdx optimalCycleEnd = .ok s' ∧ Good p defined s' ∧
      s'.operationCycles = s.operationCycles ++ [info] ∧ info.opIdx = opIdx ∧ s'.prefetchPipeline = s.prefetchPipeline := by
  obtain ⟨info, hok, rfl, hkind, hcost, hbegin, hends⟩ :=
    scheduleDMA_spec h.1 hop hdeps hoptimal (h.1.spent_lt hv)
  have hroom := h.1.spent_add_lt hv hop hnew
  have hend : info.getCycleEnd = info.cycleBegin + p.cost info.opIdx := by
    rw [CycleInfo.getCycleEnd, hcost]
    exact addrAdd_eq (by omega)
  refine ⟨_, info, hok, ⟨h.1.scheduleOp hnew hop (by omega) (by omega), ?_⟩, recordCycles_eq hnew, rfl, rfl⟩
  intro hdefined
  apply (h.2 hdefined).scheduleOp hnew hcost hbegin (exists_scheduled h.1 hdeps hends)
  rw [hkind]
  exact exists_dataOp hop hv hdata

theorem reducePrefetchPipelineStalls_opIdx (s : Pipelines) (targetRollback : ℕ) :
    (reducePrefetchPipelineStalls s targetRollback).prefetchPipeline.map CycleInfo.opIdx =
      s.prefetchPipeline.map CycleInfo.opIdx := removeStalls_opIdx _ _ _ _

theorem schedulePrefetchDMA_spec (hop : opIdx ∈ p.originalOps) (hlt : p.spent s < 2 ^ 64)
    (hoptimal : optimalCycleEnd ≤ p.spent s) :
    ∃ (s₁ : Pipelines) (info : CycleInfo), p.schedulePrefetchDMA s opIdx optimalCycleEnd = .ok (s₁.schedulePrefetchOp info) ∧
      s₁.operationCycles = s.operationCycles ∧ s₁.executorPipelineCycles = s.executorPipelineCycles ∧
      s₁.prefetchPipeline.map CycleInfo.opIdx = s.prefetchPipeline.map CycleInfo.opIdx ∧
      info.opIdx = opIdx ∧ info.getCycleEnd ≤ p.spent s + p.cost opIdx := by
  have hc := cost_lt (p := p) opIdx
  have hend (cycleEnd : ℕ) (h : cycleEnd < 2 ^ 64) :
      (CycleInfo.of opIdx (addrSub cycleEnd (p.cost opIdx)) (p.cost opIdx) .dmaNN).getCycleEnd = cycleEnd := by
    simp only [CycleInfo.getCycleEnd, CycleInfo.of, Nat.mod_eq_of_lt hc]
    exact addrAdd_addrSub h hc
  unfold schedulePrefetchDMA
  rw [getOperationCycleCost_ok hop]
  simp only [bind, Except.bind]
  split
  · refine ⟨_, _, rfl, rfl, rfl, rfl, rfl, ?_⟩
    rw [hend _ (by omega)]
    omega
  · split
    · refine ⟨_, _, rfl, ?_, ?_, ?_, rfl, ?_⟩
      · split <;> rfl
      · split <;> rfl
      · split
        · rfl
        · exact reducePrefetchPipelineStalls_opIdx _ _
      · rw [hend _ (by omega)]
        omega
    · refine ⟨_, _, rfl, rfl, rfl, rfl, rfl, ?_⟩
      rw [hend _ (by omega)]
      omega

theorem Good.schedulePrefetchDMA (h : Good p false s) (hop : opIdx ∈ p.originalOps)
    (hdata : p.dataOpIdx opIdx = true) (hnew : s.isScheduled opIdx = false) (hlt : p.spent s < 2 ^ 64)
    (hoptimal : optimalCycleEnd ≤ p.spent s) :
    ∃ s' info, p.schedulePrefetchDMA s opIdx optimalCycleEnd = .ok s' ∧ Good p false s' ∧
      s'.operationCycles = s.operationCycles ++ [info] ∧ info.opIdx = opIdx := by
  obtain ⟨s₁, info, hok, hcycles, hexec, hpipeline, rfl, hend⟩ := schedulePrefetchDMA_spec hop hlt hoptimal
  have hnew₁ : s₁.isScheduled info.opIdx = false := by
    rw [← hnew]
    unfold Pipelines.isScheduled Pipelines.cyclesOf
    rw [hcycles]
  have hcycles' : (s₁.schedulePrefetchOp info).operationCycles = s.operationCycles ++ [info] := by
    rw [← hcycles]
    exact recordCycles_eq hnew₁
  refine ⟨_, info, hok, ⟨?_, fun hfalse => by cases hfalse⟩, hcycles', rfl⟩
  apply h.1.record hnew hop hend hcycles'
  · intro kind other hother
    left
    rw [← hexec]
    exact hother
  · intro other hother
    cases mem_append.mp hother with
    | inl hold =>
      left
      rw [← hpipeline]
      exact mem_map_of_mem hold
    | inr heq =>
      rw [mem_singleton.mp heq]
      exact .inr ⟨rfl, hdata⟩

theorem Advances.spent_le (h : Advances p s s') (ht : Timed p s) (ht' : Timed p s') : p.spent s ≤ p.spent s' := by
  rw [spent_eq, spent_eq, ← sum_toFinset _ ht.nodup, ← sum_toFinset _ ht'.nodup]
  apply Finset.sum_le_sum_of_subset
  intro op hop
  obtain ⟨info, hinfo, rfl⟩ := mem_map.mp (mem_toFinset.mp hop)
  exact mem_toFinset.mpr (mem_map_of_mem (h.kept info hinfo))

theorem Advances.getCycleEndOf (h : Advances p s s') (ht : Timed p s) (ht' : Timed p s') (hs : s.isScheduled opIdx = true) :
    s'.getCycleEndOf opIdx = s.getCycleEndOf opIdx := by
  obtain ⟨info, hinfo, rfl⟩ := isScheduled_iff.mp hs
  rw [ht.getCycleEndOf_eq hinfo, ht'.getCycleEndOf_eq (h.kept info hinfo)]

structure Targeted (p : PrefetchDataOps) (defined : Bool) (s : Pipelines) (deps : List ℕ) (state : Pipelines × ℕ) : Prop where
  good : Good p defined state.1
  advances : Advances p s state.1
  target_le : state.2 ≤ p.spent state.1
  ends : ∀ dep ∈ deps, state.1.isScheduled dep = true → state.1.getCycleEndOf dep ≤ state.2

def Ready (p : PrefetchDataOps) (s : Pipelines) (dep : ℕ) : Prop :=
  dep ∈ p.originalOps ∧ (s.isScheduled dep = true ∨
    p.dataOpIdx dep = true ∧ ∀ dep' ∈ p.getOpDeps dep, s.isScheduled dep' = true)

theorem scheduleDependency_spec {defined : Bool} {deps : List ℕ} {dep : ℕ} {state : Pipelines × ℕ} (hv : ValidSchedule p)
    (hready : Ready p s dep) (h : Targeted p defined s deps state) :
    ∃ state', p.scheduleDependency defined state dep = .ok state' ∧ Targeted p defined s deps state' ∧
      state'.1.isScheduled dep = true ∧
      ∀ b, state.1.isScheduled b = true → state'.1.isScheduled b = true := by
  unfold scheduleDependency
  by_cases hs : state.1.isScheduled dep = true
  · rw [if_pos hs]
    exact ⟨state, rfl, h, hs, fun b hb => hb⟩
  have hnew : state.1.isScheduled dep = false := by simpa using hs
  obtain ⟨hop, hdata, hdeps⟩ : dep ∈ p.originalOps ∧ p.dataOpIdx dep = true ∧
      ∀ dep' ∈ p.getOpDeps dep, state.1.isScheduled dep' = true := by
    refine ⟨hready.1, ?_⟩
    cases hready.2 with
    | inl hold => exact absurd (h.advances.isScheduled hold) hs
    | inr hdata => exact ⟨hdata.1, fun dep' hdep' => h.advances.isScheduled (hdata.2 dep' hdep')⟩
  obtain ⟨s', info, hok, hgood, hcycles, hinfo⟩ : ∃ s' info,
      (if defined || p.hasDependencies dep then p.scheduleDMA state.1 dep state.2
        else p.schedulePrefetchDMA state.1 dep state.2) = .ok s' ∧ Good p defined s' ∧
        s'.operationCycles = state.1.operationCycles ++ [info] ∧ info.opIdx = dep := by
    by_cases hfifo : (defined || p.hasDependencies dep) = true
    · rw [if_pos hfifo]
      obtain ⟨s', info, hok, hgood, hcycles, hinfo, -⟩ := h.good.scheduleDMA hv hop hdata hnew hdeps h.target_le
      exact ⟨s', info, hok, hgood, hcycles, hinfo⟩
    · rw [if_neg hfifo]
      obtain rfl : defined = false := by
        cases defined with
        | false => rfl
        | true => exact absurd rfl hfifo
      exact h.good.schedulePrefetchDMA hop hdata hnew (h.good.1.spent_lt hv) h.target_le
  subst hinfo
  have hadvances : Advances p state.1 s' := Advances.record hcycles hdata
  have hmem : info ∈ s'.operationCycles := by
    rw [hcycles]
    exact mem_append_right _ (mem_singleton.mpr rfl)
  refine ⟨(s', max state.2 (s'.getCycleEndOf info.opIdx)), ?_, ?_, isScheduled_iff.mpr ⟨info, hmem, rfl⟩,
    fun b hb => hadvances.isScheduled hb⟩
  · rw [if_neg hs]
    by_cases hfifo : (defined || p.hasDependencies info.opIdx) = true
    · rw [if_pos hfifo] at hok
      simp only [if_pos hfifo, hok]
      rfl
    · rw [if_neg hfifo] at hok
      simp only [if_neg hfifo, hok]
      rfl
  · refine ⟨hgood, h.advances.trans hadvances, ?_, ?_⟩
    · exact max_le (h.target_le.trans (hadvances.spent_le h.good.1 hgood.1)) (hgood.1.getCycleEndOf_le _)
    · intro dep' hdep' hscheduled
      by_cases hold : state.1.isScheduled dep' = true
      · rw [hadvances.getCycleEndOf h.good.1 hgood.1 hold]
        exact (h.ends dep' hdep' hold).trans (le_max_left _ _)
      · obtain ⟨other, hother, rfl⟩ := isScheduled_iff.mp hscheduled
        rw [hcycles] at hother
        cases mem_append.mp hother with
        | inl hmem' => exact absurd (isScheduled_iff.mpr ⟨other, hmem', rfl⟩) hold
        | inr heq =>
          rw [mem_singleton.mp heq]
          exact le_max_right _ _

theorem scheduleDependenciesForCompute_spec {defined : Bool} {kind : ExecutorKind} (hv : ValidSchedule p)
    (h : Good p defined s) (hready : ∀ dep ∈ p.getOpDeps opIdx, Ready p s dep) :
    ∃ state, p.scheduleDependenciesForCompute defined s opIdx kind = .ok state ∧
      Targeted p defined s (p.getOpDeps opIdx) state ∧ ∀ dep ∈ p.getOpDeps opIdx, state.1.isScheduled dep = true := by
  unfold scheduleDependenciesForCompute
  refine foldlM_establishes (I := Targeted p defined s (p.getOpDeps opIdx))
    (Q := fun dep (state : Pipelines × ℕ) => state.1.isScheduled dep = true) ⟨h, Advances.refl s, ?_, ?_⟩
    (fun dep hdep state hstate => scheduleDependency_spec hv (hready dep hdep) hstate)
  · exact foldl_invariant (I := fun target => target ≤ p.spent s) (h.1.nextFreeCycle_le kind) (fun dep _ target htarget => by
      split
      · exact max_le htarget (h.1.getCycleEndOf_le dep)
      · exact htarget)
  · intro dep hdep hs
    have hmax := (@foldl_establishes ℕ ℕ (fun _ => True)
      (fun dep target => s.isScheduled dep = true → s.getCycleEndOf dep ≤ target) (p.getOpDeps opIdx)
      (nextFreeCycle (s.executorPipelineCycles kind))
      (fun target dep => if s.isScheduled dep then max target (s.getCycleEndOf dep) else target) trivial (by
        intro dep _ target _
        refine ⟨trivial, ?_, ?_⟩
        · intro hs
          rw [if_pos hs]
          exact le_max_right _ _
        · intro b hb hs
          have := hb hs
          split
          · exact this.trans (le_max_left _ _)
          · exact this)).2
    exact hmax dep hdep hs

end

end PrefetchDataOps

end NpuCompiler.Schedule
