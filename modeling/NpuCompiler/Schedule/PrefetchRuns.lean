import NpuCompiler.Schedule.PrefetchCycles

namespace NpuCompiler.Schedule

open List

open Barrier (ExecutorKind)
open Memory (addrAdd addrSub addrAdd_eq addrSub_eq)

namespace PrefetchDataOps

variable {p : PrefetchDataOps} {s s' : Pipelines} {defined : Bool} {kind : ExecutorKind} {opIdx : ℕ}

def PipelineOps (p : PrefetchDataOps) (pipeline : List CycleInfo) : Prop :=
  ∀ info ∈ pipeline, info.opIdx ∈ p.originalOps ∧ p.dataOpIdx info.opIdx = true

theorem prefetchLoop_spec (hv : ValidSchedule p) (target : ℕ) {pipeline : List CycleInfo} (hp : PipelineOps p pipeline)
    (h : Good p true s) :
    ∃ s' left, p.prefetchLoop target s pipeline = .ok (s', left) ∧ Good p true s' ∧ Advances p s s' ∧ PipelineOps p left := by
  induction pipeline generalizing s with
  | nil => exact ⟨s, [], rfl, h, Advances.refl s, hp⟩
  | cons dma dmas ih =>
    have hrest : PipelineOps p dmas := fun info hinfo => hp info (mem_cons_of_mem _ hinfo)
    obtain ⟨hop, hdata⟩ := hp dma mem_cons_self
    unfold prefetchLoop
    by_cases hdeps : p.dependenciesScheduled s dma.opIdx = true
    swap
    · obtain ⟨s', left, hok, hgood, hadvances, hleft⟩ := ih hrest h
      refine ⟨s', dma :: left, ?_, hgood, hadvances, ?_⟩
      · rw [if_pos hdeps, hok]
        rfl
      · intro info hinfo
        cases mem_cons.mp hinfo with
        | inl heq =>
          rw [heq]
          exact ⟨hop, hdata⟩
        | inr hmem => exact hleft info hmem
    rw [if_neg (not_not.mpr hdeps)]
    by_cases hs : s.isScheduled dma.opIdx = true
    · rw [if_pos hs]
      exact ih hrest h
    rw [if_neg hs]
    by_cases hbegin : dma.cycleBegin > target
    · rw [if_pos hbegin]
      exact ⟨s, _, rfl, h, Advances.refl s, hp⟩
    rw [if_neg hbegin]
    have hdeps' : ∀ dep ∈ p.getOpDeps dma.opIdx, s.isScheduled dep = true := all_eq_true.mp hdeps
    obtain ⟨s₁, info, hok, hgood, hcycles, hinfo, -⟩ :=
      h.scheduleDMA hv hop hdata (by simpa using hs) hdeps' (Nat.zero_le _)
    obtain ⟨s', left, hok', hgood', hadvances', hleft⟩ := ih hrest hgood
    refine ⟨s', left, ?_, hgood', (Advances.record hcycles (by rwa [hinfo])).trans hadvances', hleft⟩
    rw [hok]
    exact hok'

theorem prefetchDataOps_spec (hv : ValidSchedule p) (target : ℕ) (h : Good p true s) :
    ∃ s', p.prefetchDataOps s target = .ok s' ∧ Good p true s' ∧ Advances p s s' := by
  obtain ⟨s', left, hok, hgood, hadvances, hleft⟩ := prefetchLoop_spec hv target h.1.prefetch h
  refine ⟨{ s' with prefetchPipeline := left }, ?_, ⟨?_, fun _ => ?_⟩, hadvances.kept, hadvances.added⟩
  · unfold prefetchDataOps
    rw [hok]
    rfl
  · exact ⟨hgood.1.nodup, hgood.1.known, hgood.1.ends, hgood.1.fifo, hleft⟩
  · exact ⟨(hgood.2 rfl).fits, (hgood.2 rfl).deps, (hgood.2 rfl).kinds⟩

/-- What the scheduling of a compute operation leaves: the operation itself and data operations are added. -/
structure Scheduled (p : PrefetchDataOps) (defined : Bool) (opIdx : ℕ) (s s' : Pipelines) : Prop where
  good : Good p defined s'
  kept : ∀ info ∈ s.operationCycles, info ∈ s'.operationCycles
  added : ∀ info ∈ s'.operationCycles, info ∈ s.operationCycles ∨ p.dataOpIdx info.opIdx = true ∨ info.opIdx = opIdx
  scheduled : s'.isScheduled opIdx = true

theorem Advances.scheduleOp {s₁ : Pipelines} {begin_ : ℕ} (hv : ValidSchedule p) (hadvances : Advances p s s₁)
    (hgood : Good p defined s₁) (hop : opIdx ∈ p.originalOps) (hnew : s₁.isScheduled opIdx = false)
    (hkind : ∃ op ∈ p.scheduledOps, op.isOriginalOp = true ∧ op.op = opIdx ∧ op.execKind = kind)
    (hbegin : begin_ ≤ p.spent s₁)
    (hdeps : ∀ dep ∈ p.getOpDeps opIdx, ∃ d ∈ s₁.operationCycles, d.opIdx = dep ∧ d.getCycleEnd ≤ begin_) :
    Scheduled p defined opIdx s (s₁.scheduleOp (.of opIdx begin_ (p.cost opIdx) kind)) := by
  have hroom := hgood.1.spent_add_lt hv hop hnew
  have hcost : p.cost opIdx % 2 ^ 64 = p.cost opIdx := Nat.mod_eq_of_lt (cost_lt opIdx)
  have hend : (CycleInfo.of opIdx begin_ (p.cost opIdx) kind).getCycleEnd = begin_ + p.cost opIdx := by
    simp only [CycleInfo.getCycleEnd, CycleInfo.of, hcost]
    exact addrAdd_eq (by omega)
  have hcycles : (s₁.scheduleOp (.of opIdx begin_ (p.cost opIdx) kind)).operationCycles =
      s₁.operationCycles ++ [.of opIdx begin_ (p.cost opIdx) kind] := recordCycles_eq hnew
  have hmem : CycleInfo.of opIdx begin_ (p.cost opIdx) kind ∈
      (s₁.scheduleOp (.of opIdx begin_ (p.cost opIdx) kind)).operationCycles := by
    rw [hcycles]
    exact mem_append_right _ (mem_singleton.mpr rfl)
  constructor
  · refine ⟨hgood.1.scheduleOp hnew hop ?_ ?_, fun hdefined => (hgood.2 hdefined).scheduleOp hnew hcost hbegin hdeps hkind⟩
    · rw [hend]
      exact Nat.add_le_add_right hbegin _
    · rw [hend]
      exact Nat.le_add_left _ _
  · intro info hinfo
    rw [hcycles]
    exact mem_append_left _ (hadvances.kept info hinfo)
  · intro info hinfo
    rw [hcycles] at hinfo
    cases mem_append.mp hinfo with
    | inl hold => exact (hadvances.added info hold).imp id Or.inl
    | inr heq =>
      rw [mem_singleton.mp heq]
      exact .inr (.inr rfl)
  · exact isScheduled_iff.mpr ⟨_, hmem, rfl⟩

theorem Advances.not_isScheduled (h : Advances p s s') (hnew : s.isScheduled opIdx = false)
    (hdata : p.dataOpIdx opIdx = false) : s'.isScheduled opIdx = false := by
  rw [Bool.eq_false_iff]
  intro hs
  obtain ⟨info, hinfo, rfl⟩ := isScheduled_iff.mp hs
  cases h.added info hinfo with
  | inl hold =>
    rw [isScheduled_iff.mpr ⟨info, hold, rfl⟩] at hnew
    cases hnew
  | inr hdata' =>
    rw [hdata'] at hdata
    cases hdata

theorem scheduleComputeOperation_spec (hv : ValidSchedule p) (h : Good p defined s) (hop : opIdx ∈ p.originalOps)
    (hdata : p.dataOpIdx opIdx = false) (hnew : s.isScheduled opIdx = false)
    (hkind : ∃ op ∈ p.scheduledOps, op.isOriginalOp = true ∧ op.op = opIdx ∧ op.execKind = kind)
    (hready : ∀ dep ∈ p.getOpDeps opIdx, Ready p s dep) :
    ∃ s', p.scheduleComputeOperation defined s opIdx kind = .ok s' ∧ Scheduled p defined opIdx s s' := by
  obtain ⟨⟨s₁, target⟩, hok, htargeted, hdeps⟩ := scheduleDependenciesForCompute_spec hv h hready
  have hgood : Good p defined s₁ := htargeted.good
  have htarget : target ≤ p.spent s₁ := htargeted.target_le
  have hdeps₁ : ∀ dep ∈ p.getOpDeps opIdx, ∃ d ∈ s₁.operationCycles, d.opIdx = dep ∧ d.getCycleEnd ≤ target :=
    exists_scheduled hgood.1 hdeps (fun dep hdep => htargeted.ends dep hdep (hdeps dep hdep))
  have hnew₁ : s₁.isScheduled opIdx = false := htargeted.advances.not_isScheduled hnew hdata
  unfold scheduleComputeOperation
  rw [hok, getOperationCycleCost_ok hop]
  simp only [bind, Except.bind]
  by_cases hprefetch : (defined && decide (kind ≠ .dmaNN)) = true
  · rw [if_pos hprefetch]
    obtain ⟨rfl, -⟩ := Bool.and_eq_true_iff.mp hprefetch
    obtain ⟨s₂, hok₂, hgood₂, hadvances₂⟩ := prefetchDataOps_spec hv (addrAdd target (p.cost opIdx)) hgood
    rw [hok₂]
    have hnew₂ : s₂.isScheduled opIdx = false := hadvances₂.not_isScheduled hnew₁ hdata
    have hroom := hgood₂.1.spent_add_lt hv hop hnew₂
    have hspent := hadvances₂.spent_le hgood.1 hgood₂.1
    have hnext := hgood₂.1.nextFreeCycle_le .dmaNN
    have hadd : addrAdd target (p.cost opIdx) = target + p.cost opIdx := addrAdd_eq (by omega)
    refine ⟨_, rfl, ?_⟩
    rw [hadd]
    rw [addrSub_eq (by omega) (by omega)]
    apply (htargeted.advances.trans hadvances₂).scheduleOp hv hgood₂ hop hnew₂ hkind (by omega)
    intro dep hdep
    obtain ⟨d, hd, heq, hend⟩ := hdeps₁ dep hdep
    exact ⟨d, hadvances₂.kept d hd, heq, by omega⟩
  · rw [if_neg hprefetch]
    exact ⟨_, rfl, htargeted.advances.scheduleOp hv hgood hop hnew₁ hkind htarget hdeps₁⟩

def originalIn (ops : List ScheduledOpInfo) : List ℕ := (ops.filter (·.isOriginalOp)).map ScheduledOpInfo.op

structure Performed (p : PrefetchDataOps) (defined : Bool) (done : List ScheduledOpInfo) (s : Pipelines) : Prop where
  good : Good p defined s
  scheduled : ∀ op ∈ originalIn done, p.dataOpIdx op = true ∨ s.isScheduled op = true
  known : ∀ info ∈ s.operationCycles, p.dataOpIdx info.opIdx = true ∨ info.opIdx ∈ originalIn done

theorem dataOpIdx_eq (hv : ValidSchedule p) {op : ScheduledOpInfo} (hop : op ∈ p.scheduledOps) :
    p.dataOpIdx op.op = op.isDataOp := by
  cases hdata : op.isDataOp with
  | true =>
    apply any_eq_true.mpr
    refine ⟨op, hop, ?_⟩
    rw [hdata, hv.data_kind op hop hdata]
    simp
  | false =>
    rw [Bool.eq_false_iff]
    intro h
    obtain ⟨other, hother, hcond⟩ := any_eq_true.mp h
    simp only [Bool.and_eq_true, decide_eq_true_eq] at hcond
    rw [hv.data_same other hother op hop hcond.1.1, hdata] at hcond
    cases hcond.2

theorem Performed.ready (hv : ValidSchedule p) {done rest : List ScheduledOpInfo} {op : ScheduledOpInfo}
    (hsplit : p.scheduledOps = done ++ op :: rest) (horig : op.isOriginalOp = true) (h : Performed p defined done s) :
    ∀ dep ∈ p.getOpDeps op.op, Ready p s dep := by
  have hfilter : p.scheduledOps.filter (·.isOriginalOp) =
      done.filter (·.isOriginalOp) ++ op :: rest.filter (·.isOriginalOp) := by
    rw [hsplit, filter_append, filter_cons_of_pos horig]
  intro dep hdep
  have hbefore : dep ∈ originalIn done := hv.deps_before _ _ _ hfilter dep hdep
  have horiginal (x : ℕ) (hx : x ∈ originalIn done) : x ∈ p.originalOps := by
    unfold originalOps
    rw [hfilter, map_append]
    exact mem_append_left _ hx
  refine ⟨horiginal dep hbefore, ?_⟩
  cases h.scheduled dep hbefore with
  | inr hs => exact .inl hs
  | inl hdata =>
    refine .inr ⟨hdata, ?_⟩
    intro dep' hdep'
    -- the dependencies of the data operation stand before it
    obtain ⟨entry, hentry, rfl⟩ := mem_map.mp hbefore
    obtain ⟨before, after, hdone⟩ := append_of_mem hentry
    have hbefore' : dep' ∈ originalIn done := by
      unfold originalIn
      rw [hdone, map_append]
      apply mem_append_left
      apply hv.deps_before before entry (after ++ op :: rest.filter (·.isOriginalOp)) _ dep' hdep'
      rw [hfilter, hdone, append_assoc]
      rfl
    cases h.scheduled dep' hbefore' with
    | inr hs => exact hs
    | inl hdata' =>
      rw [hv.data_deps _ (horiginal _ hbefore) hdata dep' hdep'] at hdata'
      cases hdata'

theorem originalIn_append (done : List ScheduledOpInfo) (op : ScheduledOpInfo) :
    originalIn (done ++ [op]) = originalIn done ++ if op.isOriginalOp then [op.op] else [] := by
  unfold originalIn
  rw [filter_append, map_append]
  cases horig : op.isOriginalOp with
  | true => simp [horig]
  | false => simp [horig]

theorem Performed.step (hv : ValidSchedule p) {done rest : List ScheduledOpInfo} {op : ScheduledOpInfo}
    (hsplit : p.scheduledOps = done ++ op :: rest) (h : Performed p defined done s) :
    ∃ s', p.performStep defined s op = .ok s' ∧ Performed p defined (done ++ [op]) s' := by
  have hmem : op ∈ p.scheduledOps := by
    rw [hsplit]
    exact mem_append_right _ mem_cons_self
  have hdataOp := dataOpIdx_eq hv hmem
  unfold performStep
  cases horig : op.isOriginalOp with
  | false =>
    refine ⟨s, rfl, h.good, ?_, ?_⟩
    · rw [originalIn_append, horig, if_neg Bool.false_ne_true, append_nil]
      exact h.scheduled
    · rw [originalIn_append, horig, if_neg Bool.false_ne_true, append_nil]
      exact h.known
  | true =>
  rw [if_neg (by decide)]
  have hdone : originalIn (done ++ [op]) = originalIn done ++ [op.op] := by rw [originalIn_append, horig]; rfl
  by_cases hskip : (op.isDataOp || (defined && s.isScheduled op.op)) = true
  · rw [if_pos hskip]
    refine ⟨s, rfl, h.good, ?_, ?_⟩
    · rw [hdone]
      intro x hx
      cases mem_append.mp hx with
      | inl hold => exact h.scheduled x hold
      | inr heq =>
        rw [mem_singleton.mp heq]
        cases Bool.or_eq_true_iff.mp hskip with
        | inl hdata => exact .inl (by rw [hdataOp, hdata])
        | inr hs => exact .inr (Bool.and_eq_true_iff.mp hs).2
    · intro info hinfo
      rw [hdone]
      exact (h.known info hinfo).imp id (mem_append_left _)
  · rw [if_neg hskip]
    have hdata : p.dataOpIdx op.op = false := by
      rw [hdataOp, Bool.eq_false_iff]
      exact fun hdata => hskip (by rw [hdata]; rfl)
    have hfilter : p.originalOps = originalIn done ++ op.op :: originalIn rest := by
      unfold originalOps originalIn
      rw [hsplit, filter_append, filter_cons_of_pos horig, map_append, map_cons]
    have hnew : s.isScheduled op.op = false := by
      rw [Bool.eq_false_iff]
      intro hs
      obtain ⟨info, hinfo, heq⟩ := isScheduled_iff.mp hs
      cases h.known info hinfo with
      | inl hdata' =>
        rw [heq, hdata] at hdata'
        cases hdata'
      | inr hbefore =>
        have hnodup := hv.nodup
        rw [hfilter, nodup_append] at hnodup
        rw [heq] at hbefore
        exact hnodup.2.2 _ hbefore _ mem_cons_self rfl
    have hop : op.op ∈ p.originalOps := by
      rw [hfilter]
      exact mem_append_right _ mem_cons_self
    obtain ⟨s', hok, hs'⟩ := scheduleComputeOperation_spec hv h.good hop hdata hnew ⟨op, hmem, horig, rfl, rfl⟩
      (h.ready hv hsplit horig)
    refine ⟨s', hok, hs'.good, ?_, ?_⟩
    · rw [hdone]
      intro x hx
      cases mem_append.mp hx with
      | inl hold =>
        cases h.scheduled x hold with
        | inl hdata' => exact .inl hdata'
        | inr hs =>
          obtain ⟨info, hinfo, heq⟩ := isScheduled_iff.mp hs
          exact .inr (isScheduled_iff.mpr ⟨info, hs'.kept info hinfo, heq⟩)
      | inr heq =>
        rw [mem_singleton.mp heq]
        exact .inr hs'.scheduled
    · intro info hinfo
      rw [hdone]
      cases hs'.added info hinfo with
      | inl hold => exact (h.known info hold).imp id (mem_append_left _)
      | inr hadded =>
        cases hadded with
        | inl hdata' => exact .inl hdata'
        | inr heq => exact .inr (mem_append_right _ (mem_singleton.mpr heq))

theorem performCycleScheduling_spec (hv : ValidSchedule p) (h : Good p defined s) (hempty : s.operationCycles = []) :
    ∃ s', p.performCycleScheduling defined s = .ok s' ∧ Performed p defined p.scheduledOps s' := by
  suffices hrun : ∀ (rest done : List ScheduledOpInfo) (s : Pipelines), p.scheduledOps = done ++ rest →
      Performed p defined done s →
      ∃ s', rest.foldlM (p.performStep defined) s = .ok s' ∧ Performed p defined p.scheduledOps s' by
    refine hrun p.scheduledOps [] s rfl ⟨h, fun op hop => absurd hop not_mem_nil, fun info hinfo => ?_⟩
    rw [hempty] at hinfo
    exact absurd hinfo not_mem_nil
  intro rest
  induction rest with
  | nil =>
    intro done s hsplit hdone
    rw [append_nil] at hsplit
    rw [hsplit]
    exact ⟨s, rfl, hdone⟩
  | cons op rest ih =>
    intro done s hsplit hdone
    obtain ⟨s₁, hok, hs₁⟩ := hdone.step hv hsplit
    obtain ⟨s', hok', hs'⟩ := ih (done ++ [op]) s₁ (by rw [hsplit, append_assoc]; rfl) hs₁
    refine ⟨s', ?_, hs'⟩
    rw [foldlM_cons, hok]
    exact hok'

def DmaOps (p : PrefetchDataOps) (dma : List CycleInfo) : Prop :=
  ∀ info ∈ dma, info.opIdx ∈ p.originalOps ∧ (p.dataOpIdx info.opIdx = true → 0 < info.getCycleEnd)

theorem PipelineOps.append {pipeline : List CycleInfo} {info : CycleInfo} (h : PipelineOps p pipeline)
    (hop : info.opIdx ∈ p.originalOps) (hdata : p.dataOpIdx info.opIdx = true) (dmaFIFORev : ℕ) :
    PipelineOps p (pipeline ++ [optimalCycles dmaFIFORev info]) := by
  intro other hother
  cases mem_append.mp hother with
  | inl hold => exact h other hold
  | inr heq =>
    rw [mem_singleton.mp heq]
    exact ⟨hop, hdata⟩

theorem mergePipelines_spec (pipeline : List CycleInfo) (dmaFIFORev : ℕ) (dma prefetch : List CycleInfo)
    (hp : PipelineOps p pipeline) (hdma : DmaOps p dma) (hprefetch : PipelineOps p prefetch) :
    ∃ merged, p.mergePipelines pipeline dmaFIFORev dma prefetch = .ok merged ∧ PipelineOps p merged := by
  induction pipeline, dmaFIFORev, dma, prefetch using mergePipelines.induct p with
  | case1 pipeline dmaFIFORev => exact ⟨pipeline, by rw [mergePipelines]; rfl, hp⟩
  | case2 pipeline dmaFIFORev front prefetch ih =>
    obtain ⟨hop, hdata⟩ := hprefetch front mem_cons_self
    rw [mergePipelines]
    exact ih (hp.append hop hdata _) hdma (fun info hinfo => hprefetch info (mem_cons_of_mem _ hinfo))
  | case3 pipeline dmaFIFORev dmaFront dma h ih =>
    rw [mergePipelines, if_pos h]
    exact ih hp (fun info hinfo => hdma info (mem_cons_of_mem _ hinfo)) hprefetch
  | case4 pipeline dmaFIFORev dmaFront dma h hzero =>
    exact absurd hzero ((hdma dmaFront mem_cons_self).2 (not_not.mp h)).ne'
  | case5 pipeline dmaFIFORev dmaFront dma h hzero ih =>
    rw [mergePipelines, if_neg h, if_neg hzero]
    exact ih (hp.append (hdma dmaFront mem_cons_self).1 (not_not.mp h) _)
      (fun info hinfo => hdma info (mem_cons_of_mem _ hinfo)) hprefetch
  | case6 pipeline dmaFIFORev dmaFront dma front prefetch h ih =>
    rw [mergePipelines, if_pos h]
    exact ih hp (fun info hinfo => hdma info (mem_cons_of_mem _ hinfo)) hprefetch
  | case7 pipeline dmaFIFORev dmaFront dma front prefetch h hfirst ih =>
    obtain ⟨hop, hdata⟩ := hprefetch front mem_cons_self
    rw [mergePipelines, if_neg h, if_pos hfirst]
    exact ih (hp.append hop hdata _) hdma (fun info hinfo => hprefetch info (mem_cons_of_mem _ hinfo))
  | case8 pipeline dmaFIFORev dmaFront dma front prefetch h hfirst ih =>
    rw [mergePipelines, if_neg h, if_neg hfirst]
    exact ih (hp.append (hdma dmaFront mem_cons_self).1 (not_not.mp h) _)
      (fun info hinfo => hdma info (mem_cons_of_mem _ hinfo)) hprefetch

theorem mergePipelines_ends {pipeline dma prefetch merged : List CycleInfo} {dmaFIFORev : ℕ}
    (h : p.mergePipelines pipeline dmaFIFORev dma prefetch = .ok merged) :
    ∀ info ∈ dma, p.dataOpIdx info.opIdx = true → 0 < info.getCycleEnd := by
  have hcons {front : CycleInfo} {dma : List CycleInfo} (hfront : p.dataOpIdx front.opIdx = true → 0 < front.getCycleEnd)
      (hdma : ∀ info ∈ dma, p.dataOpIdx info.opIdx = true → 0 < info.getCycleEnd) :
      ∀ info ∈ front :: dma, p.dataOpIdx info.opIdx = true → 0 < info.getCycleEnd := forall_mem_cons.mpr ⟨hfront, hdma⟩
  induction pipeline, dmaFIFORev, dma, prefetch using mergePipelines.induct p with
  | case1 => exact fun info hinfo => absurd hinfo not_mem_nil
  | case2 => exact fun info hinfo => absurd hinfo not_mem_nil
  | case3 pipeline dmaFIFORev dmaFront dma hdata ih =>
    rw [mergePipelines, if_pos hdata] at h
    exact hcons (fun hdata' => absurd hdata' hdata) (ih h)
  | case4 pipeline dmaFIFORev dmaFront dma hdata hzero =>
    rw [mergePipelines, if_neg hdata, if_pos hzero] at h
    cases h
  | case5 pipeline dmaFIFORev dmaFront dma hdata hzero ih =>
    rw [mergePipelines, if_neg hdata, if_neg hzero] at h
    exact hcons (fun _ => Nat.pos_of_ne_zero hzero) (ih h)
  | case6 pipeline dmaFIFORev dmaFront dma front prefetch hdata ih =>
    rw [mergePipelines, if_pos hdata] at h
    exact hcons (fun hdata' => absurd hdata' hdata) (ih h)
  | case7 pipeline dmaFIFORev dmaFront dma front prefetch hdata hfirst ih =>
    rw [mergePipelines, if_neg hdata, if_pos hfirst] at h
    exact ih h
  | case8 pipeline dmaFIFORev dmaFront dma front prefetch hdata hfirst ih =>
    rw [mergePipelines, if_neg hdata, if_neg hfirst] at h
    exact hcons (fun _ => Nat.zero_lt_of_lt (not_le.mp hfirst)) (ih h)

theorem createDataOpPipeline_spec (h : Timed p s)
    (hends : ∀ info ∈ s.executorPipelineCycles .dmaNN, p.dataOpIdx info.opIdx = true → 0 < info.getCycleEnd) :
    ∃ s', p.createDataOpPipeline s = .ok s' ∧ Good p true s' ∧ s'.operationCycles = [] := by
  have hdma : DmaOps p (s.executorPipelineCycles .dmaNN).reverse := by
    intro info hinfo
    have hmem := mem_reverse.mp hinfo
    exact ⟨(h.fifo .dmaNN info hmem).1, hends info hmem⟩
  obtain ⟨merged, hok, hmerged⟩ := mergePipelines_spec [] (2 ^ 64 - 1) (s.executorPipelineCycles .dmaNN).reverse
    s.prefetchPipeline.reverse (fun info hinfo => absurd hinfo not_mem_nil) hdma
    (fun info hinfo => h.prefetch info (mem_reverse.mp hinfo))
  unfold createDataOpPipeline
  rw [hok]
  refine ⟨_, rfl, ⟨?_, fun _ => ?_⟩, rfl⟩
  · exact ⟨nodup_nil, fun info hinfo => absurd hinfo not_mem_nil,
      fun info hinfo => absurd hinfo not_mem_nil, fun kind info hinfo => absurd hinfo not_mem_nil,
      fun info hinfo => hmerged info (mem_reverse.mp hinfo)⟩
  · exact ⟨fun info hinfo => absurd hinfo not_mem_nil, fun info hinfo => absurd hinfo not_mem_nil,
      fun info hinfo => absurd hinfo not_mem_nil⟩

theorem good_empty : Good p false .empty :=
  ⟨⟨nodup_nil, fun info hinfo => absurd hinfo not_mem_nil, fun info hinfo => absurd hinfo not_mem_nil,
    fun kind info hinfo => absurd hinfo not_mem_nil, fun info hinfo => absurd hinfo not_mem_nil⟩,
    fun hfalse => by cases hfalse⟩

/-- In the first scheduling no data operation ends in cycle 0 on the FIFO of the compute DMAs. -/
def DmaFifoEnds (p : PrefetchDataOps) : Prop :=
  ∀ s, p.performCycleScheduling false .empty = .ok s →
    ∀ info ∈ s.executorPipelineCycles .dmaNN, p.dataOpIdx info.opIdx = true → 0 < info.getCycleEnd

theorem dmaFifoEnds_of_ok (h : p.cycleSchedules = .ok s) : DmaFifoEnds p := by
  intro s₁ hs₁ info hinfo
  unfold cycleSchedules at h
  obtain ⟨s₁', hs₁', h⟩ := bind_eq_ok.mp h
  obtain rfl : s₁ = s₁' := Except.ok.inj (hs₁.symm.trans hs₁')
  obtain ⟨s₂, hs₂, -⟩ := bind_eq_ok.mp h
  obtain ⟨pipeline, hpipeline, -⟩ := bind_eq_ok.mp hs₂
  exact mergePipelines_ends hpipeline info (mem_reverse.mpr hinfo)

theorem cycleSchedules_spec (hv : ValidSchedule p) (hends : DmaFifoEnds p) :
    ∃ s, p.cycleSchedules = .ok s ∧ Timed p s ∧ Ordered p s ∧ ∀ op ∈ p.originalOps, s.isScheduled op = true := by
  obtain ⟨s₁, hok₁, hs₁⟩ := performCycleScheduling_spec hv good_empty rfl
  obtain ⟨s₂, hok₂, hgood₂, hempty⟩ := createDataOpPipeline_spec hs₁.good.1 (hends s₁ hok₁)
  obtain ⟨s₃, hok₃, hs₃⟩ := performCycleScheduling_spec hv hgood₂ hempty
  have hordered : Ordered p s₃ := hs₃.good.2 rfl
  refine ⟨s₃, ?_, hs₃.good.1, hordered, ?_⟩
  · unfold cycleSchedules
    simp only [hok₁, hok₂, hok₃, bind, Except.bind]
  intro op hop
  cases hs₃.scheduled op hop with
  | inr hs => exact hs
  | inl hdata =>
    obtain ⟨user, huser, hdep⟩ := hv.data_used op hop hdata
    cases hs₃.scheduled user huser with
    | inl hdata' =>
      rw [hv.data_deps user huser hdata' op hdep] at hdata
      cases hdata
    | inr hs =>
      obtain ⟨info, hinfo, rfl⟩ := isScheduled_iff.mp hs
      obtain ⟨d, hd, rfl, -⟩ := hordered.deps info hinfo op hdep
      exact isScheduled_iff.mpr ⟨d, hd, rfl⟩

end PrefetchDataOps

end NpuCompiler.Schedule
