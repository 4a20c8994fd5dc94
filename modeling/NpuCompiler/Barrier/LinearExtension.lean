import Mathlib.Data.Fintype.Order
import NpuCompiler.Barrier.TaskOrderRun

namespace NpuCompiler.Barrier

open List SmallSet

def Before (queues : TaskOpQueues) (info : BarrierInfo) (t t' : ℕ) : Prop :=
  (∃ queue ∈ queues, [t, t'].Sublist queue) ∨ ∃ b, t ∈ info.getBarrierProducers b ∧ t' ∈ info.getBarrierConsumers b

structure Running (orderByConsumption : Bool) (info : BarrierInfo) (queues fronts : TaskOpQueues) (sim : Simulation) :
    Prop where
  executed : Executed orderByConsumption info sim.newTaskOpOrder sim
  advanced : List.Forall₂ (Advanced sim.newTaskOpOrder) queues fronts
  perm : (sim.newTaskOpOrder ++ fronts.flatten).Perm queues.flatten
  linear : ∀ b p c, p ∈ info.getBarrierProducers b → c ∈ info.getBarrierConsumers b → c ∈ sim.newTaskOpOrder →
    [p, c].Sublist sim.newTaskOpOrder
  produced : ∀ b c, c ∈ info.getBarrierConsumers b → c ∈ sim.newTaskOpOrder → Produced info sim.newTaskOpOrder b

section
variable {orderByConsumption : Bool} {info : BarrierInfo} {queues fronts : TaskOpQueues} {sim : Simulation}

theorem running_start (h : info.Consistent) (queues : TaskOpQueues) :
    Running orderByConsumption info queues queues ⟨info, [], []⟩ :=
  ⟨executed_nil h, advanced_refl queues, .refl _, by simp, by simp⟩

theorem allQueuesReachedEnd_iff : allQueuesReachedEnd fronts = true ↔ fronts.flatten = [] := by
  unfold allQueuesReachedEnd
  simp

theorem Executed.produced_of_ready {executed : List ℕ} {b c : ℕ} (h : Executed orderByConsumption info executed sim)
    (hready : (sim.info.getWaitBarriers c).size = 0) (hc : c ∈ info.getBarrierConsumers b) :
    Produced info executed b := by
  by_contra hproduced
  have hwait : b ∈ sim.info.getWaitBarriers c := by
    rw [h.consistent.wait_iff, h.consumers]
    exact ⟨hc, hproduced⟩
  exact size_eq_zero.mp hready b hwait

theorem Running.round (h : Running orderByConsumption info queues fronts sim) (hnodup : queues.flatten.Nodup)
    {found : List ℕ × TaskOpQueues} (hfound : FoundReady sim.info fronts found) :
    Running orderByConsumption info queues found.2 (found.1.foldl (executeReadyOp orderByConsumption) sim) := by
  obtain ⟨hexecuted, hadvanced, hperm, hlinear, hproduced⟩ := h
  obtain ⟨hfoundAdvanced, hfoundPerm, hready, -⟩ := hfound
  have hall : (sim.newTaskOpOrder ++ found.1 ++ found.2.flatten).Perm queues.flatten := by
    rw [append_assoc]
    exact (hfoundPerm.append_left _).trans hperm
  have hnodup' : (sim.newTaskOpOrder ++ found.1).Nodup := (hall.nodup_iff.mpr hnodup).of_append_left
  obtain ⟨hrun, horder⟩ := hexecuted.foldl found.1 rfl hnodup'
  have hnew : ∀ b c, c ∈ info.getBarrierConsumers b → c ∈ sim.newTaskOpOrder ++ found.1 →
      c ∉ sim.newTaskOpOrder → Produced info sim.newTaskOpOrder b ∧ c ∈ found.1 := by
    intro b c hc hmem hfresh
    have hmem' := (mem_append.mp hmem).resolve_left hfresh
    exact ⟨hexecuted.produced_of_ready (hready c hmem') hc, hmem'⟩
  refine ⟨?_, ?_, ?_, ?_, ?_⟩
  · rwa [horder]
  · rw [horder]
    exact advanced_append hadvanced hfoundAdvanced
  · rwa [horder]
  · intro b p c hp hc hmem
    rw [horder] at hmem ⊢
    by_cases hold : c ∈ sim.newTaskOpOrder
    · exact (hlinear b p c hp hc hold).trans (sublist_append_left _ _)
    · obtain ⟨hbefore, hmem'⟩ := hnew b c hc hmem hold
      have hpair := (singleton_sublist.mpr (hbefore.2 p hp)).append (singleton_sublist.mpr hmem')
      exact hpair
  · intro b c hc hmem
    rw [horder] at hmem ⊢
    by_cases hold : c ∈ sim.newTaskOpOrder
    · exact (hproduced b c hc hold).append _
    · exact (hnew b c hc hmem hold).1.append _

theorem eq_of_advanced_nil {rests : TaskOpQueues} (h : List.Forall₂ (Advanced []) fronts rests) : rests = fronts := by
  induction h with
  | nil => rfl
  | cons hqueue _ ih =>
    obtain ⟨tasks, rfl, hsub⟩ := hqueue
    rw [sublist_nil.mp hsub, ih]
    rfl

theorem simulate_spec (hnodup : queues.flatten.Nodup) (fuel : ℕ) {fronts : TaskOpQueues} {sim : Simulation}
    (h : Running orderByConsumption info queues fronts sim) (hfuel : fronts.flatten.length < fuel) :
    (∃ sim' fronts', simulate orderByConsumption fuel fronts sim = .ok sim' ∧
      Running orderByConsumption info queues fronts' sim' ∧ fronts'.flatten = []) ∨
    (∃ message sim' fronts', simulate orderByConsumption fuel fronts sim = .error message ∧
      Running orderByConsumption info queues fronts' sim' ∧ fronts'.flatten ≠ [] ∧
        allQueuesWaiting sim'.info fronts' = true) := by
  induction fuel generalizing fronts sim with
  | zero => exact absurd hfuel (Nat.not_lt_zero _)
  | succ fuel ih =>
    rw [simulate]
    by_cases hend : allQueuesReachedEnd fronts = true
    · rw [if_pos hend]
      exact .inl ⟨sim, fronts, rfl, h, allQueuesReachedEnd_iff.mp hend⟩
    · have hfound := @findReadyOps_spec sim.info fronts.flatten.length fronts (le_refl _)
      change FoundReady sim.info fronts (findReadyOpsFromTaskOpQueues sim.info fronts) at hfound
      rw [if_neg hend]
      generalize findReadyOpsFromTaskOpQueues sim.info fronts = found at hfound
      by_cases hnone : found.1 = []
      · have hadvanced := hfound.advanced
        have hwaiting := hfound.waiting
        rw [hnone] at hadvanced
        rw [eq_of_advanced_nil hadvanced] at hwaiting
        refine .inr ⟨_, sim, fronts, if_pos hnone, h, fun hnil => hend (allQueuesReachedEnd_iff.mpr hnil), hwaiting⟩
      · have hlength := hfound.perm.length_eq
        have hpos := length_pos_of_ne_nil hnone
        rw [length_append] at hlength
        have hnext := ih (h.round hnodup hfound) (by omega)
        simp only [hnone, if_false]
        exact hnext

end

def Deadlock (queues : TaskOpQueues) (info : BarrierInfo) : Prop := ∃ t, Relation.TransGen (Before queues info) t t

def Unproduced (info : BarrierInfo) : Prop :=
  ∃ b c, c ∈ info.getBarrierConsumers b ∧ ∀ p, ¬ p ∈ info.getBarrierProducers b

section
variable {orderByConsumption : Bool} {info : BarrierInfo} {queues fronts : TaskOpQueues} {sim : Simulation}

theorem exists_queue {order : List ℕ} {front : List ℕ} (h : List.Forall₂ (Advanced order) queues fronts)
    (hfront : front ∈ fronts) : ∃ queue ∈ queues, Advanced order queue front := by
  induction h with
  | nil => exact absurd hfront not_mem_nil
  | cons hqueue _ ih =>
    cases mem_cons.mp hfront with
    | inl heq =>
      rw [heq]
      exact ⟨_, mem_cons_self .., hqueue⟩
    | inr hmem =>
      obtain ⟨queue, hmem', hadvanced⟩ := ih hmem
      exact ⟨queue, mem_cons_of_mem _ hmem', hadvanced⟩

theorem exists_front {order queue : List ℕ} (h : List.Forall₂ (Advanced order) queues fronts) (hqueue : queue ∈ queues) :
    ∃ front ∈ fronts, Advanced order queue front := by
  induction h with
  | nil => exact absurd hqueue not_mem_nil
  | cons hfirst _ ih =>
    cases mem_cons.mp hqueue with
    | inl heq =>
      rw [heq]
      exact ⟨_, mem_cons_self .., hfirst⟩
    | inr hmem =>
      obtain ⟨front, hmem', hadvanced⟩ := ih hmem
      exact ⟨front, mem_cons_of_mem _ hmem', hadvanced⟩

theorem Running.before_of_front (h : Running orderByConsumption info queues fronts sim) {t t' : ℕ} {rest : List ℕ}
    (hfront : t :: rest ∈ fronts) (ht : t' ∈ rest) : Before queues info t t' := by
  obtain ⟨queue, hqueue, tasks, rfl, -⟩ := exists_queue h.advanced hfront
  refine .inl ⟨_, hqueue, ?_⟩
  have hpair : [t, t'].Sublist (t :: rest) := (singleton_sublist.mpr ht).cons_cons t
  exact hpair.trans (sublist_append_right tasks _)

theorem Running.before_front (h : Running orderByConsumption info queues fronts sim)
    (htasks : ∀ b p, p ∈ info.getBarrierProducers b → p ∈ queues.flatten) (hproduced : ¬ Unproduced info)
    (hwaiting : allQueuesWaiting sim.info fronts = true) {t : ℕ} {rest : List ℕ} (hfront : t :: rest ∈ fronts) :
    ∃ t' rest', t' :: rest' ∈ fronts ∧ Relation.TransGen (Before queues info) t' t := by
  have hsize : (sim.info.getWaitBarriers t).size ≠ 0 := by
    intro hzero
    have hready : ∃ queue ∈ fronts, readyFront sim.info queue ≠ [] := by
      refine ⟨t :: rest, hfront, ?_⟩
      rw [readyFront, if_pos hzero]
      exact cons_ne_nil t []
    rw [allQueuesWaiting_eq_false.mpr hready] at hwaiting
    exact absurd hwaiting (by decide)
  obtain ⟨b, hb⟩ : ∃ b, b ∈ sim.info.getWaitBarriers t := by
    by_contra hnone
    exact hsize (size_eq_zero.mpr (not_exists.mp hnone))
  rw [h.executed.consistent.wait_iff, h.executed.consumers] at hb
  obtain ⟨hc, hleft⟩ := hb
  obtain ⟨p, hp, hpending⟩ : ∃ p, p ∈ info.getBarrierProducers b ∧ p ∉ sim.newTaskOpOrder := by
    by_contra hnone
    apply hleft
    constructor
    · by_contra hempty
      exact hproduced ⟨b, t, hc, not_exists.mp hempty⟩
    · intro p hp
      by_contra hpending
      exact hnone ⟨p, hp, hpending⟩
  have hmem : p ∈ fronts.flatten := by
    have hall := h.perm.mem_iff.mpr (htasks b p hp)
    exact (mem_append.mp hall).resolve_left hpending
  obtain ⟨front, hfrontMem, hpfront⟩ := mem_flatten.mp hmem
  have hbarrier : Before queues info p t := .inr ⟨b, hp, hc⟩
  cases front with
  | nil => exact absurd hpfront not_mem_nil
  | cons t' rest' =>
    refine ⟨t', rest', hfrontMem, ?_⟩
    cases mem_cons.mp hpfront with
    | inl heq =>
      rw [← heq]
      exact .single hbarrier
    | inr hrest => exact .tail (.single (h.before_of_front hfrontMem hrest)) hbarrier

theorem Running.blocked (h : Running orderByConsumption info queues fronts sim)
    (htasks : ∀ b p, p ∈ info.getBarrierProducers b → p ∈ queues.flatten) (hleft : fronts.flatten ≠ [])
    (hwaiting : allQueuesWaiting sim.info fronts = true) : Deadlock queues info ∨ Unproduced info := by
  by_contra hnone
  rw [not_or] at hnone
  obtain ⟨hacyclic, hproduced⟩ := hnone
  let earlier : {t // t ∈ fronts.flatten} → {t // t ∈ fronts.flatten} → Prop :=
    fun a b => Relation.TransGen (Before queues info) a b
  have hfinite : Finite {t // t ∈ fronts.flatten} := fronts.flatten.finite_toSet
  have hirrefl : Std.Irrefl earlier := ⟨fun a ha => hacyclic ⟨a, ha⟩⟩
  have htrans : IsTrans _ earlier := ⟨fun a b c hab hbc => Relation.TransGen.trans hab hbc⟩
  have hwf : WellFounded earlier := Finite.wellFounded_of_trans_of_irrefl earlier
  have hhead : ∀ a : {t // t ∈ fronts.flatten}, ∀ rest, a.1 :: rest ∉ fronts := by
    intro a
    induction a using hwf.induction with
    | _ a ih =>
      intro rest hfront
      obtain ⟨t', rest', hfront', hbefore⟩ := h.before_front htasks hproduced hwaiting hfront
      have hmem : t' ∈ fronts.flatten := mem_flatten.mpr ⟨_, hfront', mem_cons_self ..⟩
      exact ih ⟨t', hmem⟩ hbefore rest' hfront'
  obtain ⟨t, ht⟩ := exists_mem_of_ne_nil _ hleft
  obtain ⟨front, hfront, htfront⟩ := mem_flatten.mp ht
  cases front with
  | nil => exact not_mem_nil htfront
  | cons t' rest' =>
    have hmem : t' ∈ fronts.flatten := mem_flatten.mpr ⟨_, hfront, mem_cons_self ..⟩
    exact hhead ⟨t', hmem⟩ rest' hfront

theorem idxOf_lt_of_sublist {l : List ℕ} {a b : ℕ} (hnodup : l.Nodup) (h : [a, b].Sublist l) :
    l.idxOf a < l.idxOf b := by
  induction l with
  | nil => exact absurd (sublist_nil.mp h) (by simp)
  | cons x l ih =>
    obtain ⟨hx, hnodup⟩ := nodup_cons.mp hnodup
    by_cases hxa : x = a
    · subst hxa
      have hb : b ∈ l := by
        have htail := cons_sublist_cons'.mp h
        cases htail with
        | inl hskip => exact absurd (hskip.subset (mem_cons_self ..)) hx
        | inr htake => exact singleton_sublist.mp htake.2
      have hne : x ≠ b := fun heq => hx (heq ▸ hb)
      rw [idxOf_cons_self, idxOf_cons_ne _ hne]
      exact Nat.succ_pos _
    · have hskip : [a, b].Sublist l := (cons_sublist_cons'.mp h).resolve_right (fun htake => hxa htake.1.symm)
      have hb : b ∈ l := hskip.subset (mem_cons_of_mem _ (mem_singleton_self b))
      have hxb : x ≠ b := fun heq => hx (heq ▸ hb)
      rw [idxOf_cons_ne _ hxa, idxOf_cons_ne _ hxb]
      exact Nat.succ_lt_succ (ih hnodup hskip)

structure Linear (queues : TaskOpQueues) (info : BarrierInfo) (order : List ℕ) : Prop where
  perm : order.Perm queues.flatten
  queues : ∀ queue ∈ queues, queue.Sublist order
  barriers : ∀ b p c, p ∈ info.getBarrierProducers b → c ∈ info.getBarrierConsumers b → [p, c].Sublist order

theorem Running.linear_of_end (h : Running orderByConsumption info queues fronts sim)
    (htasks : ∀ b c, c ∈ info.getBarrierConsumers b → c ∈ queues.flatten) (hend : fronts.flatten = []) :
    Linear queues info sim.newTaskOpOrder := by
  have hperm := h.perm
  rw [hend, append_nil] at hperm
  refine ⟨hperm, ?_, ?_⟩
  · intro queue hqueue
    obtain ⟨front, hfront, tasks, heq, hsub⟩ := exists_front h.advanced hqueue
    have hnil : front = [] := flatten_eq_nil_iff.mp hend front hfront
    rw [heq, hnil, append_nil]
    exact hsub
  · intro b p c hp hc
    exact h.linear b p c hp hc (hperm.mem_iff.mpr (htasks b c hc))

theorem Linear.sublist_of_before {order : List ℕ} (h : Linear queues info order) {t t' : ℕ}
    (hbefore : Before queues info t t') : [t, t'].Sublist order := by
  cases hbefore with
  | inl hqueue =>
    obtain ⟨queue, hmem, hsub⟩ := hqueue
    exact hsub.trans (h.queues queue hmem)
  | inr hbarrier =>
    obtain ⟨b, hp, hc⟩ := hbarrier
    exact h.barriers b t t' hp hc

theorem Linear.not_deadlock {order : List ℕ} (h : Linear queues info order) (hnodup : queues.flatten.Nodup) :
    ¬ Deadlock queues info := by
  have hlt : ∀ t t', Relation.TransGen (Before queues info) t t' → order.idxOf t < order.idxOf t' := by
    intro t t' hpath
    induction hpath with
    | single hbefore => exact idxOf_lt_of_sublist (h.perm.nodup_iff.mpr hnodup) (h.sublist_of_before hbefore)
    | tail _ hbefore ih =>
      exact ih.trans (idxOf_lt_of_sublist (h.perm.nodup_iff.mpr hnodup) (h.sublist_of_before hbefore))
  rintro ⟨t, hcycle⟩
  exact Nat.lt_irrefl _ (hlt t t hcycle)

end

def Used (info : BarrierInfo) (b : ℕ) : Prop :=
  (∃ p, p ∈ info.getBarrierProducers b) ∨ ∃ c, c ∈ info.getBarrierConsumers b

def Unpaged (info : BarrierInfo) (barrierOps : List BarrierOp) : Prop :=
  (∃ b, Used info b) ∧ (barrierOps.head?.bind BarrierOp.wlmPage).isSome ∧ ∃ barrierOp ∈ barrierOps, barrierOp.wlmPage = none

def IsFinal (barrierOps : List BarrierOp) (b : ℕ) : Prop :=
  (barrierOps[b]?.map BarrierOp.isFinalBarrier).getD false = true

def ManyFinals (info : BarrierInfo) (barrierOps : List BarrierOp) : Prop :=
  ∃ b b', b ≠ b' ∧ (Used info b ∧ IsFinal barrierOps b) ∧ (Used info b' ∧ IsFinal barrierOps b')

section
variable {orderByConsumption : Bool} {info : BarrierInfo} {queues fronts : TaskOpQueues} {sim : Simulation}
  {barrierOps : List BarrierOp} {order : List ℕ}

theorem alignWithPages_spec (barrierOps : List BarrierOp) (order : List ℕ) :
    (∃ order', alignWithPages barrierOps order = .ok order' ∧ order'.Perm order ∧
      ¬ (order ≠ [] ∧ (barrierOps.head?.bind BarrierOp.wlmPage).isSome ∧ ∃ op ∈ barrierOps, op.wlmPage = none)) ∨
    ((∃ message, alignWithPages barrierOps order = .error message) ∧
      order ≠ [] ∧ (barrierOps.head?.bind BarrierOp.wlmPage).isSome ∧ ∃ op ∈ barrierOps, op.wlmPage = none) := by
  unfold alignWithPages
  by_cases hpaged : order ≠ [] ∧ (barrierOps.head?.bind BarrierOp.wlmPage).isSome
  · rw [if_pos hpaged]
    by_cases hmissing : ∃ op ∈ barrierOps, op.wlmPage = none
    · have hany : barrierOps.any (fun op => op.wlmPage.isNone) = true := by simpa using hmissing
      rw [if_pos hany]
      exact .inr ⟨⟨_, rfl⟩, hpaged.1, hpaged.2, hmissing⟩
    · have hany : ¬ barrierOps.any (fun op => op.wlmPage.isNone) = true := by simpa using hmissing
      rw [if_neg hany]
      exact .inl ⟨_, rfl, mergeSort_perm _ _, fun h => hmissing h.2.2⟩
  · rw [if_neg hpaged]
    exact .inl ⟨order, rfl, .refl _, fun h => hpaged ⟨h.1, h.2.1⟩⟩

theorem moveFinalBarrier_spec (barrierOps : List BarrierOp) (hnodup : order.Nodup) :
    (∃ order', moveFinalBarrier barrierOps order = .ok order' ∧ order'.Perm order ∧
      ¬ ∃ b b', b ≠ b' ∧ (b ∈ order ∧ IsFinal barrierOps b) ∧ (b' ∈ order ∧ IsFinal barrierOps b')) ∨
    ((∃ message, moveFinalBarrier barrierOps order = .error message) ∧
      ∃ b b', b ≠ b' ∧ (b ∈ order ∧ IsFinal barrierOps b) ∧ (b' ∈ order ∧ IsFinal barrierOps b')) := by
  unfold moveFinalBarrier
  have hmem : ∀ b, b ∈ order.filter (fun b => (barrierOps[b]?.map BarrierOp.isFinalBarrier).getD false) ↔
      b ∈ order ∧ IsFinal barrierOps b := fun b => mem_filter
  have hfilter := hnodup.filter (fun b => (barrierOps[b]?.map BarrierOp.isFinalBarrier).getD false)
  generalize order.filter (fun b => (barrierOps[b]?.map BarrierOp.isFinalBarrier).getD false) = finals at hmem hfilter
  simp only [← hmem]
  match finals, hmem, hfilter with
  | [], _, _ => exact .inl ⟨order, rfl, .refl _, by simp⟩
  | [b], hmem, _ =>
    refine .inl ⟨_, rfl, ?_, ?_⟩
    · have hb := ((hmem b).mp (mem_singleton_self b)).1
      exact perm_append_comm.trans (perm_cons_erase hb).symm
    · rintro ⟨x, y, hne, hx, hy⟩
      exact hne ((mem_singleton.mp hx).trans (mem_singleton.mp hy).symm)
  | b :: b' :: _, _, hfilter =>
    refine .inr ⟨⟨_, rfl⟩, b, b', ?_, mem_cons_self .., mem_cons_of_mem _ (mem_cons_self ..)⟩
    intro heq
    exact (nodup_cons.mp hfilter).1 (heq ▸ mem_cons_self ..)

theorem Running.order_of_end (h : Running orderByConsumption info queues fronts sim) (hinfo : info.Consistent)
    (htasks : queues.flatten.Perm (List.range info.getNumOfTasks)) (hend : fronts.flatten = []) (b : ℕ) :
    b ∈ sim.newBarrierOrder ↔ Used info b := by
  have hall : ∀ t, t < info.getNumOfTasks → t ∈ sim.newTaskOpOrder := by
    intro t ht
    have hperm := h.perm
    rw [hend, append_nil] at hperm
    exact (hperm.trans htasks).mem_iff.mpr (mem_range.mpr ht)
  have hproduced : (∃ p, p ∈ info.getBarrierProducers b) → Produced info sim.newTaskOpOrder b :=
    fun hp => ⟨hp, fun p hmem => hall p (hinfo.producer_lt hmem).2⟩
  have hused : Used info b ↔ ∃ p, p ∈ info.getBarrierProducers b := by
    constructor
    · rintro (hp | ⟨c, hc⟩)
      · exact hp
      · exact (h.produced b c hc (hall c (hinfo.consumer_lt hc).2)).1
    · exact .inl
  rw [h.executed.order, hused]
  unfold Ordered
  split_ifs
  · exact ⟨fun hp => hp.1, hproduced⟩
  · constructor
    · rintro ⟨p, hp, -⟩
      exact ⟨p, hp⟩
    · rintro ⟨p, hp⟩
      exact ⟨p, hp, hall p (hinfo.producer_lt hp).2⟩

theorem countP_add_length_filter_not (p : ℕ → Bool) (l : List ℕ) :
    l.countP p + (l.filter (fun b => !p b)).length = l.length := by
  induction l with
  | nil => rfl
  | cons b l ih =>
    cases hb : p b with
    | false => simp [hb, ← ih, Nat.add_assoc]
    | true =>
      simp [hb, ← ih]
      omega

theorem length_used (hinfo : info.Consistent) (hnodup : order.Nodup) (horder : ∀ b, b ∈ order ↔ Used info b) :
    order.length = info.getNumOfBarrierOps - (List.range info.getNumOfBarrierOps).countP (fun b =>
      (info.getBarrierProducers b).size = 0 ∧ (info.getBarrierConsumers b).size = 0) := by
  have hlt : ∀ b, Used info b → b < info.getNumOfBarrierOps := by
    rintro b (⟨p, hp⟩ | ⟨c, hc⟩)
    · exact (hinfo.producer_lt hp).1
    · exact (hinfo.consumer_lt hc).1
  have hunused : ∀ b, decide ((info.getBarrierProducers b).size = 0 ∧ (info.getBarrierConsumers b).size = 0) = true ↔
      ¬ Used info b := by
    intro b
    rw [decide_eq_true_eq, size_eq_zero, size_eq_zero, Used, not_or, not_exists, not_exists]
  have hcount := countP_add_length_filter_not (fun b => decide ((info.getBarrierProducers b).size = 0 ∧
    (info.getBarrierConsumers b).size = 0)) (List.range info.getNumOfBarrierOps)
  have hperm : order.Perm ((List.range info.getNumOfBarrierOps).filter (fun b =>
      !decide ((info.getBarrierProducers b).size = 0 ∧ (info.getBarrierConsumers b).size = 0))) := by
    rw [perm_ext_iff_of_nodup hnodup (nodup_range.filter _)]
    intro b
    rw [mem_filter, mem_range, horder, Bool.not_eq_true', ← Bool.not_eq_true, hunused, not_not]
    exact ⟨fun hb => ⟨hlt b hb, hb⟩, And.right⟩
  rw [length_range] at hcount
  rw [hperm.length_eq]
  omega

structure Reordered (queues : TaskOpQueues) (info : BarrierInfo) (orders : List ℕ × List ℕ) : Prop where
  tasks : Linear queues info orders.1
  barriers_nodup : orders.2.Nodup
  barriers : ∀ b, b ∈ orders.2 ↔ Used info b

theorem ok_bind {α β : Type} (a : α) (f : α → Except String β) : (Except.ok a).bind f = f a := rfl

theorem order_eq {sim : Simulation}
    (hsim : simulate orderByConsumption (queues.flatten.length + 1) queues ⟨info, [], []⟩ = .ok sim)
    (htasks : sim.newTaskOpOrder.length = info.getNumOfTasks)
    (hbarriers : sim.newBarrierOrder.length = info.getNumOfBarrierOps -
      (List.range info.getNumOfBarrierOps).countP (fun b =>
        (info.getBarrierProducers b).size = 0 ∧ (info.getBarrierConsumers b).size = 0)) :
    orderExecutionTasksAndBarriers orderByConsumption queues info barrierOps =
      (alignWithPages barrierOps sim.newBarrierOrder).bind fun order =>
        (moveFinalBarrier barrierOps order).bind fun order => .ok (sim.newTaskOpOrder, order) := by
  unfold orderExecutionTasksAndBarriers
  rw [hsim]
  change (if sim.newTaskOpOrder.length ≠ info.getNumOfTasks then _ else _) = _
  rw [if_neg (not_not.mpr htasks)]
  rw [if_neg (not_not.mpr hbarriers)]
  rfl

theorem order_stuck {message : String}
    (hsim : simulate orderByConsumption (queues.flatten.length + 1) queues ⟨info, [], []⟩ = .error message) :
    orderExecutionTasksAndBarriers orderByConsumption queues info barrierOps = .error message := by
  unfold orderExecutionTasksAndBarriers
  rw [hsim]
  rfl

theorem order_cases (barrierOps : List BarrierOp) (hinfo : info.Consistent)
    (htasks : queues.flatten.Perm (List.range info.getNumOfTasks)) :
    (∃ orders, orderExecutionTasksAndBarriers orderByConsumption queues info barrierOps = .ok orders ∧
      Reordered queues info orders ∧ ¬ (Deadlock queues info ∨ Unproduced info ∨ Unpaged info barrierOps ∨
        ManyFinals info barrierOps)) ∨
    ((∃ message, orderExecutionTasksAndBarriers orderByConsumption queues info barrierOps = .error message) ∧
      (Deadlock queues info ∨ Unproduced info ∨ Unpaged info barrierOps ∨ ManyFinals info barrierOps)) := by
  have hnodup : queues.flatten.Nodup := htasks.nodup_iff.mpr nodup_range
  have hproducers : ∀ b p, p ∈ info.getBarrierProducers b → p ∈ queues.flatten :=
    fun b p hp => htasks.mem_iff.mpr (mem_range.mpr (hinfo.producer_lt hp).2)
  have hconsumers : ∀ b c, c ∈ info.getBarrierConsumers b → c ∈ queues.flatten :=
    fun b c hc => htasks.mem_iff.mpr (mem_range.mpr (hinfo.consumer_lt hc).2)
  cases simulate_spec hnodup (queues.flatten.length + 1) (@running_start orderByConsumption info hinfo queues)
      (Nat.lt_succ_self _) with
  | inr hstuck =>
    obtain ⟨message, sim, fronts, heq, hrunning, hleft, hwaiting⟩ := hstuck
    refine .inr ⟨⟨message, order_stuck heq⟩, ?_⟩
    cases hrunning.blocked hproducers hleft hwaiting with
    | inl hdeadlock => exact .inl hdeadlock
    | inr hunproduced => exact .inr (.inl hunproduced)
  | inl hdone =>
    obtain ⟨sim, fronts, heq, hrunning, hend⟩ := hdone
    have hlinear := hrunning.linear_of_end hconsumers hend
    have horder := hrunning.order_of_end hinfo htasks hend
    have horderNodup := hrunning.executed.order_nodup
    have hlength := (hlinear.perm.trans htasks).length_eq
    rw [length_range] at hlength
    have hacyclic := hlinear.not_deadlock hnodup
    have hproduced : ¬ Unproduced info := by
      rintro ⟨b, c, hc, hnone⟩
      obtain ⟨p, hp⟩ := (hrunning.produced b c hc (hlinear.perm.mem_iff.mpr (hconsumers b c hc))).1
      exact hnone p hp
    have hnonempty : sim.newBarrierOrder ≠ [] ↔ ∃ b, Used info b := by
      constructor
      · intro hne
        obtain ⟨b, hb⟩ := exists_mem_of_ne_nil _ hne
        exact ⟨b, (horder b).mp hb⟩
      · rintro ⟨b, hb⟩
        exact ne_nil_of_mem ((horder b).mpr hb)
    rw [order_eq heq hlength (length_used hinfo horderNodup horder)]
    cases alignWithPages_spec barrierOps sim.newBarrierOrder with
    | inr hunpaged =>
      obtain ⟨⟨message, herror⟩, hne, hpage, hmissing⟩ := hunpaged
      rw [herror]
      exact .inr ⟨⟨message, rfl⟩, .inr (.inr (.inl ⟨hnonempty.mp hne, hpage, hmissing⟩))⟩
    | inl haligned =>
      obtain ⟨order, hok, hperm, hpaged⟩ := haligned
      have hused : ∀ b, b ∈ order ↔ Used info b := fun b => hperm.mem_iff.trans (horder b)
      rw [hok, ok_bind]
      cases moveFinalBarrier_spec barrierOps (hperm.nodup_iff.mpr horderNodup) with
      | inr hfinals =>
        obtain ⟨⟨message, herror⟩, b, b', hne, hb, hb'⟩ := hfinals
        rw [hused] at hb hb'
        rw [herror]
        exact .inr ⟨⟨message, rfl⟩, .inr (.inr (.inr ⟨b, b', hne, hb, hb'⟩))⟩
      | inl hmoved =>
        obtain ⟨order', hok', hperm', hsingle⟩ := hmoved
        rw [hok', ok_bind]
        refine .inl ⟨_, rfl, ⟨hlinear, ?_, ?_⟩, ?_⟩
        · exact hperm'.nodup_iff.mpr (hperm.nodup_iff.mpr horderNodup)
        · intro b
          exact hperm'.mem_iff.trans (hused b)
        · rintro (hdeadlock | hunproduced | ⟨hex, hpage, hmissing⟩ | ⟨b, b', hne, hb, hb'⟩)
          · exact hacyclic hdeadlock
          · exact hproduced hunproduced
          · exact hpaged ⟨hnonempty.mpr hex, hpage, hmissing⟩
          · rw [← hused] at hb hb'
            exact hsingle ⟨b, b', hne, hb, hb'⟩

/-- Either the reordering throws, exactly on a deadlock or on barriers that cannot be ordered, or both orders are as
they have to be. -/
theorem orderExecutionTasksAndBarriers_spec (orderByConsumption : Bool) (barrierOps : List BarrierOp)
    (hinfo : info.Consistent) (htasks : queues.flatten.Perm (List.range info.getNumOfTasks)) :
    ((∃ message, orderExecutionTasksAndBarriers orderByConsumption queues info barrierOps = .error message) ↔
      Deadlock queues info ∨ Unproduced info ∨ Unpaged info barrierOps ∨ ManyFinals info barrierOps) ∧
    ∀ orders, orderExecutionTasksAndBarriers orderByConsumption queues info barrierOps = .ok orders →
      Reordered queues info orders := by
  cases @order_cases orderByConsumption info queues barrierOps hinfo htasks with
  | inl hok =>
    obtain ⟨orders, heq, hreordered, hnone⟩ := hok
    rw [heq]
    refine ⟨⟨?_, fun hany => absurd hany hnone⟩, ?_⟩
    · rintro ⟨message, herror⟩
      exact absurd herror (by simp)
    · intro orders' heq'
      rwa [← Except.ok.inj heq']
  | inr herror =>
    obtain ⟨⟨message, heq⟩, hany⟩ := herror
    rw [heq]
    refine ⟨⟨fun _ => hany, fun _ => ⟨message, rfl⟩⟩, ?_⟩
    intro orders hok
    exact absurd hok (by simp)

def twoTasks : BarrierInfo :=
  ((((BarrierInfo.empty.addNewTaskOp).addNewTaskOp).addNewBarrier).addProducer 0 0).addConsumer 0 1

theorem consistent_twoTasks : twoTasks.Consistent :=
  BarrierInfo.Consistent.addConsumer (BarrierInfo.Consistent.addProducer
    BarrierInfo.consistent_empty.addNewTaskOp.addNewTaskOp.addNewBarrier (by decide) (by decide)) (by decide) (by decide)

theorem orderExecutionTasksAndBarriers_spec_two : Reordered [[1], [0]] twoTasks ([0, 1], [0]) :=
  (orderExecutionTasksAndBarriers_spec true [⟨none, false⟩] consistent_twoTasks (by decide)).2 _ rfl

def oneWaiting : BarrierInfo := (BarrierInfo.empty.addNewTaskOp.addNewBarrier).addConsumer 0 0

theorem not_deadlock_oneWaiting : ¬ Deadlock [[0]] oneWaiting := by
  have hnone : ∀ t t', ¬ Before [[0]] oneWaiting t t' := by
    rintro t t' (⟨queue, hqueue, hsub⟩ | ⟨b, hp, -⟩)
    · rw [mem_singleton.mp hqueue] at hsub
      exact absurd hsub.length_le (by simp)
    · have hb := lt_of_mem_row hp
      obtain rfl : b = 0 := Nat.lt_one_iff.mp hb
      exact not_mem_empty hp
  rintro ⟨t, hcycle⟩
  cases hcycle with
  | single h => exact hnone _ _ h
  | tail _ h => exact hnone _ _ h

theorem throws_without_deadlock :
    ¬ ∀ (orderByConsumption : Bool) (queues : TaskOpQueues) (info : BarrierInfo) (barrierOps : List BarrierOp),
      info.Consistent → queues.flatten.Perm (List.range info.getNumOfTasks) →
        ((∃ message, orderExecutionTasksAndBarriers orderByConsumption queues info barrierOps = .error message) ↔
          Deadlock queues info) := by
  intro hall
  have hconsistent : oneWaiting.Consistent :=
    BarrierInfo.Consistent.addConsumer BarrierInfo.consistent_empty.addNewTaskOp.addNewBarrier (by decide) (by decide)
  have hiff := hall true [[0]] oneWaiting [⟨none, false⟩] hconsistent (by decide)
  exact not_deadlock_oneWaiting (hiff.mp ⟨_, rfl⟩)

end

end NpuCompiler.Barrier
