import NpuCompiler.Barrier.LegalizationRuns

namespace NpuCompiler.Barrier.Simulator

open BarrierState Simulator List

def lastMapped (mappings : List (ℕ × ℕ)) (slot : ℕ) : Option ℕ :=
  (mappings.reverse.find? (fun mapping => mapping.1 = slot)).map Prod.snd

structure Tables (sim : Simulator) (state : LegalizationState) : Prop where
  length : state.cur.prevVidOfPhysBar.length = state.cur.toVirtual.length
  live : ∀ v < state.cur.bar, InUse (Unconsumed sim) state.cur.toBarrierState v →
    ∃ p : ℕ, state.cur.realId v = some p ∧ state.cur.toVirtual[p]? = some (some v)
  nextReal : ∀ p : ℕ, p ∈ state.cur.nextReal.toList ↔ state.cur.toVirtual[p]? = some none
  /-- Each physical barrier stands for a slot of its own. -/
  slots : state.slots.length = state.cur.toVirtual.length ∧ state.slots.Nodup
  prevVid : state.cur.prevVidOfPhysBar = state.slots.map (lastMapped state.mappings)

def RemovesOne (sim : Simulator) (limit : ℕ) (state : LegalizationState) : Prop :=
  ∀ run batches, sim.runIteration limit state = .ok (run, batches) → run.progressed = true →
    min (run.cur.toVirtual.count none) (run.cur.toVirtual.length - limit) ≤ 1

instance (sim : Simulator) (limit : ℕ) (state : LegalizationState) : Decidable (RemovesOne sim limit state) :=
  match h : sim.runIteration limit state with
  | .error _ => .isTrue (fun run batches hrun => by rw [h] at hrun; cases hrun)
  | .ok (run, _) => decidable_of_iff
      (run.progressed = true → min (run.cur.toVirtual.count none) (run.cur.toVirtual.length - limit) ≤ 1)
      ⟨fun hone run' batches hrun => by rw [h, Except.ok.injEq, Prod.mk.injEq] at hrun; exact hrun.1 ▸ hone,
        fun hone => hone run _ h⟩

section
variable {mappings : List (ℕ × ℕ)} {slots : List ℕ} {q v : ℕ}

theorem lastMapped_append {slot : ℕ} :
    lastMapped (mappings ++ [(q, v)]) slot = if q = slot then some v else lastMapped mappings slot := by
  unfold lastMapped
  rw [reverse_append, reverse_singleton, singleton_append, find?_cons]
  by_cases heq : q = slot
  · rw [if_pos heq, decide_eq_true heq]
    rfl
  · rw [if_neg heq, decide_eq_false heq]

theorem lastMapped_of_lt {bound slot : ℕ} (hlt : ∀ mapping ∈ mappings, mapping.1 < bound) (hslot : bound ≤ slot) :
    lastMapped mappings slot = none := by
  unfold lastMapped
  rw [Option.map_eq_none_iff, find?_eq_none]
  intro mapping hmapping heq
  have hless := hlt mapping (mem_reverse.mp hmapping)
  rw [of_decide_eq_true heq] at hless
  exact Nat.not_lt_of_le hslot hless

theorem foldl_set_lastMapped {index : ℕ → ℕ} {vids : List ℕ} (hnodup : slots.Nodup)
    (hindex : ∀ v ∈ vids, index v < slots.length) :
    vids.foldl (fun prev v => prev.set (index v) (some v)) (slots.map (lastMapped mappings)) =
      slots.map (lastMapped (mappings ++ vids.map (fun v => (slots.getD (index v) 0, v)))) := by
  induction vids generalizing mappings with
  | nil => rw [map_nil, append_nil]; rfl
  | cons v vids ih =>
    obtain ⟨hv, hindex⟩ := forall_mem_cons.mp hindex
    have hget : slots.getD (index v) 0 = slots[index v] := getD_eq_getElem _ _ hv
    have hset : (slots.map (lastMapped mappings)).set (index v) (some v) =
        slots.map (lastMapped (mappings ++ [(slots[index v], v)])) := by
      apply ext_getElem
      · rw [length_set, length_map, length_map]
      · intro p hp hp'
        rw [length_map] at hp'
        rw [getElem_set, getElem_map, getElem_map, lastMapped_append]
        by_cases heq : index v = p
        · subst heq
          rw [if_pos rfl, if_pos rfl]
        · rw [if_neg heq, if_neg (fun h => heq ((List.Nodup.getElem_inj_iff hnodup).mp h))]
    rw [foldl_cons, hset, ← hget, ih hindex, append_assoc]
    rfl

end

section
variable {limit n : ℕ} {toVirtual : List (Option ℕ)} {slots : List ℕ}

theorem removeFree_stop (h : toVirtual.count none = 0 ∨ toVirtual.length ≤ limit) :
    removeSlots limit n toVirtual slots = slots ∧ ∀ removed, removeFree limit n toVirtual removed = (toVirtual, removed) := by
  cases n with
  | zero => exact ⟨rfl, fun _ => rfl⟩
  | succ n =>
    have hstop : ¬ (toVirtual.findIdx (· = none) < toVirtual.length ∧ toVirtual.length > limit) := by
      rintro ⟨hindex, hlimit⟩
      have hfree := findIdx_lt_iff.mp hindex
      omega
    constructor
    · unfold removeSlots
      exact if_neg hstop
    · intro removed
      unfold removeFree
      exact if_neg hstop

theorem removeFree_one (hfree : 0 < toVirtual.count none) (hlimit : limit < toVirtual.length)
    (hone : min (toVirtual.count none) (toVirtual.length - limit) ≤ 1) :
    removeSlots limit toVirtual.length toVirtual slots = slots.eraseIdx (toVirtual.findIdx (· = none)) ∧
      removeFree limit toVirtual.length toVirtual [] =
        (toVirtual.eraseIdx (toVirtual.findIdx (· = none)), [toVirtual.findIdx (· = none)]) := by
  have hindex := findIdx_lt_iff.mpr hfree
  have hgo : toVirtual.findIdx (· = none) < toVirtual.length ∧ toVirtual.length > limit := ⟨hindex, hlimit⟩
  obtain ⟨m, hm⟩ := Nat.exists_eq_succ_of_ne_zero (Nat.ne_of_gt (Nat.zero_lt_of_lt hlimit))
  have hstop : (toVirtual.eraseIdx (toVirtual.findIdx (· = none))).count none = 0 ∨
      (toVirtual.eraseIdx (toVirtual.findIdx (· = none))).length ≤ limit := by
    rw [length_eraseIdx_of_lt hindex, eraseIdx_findIdx, count_dropFree]
    omega
  obtain ⟨hslots, hrest⟩ := @removeFree_stop limit m _ (slots.eraseIdx (toVirtual.findIdx (· = none))) hstop
  constructor
  · rw [hm]
    unfold removeSlots
    dsimp only
    rw [if_pos hgo, hslots]
  · rw [hm]
    unfold removeFree
    dsimp only
    rw [if_pos hgo, hrest]
    rfl

end

structure Slotted (sim : Simulator) (limit : ℕ) (state : LegalizationState) : Prop where
  legalizing : Legalizing sim limit state.cur
  length : state.slots.length = state.cur.toVirtual.length
  nodup : state.slots.Nodup
  slots_lt : ∀ slot ∈ state.slots, slot < state.slotCount
  mappings_lt : ∀ mapping ∈ state.mappings, mapping.1 < state.slotCount
  prevVid : state.cur.prevVidOfPhysBar = state.slots.map (lastMapped state.mappings)

section
variable {sim : Simulator} {limit : ℕ} {state : LegalizationState}

theorem Slotted.tables (h : Slotted sim limit state) (hdynamic : sim.isDynamicBarriers = true) : Tables sim state := by
  refine ⟨?_, ?_, ?_, ⟨h.length, h.nodup⟩, h.prevVid⟩
  · rw [h.prevVid, length_map, h.length]
  · intro v hv hinUse
    obtain ⟨r, -, hreal, hslot⟩ := h.legalizing.invariant.getElem?_realId hv hinUse
    exact ⟨r, hreal, hslot⟩
  · exact (h.legalizing.invariant.mapped.ring hdynamic).2.2.2

theorem Slotted.next (h : Slotted sim limit state) (hone : RemovesOne sim limit state) {run : Run}
    {batches : List (List ℕ)} {s' : SimState} (hrun : sim.runIteration limit state = .ok (run, batches))
    (hcontinues : Continues sim (Unconsumed sim) sim.barriers.length state.cur.toVirtual.length ⟨state.cur, [], false⟩ run)
    (hupdates : Updates sim limit state.cur run s') (hnext : Legalizing sim limit s') :
    Slotted sim limit (state.next limit run.progressed run.cur s' batches) := by
  have hreaches := hcontinues.reaches
  have hlength : state.slots.length = run.cur.toVirtual.length := h.length.trans hreaches.invariant.mapped.slots.symm
  have hindex : ∀ v ∈ List.range' state.cur.bar (run.cur.bar - state.cur.bar), (run.cur.realId v).getD 0 < state.slots.length := by
    intro v hv
    obtain ⟨hle, hlt⟩ := mem_range'_1.mp hv
    obtain ⟨r, hr, hreal⟩ := hreaches.assigned v hle (by have hfirst := hreaches.bar_le; dsimp only at hfirst; omega)
    rw [hreal, h.length]
    exact hr
  generalize hmappings : state.mappings ++ (List.range' state.cur.bar (run.cur.bar - state.cur.bar)).map (fun v =>
    (state.slots.getD ((run.cur.realId v).getD 0) 0, v)) = mappings
  have hprev : run.cur.prevVidOfPhysBar = state.slots.map (lastMapped mappings) := by
    rw [← hmappings, ← foldl_set_lastMapped h.nodup hindex, ← h.prevVid]
    exact hreaches.prevVid
  have hmappingsLt : ∀ mapping ∈ mappings, mapping.1 < state.slotCount := by
    intro mapping hmapping
    rw [← hmappings] at hmapping
    cases mem_append.mp hmapping with
    | inl hold => exact h.mappings_lt mapping hold
    | inr hnew =>
      obtain ⟨v, hv, rfl⟩ := mem_map.mp hnew
      dsimp only
      rw [getD_eq_getElem _ _ (hindex v hv)]
      exact h.slots_lt _ (getElem_mem _)
  cases hupdates with
  | kept hprogressed hkept =>
    have hslots := (@removeFree_stop limit run.cur.toVirtual.length run.cur.toVirtual state.slots hkept).1
    unfold LegalizationState.next
    rw [hprogressed, if_pos rfl, if_pos rfl, hslots, hmappings]
    exact ⟨hnext, hlength, h.nodup, h.slots_lt, hmappingsLt, hprev⟩
  | reduced hprogressed hfree hlimit hreduce =>
    obtain ⟨hslots, hremoved⟩ := @removeFree_one limit run.cur.toVirtual state.slots hfree hlimit
      (hone run batches hrun hprogressed)
    have hprevLength : run.cur.toVirtual.length ≤ run.cur.prevVidOfPhysBar.length := by
      rw [hprev, length_map, hlength]
    obtain ⟨s'', hs'', -, -, -, -, hvirtual, hprev'⟩ := @reduceBarriers_spec _ _ _ _ limit _ hreaches.invariant hprevLength
    rw [hreduce, Except.ok.injEq] at hs''
    subst hs''
    rw [hremoved] at hvirtual hprev'
    have hindexLt := findIdx_lt_iff.mpr hfree
    have herase : s'.prevVidOfPhysBar = run.cur.prevVidOfPhysBar.eraseIdx (run.cur.toVirtual.findIdx (· = none)) := by
      change (removeIndex _ _ >>= pure) = _ at hprev'
      unfold removeIndex at hprev'
      rw [if_neg (Nat.not_le.mpr (Nat.lt_of_lt_of_le hindexLt hprevLength))] at hprev'
      exact (Except.ok.inj hprev').symm
    unfold LegalizationState.next
    rw [hprogressed, if_pos rfl, if_pos rfl, hslots, hmappings]
    refine ⟨hnext, ?_, h.nodup.eraseIdx _, fun slot hslot => h.slots_lt slot (mem_of_mem_eraseIdx hslot), hmappingsLt, ?_⟩
    · dsimp only
      rw [hvirtual, length_eraseIdx_of_lt hindexLt, length_eraseIdx_of_lt (hlength ▸ hindexLt), hlength]
    · dsimp only
      rw [herase, hprev, eraseIdx_map]
  | increased hprogressed =>
    unfold LegalizationState.next
    rw [hprogressed, if_neg Bool.false_ne_true, if_neg Bool.false_ne_true, hmappings]
    have hnew : state.slotCount ∉ state.slots := fun hmem => Nat.lt_irrefl _ (h.slots_lt _ hmem)
    refine ⟨hnext, ?_, ?_, ?_, fun mapping hmapping => Nat.lt_succ_of_lt (hmappingsLt mapping hmapping), ?_⟩
    · change (state.slots ++ [state.slotCount]).length = (run.cur.toVirtual ++ [none]).length
      rw [length_append, length_append, hlength]
      rfl
    · exact nodup_append.mpr ⟨h.nodup, pairwise_singleton _ _, fun a ha b hb heq =>
        hnew (mem_singleton.mp hb ▸ heq ▸ ha)⟩
    · intro slot hslot
      cases mem_append.mp hslot with
      | inl hslot => exact Nat.lt_succ_of_lt (h.slots_lt slot hslot)
      | inr hslot => exact mem_singleton.mp hslot ▸ Nat.lt_succ_self _
    · change run.cur.prevVidOfPhysBar ++ [none] = (state.slots ++ [state.slotCount]).map (lastMapped mappings)
      rw [map_append, map_singleton, lastMapped_of_lt hmappingsLt (Nat.le_refl _), hprev]

theorem Slotted.legalizationLoop {k : ℕ} (h : Slotted sim limit state) (hdynamic : sim.isDynamicBarriers = true)
    (hacyclic : sim.Acyclic) (hone : ∀ j < k, RemovesOne sim limit (sim.legalizationLoop limit j state).2) :
    Slotted sim limit (sim.legalizationLoop limit k state).2 := by
  induction k generalizing state with
  | zero => exact h
  | succ k ih =>
    by_cases hcomplete : isComplete state.cur = true
    · unfold Simulator.legalizationLoop
      rw [if_pos hcomplete]
      exact h
    · obtain ⟨run, batches, s', hrun, hiteration, hcontinues, hupdates, hnext⟩ :=
        legalizationIteration_spec h.legalizing hdynamic hacyclic hcomplete
      have hloop : ∀ j, sim.legalizationLoop limit (j + 1) state =
          sim.legalizationLoop limit j (state.next limit run.progressed run.cur s' batches) := by
        intro j
        rw [Simulator.legalizationLoop, if_neg hcomplete, hiteration]
      rw [hloop]
      apply ih (h.next (hone 0 (Nat.succ_pos k)) hrun hcontinues hupdates hnext)
      intro j hj
      rw [← hloop]
      exact hone (j + 1) (Nat.succ_lt_succ hj)

theorem initialLegalization_slotted (h : Counted sim) (hreal : ∀ v, (sim.barriers.getD v default).realId = none) :
    Slotted sim limit (sim.initialLegalization limit) := by
  have hlength : (sim.initialLegalization limit).cur.toVirtual.length = limit := length_replicate
  have hinvariant := @initialState_invariant sim limit h (fun _ => hreal)
  refine ⟨⟨?_, ?_, fun _ => suffix_rfl, ?_⟩, ?_, nodup_range, ?_, ?_, ?_⟩
  · rw [hlength]
    exact hinvariant
  · rw [hlength]
    exact Nat.le_of_eq length_replicate.symm
  · intro _ hlimit
    rw [hlength] at hlimit
    exact absurd hlimit (Nat.lt_irrefl _)
  · rw [hlength]
    exact length_range
  · exact fun slot hslot => mem_range.mp hslot
  · exact fun mapping hmapping => absurd hmapping not_mem_nil
  · apply ext_getElem
    · rw [length_map]
      exact length_replicate.trans length_range.symm
    · intro p hp hp'
      rw [getElem_map]
      exact getElem_replicate ..

/-- The legalization ends for every acyclic graph, and its tables agree as long as no iteration removes two physical barriers
at once. -/
theorem legalizeBarriers_tables {numBarriers : Option ℕ} (h : Counted sim)
    (hreal : ∀ v, (sim.barriers.getD v default).realId = none) (hdynamic : sim.isDynamicBarriers = true)
    (hacyclic : sim.Acyclic) (hlimit : numBarriers.getD sim.availableBarriers ≤ sim.availableBarriers) :
    (∃ fuel, (sim.legalizeBarriers fuel numBarriers).1 = .legal ∨ (sim.legalizeBarriers fuel numBarriers).1 = .illegal) ∧
      ∀ k, (∀ j < k, RemovesOne sim (numBarriers.getD sim.availableBarriers) (sim.legalizeBarriers j numBarriers).2) →
        Tables sim (sim.legalizeBarriers k numBarriers).2 := by
  have hloop : ∀ fuel, sim.legalizeBarriers fuel numBarriers = sim.legalizationLoop (numBarriers.getD sim.availableBarriers) fuel
      (sim.initialLegalization (numBarriers.getD sim.availableBarriers)) := fun fuel => if_neg (Nat.not_lt.mpr hlimit)
  have hslotted := @initialLegalization_slotted sim (numBarriers.getD sim.availableBarriers) h hreal
  constructor
  · obtain ⟨fuel, hends⟩ := legalizationLoop_ends hslotted.legalizing hdynamic hacyclic
    refine ⟨fuel, ?_⟩
    rw [hloop]
    exact hends
  · intro k hone
    rw [hloop]
    have hrun : Slotted sim (numBarriers.getD sim.availableBarriers) (sim.legalizationLoop
        (numBarriers.getD sim.availableBarriers) k (sim.initialLegalization (numBarriers.getD sim.availableBarriers))).2 := by
      apply hslotted.legalizationLoop hdynamic hacyclic
      intro j hj
      rw [← hloop]
      exact hone j hj
    exact hrun.tables hdynamic

end

def fork (numOfBarriers : ℕ) : Simulator where
  isDynamicBarriers := true
  barrierWlmHandler := none
  availableBarriers := 4
  barriers := List.replicate numOfBarriers ⟨none, 1, 1⟩
  queues := [⟨[], List.range numOfBarriers, 1, Nat.one_pos⟩] ::
    (List.range numOfBarriers).map (fun v => [⟨[v], [], 1, Nat.one_pos⟩])

theorem fork_taskAt {numOfBarriers : ℕ} {task : ℕ × ℕ} {user : BarrierUser}
    (h : (fork numOfBarriers).taskAt task = some user) :
    task.2 = 0 ∧ (task.1 = 0 → user.consumer = []) ∧ (task.1 ≠ 0 → user.producer = []) := by
  unfold taskAt fork at h
  obtain ⟨i, j⟩ := task
  cases i with
  | zero =>
    cases j with
    | zero =>
      cases h
      exact ⟨rfl, fun _ => rfl, fun hne => absurd rfl hne⟩
    | succ j => cases h
  | succ i =>
    dsimp only at h
    rw [getD_cons_succ, getD_eq_getElem?_getD, getElem?_map] at h
    cases hget : (List.range numOfBarriers)[i]? with
    | none =>
      rw [hget] at h
      cases h
    | some v =>
      rw [hget] at h
      cases j with
      | zero =>
        cases h
        exact ⟨rfl, fun hzero => absurd hzero (Nat.succ_ne_zero i), fun _ => rfl⟩
      | succ j => cases h

theorem fork_acyclic (numOfBarriers : ℕ) : (fork numOfBarriers).Acyclic := by
  have hstep : ∀ task task', (fork numOfBarriers).Precedes task task' → task.1 = 0 ∧ task'.1 ≠ 0 := by
    rintro task task' ⟨user, user', huser, huser', hor⟩
    obtain ⟨hfirst, -, hproducer⟩ := fork_taskAt huser
    obtain ⟨hfirst', hconsumer, -⟩ := fork_taskAt huser'
    cases hor with
    | inl hqueue =>
      rw [hfirst'] at hqueue
      exact absurd hqueue.2 (Nat.not_lt_zero _)
    | inr hbarrier =>
      obtain ⟨v, hv, hv'⟩ := hbarrier
      constructor
      · by_contra hne
        rw [hproducer hne] at hv
        exact not_mem_nil hv
      · intro hzero
        rw [hconsumer hzero] at hv'
        exact not_mem_nil hv'
  intro task hcycle
  obtain ⟨next, hnext, -⟩ := Relation.TransGen.head'_iff.mp hcycle
  obtain ⟨last, -, hlast⟩ := Relation.TransGen.tail'_iff.mp hcycle
  exact (hstep last task hlast).2 (hstep task next hnext).1

theorem legalizeBarriers_tables_fork : Tables (fork 2) ((fork 2).legalizeBarriers 4 (some 1)).2 := by
  have hcounted : Counted (fork 2) := ⟨by decide, by decide, by simp [fork]⟩
  have hreal : ∀ v, ((fork 2).barriers.getD v default).realId = none := by
    rintro (_ | _ | v) <;> rfl
  exact (@legalizeBarriers_tables (fork 2) (some 1) hcounted hreal rfl (fork_acyclic 2) (by decide)).2 4 (by decide)

/-- With three barriers and one physical one, a shrink removes two at once, and one entry too many is left. -/
theorem legalizeBarriers_fork : Counted (fork 3) ∧ (fork 3).Acyclic ∧
    ((fork 3).legalizeBarriers 5 (some 1)).2.cur.toVirtual = [none] ∧
    ((fork 3).legalizeBarriers 5 (some 1)).2.cur.prevVidOfPhysBar = [some 1, some 2] ∧
    ¬ Tables (fork 3) ((fork 3).legalizeBarriers 5 (some 1)).2 := by
  have hvirtual : ((fork 3).legalizeBarriers 5 (some 1)).2.cur.toVirtual = [none] := by decide
  have hprev : ((fork 3).legalizeBarriers 5 (some 1)).2.cur.prevVidOfPhysBar = [some 1, some 2] := by decide
  refine ⟨⟨by decide, by decide, by simp [fork]⟩, fork_acyclic 3, hvirtual, hprev, ?_⟩
  intro htables
  have hlength := htables.length
  rw [hvirtual, hprev] at hlength
  cases hlength

end NpuCompiler.Barrier.Simulator
