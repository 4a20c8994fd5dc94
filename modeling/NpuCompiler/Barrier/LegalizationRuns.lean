import NpuCompiler.Barrier.LegalizationProgress

namespace NpuCompiler.Barrier.Simulator

open BarrierState Simulator List

theorem length_foldl_set {index : ℕ → ℕ} {vids : List ℕ} {prev : List (Option ℕ)} :
    (vids.foldl (fun prev v => prev.set (index v) (some v)) prev).length = prev.length := by
  induction vids generalizing prev with
  | nil => rfl
  | cons v vids ih =>
    rw [foldl_cons, ih]
    exact length_set

section
variable {sim : Simulator} {kept : ℕ → Prop} {n size : ℕ} {run : Run} {s : SimState}

theorem count_eq_zero_of_ring (h : Invariant sim.isDynamicBarriers kept n size s) (hdynamic : sim.isDynamicBarriers = true)
    (hempty : sim.hasBarriersToMap s = false) : s.toVirtual.count none = 0 := by
  unfold hasBarriersToMap at hempty
  rw [if_pos hdynamic, Bool.not_eq_false', RingBuffer.isEmpty_iff] at hempty
  apply count_eq_zero_of_not_mem
  intro hmem
  obtain ⟨r, hr⟩ := getElem?_of_mem hmem
  have hring := ((h.mapped.ring hdynamic).2.2.2 r).mpr hr
  rw [hempty] at hring
  exact not_mem_nil hring

theorem mapNewBarriers_full {k : ℕ} (h : Invariant sim.isDynamicBarriers kept n size run.cur)
    (hdynamic : sim.isDynamicBarriers = true) (hhandler : sim.barrierWlmHandler = none) (hk : k ≤ n - run.cur.bar)
    (hcount : run.cur.toVirtual.count none ≤ k) : (sim.mapNewBarriers k run).cur.toVirtual.count none = 0 := by
  induction k generalizing run with
  | zero => exact Nat.le_zero.mp hcount
  | succ k ih =>
    unfold mapNewBarriers
    by_cases hmap : sim.hasBarriersToMap run.cur = true
    · rw [if_pos hmap]
      obtain ⟨real, nextReal, hpick, hfree, hstatic, hring⟩ | ⟨hplain, -⟩ := pickReal_spec h hmap
      · rw [hpick]
        have hbar : run.cur.bar < n := by omega
        obtain ⟨hreaches, -⟩ := setReal_reaches h hbar hfree hstatic hring
        apply @ih (run.advance (setReal run.cur real nextReal)) hreaches.invariant
        · change k ≤ n - (run.cur.bar + 1)
          omega
        · obtain ⟨hreal, hget⟩ := List.getElem?_eq_some_iff.mp hfree
          change (run.cur.toVirtual.set real (some run.cur.bar)).count none ≤ k
          rw [count_set hreal, hget]
          simp only [beq_self_eq_true, if_true]
          rw [if_neg (by simp)]
          omega
      · exact absurd (fun _ => hhandler) hplain
    · rw [if_neg hmap]
      exact count_eq_zero_of_ring h hdynamic ((Bool.not_eq_true _).mp hmap)

variable {wlmPidProgramming : Bool} {toVirtual : List (Option ℕ)} {batches : List (List ℕ)}

theorem isNoneInBatch_ok {batch : List ℕ} {mapped : Bool} (h : wlmPidProgramming = true ∨ toVirtual.count none = 0) :
    ∃ needed, isNoneInBatch wlmPidProgramming batch toVirtual mapped = .ok needed := by
  induction toVirtual generalizing mapped with
  | nil => exact ⟨mapped, rfl⟩
  | cons entry toVirtual ih =>
    cases entry with
    | none =>
      cases h with
      | inl hwlm =>
        unfold isNoneInBatch
        rw [if_neg (by rw [hwlm]; exact Bool.false_ne_true)]
        exact ih (.inl hwlm)
      | inr hzero =>
        rw [count_cons_self] at hzero
        cases hzero
    | some v =>
      rw [count_cons_of_ne (by simp)] at h
      unfold isNoneInBatch
      split_ifs
      · exact ⟨false, rfl⟩
      · exact ih h

theorem insertActive_foldlM (h : wlmPidProgramming = true ∨ toVirtual.count none = 0) :
    ∃ batches', toVirtual.foldlM (insertActive wlmPidProgramming) batches = .ok batches' := by
  induction toVirtual generalizing batches with
  | nil => exact ⟨batches, rfl⟩
  | cons entry toVirtual ih =>
    rw [foldlM_cons]
    cases entry with
    | none =>
      cases h with
      | inl hwlm =>
        unfold insertActive
        rw [if_neg (by rw [hwlm]; exact Bool.false_ne_true)]
        exact ih (.inl hwlm)
      | inr hzero =>
        rw [count_cons_self] at hzero
        cases hzero
    | some v =>
      rw [count_cons_of_ne (by simp)] at h
      exact ih h

theorem storeBarriersToLegalize_ok (h : wlmPidProgramming = true ∨ toVirtual.count none = 0) :
    ∃ batches', storeBarriersToLegalize wlmPidProgramming toVirtual batches = .ok batches' := by
  have hneeded : ∃ needed, isNewBatchNeeded wlmPidProgramming toVirtual batches = .ok needed := by
    unfold isNewBatchNeeded
    split
    · exact ⟨true, rfl⟩
    · split_ifs
      · exact ⟨false, rfl⟩
      · exact isNoneInBatch_ok h
  obtain ⟨needed, hneeded⟩ := hneeded
  unfold storeBarriersToLegalize
  rw [hneeded]
  exact insertActive_foldlM h

end

/-- The state between two iterations. Without the restriction of the ids, at most one physical barrier above the limit is
free, and there is a barrier to map to it. -/
structure Legalizing (sim : Simulator) (limit : ℕ) (s : SimState) : Prop where
  invariant : Invariant sim.isDynamicBarriers (Unconsumed sim) sim.barriers.length s.toVirtual.length s
  prev : s.toVirtual.length ≤ s.prevVidOfPhysBar.length
  suffix : ∀ i, s.queues.getD i [] <:+ sim.queues.getD i []
  full : sim.barrierWlmHandler = none → limit < s.toVirtual.length →
    s.toVirtual.count none = 0 ∨ (s.toVirtual.count none = 1 ∧ s.bar < sim.barriers.length)

/-- The end of an iteration from `s` that has come to `s'`. -/
inductive Updates (sim : Simulator) (limit : ℕ) (s : SimState) (run : Run) : SimState → Prop
  | kept (hprogressed : run.progressed = true) (hkept : run.cur.toVirtual.count none = 0 ∨ run.cur.toVirtual.length ≤ limit) :
      Updates sim limit s run run.cur
  | reduced {s' : SimState} (hprogressed : run.progressed = true) (hfree : 0 < run.cur.toVirtual.count none)
      (hlimit : limit < run.cur.toVirtual.length) (hreduce : reduceBarriers limit run.cur = .ok s') : Updates sim limit s run s'
  | increased (hprogressed : run.progressed = false) (hblocked : Blocked sim sim.barriers.length s)
      (hturned : ∃ nextReal, run.cur = { s with nextReal }) : Updates sim limit s run (increaseBarriers run.cur)

section
variable {sim : Simulator} {limit : ℕ} {state : LegalizationState}

theorem Blocked.bar_lt {s : SimState} (hblocked : Blocked sim sim.barriers.length s) (h : Legalizing sim limit s)
    (hacyclic : sim.Acyclic) (hincomplete : isComplete s ≠ true) : s.bar < sim.barriers.length := by
  by_contra hbar
  have hall : s.bar = sim.barriers.length := Nat.le_antisymm h.invariant.bar_le (Nat.le_of_not_lt hbar)
  rw [Ne, isComplete_iff h.invariant.mapped.length, not_and] at hincomplete
  have hleft := hincomplete (Nat.le_of_eq hall.symm)
  push Not at hleft
  obtain ⟨i, user, users, hqueue, hready⟩ := exists_ready hacyclic h.suffix h.invariant.pending.users_lt hleft
  apply hblocked.queues i user users hqueue
  rw [hall]
  exact hready

section
variable (h : Legalizing sim limit state.cur) (hdynamic : sim.isDynamicBarriers = true)
include h hdynamic

theorem runIteration_spec : ∃ run batches, sim.runIteration limit state = .ok (run, batches) ∧
      Continues sim (Unconsumed sim) sim.barriers.length state.cur.toVirtual.length ⟨state.cur, [], false⟩ run ∧
      (run.progressed = false → Blocked sim sim.barriers.length state.cur ∧
        ∃ nextReal, run.cur = { state.cur with nextReal }) := by
  have hlength := h.invariant.mapped.length
  obtain ⟨run, hrun, hcontinues, hstuck⟩ := @iteration_continues sim (Unconsumed sim) sim.barriers.length
    state.cur.toVirtual.length ⟨state.cur, [], false⟩ h.invariant
  have hmapped := (@mapNewBarriers_continues sim (Unconsumed sim) sim.barriers.length state.cur.toVirtual.length
    ⟨state.cur, [], false⟩ (state.cur.barriers.length - state.cur.bar) h.invariant (by rw [hlength])).1
  have hstored : ∃ batches, (if (sim.mapNewBarriers (state.cur.barriers.length - state.cur.bar)
      ⟨state.cur, [], false⟩).cur.toVirtual.length > limit then
        storeBarriersToLegalize sim.barrierWlmHandler.isSome (sim.mapNewBarriers
          (state.cur.barriers.length - state.cur.bar) ⟨state.cur, [], false⟩).cur.toVirtual state.barrierBatchesToLegalize
      else .ok state.barrierBatchesToLegalize) = .ok batches := by
    split_ifs with hlimit
    · apply storeBarriersToLegalize_ok
      cases hhandler : sim.barrierWlmHandler with
      | some handler => exact .inl rfl
      | none =>
        rw [hmapped.reaches.invariant.mapped.slots] at hlimit
        apply Or.inr
        apply mapNewBarriers_full h.invariant hdynamic hhandler (by rw [hlength])
        cases h.full hhandler hlimit with
        | inl hzero =>
          dsimp only
          rw [hzero]
          exact Nat.zero_le _
        | inr hone =>
          dsimp only
          rw [hone.1, hlength]
          exact Nat.sub_pos_of_lt hone.2
    · exact ⟨_, rfl⟩
  obtain ⟨batches, hbatches⟩ := hstored
  refine ⟨run, batches, ?_, hcontinues, hstuck⟩
  unfold runIteration
  dsimp only
  rw [hbatches]
  dsimp only
  rw [hrun]

theorem legalizationIteration_spec (hacyclic : sim.Acyclic) (hincomplete : isComplete state.cur ≠ true) :
    ∃ run batches s', sim.runIteration limit state = .ok (run, batches) ∧
      sim.legalizationIteration limit state = .ok (state.next limit run.progressed run.cur s' batches) ∧
      Continues sim (Unconsumed sim) sim.barriers.length state.cur.toVirtual.length ⟨state.cur, [], false⟩ run ∧
      Updates sim limit state.cur run s' ∧ Legalizing sim limit s' := by
  obtain ⟨run, batches, hrun, hcontinues, hstuck⟩ := runIteration_spec h hdynamic
  have hinvariant := hcontinues.reaches.invariant
  have hslots := hinvariant.mapped.slots
  have hsuffix : ∀ i, run.cur.queues.getD i [] <:+ sim.queues.getD i [] := fun i =>
    (hcontinues.reaches.suffix i).trans (h.suffix i)
  have hprev : run.cur.toVirtual.length ≤ run.cur.prevVidOfPhysBar.length := by
    rw [hslots, hcontinues.reaches.prevVid, length_foldl_set]
    exact h.prev
  have hend : ∀ s', updateProgress limit sim.barrierWlmHandler.isSome run.progressed run.cur = .ok s' →
      sim.legalizationIteration limit state = .ok (state.next limit run.progressed run.cur s' batches) := by
    intro s' hs'
    unfold legalizationIteration
    rw [hrun]
    dsimp only
    rw [hs']
  by_cases hprogressed : run.progressed = true
  · by_cases hreduce : run.cur.toVirtual.count none > 0 ∧ run.cur.toVirtual.length > limit
    · obtain ⟨s', hs', hinvariant', hprev', hbar, hqueues, hvirtual, -⟩ := @reduceBarriers_spec _ _ _ _ limit _ hinvariant hprev
      refine ⟨run, batches, s', hrun, hend s' ?_, hcontinues, .reduced hprogressed hreduce.1 hreduce.2 hs', hinvariant', hprev',
        ?_, ?_⟩
      · unfold updateProgress
        dsimp only
        rw [hprogressed, if_neg (by simp), if_pos hreduce]
        exact hs'
      · rw [hqueues]
        exact hsuffix
      · intro _ hlimit
        rw [hvirtual, removeFree_fst count_le_length] at hlimit ⊢
        rw [length_dropFree] at hlimit
        rw [count_dropFree]
        apply Or.inl
        omega
    · refine ⟨run, batches, run.cur, hrun, hend run.cur ?_, hcontinues, .kept hprogressed ?_, hslots ▸ hinvariant, hprev, hsuffix,
        ?_⟩
      · unfold updateProgress
        dsimp only
        rw [hprogressed, if_neg (by simp), if_neg hreduce]
      · omega
      · intro _ hlimit
        omega
  · have hfalse := (Bool.not_eq_true _).mp hprogressed
    obtain ⟨hblocked, hturned⟩ := hstuck hfalse
    have hbar := hblocked.bar_lt h hacyclic hincomplete
    have hnone : sim.barrierWlmHandler = none → state.cur.toVirtual.count none = 0 := by
      intro hhandler
      have hempty := (hblocked.mapping hbar).resolve_right (fun hor => hor.1 (fun _ => hhandler))
      exact count_eq_zero_of_ring h.invariant hdynamic hempty
    obtain ⟨nextReal, hcur⟩ := id hturned
    refine ⟨run, batches, increaseBarriers run.cur, hrun, hend _ ?_, hcontinues, .increased hfalse hblocked hturned,
      increaseBarriers_spec hinvariant, ?_, hsuffix, ?_⟩
    · unfold updateProgress
      dsimp only
      rw [hfalse, if_pos (by rfl)]
      cases hhandler : sim.barrierWlmHandler with
      | some handler => rfl
      | none =>
        rw [hcur]
        dsimp only
        rw [hnone hhandler]
        rfl
    · change (run.cur.toVirtual ++ [none]).length ≤ (run.cur.prevVidOfPhysBar ++ [none]).length
      rw [length_append, length_append]
      exact Nat.succ_le_succ hprev
    · intro hhandler _
      apply Or.inr
      rw [hcur]
      refine ⟨?_, hbar⟩
      change (state.cur.toVirtual ++ [none]).count none = 1
      rw [count_append, hnone hhandler]
      rfl

theorem legalizationLoop_step (hacyclic : sim.Acyclic) (hincomplete : isComplete state.cur ≠ true) :
    ∃ next, (∀ fuel, sim.legalizationLoop limit (fuel + 1) state = sim.legalizationLoop limit fuel next) ∧
      Legalizing sim limit next.cur ∧ (remaining next.cur < remaining state.cur ∨
        (Blocked sim sim.barriers.length state.cur ∧ ∃ nextReal, next.cur = increaseBarriers { state.cur with nextReal })) := by
  obtain ⟨run, batches, s', -, hiteration, hcontinues, hupdates, hnext⟩ :=
    legalizationIteration_spec h hdynamic hacyclic hincomplete
  refine ⟨state.next limit run.progressed run.cur s' batches, ?_, hnext, ?_⟩
  · intro fuel
    rw [legalizationLoop, if_neg hincomplete, hiteration]
  · have hless : run.progressed = true → remaining run.cur < remaining state.cur := fun hprogressed =>
      (hcontinues.progressed hprogressed).resolve_left Bool.false_ne_true
    cases hupdates with
    | kept hprogressed => exact .inl (hless hprogressed)
    | reduced hprogressed _ _ hreduce =>
      have hinvariant := hcontinues.reaches.invariant
      have hprev : run.cur.toVirtual.length ≤ run.cur.prevVidOfPhysBar.length := by
        rw [hinvariant.mapped.slots, hcontinues.reaches.prevVid, length_foldl_set]
        exact h.prev
      obtain ⟨s'', hs'', hinvariant', -, hbar, hqueues, -⟩ := @reduceBarriers_spec _ _ _ _ limit _ hinvariant hprev
      rw [hreduce, Except.ok.injEq] at hs''
      subst hs''
      apply Or.inl
      apply Nat.lt_of_le_of_lt _ (hless hprogressed)
      change remaining s' ≤ _
      unfold remaining
      rw [hbar, hqueues, hinvariant'.mapped.length, hinvariant.mapped.length]
    | increased _ hblocked hturned =>
      obtain ⟨nextReal, hcur⟩ := hturned
      refine .inr ⟨hblocked, nextReal, ?_⟩
      rw [← hcur]
      rfl

end

end

/-- The entries behind those of the physical barriers that would keep a new physical barrier from being used. -/
def attempts (s : SimState) : ℕ := ((s.prevVidOfPhysBar.drop s.toVirtual.length).takeWhile Option.isSome).length

section
variable {sim : Simulator} {limit : ℕ}

theorem takeWhile_append_none (l : List (Option ℕ)) : (l ++ [none]).takeWhile Option.isSome = l.takeWhile Option.isSome := by
  induction l with
  | nil => rfl
  | cons entry l ih =>
    cases entry with
    | none => rfl
    | some v =>
      rw [cons_append, takeWhile_cons, takeWhile_cons, ih]

theorem attempts_increaseBarriers {s : SimState} (h : Legalizing sim limit (increaseBarriers s))
    (hdynamic : sim.isDynamicBarriers = true) (hprev : s.toVirtual.length ≤ s.prevVidOfPhysBar.length)
    (hbar : s.bar < sim.barriers.length) (hblocked : Blocked sim sim.barriers.length (increaseBarriers s)) :
    attempts s = attempts (increaseBarriers s) + 1 := by
  have hfree : (s.toVirtual ++ [none])[s.toVirtual.length]? = some none := by
    rw [getElem?_append_right (Nat.le_refl _), Nat.sub_self]
    rfl
  cases hblocked.mapping hbar with
  | inl hempty =>
    have hzero := count_eq_zero_of_ring h.invariant hdynamic hempty
    exact absurd (mem_of_getElem? hfree) (count_eq_zero.mp hzero)
  | inr hused =>
    have hlast : (s.prevVidOfPhysBar ++ [none]).getD s.toVirtual.length none ≠ none := hused.2 s.toVirtual.length hfree
    have hlt : s.toVirtual.length < s.prevVidOfPhysBar.length := by
      apply Nat.lt_of_le_of_ne hprev
      intro heq
      apply hlast
      rw [heq, getD_eq_getElem?_getD, getElem?_append_right (Nat.le_refl _), Nat.sub_self]
      rfl
    rw [getD_append _ _ _ _ hlt, getD_eq_getElem _ _ hlt] at hlast
    unfold attempts
    change _ = (((s.prevVidOfPhysBar ++ [none]).drop (s.toVirtual ++ [none]).length).takeWhile Option.isSome).length + 1
    rw [length_append, length_singleton, drop_append_of_le_length hlt, takeWhile_append_none,
      drop_eq_getElem_cons hlt, takeWhile_cons, if_pos (Option.isSome_iff_ne_none.mpr hlast), length_cons]

theorem exists_progress {a : ℕ} {state : LegalizationState} (h : Legalizing sim limit state.cur)
    (hdynamic : sim.isDynamicBarriers = true) (hacyclic : sim.Acyclic) (hincomplete : isComplete state.cur ≠ true)
    (hattempts : Blocked sim sim.barriers.length state.cur → attempts state.cur < a) :
    ∃ k next, (∀ fuel, sim.legalizationLoop limit (fuel + k) state = sim.legalizationLoop limit fuel next) ∧
      Legalizing sim limit next.cur ∧ remaining next.cur < remaining state.cur := by
  induction a generalizing state with
  | zero =>
    obtain ⟨next, hloop, hnext, hless | ⟨hblocked, -⟩⟩ := legalizationLoop_step h hdynamic hacyclic hincomplete
    · exact ⟨1, next, hloop, hnext, hless⟩
    · exact absurd (hattempts hblocked) (Nat.not_lt_zero _)
  | succ a ih =>
    obtain ⟨next, hloop, hnext, hless | ⟨hblocked, nextReal, hcur⟩⟩ := legalizationLoop_step h hdynamic hacyclic hincomplete
    · exact ⟨1, next, hloop, hnext, hless⟩
    · have hbar := hblocked.bar_lt h hacyclic hincomplete
      have hsame : remaining next.cur = remaining state.cur := by
        rw [hcur]
        rfl
      have hincomplete' : isComplete next.cur ≠ true := by
        rw [hcur]
        exact hincomplete
      obtain ⟨k, last, hloop', hlast, hless⟩ := ih hnext hincomplete' (by
        intro hblocked'
        have hless := hattempts hblocked
        rw [hcur] at hblocked' hnext ⊢
        have hone : attempts state.cur = _ := attempts_increaseBarriers hnext hdynamic h.prev hbar hblocked'
        rw [hone] at hless
        exact Nat.lt_of_succ_lt_succ hless)
      refine ⟨k + 1, last, ?_, hlast, hsame ▸ hless⟩
      intro fuel
      rw [← Nat.add_assoc, hloop, hloop']

theorem legalizationLoop_ends {state : LegalizationState} (h : Legalizing sim limit state.cur)
    (hdynamic : sim.isDynamicBarriers = true) (hacyclic : sim.Acyclic) :
    ∃ fuel, (sim.legalizationLoop limit fuel state).1 = .legal ∨ (sim.legalizationLoop limit fuel state).1 = .illegal := by
  induction hremaining : remaining state.cur using Nat.strong_induction_on generalizing state with
  | _ m ih =>
    by_cases hcomplete : isComplete state.cur = true
    · refine ⟨1, ?_⟩
      unfold legalizationLoop
      rw [if_pos hcomplete]
      dsimp only
      split_ifs
      · exact .inr rfl
      · exact .inl rfl
    · obtain ⟨k, next, hloop, hnext, hless⟩ := exists_progress h hdynamic hacyclic hcomplete (fun _ => Nat.lt_succ_self _)
      obtain ⟨fuel, hfuel⟩ := ih _ (hremaining ▸ hless) hnext rfl
      refine ⟨fuel + k, ?_⟩
      rw [hloop]
      exact hfuel

end

end NpuCompiler.Barrier.Simulator
