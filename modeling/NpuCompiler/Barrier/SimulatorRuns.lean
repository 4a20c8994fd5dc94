import NpuCompiler.Barrier.SimulatorMapping

namespace NpuCompiler.Barrier.Simulator

open BarrierState Simulator List

def Plain (sim : Simulator) : Prop := sim.isDynamicBarriers = true → sim.barrierWlmHandler = none

structure Blocked (sim : Simulator) (n : ℕ) (s : SimState) : Prop where
  mapping : s.bar < n → sim.hasBarriersToMap s = false ∨
    (¬ Plain sim ∧ ∀ r, s.toVirtual[r]? = some none → s.prevVidOfPhysBar.getD r none ≠ none)
  queues : ∀ (i : ℕ) (user : BarrierUser) (users : List BarrierUser), s.queues[i]? = some (user :: users) →
    ¬ Ready s.bar s.queues user

structure Continues (sim : Simulator) (kept : ℕ → Prop) (n limit : ℕ) (run run' : Run) : Prop where
  reaches : Reaches sim kept n limit run.cur run'.cur
  history : ∀ s ∈ run'.history, s ∈ run.history ∨ Invariant sim.isDynamicBarriers kept n limit s
  progressed : run'.progressed = true → run.progressed = true ∨ remaining run'.cur < remaining run.cur
  /-- Without progress only the ring of free ids may have turned. -/
  same : run'.progressed = false → run.progressed = false ∧ (∃ nextReal, run'.cur = { run.cur with nextReal }) ∧
    (Plain sim → run'.cur = run.cur)

section
variable {sim : Simulator} {kept : ℕ → Prop} {n limit : ℕ} {run run' run'' : Run} {s : SimState}

theorem continues_refl (h : Invariant sim.isDynamicBarriers kept n limit run.cur) : Continues sim kept n limit run run :=
  ⟨reaches_refl h, fun _ => .inl, .inl, fun h => ⟨h, ⟨run.cur.nextReal, rfl⟩, fun _ => rfl⟩⟩

theorem Continues.trans (h : Continues sim kept n limit run run') (h' : Continues sim kept n limit run' run'') :
    Continues sim kept n limit run run'' := by
  refine ⟨h.reaches.trans h'.reaches, ?_, ?_, ?_⟩
  · intro s hs
    cases h'.history s hs with
    | inl hs => exact h.history s hs
    | inr hs => exact .inr hs
  · intro hprogressed
    cases h'.progressed hprogressed with
    | inl hprogressed =>
      exact (h.progressed hprogressed).imp_right (fun hlt => Nat.lt_of_le_of_lt h'.reaches.remaining hlt)
    | inr hlt => exact .inr (Nat.lt_of_lt_of_le hlt h.reaches.remaining)
  · intro hprogressed
    obtain ⟨hprogressed, ⟨turned', hturned'⟩, hcur'⟩ := h'.same hprogressed
    obtain ⟨hprogressed, ⟨turned, hturned⟩, hcur⟩ := h.same hprogressed
    refine ⟨hprogressed, ⟨turned', ?_⟩, fun hmode => (hcur' hmode).trans (hcur hmode)⟩
    rw [hturned', hturned]

theorem continues_advance (h : Invariant sim.isDynamicBarriers kept n limit run.cur) (hreaches : Reaches sim kept n limit run.cur s)
    (hlt : remaining s < remaining run.cur) : Continues sim kept n limit run (run.advance s) := by
  refine ⟨hreaches, ?_, fun _ => .inr hlt, fun hprogressed => by cases hprogressed⟩
  intro s' hs'
  cases mem_append.mp hs' with
  | inl hs' => exact .inl hs'
  | inr hs' =>
    rw [mem_singleton.mp hs']
    exact .inr h

theorem Invariant.setRing {nextReal : RingBuffer ℕ} (h : Invariant sim.isDynamicBarriers kept n limit s)
    (hring : FreeRing limit s.toVirtual nextReal) : Invariant sim.isDynamicBarriers kept n limit { s with nextReal } :=
  ⟨h.bar_le, ⟨h.mapped.length, h.mapped.slots, h.mapped.assigned, h.mapped.unassigned, h.mapped.slot, fun _ => hring⟩,
    ⟨h.pending.producers, h.pending.consumers, h.pending.users_lt, h.pending.waiting, h.pending.unused⟩⟩

theorem pickReal_spec (h : Invariant sim.isDynamicBarriers kept n limit s) (hmap : sim.hasBarriersToMap s = true) :
    (∃ real nextReal, sim.pickReal s = (some real, nextReal) ∧ s.toVirtual[real]? = some none ∧
      (sim.isDynamicBarriers = false → s.realId s.bar = some real) ∧
      (sim.isDynamicBarriers = true → FreeRing limit (s.toVirtual.set real (some s.bar)) nextReal)) ∨
    (¬ Plain sim ∧ (∃ nextReal, sim.pickReal s = (none, nextReal) ∧ FreeRing limit s.toVirtual nextReal) ∧
      ∀ r, s.toVirtual[r]? = some none → s.prevVidOfPhysBar.getD r none ≠ none) := by
  have hturned : ∀ turned : RingBuffer ℕ, FreeRing limit s.toVirtual turned → 0 < turned.size →
      sim.isDynamicBarriers = true → sim.pickReal s = (some turned.front, turned.pop) →
      ∃ real nextReal, sim.pickReal s = (some real, nextReal) ∧ s.toVirtual[real]? = some none ∧
        (sim.isDynamicBarriers = false → s.realId s.bar = some real) ∧
        (sim.isDynamicBarriers = true → FreeRing limit (s.toVirtual.set real (some s.bar)) nextReal) := by
    intro turned hring hsize hdynamic hpick
    obtain ⟨hfree, hpop⟩ := hring.pop hsize s.bar
    refine ⟨turned.front, turned.pop, hpick, hfree, fun hstatic => ?_, fun _ => hpop⟩
    rw [hdynamic] at hstatic
    cases hstatic
  unfold hasBarriersToMap at hmap
  by_cases hdynamic : sim.isDynamicBarriers = true
  · rw [if_pos hdynamic] at hmap
    have hring := h.mapped.ring hdynamic
    have hsize : 0 < s.nextReal.size := by
      apply Nat.pos_of_ne_zero
      intro hzero
      unfold RingBuffer.isEmpty at hmap
      rw [hzero] at hmap
      cases hmap
    cases hhandler : sim.barrierWlmHandler with
    | none =>
      apply Or.inl
      apply hturned s.nextReal hring hsize hdynamic
      unfold pickReal
      rw [if_pos hdynamic, hhandler]
    | some handler =>
      have hpick : sim.pickReal s = pickReusable handler s s.nextReal.size s.nextReal := by
        unfold pickReal
        rw [if_pos hdynamic, hhandler]
      obtain ⟨turned, hfree, hnone | ⟨hpos, hsome⟩⟩ := @pickReusable_spec _ _ _ handler s _ hring (Nat.le_refl s.nextReal.size)
      · refine .inr ⟨fun hplain => ?_, ⟨turned, hpick.trans hnone.1, hfree⟩, fun r hr => hnone.2 r ?_⟩
        · rw [hplain hdynamic] at hhandler
          cases hhandler
        · rw [← RingBuffer.length_toList, take_length]
          exact (hring.2.2.2 r).mpr hr
      · exact .inl (hturned turned hfree hpos hdynamic (hpick.trans hsome))
  · rw [if_neg hdynamic] at hmap
    apply Or.inl
    cases hreal : s.realId s.bar with
    | none =>
      rw [hreal] at hmap
      cases hmap
    | some real =>
      rw [hreal] at hmap
      refine ⟨real, s.nextReal, ?_, of_decide_eq_true hmap, fun _ => rfl, fun h => absurd h hdynamic⟩
      unfold pickReal
      rw [if_neg hdynamic, hreal]

theorem mapNewBarriers_continues {k : ℕ} (h : Invariant sim.isDynamicBarriers kept n limit run.cur) (hk : k ≤ n - run.cur.bar) :
    Continues sim kept n limit run (sim.mapNewBarriers k run) ∧
      ((sim.mapNewBarriers k run).progressed = false → 0 < k → sim.hasBarriersToMap run.cur = false ∨
        (¬ Plain sim ∧ ∀ r, run.cur.toVirtual[r]? = some none → run.cur.prevVidOfPhysBar.getD r none ≠ none)) := by
  induction k generalizing run with
  | zero => exact ⟨continues_refl h, fun _ hk => absurd hk (Nat.lt_irrefl 0)⟩
  | succ k ih =>
    unfold mapNewBarriers
    by_cases hmap : sim.hasBarriersToMap run.cur = true
    · rw [if_pos hmap]
      have hbar : run.cur.bar < n := by omega
      obtain ⟨real, nextReal, hpick, hfree, hstatic, hring⟩ | ⟨hplain, ⟨nextReal, hpick, hring⟩, hused⟩ := pickReal_spec h hmap
      · rw [hpick]
        obtain ⟨hreaches, hlt⟩ := setReal_reaches h hbar hfree hstatic hring
        have hfirst := continues_advance h hreaches hlt
        have hrest := (@ih (run.advance (setReal run.cur real nextReal)) hreaches.invariant
          (show k ≤ n - (run.cur.bar + 1) by omega)).1
        refine ⟨hfirst.trans hrest, fun hprogressed _ => ?_⟩
        have hadvanced := (hrest.same hprogressed).1
        cases hadvanced
      · rw [hpick]
        have hsame := reaches_refl h
        refine ⟨⟨⟨h.setRing hring, Nat.le_refl _, rfl, hsame.suffix, fun _ _ => rfl, hsame.assigned, hsame.prevVid, fun _ _ => .refl,
          Nat.le_refl _⟩, fun _ => .inl, .inl, fun hprogressed => ⟨hprogressed, ⟨nextReal, rfl⟩, fun hmode => ?_⟩⟩,
          fun _ _ => .inr ⟨hplain, hused⟩⟩
        exact absurd hmode hplain
    · rw [if_neg hmap]
      exact ⟨continues_refl h, fun _ _ => .inl ((Bool.not_eq_true _).mp hmap)⟩

theorem processQueue_continues {i : ℕ} {users : List BarrierUser} (h : Invariant sim.isDynamicBarriers kept n limit run.cur)
    (hqueue : run.cur.queues[i]? = some users) :
    ∃ run', sim.processQueue i users run = some run' ∧ Continues sim kept n limit run run' ∧
      (run'.progressed = false → run'.cur = run.cur ∧
        ∀ user rest, users = user :: rest → ¬ Ready run.cur.bar run.cur.queues user) := by
  induction users generalizing run with
  | nil => exact ⟨run, rfl, continues_refl h, fun _ => ⟨rfl, fun user rest hnil => by cases hnil⟩⟩
  | cons user users ih =>
    unfold processQueue
    by_cases hready : Ready run.cur.bar run.cur.queues user
    · obtain ⟨s', hprocess, hreal, hinvariant⟩ := processSim_success h hqueue hready
      obtain ⟨hreaches, hlt⟩ := process_reaches h hqueue hready hreal hinvariant
      have hfirst := continues_advance h hreaches hlt
      have hnext : (run.cur.queues.set i users)[i]? = some users :=
        getElem?_set_self (List.getElem?_eq_some_iff.mp hqueue).1
      obtain ⟨run', hrun', hrest, -⟩ := @ih (run.advance _) hinvariant hnext
      rw [hprocess]
      refine ⟨run', hrun', hfirst.trans hrest, fun hprogressed => ?_⟩
      have hadvanced := (hrest.same hprogressed).1
      cases hadvanced
    · rw [processSim_skip h hqueue hready]
      refine ⟨run, rfl, continues_refl h, fun _ => ⟨rfl, fun user' rest hcons => ?_⟩⟩
      cases hcons
      exact hready

theorem processQueues_continues {is : List ℕ} (h : Invariant sim.isDynamicBarriers kept n limit run.cur)
    (his : ∀ i ∈ is, i < run.cur.queues.length) :
    ∃ run', is.foldlM (fun run i => sim.processQueue i (run.cur.queues.getD i []) run) run = some run' ∧
      Continues sim kept n limit run run' ∧ (run'.progressed = false → run'.cur = run.cur ∧
        ∀ i ∈ is, ∀ user users, run.cur.queues[i]? = some (user :: users) → ¬ Ready run.cur.bar run.cur.queues user) := by
  induction is generalizing run with
  | nil => exact ⟨run, rfl, continues_refl h, fun _ => ⟨rfl, fun i hi => absurd hi not_mem_nil⟩⟩
  | cons i is ih =>
    obtain ⟨hi, his⟩ := forall_mem_cons.mp his
    have hqueue : run.cur.queues[i]? = some (run.cur.queues.getD i []) := by
      rw [getElem?_eq_getElem hi, getD_eq_getElem _ _ hi]
    obtain ⟨next, hnext, hfirst, hstuck⟩ := processQueue_continues h hqueue
    obtain ⟨run', hrun', hrest, hstuckRest⟩ := @ih next hfirst.reaches.invariant (by
      rw [hfirst.reaches.queues_length]
      exact his)
    refine ⟨run', ?_, hfirst.trans hrest, ?_⟩
    · rw [foldlM_cons, hnext]
      exact hrun'
    · intro hprogressed
      obtain ⟨hprogressed', -⟩ := hrest.same hprogressed
      obtain ⟨hcur, hstuck⟩ := hstuck hprogressed'
      obtain ⟨hcurRest, hstuckRest⟩ := hstuckRest hprogressed
      rw [hcur] at hcurRest hstuckRest
      refine ⟨hcurRest, fun j hj user users huser => ?_⟩
      cases mem_cons.mp hj with
      | inl heq =>
        subst heq
        rw [hqueue, Option.some.injEq] at huser
        exact hstuck user users huser
      | inr hj => exact hstuckRest j hj user users huser

def Stuck (n : ℕ) (ids : ℕ → ℕ) (s : SimState) : Prop := ∀ next, ¬ Fire n ids (s.bar, s.queues) next

theorem Blocked.stuck {ids : ℕ → ℕ} (hblocked : Blocked sim n s) (h : Invariant sim.isDynamicBarriers kept n limit s)
    (hkept : ∀ v, ¬ kept v) (hids : ∀ v < n, s.realId v = some (ids v) ∧ ids v < limit) (hmode : sim.isDynamicBarriers = false) : Stuck n ids s := by
  intro next hfire
  cases hfire with
  | map hbar hfree =>
    have hplain : Plain sim := fun hdynamic => by
      rw [hmode] at hdynamic
      cases hdynamic
    have hnone := (hblocked.mapping hbar).resolve_right (fun hor => hor.1 hplain)
    unfold hasBarriersToMap at hnone
    obtain ⟨hreal, hlt⟩ := hids s.bar hbar
    rw [if_neg (by rw [hmode]; exact Bool.false_ne_true), hreal] at hnone
    have hin : ids s.bar < s.toVirtual.length := h.mapped.slots.symm ▸ hlt
    apply of_decide_eq_false hnone
    rw [getElem?_eq_getElem hin]
    congr 1
    cases hslot : s.toVirtual[ids s.bar] with
    | none => rfl
    | some v =>
      obtain ⟨hv, hrealv, hinUse⟩ := (h.mapped.slot (ids s.bar) v).mp (by rw [getElem?_eq_getElem hin, hslot])
      have hpos := hinUse.resolve_right (hkept v)
      rw [(hids v (Nat.lt_trans hv hbar)).1, Option.some.injEq] at hrealv
      rw [h.pending.consumers v (Nat.lt_trans hv hbar), hfree v hv hrealv] at hpos
      exact absurd hpos (Nat.lt_irrefl 0)
  | process hqueue hready => exact hblocked.queues _ _ _ hqueue hready

theorem iteration_continues (h : Invariant sim.isDynamicBarriers kept n limit run.cur) :
    ∃ run', sim.processQueues (sim.mapNewBarriers (run.cur.barriers.length - run.cur.bar) { run with progressed := false }) =
        some run' ∧ Continues sim kept n limit { run with progressed := false } run' ∧
      (run'.progressed = false → Blocked sim n run.cur ∧ ∃ nextReal, run'.cur = { run.cur with nextReal }) := by
  rw [h.mapped.length]
  obtain ⟨hmapped, hstuckMap⟩ := @mapNewBarriers_continues sim kept n limit { run with progressed := false } _ h (Nat.le_refl _)
  obtain ⟨run', hrun', hqueues, hstuck⟩ := @processQueues_continues sim kept n limit
    (sim.mapNewBarriers (n - run.cur.bar) { run with progressed := false })
    (List.range (sim.mapNewBarriers (n - run.cur.bar) { run with progressed := false }).cur.queues.length)
    hmapped.reaches.invariant (fun i hi => mem_range.mp hi)
  refine ⟨run', hrun', hmapped.trans hqueues, fun hprogressed => ?_⟩
  obtain ⟨hprogressed', -⟩ := hqueues.same hprogressed
  obtain ⟨hcur', hstuck⟩ := hstuck hprogressed
  obtain ⟨-, ⟨nextReal, hturned⟩, -⟩ := hmapped.same hprogressed'
  rw [hturned] at hcur' hstuck
  refine ⟨⟨fun hbar => hstuckMap hprogressed' (Nat.sub_pos_of_lt hbar), ?_⟩, nextReal, hcur'⟩
  intro i user users hqueue
  exact hstuck i (mem_range.mpr (List.getElem?_eq_some_iff.mp hqueue).1) user users hqueue

structure Ended (sim : Simulator) (kept : ℕ → Prop) (n limit : ℕ) (run : Run) (outcome : Outcome) (run' : Run) : Prop where
  reaches : Reaches sim kept n limit run.cur run'.cur
  history : ∀ s ∈ run'.history, s ∈ run.history ∨ Invariant sim.isDynamicBarriers kept n limit s
  notFailed : outcome ≠ .failed
  success : outcome = .success → isComplete run'.cur = true
  blocked : Plain sim → outcome ≠ .success → outcome ≠ .outOfFuel → Blocked sim n run'.cur
  incomplete : Plain sim → outcome ≠ .success → outcome ≠ .outOfFuel → isComplete run'.cur ≠ true

theorem blockedOutcome_ne (s : SimState) :
    blockedOutcome s ≠ .failed ∧ blockedOutcome s ≠ .success ∧ blockedOutcome s ≠ .outOfFuel := by
  unfold blockedOutcome
  split
  · exact ⟨Outcome.noConfusion, Outcome.noConfusion, Outcome.noConfusion⟩
  · exact ⟨Outcome.noConfusion, Outcome.noConfusion, Outcome.noConfusion⟩

theorem simulationLoop_ended {fuel : ℕ} (h : Invariant sim.isDynamicBarriers kept n limit run.cur) :
    Ended sim kept n limit run (sim.simulationLoop fuel run).1 (sim.simulationLoop fuel run).2 ∧
      (remaining run.cur < fuel → (sim.simulationLoop fuel run).1 ≠ .outOfFuel) := by
  induction fuel generalizing run with
  | zero =>
    refine ⟨⟨reaches_refl h, fun _ => .inl, Outcome.noConfusion, Outcome.noConfusion,
      fun _ _ hfuel => absurd rfl hfuel, fun _ _ hfuel => absurd rfl hfuel⟩, fun hlt => absurd hlt (Nat.not_lt_zero _)⟩
  | succ fuel ih =>
    unfold simulationLoop
    by_cases hcomplete : isComplete run.cur = true
    · rw [if_pos hcomplete]
      exact ⟨⟨reaches_refl h, fun _ => .inl, Outcome.noConfusion, fun _ => hcomplete,
        fun _ hsuccess => absurd rfl hsuccess, fun _ hsuccess => absurd rfl hsuccess⟩,
        fun _ => Outcome.noConfusion⟩
    · rw [if_neg hcomplete]
      obtain ⟨run', hrun', hcontinues, hstuck⟩ := iteration_continues h
      dsimp only
      rw [hrun']
      dsimp only
      by_cases hprogressed : run'.progressed = true
      · rw [hprogressed, if_neg (by simp)]
        obtain ⟨hended, hfuel⟩ := ih hcontinues.reaches.invariant
        refine ⟨⟨hcontinues.reaches.trans hended.reaches, ?_, hended.notFailed, hended.success, hended.blocked,
          hended.incomplete⟩, ?_⟩
        · intro s hs
          cases hended.history s hs with
          | inl hs => exact hcontinues.history s hs
          | inr hs => exact .inr hs
        · intro hlt
          apply hfuel
          cases hcontinues.progressed hprogressed with
          | inl hfalse => cases hfalse
          | inr hless => exact Nat.lt_of_lt_of_le hless (Nat.le_of_lt_succ hlt)
      · have hfalse := (Bool.not_eq_true _).mp hprogressed
        rw [hfalse, if_pos (by rfl)]
        obtain ⟨hne, hsuccess, hout⟩ := blockedOutcome_ne run'.cur
        refine ⟨⟨hcontinues.reaches, hcontinues.history, hne, fun h => absurd h hsuccess,
          fun hmode _ _ => ?_, fun hmode _ _ => ?_⟩, fun _ => hout⟩
        · rw [(hcontinues.same hfalse).2.2 hmode]
          exact (hstuck hfalse).1
        rw [(hcontinues.same hfalse).2.2 hmode]
        exact hcomplete

end

end NpuCompiler.Barrier.Simulator
