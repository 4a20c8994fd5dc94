import NpuCompiler.Barrier.SimulatorConfluence

namespace NpuCompiler.Barrier.Simulator

open BarrierState Simulator List

structure WellFormed (sim : Simulator) : Prop where
  producers : ∀ v < sim.barriers.length,
    (sim.barriers.getD v default).producerCount = slotsUsed BarrierUser.producer sim.queues v
  consumers : ∀ v < sim.barriers.length,
    (sim.barriers.getD v default).consumerCount = slotsUsed BarrierUser.consumer sim.queues v
  consumers_pos : ∀ v < sim.barriers.length, 0 < (sim.barriers.getD v default).consumerCount
  users_lt : ∀ users ∈ sim.queues, ∀ user ∈ users, ∀ v, v ∈ user.consumer ∨ v ∈ user.producer → v < sim.barriers.length

structure Counted (sim : Simulator) : Prop where
  producers : ∀ v < sim.barriers.length,
    (sim.barriers.getD v default).producerCount = slotsUsed BarrierUser.producer sim.queues v
  consumers : ∀ v < sim.barriers.length,
    (sim.barriers.getD v default).consumerCount = slotsUsed BarrierUser.consumer sim.queues v
  users_lt : ∀ users ∈ sim.queues, ∀ user ∈ users, ∀ v, v ∈ user.consumer ∨ v ∈ user.producer → v < sim.barriers.length

def Unconsumed (sim : Simulator) (v : ℕ) : Prop := v < sim.barriers.length ∧ slotsUsed BarrierUser.consumer sim.queues v = 0

section
variable {sim : Simulator} {limit : ℕ}

theorem fill_freeRing : FreeRing limit (List.replicate limit none)
    ((List.range limit).foldl RingBuffer.push (RingBuffer.reset limit)) := by
  obtain ⟨hwellFormed, hcapacity, hlist⟩ := @RingBuffer.foldl_push ℕ _ (List.range limit) limit (by rw [length_range])
  refine ⟨hwellFormed, hcapacity, ?_, ?_⟩
  · rw [hlist]
    exact nodup_range
  · intro r
    rw [hlist, mem_range, getElem?_replicate]
    simp

theorem WellFormed.counted (h : WellFormed sim) : Counted sim := ⟨h.producers, h.consumers, h.users_lt⟩

theorem WellFormed.not_unconsumed (h : WellFormed sim) (v : ℕ) : ¬ Unconsumed sim v := by
  rintro ⟨hv, hnone⟩
  rw [← h.consumers v hv] at hnone
  exact Nat.ne_of_gt (h.consumers_pos v hv) hnone

theorem initialState_invariant (h : Counted sim)
    (hreal : sim.isDynamicBarriers = true → ∀ v, (sim.barriers.getD v default).realId = none) :
    Invariant sim.isDynamicBarriers (Unconsumed sim) sim.barriers.length limit (sim.initialState limit) := by
  refine ⟨Nat.zero_le _, ⟨rfl, length_replicate, ?_, ?_, ?_, ?_⟩, h.producers, h.consumers, h.users_lt, ?_, fun v hv => hv.2⟩
  · intro v hv
    exact absurd hv (Nat.not_lt_zero v)
  · intro hdynamic v _
    exact hreal hdynamic v
  · intro r v
    change (List.replicate limit none)[r]? = some (some v) ↔ v < 0 ∧ _
    rw [getElem?_replicate]
    simp
  · intro hdynamic
    unfold initialState
    rw [if_pos hdynamic]
    exact fill_freeRing
  · intro v hv _
    unfold InUse
    change 0 < (sim.barriers.getD v default).consumerCount ∨ _
    rw [h.consumers v hv]
    exact (Nat.eq_zero_or_pos _).symm.imp_right (fun hnone => ⟨hv, hnone⟩)

end

def Live (s : SimState) (v : ℕ) : Prop := v < s.bar ∧ 0 < s.consumerCount v

def Run.states (run : Run) : List SimState := run.history ++ [run.cur]

def validation (sim : Simulator) (run : Run) : Simulator :=
  { sim with
    isDynamicBarriers := false
    barriers := sim.barriers.zipWith (fun bar assigned => { bar with realId := assigned.realId }) run.cur.barriers }

section
variable {sim : Simulator} {limit : ℕ} {s : SimState}

theorem Invariant.live_eq {isDynamicBarriers : Bool} {kept : ℕ → Prop} {n : ℕ} (h : Invariant isDynamicBarriers kept n limit s) {v w : ℕ}
    (hv : Live s v) (hw : Live s w) (heq : s.realId v = s.realId w) : v = w := by
  obtain ⟨r, -, hreal⟩ := h.mapped.assigned v hv.1 (.inl hv.2)
  have hslotv := (h.mapped.slot r v).mpr ⟨hv.1, hreal, .inl hv.2⟩
  have hslotw := (h.mapped.slot r w).mpr ⟨hw.1, heq ▸ hreal, .inl hw.2⟩
  rw [hslotv, Option.some.injEq, Option.some.injEq] at hslotw
  exact hslotw

theorem isComplete_iff {n : ℕ} (hn : s.barriers.length = n) : isComplete s = true ↔ n ≤ s.bar ∧ ∀ users ∈ s.queues, users = [] := by
  unfold isComplete
  rw [Bool.and_eq_true, decide_eq_true_eq, hn, all_eq_true]
  simp only [List.isEmpty_iff]

theorem getD_zipWith {f : BarrierConfig → BarrierConfig → BarrierConfig} {barriers assigned : List BarrierConfig} {v : ℕ}
    (hlength : barriers.length = assigned.length) (hv : v < barriers.length) :
    (barriers.zipWith f assigned).getD v default = f (barriers.getD v default) (assigned.getD v default) := by
  have hzip : v < (barriers.zipWith f assigned).length := by
    rw [length_zipWith, ← hlength, Nat.min_self]
    exact hv
  rw [getD_eq_getElem barriers _ hv, getD_eq_getElem assigned _ (Nat.lt_of_lt_of_eq hv hlength),
    getD_eq_getElem _ _ hzip, getElem_zipWith]

theorem validation_spec {run : Run} (hlength : run.cur.barriers.length = sim.barriers.length) (h : WellFormed sim) :
    (validation sim run).barriers.length = sim.barriers.length ∧ WellFormed (validation sim run) ∧
      ∀ v < sim.barriers.length, ((validation sim run).barriers.getD v default).realId = run.cur.realId v := by
  have hlen : (validation sim run).barriers.length = sim.barriers.length := by
    change (List.zipWith _ _ _).length = _
    rw [length_zipWith, hlength, Nat.min_self]
  have hget : ∀ v < sim.barriers.length, (validation sim run).barriers.getD v default =
      { sim.barriers.getD v default with realId := run.cur.realId v } := fun v hv =>
    getD_zipWith hlength.symm hv
  refine ⟨hlen, ⟨?_, ?_, ?_, ?_⟩, ?_⟩
  · rw [hlen]
    intro v hv
    rw [hget v hv]
    exact h.producers v hv
  · rw [hlen]
    intro v hv
    rw [hget v hv]
    exact h.consumers v hv
  · rw [hlen]
    intro v hv
    rw [hget v hv]
    exact h.consumers_pos v hv
  · rw [hlen]
    exact h.users_lt
  · intro v hv
    rw [hget v hv]

theorem simulateBarriers_ended {numBarriers : Option ℕ} (h : WellFormed sim)
    (hreal : sim.isDynamicBarriers = true → ∀ v, (sim.barriers.getD v default).realId = none)
    (hlimit : numBarriers.getD sim.availableBarriers ≤ sim.availableBarriers) :
    Ended sim (Unconsumed sim) sim.barriers.length (numBarriers.getD sim.availableBarriers)
      ⟨sim.initialState (numBarriers.getD sim.availableBarriers), [], false⟩ (sim.simulateBarriers numBarriers).1
      (sim.simulateBarriers numBarriers).2 ∧ (sim.simulateBarriers numBarriers).1 ≠ .outOfFuel := by
  unfold simulateBarriers
  dsimp only
  rw [if_neg (Nat.not_lt.mpr hlimit)]
  obtain ⟨hended, hfuel⟩ := @simulationLoop_ended sim (Unconsumed sim) sim.barriers.length
    (numBarriers.getD sim.availableBarriers) ⟨sim.initialState (numBarriers.getD sim.availableBarriers), [], false⟩ _
    (initialState_invariant h.counted hreal)
  exact ⟨hended, hfuel (Nat.lt_succ_self _)⟩

theorem validation_success {run : Run} {limit numBarriers : ℕ} (h : WellFormed sim)
    (hinvariant : Invariant sim.isDynamicBarriers (Unconsumed sim) sim.barriers.length limit run.cur)
    (hassigned : ∀ v < run.cur.bar, ∃ r < limit, run.cur.realId v = some r) (hcomplete : isComplete run.cur = true)
    (hfires : ∀ ids : ℕ → ℕ, (∀ v < run.cur.bar, run.cur.realId v = some (ids v)) →
      Relation.ReflTransGen (Fire sim.barriers.length ids) (0, sim.queues) (run.cur.bar, run.cur.queues))
    (hle : limit ≤ numBarriers) (havailable : numBarriers ≤ sim.availableBarriers) :
    ((validation sim run).simulateBarriers (some numBarriers)).1 = .success := by
  obtain ⟨hlen, hwellFormed, hreal⟩ := validation_spec hinvariant.mapped.length h
  obtain ⟨hended, hfuel⟩ := @simulateBarriers_ended (validation sim run) (some numBarriers) hwellFormed
    (fun hdynamic => by cases hdynamic) havailable
  rw [hlen] at hended
  obtain ⟨hbar, hqueues⟩ := (isComplete_iff hinvariant.mapped.length).mp hcomplete
  have hbarEq : run.cur.bar = sim.barriers.length := Nat.le_antisymm hinvariant.bar_le hbar
  have hids : ∀ v < sim.barriers.length, run.cur.realId v = some ((run.cur.realId v).getD 0) ∧
      (run.cur.realId v).getD 0 < numBarriers := by
    intro v hv
    obtain ⟨r, hr, hassigned⟩ := hassigned v (hbarEq ▸ hv)
    rw [hassigned]
    exact ⟨rfl, Nat.lt_of_lt_of_le hr hle⟩
  generalize ((validation sim run).simulateBarriers (some numBarriers)).2 = run' at hended
  have hreal' : ∀ v < sim.barriers.length, run'.cur.realId v = run.cur.realId v := by
    intro v hv
    rw [hended.reaches.realId v (.inr rfl)]
    exact hreal v hv
  by_contra hfail
  have hplain : Plain (validation sim run) := fun hdynamic => by cases hdynamic
  have hstuck : Stuck sim.barriers.length (fun v => (run.cur.realId v).getD 0) run'.cur := by
    apply (hended.blocked hplain hfail hfuel).stuck hended.reaches.invariant hwellFormed.not_unconsumed _ rfl
    intro v hv
    rw [hreal' v hv]
    exact hids v hv
  have hfires' := hended.reaches.fires (fun v => (run.cur.realId v).getD 0) (fun v hv => by
    have hlt : v < sim.barriers.length := Nat.lt_of_lt_of_le hv hended.reaches.invariant.bar_le
    rw [hreal' v hlt]
    exact (hids v hlt).1)
  have hterminal : Terminal (Fire sim.barriers.length (fun v => (run.cur.realId v).getD 0)) (run.cur.bar, run.cur.queues) := by
    rw [fire_eq]
    exact terminal_of_complete (fun _ hmap => Nat.not_lt_of_le hbar hmap.1) hqueues
  have heq := fire_diamond.eq_of_terminal hfires' (hfires _ (fun v hv => (hids v (hbarEq ▸ hv)).1)) hstuck hterminal
  rw [Prod.mk.injEq] at heq
  apply hended.incomplete hplain hfail hfuel
  rw [isComplete_iff hended.reaches.invariant.mapped.length, heq.1, heq.2]
  exact ⟨hbar, hqueues⟩

/-- When no barrier has an id yet (so in the dynamic mode), no task fails, two live barriers never share an id, and after a
success all ids are within the limit and pass the validation, also with more physical barriers. -/
theorem simulateBarriers_validated {numBarriers : Option ℕ} (h : WellFormed sim)
    (hreal : ∀ v, (sim.barriers.getD v default).realId = none) :
    (sim.simulateBarriers numBarriers).1 ≠ .failed ∧
      (∀ s ∈ (sim.simulateBarriers numBarriers).2.states, ∀ v w, Live s v → Live s w → s.realId v = s.realId w → v = w) ∧
      ((sim.simulateBarriers numBarriers).1 = .success →
        (∀ v < sim.barriers.length, ∃ r < numBarriers.getD sim.availableBarriers,
          (sim.simulateBarriers numBarriers).2.cur.realId v = some r) ∧
        ∀ m, numBarriers.getD sim.availableBarriers ≤ m → m ≤ sim.availableBarriers →
          ((validation sim (sim.simulateBarriers numBarriers).2).simulateBarriers (some m)).1 = .success) := by
  by_cases hlimit : numBarriers.getD sim.availableBarriers ≤ sim.availableBarriers
  · obtain ⟨hended, -⟩ := simulateBarriers_ended h (fun _ => hreal) hlimit
    refine ⟨hended.notFailed, ?_, ?_⟩
    · intro s hs v w hv hw heq
      have hinvariant : Invariant sim.isDynamicBarriers (Unconsumed sim) sim.barriers.length (numBarriers.getD sim.availableBarriers) s := by
        cases mem_append.mp hs with
        | inl hs => exact (hended.history s hs).resolve_left not_mem_nil
        | inr hs =>
          rw [mem_singleton.mp hs]
          exact hended.reaches.invariant
      exact hinvariant.live_eq hv hw heq
    · intro hsuccess
      have hinvariant := hended.reaches.invariant
      have hcomplete := hended.success hsuccess
      obtain ⟨hbar, -⟩ := (isComplete_iff hinvariant.mapped.length).mp hcomplete
      have hassigned := fun v => hended.reaches.assigned v (Nat.zero_le v)
      refine ⟨fun v hv => hassigned v (Nat.lt_of_lt_of_le hv hbar), fun m hle havailable => ?_⟩
      exact validation_success h hinvariant hassigned hcomplete hended.reaches.fires hle havailable
  · have hthrown : ∃ message, sim.simulateBarriers numBarriers =
        (.thrown message, ⟨sim.initialState (numBarriers.getD sim.availableBarriers), [], false⟩) := by
      unfold simulateBarriers
      dsimp only
      rw [if_pos (Nat.lt_of_not_le hlimit)]
      exact ⟨_, rfl⟩
    obtain ⟨message, hresult⟩ := hthrown
    rw [hresult]
    refine ⟨Outcome.noConfusion, ?_, Outcome.noConfusion⟩
    intro s hs v w hv
    rw [Run.states, nil_append, mem_singleton] at hs
    rw [hs] at hv
    exact absurd hv.1 (Nat.not_lt_zero v)

end

def chain : Simulator where
  isDynamicBarriers := true
  barrierWlmHandler := none
  availableBarriers := 2
  barriers := [⟨none, 1, 2⟩, ⟨none, 2, 1⟩, ⟨none, 1, 1⟩]
  queues := [[⟨[], [0], 1, Nat.one_pos⟩, ⟨[1], [2], 1, Nat.one_pos⟩], [⟨[0], [1], 2, Nat.two_pos⟩, ⟨[2], [], 1, Nat.one_pos⟩]]

theorem chain_wellFormed : WellFormed chain := by
  refine ⟨by decide, by decide, by decide, ?_⟩
  simp [chain]

theorem simulateBarriers_validated_chain : (chain.simulateBarriers none).1 = .success ∧
      ((validation chain (chain.simulateBarriers none).2).simulateBarriers (some 2)).1 = .success := by
  have hreal : ∀ v, (chain.barriers.getD v default).realId = none := by
    intro v
    match v with
    | 0 | 1 | 2 => rfl
    | v + 3 => rfl
  have hsuccess : (chain.simulateBarriers none).1 = .success := by decide
  exact ⟨hsuccess, ((simulateBarriers_validated chain_wellFormed hreal).2.2 hsuccess).2 2 (by decide) (by decide)⟩

end NpuCompiler.Barrier.Simulator

namespace NpuCompiler.Barrier.Simulator

open BarrierState Simulator

/-- Some interleaving of executions of the first tasks of the queues and of mappings of the next barrier to a physical one
that is free completes all tasks. -/
def Completes (n limit : ℕ) (queues : List (List BarrierUser)) : Prop :=
  ∃ ids : ℕ → ℕ, (∀ v < n, ids v < limit) ∧ ∃ done : List (List BarrierUser), (∀ users ∈ done, users = []) ∧
    Relation.ReflTransGen (Fire n ids) (0, queues) (n, done)

section
variable {n limit : ℕ} {ids : ℕ → ℕ} {queues queues' : List (List BarrierUser)}

theorem slotsUsed_perm {f : BarrierUser → List ℕ} {v : ℕ} (h : queues'.Perm queues) :
    slotsUsed f queues' v = slotsUsed f queues v := (h.map _).sum_eq

theorem fire_perm {a b : ℕ × List (List BarrierUser)} (h : Fire n ids a b) (hperm : queues'.Perm a.2) :
    ∃ done, Fire n ids (a.1, queues') (b.1, done) ∧ done.Perm b.2 := by
  cases h with
  | @map bar queues hbar hfree =>
    refine ⟨queues', .map hbar (fun v hv heq => ?_), hperm⟩
    rw [slotsUsed_perm hperm]
    exact hfree v hv heq
  | @process bar i queues user users hqueue hready =>
    obtain ⟨hi, hget⟩ := List.getElem?_eq_some_iff.mp hqueue
    obtain ⟨j, hj, hget'⟩ := List.getElem_of_mem (hperm.mem_iff.mpr (List.mem_of_getElem? hqueue))
    refine ⟨queues'.set j users, .process (List.getElem?_eq_some_iff.mpr ⟨hj, hget'⟩) ?_, ?_⟩
    · apply hready.mono (Nat.le_refl _)
      exact fun v => Nat.le_of_eq (slotsUsed_perm hperm)
    · have hrest : (queues'.eraseIdx j).Perm (queues.eraseIdx i) := by
        apply List.Perm.cons_inv (a := user :: users)
        rw [← hget']
        apply (List.getElem_cons_eraseIdx_perm hj).trans
        rw [hget', ← hget]
        exact hperm.trans (List.getElem_cons_eraseIdx_perm hi).symm
      exact ((List.set_perm_cons_eraseIdx hj users).trans (hrest.cons users)).trans (List.set_perm_cons_eraseIdx hi users).symm

theorem completes_of_perm (h : Completes n limit queues) (hperm : queues'.Perm queues) : Completes n limit queues' := by
  obtain ⟨ids, hlt, done, hdone, hrun⟩ := h
  have hruns : ∀ a b, Relation.ReflTransGen (Fire n ids) a b → ∀ queues', queues'.Perm a.2 →
      ∃ done', Relation.ReflTransGen (Fire n ids) (a.1, queues') (b.1, done') ∧ done'.Perm b.2 := by
    intro a b hab queues' hperm
    induction hab with
    | refl => exact ⟨queues', .refl, hperm⟩
    | tail _ hfire ih =>
      obtain ⟨mid, hmid, hmidPerm⟩ := ih
      obtain ⟨done', hdone', hperm'⟩ := fire_perm hfire hmidPerm
      exact ⟨done', hmid.tail hdone', hperm'⟩
  obtain ⟨done', hrun', hperm'⟩ := hruns _ _ hrun queues' hperm
  exact ⟨ids, hlt, done', fun users husers => hdone users (hperm'.mem_iff.mp husers), hrun'⟩

theorem WellFormed.perm {sim : Simulator} (h : WellFormed sim) (hperm : queues'.Perm sim.queues) :
    WellFormed { sim with queues := queues' } := by
  refine ⟨?_, ?_, h.consumers_pos, ?_⟩
  · intro v hv
    rw [h.producers v hv]
    exact (slotsUsed_perm hperm).symm
  · intro v hv
    rw [h.consumers v hv]
    exact (slotsUsed_perm hperm).symm
  · exact fun users husers => h.users_lt users (hperm.mem_iff.mp husers)

end

section
variable {sim : Simulator} {limit : ℕ} {s : SimState}

theorem distinct_nil {ids : ℕ → ℕ} {queues : List (List BarrierUser)} : Distinct ids 0 queues :=
  fun _ hv => absurd (mem_liveBarriers.mp hv).1 (Nat.not_lt_zero _)

theorem Blocked.terminal {kept : ℕ → Prop} {n : ℕ} (hkept : ∀ v, ¬ kept v) (hblocked : Blocked sim n s) (h : Invariant sim.isDynamicBarriers kept n limit s)
    (hdynamic : sim.isDynamicBarriers = true) (hplain : Plain sim) : Terminal (FireWhen (HasFree n limit)) (s.bar, s.queues) := by
  intro next hfire
  cases hfire with
  | process hqueue hready => exact hblocked.queues _ _ _ hqueue hready
  | map hfree =>
    obtain ⟨hbar, hfree⟩ := hfree
    have hempty := (hblocked.mapping hbar).resolve_right (fun hor => hor.1 hplain)
    obtain ⟨hwellFormed, _, _, hring⟩ := h.mapped.ring hdynamic
    have hnil : s.nextReal.toList = [] := by
      unfold hasBarriersToMap at hempty
      rw [if_pos hdynamic] at hempty
      apply List.length_eq_zero_iff.mp
      rw [RingBuffer.length_toList]
      simpa [RingBuffer.isEmpty] using hempty
    have hslot : ∀ r < limit, ∃ v ∈ liveBarriers s.bar s.queues, s.realId v = some r := by
      intro r hr
      have hin : r < s.toVirtual.length := h.mapped.slots.symm ▸ hr
      cases hget : s.toVirtual[r] with
      | none =>
        have hmem : r ∈ s.nextReal.toList := by
          rw [hring, List.getElem?_eq_getElem hin, hget]
        exact absurd (hnil ▸ hmem) List.not_mem_nil
      | some v =>
        obtain ⟨hlt, hreal, hinUse⟩ := (h.mapped.slot r v).mp (by rw [List.getElem?_eq_getElem hin, hget])
        have hpos := hinUse.resolve_right (hkept v)
        rw [h.pending.consumers v (Nat.lt_trans hlt hbar)] at hpos
        exact ⟨v, mem_liveBarriers.mpr ⟨hlt, hpos⟩, hreal⟩
    -- each id has a live barrier of its own
    have hsub : (List.range limit).map some ⊆ (liveBarriers s.bar s.queues).map s.realId := by
      intro id hid
      obtain ⟨r, hr, rfl⟩ := List.mem_map.mp hid
      obtain ⟨v, hv, hreal⟩ := hslot r (List.mem_range.mp hr)
      exact List.mem_map.mpr ⟨v, hv, hreal⟩
    have hnodup : ((List.range limit).map some).Nodup := List.nodup_range.map (Option.some_injective ℕ)
    have hle := (List.subperm_of_subset hnodup hsub).length_le
    rw [List.length_map, List.length_map, List.length_range] at hle
    exact Nat.not_lt_of_le hle hfree

theorem success_iff_completes {numBarriers : Option ℕ} (h : WellFormed sim)
    (hreal : ∀ v, (sim.barriers.getD v default).realId = none) (hdynamic : sim.isDynamicBarriers = true)
    (hhandler : sim.barrierWlmHandler = none) (hlimit : numBarriers.getD sim.availableBarriers ≤ sim.availableBarriers) :
    (sim.simulateBarriers numBarriers).1 = .success ↔
      Completes sim.barriers.length (numBarriers.getD sim.availableBarriers) sim.queues := by
  obtain ⟨hended, hfuel⟩ := simulateBarriers_ended h (fun _ => hreal) hlimit
  have hinvariant := hended.reaches.invariant
  generalize numBarriers.getD sim.availableBarriers = limit at hended hinvariant ⊢
  generalize (sim.simulateBarriers numBarriers).1 = outcome at hended hfuel ⊢
  generalize (sim.simulateBarriers numBarriers).2 = run at hended hinvariant
  have hids : ∀ v < run.cur.bar, run.cur.realId v = some ((run.cur.realId v).getD 0) ∧ (run.cur.realId v).getD 0 < limit := by
    intro v hv
    obtain ⟨r, hr, hassigned⟩ := hended.reaches.assigned v (Nat.zero_le v) hv
    rw [hassigned]
    exact ⟨rfl, hr⟩
  have hfires := hended.reaches.fires (fun v => (run.cur.realId v).getD 0) (fun v hv => (hids v hv).1)
  constructor
  · intro hsuccess
    obtain ⟨hbar, hqueues⟩ := (isComplete_iff hinvariant.mapped.length).mp (hended.success hsuccess)
    have hbarEq : run.cur.bar = sim.barriers.length := Nat.le_antisymm hinvariant.bar_le hbar
    rw [hbarEq] at hids hfires
    exact ⟨_, fun v hv => (hids v hv).2, run.cur.queues, hqueues, hfires⟩
  · rintro ⟨ids, hlt, done, hdone, hcompletes⟩
    by_contra hfail
    have hplain : Plain sim := fun _ => hhandler
    have hrun := (fires_hasFree distinct_nil (fun v hv => (hids v hv).2) hfires).1
    have hrun' := (fires_hasFree distinct_nil hlt hcompletes).1
    have hterminal := (hended.blocked hplain hfail hfuel).terminal h.not_unconsumed hinvariant hdynamic hplain
    have hterminal' : Terminal (FireWhen (HasFree sim.barriers.length limit)) (sim.barriers.length, done) :=
      terminal_of_complete (fun _ hmap => Nat.lt_irrefl _ hmap.1) hdone
    have heq := (fireWhen_diamond hasFree_stays).eq_of_terminal hrun hrun' hterminal hterminal'
    rw [Prod.mk.injEq] at heq
    apply hended.incomplete hplain hfail hfuel
    rw [isComplete_iff hinvariant.mapped.length, heq.1, heq.2]
    exact ⟨Nat.le_refl _, hdone⟩

/-- In the dynamic mode and without restricted ids, the simulation succeeds if and only if some interleaving completes all
tasks, and the order of the queues does not matter. -/
theorem simulateBarriers_success_iff {numBarriers : Option ℕ} (h : WellFormed sim)
    (hreal : ∀ v, (sim.barriers.getD v default).realId = none) (hdynamic : sim.isDynamicBarriers = true)
    (hhandler : sim.barrierWlmHandler = none) (hlimit : numBarriers.getD sim.availableBarriers ≤ sim.availableBarriers) :
    ((sim.simulateBarriers numBarriers).1 = .success ↔
      Completes sim.barriers.length (numBarriers.getD sim.availableBarriers) sim.queues) ∧
    ∀ queues' : List (List BarrierUser), queues'.Perm sim.queues →
      ((simulateBarriers { sim with queues := queues' } numBarriers).1 = .success ↔
        (sim.simulateBarriers numBarriers).1 = .success) := by
  have hiff := success_iff_completes h hreal hdynamic hhandler hlimit
  refine ⟨hiff, fun queues' hperm => ?_⟩
  rw [hiff, success_iff_completes (h.perm hperm) hreal hdynamic hhandler hlimit]
  constructor
  · exact fun hcompletes => completes_of_perm hcompletes hperm.symm
  · exact fun hcompletes => completes_of_perm hcompletes hperm

end

theorem simulateBarriers_success_iff_chain : Completes 3 2 chain.queues ∧
    (simulateBarriers { chain with queues := chain.queues.reverse } none).1 = .success := by
  have hreal : ∀ v, (chain.barriers.getD v default).realId = none := by
    intro v
    match v with
    | 0 | 1 | 2 => rfl
    | v + 3 => rfl
  have hsuccess : (chain.simulateBarriers none).1 = .success := by decide
  obtain ⟨hiff, hperm⟩ := @simulateBarriers_success_iff chain none chain_wellFormed hreal rfl rfl (by decide)
  exact ⟨hiff.mp hsuccess, (hperm _ chain.queues.reverse_perm).mpr hsuccess⟩

end NpuCompiler.Barrier.Simulator
