import NpuCompiler.Barrier.SimulatorInvariant

namespace NpuCompiler.Barrier.Simulator

open BarrierState List

section
variable {limit : ℕ} {toVirtual : List (Option ℕ)} {nextReal : RingBuffer ℕ}

theorem FreeRing.pop (h : FreeRing limit toVirtual nextReal) (hsize : 0 < nextReal.size) (v : ℕ) :
    toVirtual[nextReal.front]? = some none ∧ FreeRing limit (toVirtual.set nextReal.front (some v)) nextReal.pop := by
  obtain ⟨hwellFormed, hcapacity, hnodup, hmem⟩ := h
  have hlist := RingBuffer.toList_pop hwellFormed hsize
  rw [hlist] at hnodup hmem
  obtain ⟨hfront, hnodup⟩ := nodup_cons.mp hnodup
  have hfree := (hmem nextReal.front).mp mem_cons_self
  refine ⟨hfree, RingBuffer.pop_wellFormed hwellFormed hsize, hcapacity, hnodup, ?_⟩
  intro r
  by_cases heq : nextReal.front = r
  · subst heq
    rw [getElem?_set_self (List.getElem?_eq_some_iff.mp hfree).1]
    simp [hfront]
  · rw [getElem?_set_ne heq, ← hmem, mem_cons]
    simp [Ne.symm heq]

theorem FreeRing.rotate (h : FreeRing limit toVirtual nextReal) (hsize : 0 < nextReal.size) :
    FreeRing limit toVirtual (nextReal.pop.push nextReal.front) ∧
      (nextReal.pop.push nextReal.front).size = nextReal.size := by
  obtain ⟨hwellFormed, hcapacity, hnodup, hmem⟩ := h
  have hlist := RingBuffer.toList_pop hwellFormed hsize
  have hpop := RingBuffer.pop_wellFormed hwellFormed hsize
  have hroom : nextReal.pop.size < nextReal.pop.capacity :=
    Nat.lt_of_lt_of_le (Nat.sub_lt hsize Nat.zero_lt_one) hwellFormed.size_le
  have hperm : (nextReal.pop.push nextReal.front).toList.Perm nextReal.toList := by
    rw [RingBuffer.toList_push hpop hroom, hlist]
    exact perm_append_singleton _ _
  refine ⟨⟨RingBuffer.push_wellFormed hpop hroom, ?_, hperm.nodup_iff.mpr hnodup, ?_⟩, ?_⟩
  · rw [RingBuffer.capacity_push]
    exact hcapacity
  · intro r
    rw [hperm.mem_iff, hmem]
  · exact Nat.sub_add_cancel hsize

theorem pickReusable_spec {handler : BarrierWlmHandler} {s : SimState} {k : ℕ} (h : FreeRing limit toVirtual nextReal)
    (hk : k ≤ nextReal.size) :
    ∃ turned, FreeRing limit toVirtual turned ∧
      ((Simulator.pickReusable handler s k nextReal = (none, turned) ∧
          ∀ r ∈ nextReal.toList.take k, s.prevVidOfPhysBar.getD r none ≠ none) ∨
        (0 < turned.size ∧ Simulator.pickReusable handler s k nextReal = (some turned.front, turned.pop))) := by
  induction k generalizing nextReal with
  | zero =>
    refine ⟨nextReal, h, .inl ⟨rfl, ?_⟩⟩
    exact fun r hr => absurd hr (by simp)
  | succ k ih =>
    have hsize : 0 < nextReal.size := Nat.lt_of_lt_of_le (Nat.succ_pos k) hk
    obtain ⟨hrotate, hsame⟩ := h.rotate hsize
    have hrest := ih hrotate (by omega)
    unfold Simulator.pickReusable
    dsimp only
    cases hprev : s.prevVidOfPhysBar.getD nextReal.front none with
    | none => exact ⟨nextReal, h, .inr ⟨hsize, rfl⟩⟩
    | some prevVid =>
      dsimp only
      split_ifs with hreuse
      · exact ⟨nextReal, h, .inr ⟨hsize, rfl⟩⟩
      · obtain ⟨turned, hturned, hnone | hsome⟩ := hrest
        · refine ⟨turned, hturned, .inl ⟨hnone.1, ?_⟩⟩
          -- the ring has turned by one
          have hpop := RingBuffer.pop_wellFormed h.1 hsize
          have hroom : nextReal.pop.size < nextReal.pop.capacity :=
            Nat.lt_of_lt_of_le (Nat.sub_lt hsize Nat.zero_lt_one) h.1.size_le
          have htail : k ≤ nextReal.pop.toList.length := by
            rw [RingBuffer.length_toList]
            exact Nat.le_sub_one_of_lt hk
          intro r hr
          rw [RingBuffer.toList_pop h.1 hsize, take_succ_cons] at hr
          cases mem_cons.mp hr with
          | inl heq =>
            rw [heq, hprev]
            exact Option.some_ne_none prevVid
          | inr hr =>
            apply hnone.2
            rwa [RingBuffer.toList_push hpop hroom, take_append_of_le_length htail]
        · exact ⟨turned, hturned, .inr hsome⟩

end

/-- What has been mapped and what is left, with the ids that are assigned in the end: a step maps the next barrier or
processes the first task of a queue. -/
inductive Fire (n : ℕ) (ids : ℕ → ℕ) : ℕ × List (List BarrierUser) → ℕ × List (List BarrierUser) → Prop
  | map {bar : ℕ} {queues : List (List BarrierUser)} (hbar : bar < n)
      (hfree : ∀ v < bar, ids v = ids bar → slotsUsed BarrierUser.consumer queues v = 0) : Fire n ids (bar, queues) (bar + 1, queues)
  | process {bar i : ℕ} {queues : List (List BarrierUser)} {user : BarrierUser} {users : List BarrierUser}
      (hqueue : queues[i]? = some (user :: users)) (hready : Ready bar queues user) :
      Fire n ids (bar, queues) (bar, queues.set i users)

structure Reaches (sim : Simulator) (kept : ℕ → Prop) (n limit : ℕ) (s s' : SimState) : Prop where
  invariant : Invariant sim.isDynamicBarriers kept n limit s'
  bar_le : s.bar ≤ s'.bar
  queues_length : s'.queues.length = s.queues.length
  suffix : ∀ i, s'.queues.getD i [] <:+ s.queues.getD i []
  realId : ∀ v, v < s.bar ∨ sim.isDynamicBarriers = false → s'.realId v = s.realId v
  assigned : ∀ v, s.bar ≤ v → v < s'.bar → ∃ r < limit, s'.realId v = some r
  /-- The barriers that have been mapped are the last ones of their physical barriers. -/
  prevVid : s'.prevVidOfPhysBar = (List.range' s.bar (s'.bar - s.bar)).foldl
    (fun prev v => prev.set ((s'.realId v).getD 0) (some v)) s.prevVidOfPhysBar
  fires : ∀ ids : ℕ → ℕ, (∀ v < s'.bar, s'.realId v = some (ids v)) →
    Relation.ReflTransGen (Fire n ids) (s.bar, s.queues) (s'.bar, s'.queues)
  remaining : Simulator.remaining s' ≤ Simulator.remaining s

section
variable {sim : Simulator} {kept : ℕ → Prop} {n limit r : ℕ} {s s' s'' : SimState}

theorem reaches_refl (h : Invariant sim.isDynamicBarriers kept n limit s) : Reaches sim kept n limit s s :=
  ⟨h, Nat.le_refl _, rfl, fun _ => suffix_rfl, fun _ _ => rfl,
    fun _ hle hlt => absurd hlt (Nat.not_lt_of_le hle), by simp only [Nat.sub_self, range'_zero, foldl_nil], fun _ _ => .refl, Nat.le_refl _⟩

theorem Reaches.trans (h : Reaches sim kept n limit s s') (h' : Reaches sim kept n limit s' s'') : Reaches sim kept n limit s s'' := by
  refine ⟨h'.invariant, Nat.le_trans h.bar_le h'.bar_le, h'.queues_length.trans h.queues_length,
    fun i => (h'.suffix i).trans (h.suffix i), ?_, ?_, ?_, ?_, Nat.le_trans h'.remaining h.remaining⟩
  · intro v hv
    rw [h'.realId v (hv.imp_left (fun hlt => Nat.lt_of_lt_of_le hlt h.bar_le)), h.realId v hv]
  · intro v hle hlt
    cases Nat.lt_or_ge v s'.bar with
    | inl hfirst =>
      rw [h'.realId v (.inl hfirst)]
      exact h.assigned v hle hfirst
    | inr hsecond => exact h'.assigned v hsecond hlt
  · have hsplit : List.range' s.bar (s''.bar - s.bar) =
        List.range' s.bar (s'.bar - s.bar) ++ List.range' s'.bar (s''.bar - s'.bar) := by
      obtain ⟨k, hk⟩ := Nat.exists_eq_add_of_le h.bar_le
      obtain ⟨m, hm⟩ := Nat.exists_eq_add_of_le h'.bar_le
      rw [hm, hk, Nat.add_sub_cancel_left, Nat.add_assoc, Nat.add_sub_cancel_left, ← Nat.add_assoc, Nat.add_sub_cancel_left,
        range'_append_1]
    rw [hsplit, foldl_append, h'.prevVid, h.prevVid]
    congr 1
    apply foldl_ext
    intro prev v hv
    rw [h'.realId v (.inl _)]
    have hlt := (mem_range'_1.mp hv).2
    have hfirst := h.bar_le
    omega
  · intro ids hids
    refine (h.fires ids (fun v hv => ?_)).trans (h'.fires ids hids)
    rw [← h'.realId v (.inl hv)]
    exact hids v (Nat.lt_of_lt_of_le hv h'.bar_le)

section
variable {nextReal : RingBuffer ℕ}

theorem setReal_realId (hbar : s.bar < s.barriers.length) (v : ℕ) :
    (Simulator.setReal s r nextReal).realId v = if s.bar = v then some r else s.realId v := by
  unfold BarrierState.realId Simulator.setReal
  dsimp only
  rw [getD_modify _ hbar]
  split_ifs
  · rfl
  · rfl

theorem setReal_counts (hbar : s.bar < s.barriers.length) (v : ℕ) :
    (Simulator.setReal s r nextReal).producerCount v = s.producerCount v ∧
      (Simulator.setReal s r nextReal).consumerCount v = s.consumerCount v := by
  unfold BarrierState.producerCount BarrierState.consumerCount Simulator.setReal
  dsimp only
  rw [getD_modify _ hbar]
  split_ifs
  · exact ⟨rfl, rfl⟩
  · exact ⟨rfl, rfl⟩

theorem setReal_invariant (h : Invariant sim.isDynamicBarriers kept n limit s) (hbar : s.bar < n)
    (hfree : s.toVirtual[r]? = some none)
    (hring : sim.isDynamicBarriers = true → FreeRing limit (s.toVirtual.set r (some s.bar)) nextReal) :
    Invariant sim.isDynamicBarriers kept n limit (Simulator.setReal s r nextReal) := by
  have hlt : s.bar < s.barriers.length := h.mapped.length.symm ▸ hbar
  have hr : r < s.toVirtual.length := (List.getElem?_eq_some_iff.mp hfree).1
  have hreal := @setReal_realId r s nextReal hlt
  have hcounts := @setReal_counts r s nextReal hlt
  have hinUse : ∀ v, InUse kept (Simulator.setReal s r nextReal).toBarrierState v ↔ InUse kept s.toBarrierState v := by
    intro v
    unfold InUse
    rw [(hcounts v).2]
  refine ⟨hbar, ⟨?_, ?_, ?_, ?_, ?_, ?_⟩, ?_, ?_, ?_, ?_, ?_⟩
  · exact (length_modify ..).trans h.mapped.length
  · exact length_set.trans h.mapped.slots
  · intro v hv
    rw [hreal]
    split_ifs with heq
    · exact fun _ => ⟨r, h.mapped.slots ▸ hr, rfl⟩
    · rw [hinUse]
      intro hcount
      exact h.mapped.assigned v (Nat.lt_of_le_of_ne (Nat.le_of_lt_succ hv) (Ne.symm heq)) hcount
  · intro hdynamic v hv
    rw [hreal, if_neg (Nat.ne_of_lt hv)]
    exact h.mapped.unassigned hdynamic v (Nat.le_of_succ_le hv)
  · intro r' v
    change (s.toVirtual.set r (some s.bar))[r']? = some (some v) ↔ v < s.bar + 1 ∧ _
    rw [hreal, hinUse]
    by_cases hv : s.bar = v
    · subst hv
      rw [if_pos rfl]
      have hpos := h.pending.waiting s.bar hbar (.inl (Nat.le_refl _))
      by_cases heq : r = r'
      · subst heq
        rw [getElem?_set_self hr]
        simp [hpos]
      · rw [getElem?_set_ne heq, h.mapped.slot]
        simp [heq]
    · rw [if_neg hv, Nat.lt_succ_iff_lt_or_eq, or_iff_left (Ne.symm hv)]
      by_cases heq : r = r'
      · subst heq
        rw [getElem?_set_self hr, ← h.mapped.slot, hfree]
        simp [hv]
      · rw [getElem?_set_ne heq, h.mapped.slot]
  · exact hring
  · intro v hv
    rw [(hcounts v).1]
    exact h.pending.producers v hv
  · intro v hv
    rw [(hcounts v).2]
    exact h.pending.consumers v hv
  · exact h.pending.users_lt
  · intro v hv hor
    rw [hinUse]
    rw [(hcounts v).1] at hor
    exact h.pending.waiting v hv (hor.imp_left Nat.le_of_succ_le)
  · exact h.pending.unused

theorem setReal_reaches (h : Invariant sim.isDynamicBarriers kept n limit s) (hbar : s.bar < n)
    (hfree : s.toVirtual[r]? = some none) (hstatic : sim.isDynamicBarriers = false → s.realId s.bar = some r)
    (hring : sim.isDynamicBarriers = true → FreeRing limit (s.toVirtual.set r (some s.bar)) nextReal) :
    Reaches sim kept n limit s (Simulator.setReal s r nextReal) ∧
      Simulator.remaining (Simulator.setReal s r nextReal) < Simulator.remaining s := by
  have hlt : s.bar < s.barriers.length := h.mapped.length.symm ▸ hbar
  have hreal := @setReal_realId r s nextReal hlt
  have hremaining : Simulator.remaining (Simulator.setReal s r nextReal) < Simulator.remaining s := by
    unfold Simulator.remaining Simulator.setReal
    dsimp only
    rw [length_modify]
    omega
  refine ⟨⟨setReal_invariant h hbar hfree hring, Nat.le_succ _, rfl, fun _ => suffix_rfl, ?_, ?_, ?_, ?_, Nat.le_of_lt hremaining⟩, hremaining⟩
  · intro v hv
    rw [hreal]
    split_ifs with heq
    · subst heq
      cases hv with
      | inl hlt => exact absurd hlt (Nat.lt_irrefl _)
      | inr hmode => exact (hstatic hmode).symm
    · rfl
  · intro v hle hlt
    rw [hreal, if_pos (Nat.le_antisymm hle (Nat.le_of_lt_succ hlt))]
    exact ⟨r, h.mapped.slots ▸ (List.getElem?_eq_some_iff.mp hfree).1, rfl⟩
  · have hone : (Simulator.setReal s r nextReal).bar - s.bar = 1 := Nat.add_sub_cancel_left s.bar 1
    rw [hone, range'_one, foldl_cons, foldl_nil, hreal, if_pos rfl]
    rfl
  · intro ids hids
    apply Relation.ReflTransGen.single
    apply Fire.map hbar
    intro v hv heq
    have hidv := hids v (Nat.lt_succ_of_lt hv)
    have hidbar := hids s.bar (Nat.lt_succ_self _)
    rw [hreal, if_neg (Nat.ne_of_gt hv)] at hidv
    rw [hreal, if_pos rfl] at hidbar
    rw [← h.pending.consumers v (Nat.lt_trans hv hbar)]
    by_contra hpos
    have hslot := (h.mapped.slot r v).mpr ⟨hv, by rw [hidv, heq, hidbar], .inl (Nat.pos_of_ne_zero hpos)⟩
    rw [hfree] at hslot
    cases hslot

end

theorem process_reaches {i : ℕ} {user : BarrierUser} {users : List BarrierUser} {s' : BarrierState}
    (h : Invariant sim.isDynamicBarriers kept n limit s) (hqueue : s.queues[i]? = some (user :: users))
    (hready : Ready s.bar s.queues user) (hreal : ∀ v, s'.realId v = s.realId v)
    (hinvariant : Invariant sim.isDynamicBarriers kept n limit { s with toBarrierState := s', queues := s.queues.set i users }) :
    Reaches sim kept n limit s { s with toBarrierState := s', queues := s.queues.set i users } ∧
      Simulator.remaining { s with toBarrierState := s', queues := s.queues.set i users } < Simulator.remaining s := by
  have hsum : ∀ {queues : List (List BarrierUser)} {i : ℕ}, queues[i]? = some (user :: users) →
      (queues.map List.length).sum = ((queues.set i users).map List.length).sum + 1 := by
    intro queues
    induction queues with
    | nil =>
      intro i hqueue
      cases hqueue
    | cons first queues ih =>
      intro i hqueue
      cases i with
      | zero =>
        rw [getElem?_cons_zero, Option.some.injEq] at hqueue
        subst hqueue
        simp only [set_cons_zero, map_cons, sum_cons, length_cons]
        omega
      | succ i =>
        rw [getElem?_cons_succ] at hqueue
        simp only [set_cons_succ, map_cons, sum_cons, ih hqueue]
        omega
  have hremaining : Simulator.remaining { s with toBarrierState := s', queues := s.queues.set i users } <
      Simulator.remaining s := by
    unfold Simulator.remaining
    dsimp only
    rw [hinvariant.mapped.length, h.mapped.length, hsum hqueue]
    omega
  refine ⟨⟨hinvariant, Nat.le_refl _, length_set, ?_, fun v _ => hreal v, ?_, ?_, ?_, Nat.le_of_lt hremaining⟩, hremaining⟩
  · intro j
    dsimp only
    rw [getD_eq_getElem?_getD, getD_eq_getElem?_getD]
    by_cases heq : i = j
    · rw [← heq, getElem?_set_self (List.getElem?_eq_some_iff.mp hqueue).1, hqueue]
      exact suffix_cons user users
    · simpa only [getElem?_set_ne heq] using suffix_rfl
  · exact fun v hle hlt => absurd hlt (Nat.not_lt_of_le hle)
  · simp only [Nat.sub_self, range'_zero, foldl_nil]
  intro ids _
  exact .single (Fire.process hqueue hready)

end

end NpuCompiler.Barrier.Simulator
