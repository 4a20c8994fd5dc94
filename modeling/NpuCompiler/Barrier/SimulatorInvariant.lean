import NpuCompiler.Barrier.SimulatorSteps

namespace NpuCompiler.Barrier.Simulator

open BarrierState List

def slotsUsed (f : BarrierUser → List ℕ) (queues : List (List BarrierUser)) (v : ℕ) : ℕ :=
  (queues.map (fun users => (users.map (fun user => slotsIn user.count (f user) v)).sum)).sum

section
variable {f : BarrierUser → List ℕ} {queues : List (List BarrierUser)} {user : BarrierUser} {users : List BarrierUser} {i v : ℕ}

theorem slotsIn_eq_zero {count : ℕ} {barriers : List ℕ} (h : v ∉ barriers) : slotsIn count barriers v = 0 := by
  unfold slotsIn
  rw [count_eq_zero_of_not_mem h, Nat.mul_zero]

theorem slotsIn_pos {count : ℕ} {barriers : List ℕ} (hcount : 0 < count) (h : v ∈ barriers) : 0 < slotsIn count barriers v :=
  Nat.mul_pos hcount (count_pos_iff.mpr h)

theorem slotsUsed_set (h : queues[i]? = some (user :: users)) :
    slotsUsed f queues v = slotsIn user.count (f user) v + slotsUsed f (queues.set i users) v := by
  unfold slotsUsed
  induction queues generalizing i with
  | nil => cases h
  | cons first queues ih =>
    cases i with
    | zero =>
      rw [getElem?_cons_zero, Option.some.injEq] at h
      subst h
      simp only [set_cons_zero, map_cons, sum_cons, Nat.add_assoc]
    | succ i =>
      rw [getElem?_cons_succ] at h
      simp only [set_cons_succ, map_cons, sum_cons, ih h]
      omega

theorem slotsUsed_set_le (h : queues[i]? = some (user :: users)) : slotsUsed f (queues.set i users) v ≤ slotsUsed f queues v := by
  rw [slotsUsed_set h]
  exact Nat.le_add_left _ _

end

/-- The task can be processed when `bar` barriers have been mapped and the queues hold the tasks that are left. -/
def Ready (bar : ℕ) (queues : List (List BarrierUser)) (user : BarrierUser) : Prop :=
  (∀ v ∈ user.consumer, v < bar ∧ slotsUsed BarrierUser.producer queues v = 0) ∧ ∀ v ∈ user.producer, v < bar

structure Pending (kept : ℕ → Prop) (n : ℕ) (s : SimState) : Prop where
  producers : ∀ v < n, s.producerCount v = slotsUsed BarrierUser.producer s.queues v
  consumers : ∀ v < n, s.consumerCount v = slotsUsed BarrierUser.consumer s.queues v
  users_lt : ∀ users ∈ s.queues, ∀ user ∈ users, ∀ v, v ∈ user.consumer ∨ v ∈ user.producer → v < n
  waiting : ∀ v < n, s.bar ≤ v ∨ 0 < s.producerCount v → InUse kept s.toBarrierState v
  unused : ∀ v, kept v → slotsUsed BarrierUser.consumer s.queues v = 0

structure Invariant (isDynamicBarriers : Bool) (kept : ℕ → Prop) (n limit : ℕ) (s : SimState) : Prop where
  bar_le : s.bar ≤ n
  mapped : Mapped isDynamicBarriers kept n limit s.bar s.toBarrierState
  pending : Pending kept n s

section
variable {isDynamicBarriers : Bool} {kept : ℕ → Prop} {n limit i v : ℕ} {s : SimState} {user : BarrierUser} {users : List BarrierUser}

section
variable (h : Pending kept n s) (hqueue : s.queues[i]? = some (user :: users))
include h hqueue

theorem Pending.user_lt (hv : v ∈ user.consumer ∨ v ∈ user.producer) : v < n :=
  h.users_lt (user :: users) (mem_of_getElem? hqueue) user mem_cons_self v hv

theorem Pending.consumer_pos (hv : v ∈ user.consumer) :
    0 < s.consumerCount v := by
  rw [h.consumers v (h.user_lt hqueue (.inl hv)), slotsUsed_set hqueue]
  exact Nat.add_pos_left (slotsIn_pos user.count_pos hv) _

theorem Pending.not_kept (hv : v ∈ user.consumer) :
    ¬ kept v := by
  intro hkept
  have hnone := h.unused v hkept
  rw [slotsUsed_set hqueue] at hnone
  exact Nat.ne_of_gt (Nat.add_pos_left (slotsIn_pos user.count_pos hv) _) hnone

theorem Pending.producer_pos (hv : v ∈ user.producer) :
    0 < s.producerCount v ∧ InUse kept s.toBarrierState v := by
  have hlt := h.user_lt hqueue (.inr hv)
  have hpos : 0 < s.producerCount v := by
    rw [h.producers v hlt, slotsUsed_set hqueue]
    exact Nat.add_pos_left (slotsIn_pos user.count_pos hv) _
  exact ⟨hpos, h.waiting v hlt (.inr hpos)⟩

theorem Pending.slots_le (v : ℕ) :
    slotsIn user.count user.consumer v ≤ s.consumerCount v ∧ slotsIn user.count user.producer v ≤ s.producerCount v := by
  by_cases hv : v < n
  · rw [h.consumers v hv, h.producers v hv, slotsUsed_set (f := BarrierUser.consumer) hqueue,
      slotsUsed_set (f := BarrierUser.producer) hqueue]
    exact ⟨Nat.le_add_right _ _, Nat.le_add_right _ _⟩
  · rw [slotsIn_eq_zero (fun hmem => hv (h.user_lt hqueue (.inl hmem))),
      slotsIn_eq_zero (fun hmem => hv (h.user_lt hqueue (.inr hmem)))]
    exact ⟨Nat.zero_le _, Nat.zero_le _⟩

end

section
variable (h : Invariant isDynamicBarriers kept n limit s) (hqueue : s.queues[i]? = some (user :: users))
include h hqueue

theorem Invariant.checks_iff :
    (user.consumer.all (fun v => isBarrierMapped isDynamicBarriers s.toBarrierState v && s.producerCount v = 0) &&
      user.producer.all (isBarrierMapped isDynamicBarriers s.toBarrierState)) = true ↔ Ready s.bar s.queues user := by
  rw [Bool.and_eq_true, all_eq_true, all_eq_true]
  apply and_congr
  · apply forall₂_congr
    intro v hv
    rw [Bool.and_eq_true, decide_eq_true_eq, h.mapped.isBarrierMapped_iff (.inl (h.pending.consumer_pos hqueue hv)),
      ← h.pending.producers v (h.pending.user_lt hqueue (.inl hv))]
  · apply forall₂_congr
    intro v hv
    exact h.mapped.isBarrierMapped_iff (h.pending.producer_pos hqueue hv).2

theorem processSim_skip (hready : ¬ Ready s.bar s.queues user) :
    processSim isDynamicBarriers s.toBarrierState user = (.skip, s.toBarrierState) := by
  unfold processSim
  rw [if_neg]
  rwa [h.checks_iff hqueue]

theorem processSim_success (hready : Ready s.bar s.queues user) :
    ∃ s', processSim isDynamicBarriers s.toBarrierState user = (.success, s') ∧ (∀ v, s'.realId v = s.realId v) ∧
      Invariant isDynamicBarriers kept n limit { s with toBarrierState := s', queues := s.queues.set i users } := by
  obtain ⟨hconsumer, hproducer⟩ := id hready
  have hconsumed : ∀ v ∈ user.consumer, v < s.bar ∧ s.producerCount v = 0 := by
    intro v hv
    rw [h.pending.producers v (h.pending.user_lt hqueue (.inl hv))]
    exact hconsumer v hv
  have hdisjoint : ∀ v, 0 < s.producerCount v → v ∉ user.consumer := by
    intro v hpos hmem
    rw [(hconsumed v hmem).2] at hpos
    exact Nat.lt_irrefl 0 hpos
  obtain ⟨next, hnext, hmapped, hused⟩ := consumers_spec h.mapped h.bar_le user.count_pos
    (fun v hv => h.pending.not_kept hqueue hv) hconsumed (fun v => (h.pending.slots_le hqueue v).1)
  have hproduced : ∀ v ∈ user.producer, v < s.bar ∧ InUse kept next v := by
    intro v hv
    obtain ⟨hpos, hleft⟩ := h.pending.producer_pos hqueue hv
    refine ⟨hproducer v hv, hleft.imp_left ?_⟩
    have hcount := hused.consumerCount v
    rw [slotsIn_eq_zero (hdisjoint v hpos), Nat.add_zero] at hcount
    rw [← hcount]
    exact id
  have hslots : ∀ v, slotsIn user.count user.producer v ≤ next.producerCount v := by
    intro v
    have hcount := hused.producerCount v
    rw [Nat.add_zero] at hcount
    rw [← hcount]
    exact (h.pending.slots_le hqueue v).2
  obtain ⟨s', hs', hmapped', hused'⟩ := producers_spec hmapped h.bar_le hproduced hslots
  have htrans := hused.trans hused'
  have hproducers : ∀ v, s.producerCount v = s'.producerCount v + slotsIn user.count user.producer v := by
    intro v
    have hcount := htrans.producerCount v
    rwa [Nat.zero_add] at hcount
  have hconsumers : ∀ v, s.consumerCount v = s'.consumerCount v + slotsIn user.count user.consumer v := htrans.consumerCount
  refine ⟨s', ?_, htrans.realId, h.bar_le, hmapped', ?_, ?_, ?_, ?_, ?_⟩
  · unfold processSim
    rw [if_pos ((h.checks_iff hqueue).mpr hready), hnext]
    dsimp only [Option.bind_some]
    rw [hs']
  · intro v hv
    apply Nat.add_right_cancel (m := slotsIn user.count user.producer v)
    rw [← hproducers, h.pending.producers v hv, slotsUsed_set hqueue, Nat.add_comm]
  · intro v hv
    apply Nat.add_right_cancel (m := slotsIn user.count user.consumer v)
    rw [← hconsumers, h.pending.consumers v hv, slotsUsed_set hqueue, Nat.add_comm]
  · intro later hlater user' huser'
    cases mem_or_eq_of_mem_set hlater with
    | inl hmem => exact h.pending.users_lt later hmem user' huser'
    | inr heq =>
      subst heq
      exact h.pending.users_lt _ (mem_of_getElem? hqueue) user' (mem_cons_of_mem _ huser')
  · intro v hv hor
    by_cases hmem : v ∈ user.consumer
    · exfalso
      cases hor with
      | inl hbar => exact absurd (hconsumed v hmem).1 (Nat.not_lt.mpr hbar)
      | inr hpos =>
        have hcount := hproducers v
        rw [(hconsumed v hmem).2] at hcount
        change 0 < s'.producerCount v at hpos
        omega
    · have hcount := hconsumers v
      rw [slotsIn_eq_zero hmem, Nat.add_zero] at hcount
      change InUse kept s' v
      unfold InUse
      rw [← hcount]
      apply h.pending.waiting v hv
      apply hor.imp_right
      intro hpos
      rw [hproducers]
      exact Nat.add_pos_left hpos _
  · intro v hkept
    exact Nat.le_zero.mp (h.pending.unused v hkept ▸ slotsUsed_set_le hqueue)

end

end

end NpuCompiler.Barrier.Simulator
