import Mathlib.Algebra.Order.BigOperators.Group.List
import NpuCompiler.Barrier.BarrierSimulator

namespace NpuCompiler.Barrier.Simulator

open BarrierState List

section
variable {v w : ℕ}

theorem getD_modify {barriers : List BarrierConfig} (f : BarrierConfig → BarrierConfig) (hv : v < barriers.length) :
    (barriers.modify v f).getD w default = if v = w then f (barriers.getD w default) else barriers.getD w default := by
  rw [getD_eq_getElem?_getD, getD_eq_getElem?_getD, getElem?_modify]
  by_cases hvw : v = w
  · subst hvw
    rw [if_pos rfl, getElem?_eq_getElem hv]
    simp
  · rw [if_neg hvw]
    simp [hvw]

end

def FreeRing (limit : ℕ) (toVirtual : List (Option ℕ)) (nextReal : RingBuffer ℕ) : Prop :=
  nextReal.WellFormed ∧ nextReal.capacity = limit ∧ nextReal.toList.Nodup ∧ ∀ r, r ∈ nextReal.toList ↔ toVirtual[r]? = some none

def InUse (kept : ℕ → Prop) (s : BarrierState) (v : ℕ) : Prop := 0 < s.consumerCount v ∨ kept v

/-- The physical ids: the barriers below `bar` that are in use have one, and each physical barrier has the one that is mapped
to it and in use. -/
structure Mapped (isDynamicBarriers : Bool) (kept : ℕ → Prop) (n limit bar : ℕ) (s : BarrierState) : Prop where
  length : s.barriers.length = n
  slots : s.toVirtual.length = limit
  assigned : ∀ v < bar, InUse kept s v → ∃ r < limit, s.realId v = some r
  unassigned : isDynamicBarriers = true → ∀ v, bar ≤ v → s.realId v = none
  slot : ∀ r v, s.toVirtual[r]? = some (some v) ↔ v < bar ∧ s.realId v = some r ∧ InUse kept s v
  ring : isDynamicBarriers = true → FreeRing limit s.toVirtual s.nextReal

structure Used (s s' : BarrierState) (produced consumed : ℕ → ℕ) : Prop where
  realId : ∀ v, s'.realId v = s.realId v
  producerCount : ∀ v, s.producerCount v = s'.producerCount v + produced v
  consumerCount : ∀ v, s.consumerCount v = s'.consumerCount v + consumed v

section
variable {isDynamicBarriers : Bool} {kept : ℕ → Prop} {n limit bar count v : ℕ} {s s' s'' : BarrierState}

theorem Used.trans {produced consumed produced' consumed' : ℕ → ℕ} (h : Used s s' produced consumed)
    (h' : Used s' s'' produced' consumed') :
    Used s s'' (fun v => produced v + produced' v) (fun v => consumed v + consumed' v) := by
  refine ⟨fun v => (h'.realId v).trans (h.realId v), fun v => ?_, fun v => ?_⟩
  · rw [h.producerCount, h'.producerCount]
    omega
  · rw [h.consumerCount, h'.consumerCount]
    omega

theorem Used.inUse {produced consumed : ℕ → ℕ} (h : Used s s' produced consumed) (hv : InUse kept s' v) : InUse kept s v := by
  apply hv.imp_left
  intro hpos
  rw [h.consumerCount]
  exact Nat.add_pos_left hpos _

theorem Mapped.isBarrierMapped_iff (h : Mapped isDynamicBarriers kept n limit bar s) (hconsumer : InUse kept s v) :
    isBarrierMapped isDynamicBarriers s v = true ↔ v < bar := by
  unfold isBarrierMapped
  constructor
  · intro hmapped
    by_contra hbar
    cases hreal : s.realId v with
    | none =>
      rw [hreal] at hmapped
      cases hmapped
    | some r =>
      rw [hreal] at hmapped
      simp only [Bool.and_eq_true, decide_eq_true_eq, Bool.or_eq_true] at hmapped
      obtain ⟨hr, hdynamic | hvirtual⟩ := hmapped
      · rw [h.unassigned hdynamic v (Nat.le_of_not_lt hbar)] at hreal
        cases hreal
      · rw [getD_eq_getElem _ _ hr] at hvirtual
        exact hbar ((h.slot r v).mp (by rw [getElem?_eq_getElem hr, hvirtual])).1
  · intro hbar
    obtain ⟨r, hr, hreal⟩ := h.assigned v hbar hconsumer
    have hslot := (h.slot r v).mpr ⟨hbar, hreal, hconsumer⟩
    rw [hreal]
    simp only [Bool.and_eq_true, decide_eq_true_eq, Bool.or_eq_true]
    refine ⟨h.slots.symm ▸ hr, .inr ?_⟩
    rw [getD_eq_getElem?_getD, hslot]
    rfl

theorem used_of_barriers {s' : BarrierState} {f : BarrierConfig → BarrierConfig} (hv : v < s.barriers.length)
    (hbarriers : s'.barriers = s.barriers.modify v f) (hreal : (f (s.barriers.getD v default)).realId = s.realId v)
    {produced consumed : ℕ} (hproducer : s.producerCount v = (f (s.barriers.getD v default)).producerCount + produced)
    (hconsumer : s.consumerCount v = (f (s.barriers.getD v default)).consumerCount + consumed) :
    Used s s' (fun w => if w = v then produced else 0) (fun w => if w = v then consumed else 0) := by
  have hget : ∀ w, s'.barriers.getD w default =
      if v = w then f (s.barriers.getD w default) else s.barriers.getD w default := by
    intro w
    rw [hbarriers, getD_modify f hv]
  refine ⟨fun w => ?_, fun w => ?_, fun w => ?_⟩
  · unfold BarrierState.realId
    rw [hget]
    split_ifs with heq
    · subst heq
      exact hreal
    · rfl
  · unfold BarrierState.producerCount
    rw [hget]
    by_cases heq : v = w
    · subst heq
      rw [if_pos rfl, if_pos rfl]
      exact hproducer
    · rw [if_neg heq, if_neg (Ne.symm heq), Nat.add_zero]
  · unfold BarrierState.consumerCount
    rw [hget]
    by_cases heq : v = w
    · subst heq
      rw [if_pos rfl, if_pos rfl]
      exact hconsumer
    · rw [if_neg heq, if_neg (Ne.symm heq), Nat.add_zero]

section
variable (h : Mapped isDynamicBarriers kept n limit bar s)
include h

theorem Mapped.of_used {produced consumed : ℕ → ℕ}
    (hused : Used s s' produced consumed) (hlength : s'.barriers.length = s.barriers.length)
    (hvirtual : s'.toVirtual = s.toVirtual) (hring : s'.nextReal = s.nextReal)
    (hpos : ∀ w, InUse kept s w → InUse kept s' w) : Mapped isDynamicBarriers kept n limit bar s' := by
  refine ⟨hlength.trans h.length, ?_, ?_, ?_, ?_, ?_⟩
  · rw [hvirtual]
    exact h.slots
  · intro w hw hcount
    rw [hused.realId]
    exact h.assigned w hw (hused.inUse hcount)
  · intro hdynamic w hw
    rw [hused.realId]
    exact h.unassigned hdynamic w hw
  · intro r w
    rw [hvirtual, h.slot, hused.realId]
    exact and_congr_right (fun _ => and_congr_right (fun _ => ⟨hpos w, hused.inUse⟩))
  · rw [hvirtual, hring]
    exact h.ring

theorem Mapped.ring_room (hdynamic : isDynamicBarriers = true) {r : ℕ}
    (hr : r < limit) (hslot : r ∉ s.nextReal.toList) : s.nextReal.size < s.nextReal.capacity := by
  obtain ⟨-, hcapacity, hnodup, hmem⟩ := h.ring hdynamic
  have hsub : s.nextReal.toList ⊆ (List.range limit).erase r := by
    intro r' hr'
    have hlt : r' < limit := by
      rw [← h.slots]
      exact (List.getElem?_eq_some_iff.mp ((hmem r').mp hr')).1
    have hne : r' ≠ r := fun heq => hslot (heq ▸ hr')
    exact (mem_erase_of_ne hne).mpr (mem_range.mpr hlt)
  have hle := (subperm_of_subset hnodup hsub).length_le
  rw [RingBuffer.length_toList, length_erase_of_mem (mem_range.mpr hr), length_range] at hle
  rw [hcapacity]
  omega

theorem Mapped.free {produced consumed : ℕ → ℕ} {r : ℕ}
    (hused : Used s s' produced consumed) (hlength : s'.barriers.length = s.barriers.length) (hv : v < bar)
    (hreal : s.realId v = some r) (hconsumer : InUse kept s v) (hzero : ¬ InUse kept s' v)
    (hothers : ∀ w, w ≠ v → consumed w = 0) (hvirtual : s'.toVirtual = s.toVirtual.set r none)
    (hring : s'.nextReal = if isDynamicBarriers then s.nextReal.push r else s.nextReal) :
    Mapped isDynamicBarriers kept n limit bar s' := by
  have hslot := (h.slot r v).mpr ⟨hv, hreal, hconsumer⟩
  have hr : r < limit := by
    rw [← h.slots]
    exact (List.getElem?_eq_some_iff.mp hslot).1
  refine ⟨hlength.trans h.length, ?_, ?_, ?_, ?_, ?_⟩
  · rw [hvirtual, length_set]
    exact h.slots
  · intro w hw hcount
    rw [hused.realId]
    exact h.assigned w hw (hused.inUse hcount)
  · intro hdynamic w hw
    rw [hused.realId]
    exact h.unassigned hdynamic w hw
  · intro r' w
    rw [hvirtual, hused.realId]
    have hcount : w ≠ v → (InUse kept s' w ↔ InUse kept s w) := fun hne => by
      unfold InUse
      rw [hused.consumerCount w, hothers w hne, Nat.add_zero]
    by_cases heq : r = r'
    · subst heq
      rw [getElem?_set_self (h.slots.symm ▸ hr)]
      constructor
      · intro hnone
        cases hnone
      · rintro ⟨hw, hrealw, hpos⟩
        exfalso
        by_cases hwv : w = v
        · subst hwv
          exact hzero hpos
        · rw [hcount hwv] at hpos
          have hslotw := (h.slot r w).mpr ⟨hw, hrealw, hpos⟩
          rw [hslot] at hslotw
          exact hwv (Option.some.inj (Option.some.inj hslotw)).symm
    · rw [getElem?_set_ne heq, h.slot]
      by_cases hwv : w = v
      · subst hwv
        rw [hreal]
        simp [heq]
      · rw [hcount hwv]
  · intro hdynamic
    obtain ⟨hwellFormed, hcapacity, hnodup, hmem⟩ := h.ring hdynamic
    have hnotMem : r ∉ s.nextReal.toList := by
      intro hin
      rw [hmem, hslot] at hin
      cases hin
    have hroom := h.ring_room hdynamic hr hnotMem
    rw [hring, if_pos hdynamic]
    refine ⟨RingBuffer.push_wellFormed hwellFormed hroom, ?_, ?_, ?_⟩
    · rw [RingBuffer.capacity_push]
      exact hcapacity
    · rw [RingBuffer.toList_push hwellFormed hroom]
      exact nodup_append.mpr ⟨hnodup, pairwise_singleton _ r, fun a ha b hb heq =>
        hnotMem (mem_singleton.mp hb ▸ heq ▸ ha)⟩
    · intro r'
      rw [RingBuffer.toList_push hwellFormed hroom, mem_append, mem_singleton, hmem, hvirtual]
      by_cases heq : r = r'
      · subst heq
        rw [getElem?_set_self (h.slots.symm ▸ hr)]
        simp
      · rw [getElem?_set_ne heq]
        simp [Ne.symm heq]

theorem consume_spec (hbar : bar ≤ n) (hv : v < bar) (hkept : ¬ kept v)
    (hcount : 0 < count) (hproducer : s.producerCount v = 0) (hconsumer : count ≤ s.consumerCount v) :
    ∃ s', consume isDynamicBarriers count s v = some s' ∧ Mapped isDynamicBarriers kept n limit bar s' ∧
      Used s s' (fun _ => 0) (fun w => if w = v then count else 0) := by
  have hpos : 0 < s.consumerCount v := Nat.lt_of_lt_of_le hcount hconsumer
  have hvlt : v < s.barriers.length := h.length.symm ▸ Nat.lt_of_lt_of_le hv hbar
  obtain ⟨r, hr, hreal⟩ := h.assigned v hv (.inl hpos)
  have hused : ∀ (toVirtual : List (Option ℕ)) (nextReal : RingBuffer ℕ), Used s
      ⟨s.barriers.modify v (fun b => { b with consumerCount := b.consumerCount - count }), toVirtual, nextReal⟩
      (fun _ => 0) (fun w => if w = v then count else 0) := by
    intro toVirtual nextReal
    have hused := @used_of_barriers v s
      ⟨s.barriers.modify v (fun b => { b with consumerCount := b.consumerCount - count }), toVirtual, nextReal⟩
      (fun b => { b with consumerCount := b.consumerCount - count }) hvlt rfl rfl 0 count rfl (Nat.sub_add_cancel hconsumer).symm
    simpa only [ite_self] using hused
  have hleft : ∀ (toVirtual : List (Option ℕ)) (nextReal : RingBuffer ℕ), s.consumerCount v = BarrierState.consumerCount
      ⟨s.barriers.modify v (fun b => { b with consumerCount := b.consumerCount - count }), toVirtual, nextReal⟩ v + count := by
    intro toVirtual nextReal
    have hv := (hused toVirtual nextReal).consumerCount v
    rwa [if_pos rfl] at hv
  unfold consume
  rw [hreal]
  dsimp only
  rw [(h.isBarrierMapped_iff (.inl hpos)).mpr hv, if_neg (by simp), if_neg (by omega)]
  by_cases hzero : s.consumerCount v - count = 0
  · rw [if_pos hzero]
    refine ⟨_, rfl, ?_, hused _ _⟩
    apply h.free (hused _ _) (length_modify ..) hv hreal (.inl hpos) _ _ rfl rfl
    · intro hinUse
      rw [hleft (s.toVirtual.set r none) (if isDynamicBarriers then s.nextReal.push r else s.nextReal),
        Nat.add_sub_cancel] at hzero
      exact Nat.ne_of_gt (hinUse.resolve_right hkept) hzero
    · intro w hw
      exact if_neg hw
  · rw [if_neg hzero]
    refine ⟨_, rfl, ?_, hused _ _⟩
    apply h.of_used (hused _ _) (length_modify ..) rfl rfl
    intro w hw
    apply hw.imp_left
    intro hw
    by_cases heq : w = v
    · have hcountw := hleft s.toVirtual s.nextReal
      rw [heq]
      apply Nat.pos_of_ne_zero
      intro hnone
      rw [hnone, Nat.zero_add] at hcountw
      exact hzero (by rw [hcountw, Nat.sub_self])
    · have hcountw := (hused s.toVirtual s.nextReal).consumerCount w
      rw [if_neg heq] at hcountw
      rwa [hcountw] at hw

theorem produce_spec (hbar : bar ≤ n) (hv : v < bar)
    (hconsumer : InUse kept s v) (hproducer : count ≤ s.producerCount v) :
    ∃ s', produce isDynamicBarriers count s v = some s' ∧ Mapped isDynamicBarriers kept n limit bar s' ∧
      Used s s' (fun w => if w = v then count else 0) (fun _ => 0) := by
  have hvlt : v < s.barriers.length := h.length.symm ▸ Nat.lt_of_lt_of_le hv hbar
  have hused : Used s { s with
      barriers := s.barriers.modify v (fun b => { b with producerCount := b.producerCount - count }) }
      (fun w => if w = v then count else 0) (fun _ => 0) := by
    have hused := @used_of_barriers v s
      { s with barriers := s.barriers.modify v (fun b => { b with producerCount := b.producerCount - count }) }
      (fun b => { b with producerCount := b.producerCount - count }) hvlt rfl rfl count 0 (Nat.sub_add_cancel hproducer).symm rfl
    simpa only [ite_self] using hused
  unfold produce
  rw [(h.isBarrierMapped_iff hconsumer).mpr hv, if_neg (by simp), if_neg (Nat.not_lt.mpr hproducer)]
  refine ⟨_, rfl, ?_, hused⟩
  apply h.of_used hused (length_modify ..) rfl rfl
  intro w hw
  apply hw.imp_left
  rw [hused.consumerCount]
  exact id

end

def slotsIn (count : ℕ) (barriers : List ℕ) (v : ℕ) : ℕ := count * barriers.count v

theorem slotsIn_cons {barriers : List ℕ} {w : ℕ} :
    slotsIn count (v :: barriers) w = (if w = v then count else 0) + slotsIn count barriers w := by
  unfold slotsIn
  rw [count_cons]
  by_cases heq : w = v
  · subst heq
    rw [beq_self_eq_true, if_pos rfl, if_pos rfl, Nat.mul_add, Nat.mul_one, Nat.add_comm]
  · rw [if_neg heq, if_neg (fun h => heq (beq_iff_eq.mp h).symm), Nat.add_zero, Nat.zero_add]

theorem consumers_spec {barriers : List ℕ} (h : Mapped isDynamicBarriers kept n limit bar s) (hbar : bar ≤ n) (hcount : 0 < count)
    (hkept : ∀ v ∈ barriers, ¬ kept v) (hready : ∀ v ∈ barriers, v < bar ∧ s.producerCount v = 0)
    (hslots : ∀ v, slotsIn count barriers v ≤ s.consumerCount v) :
    ∃ s', barriers.foldlM (consume isDynamicBarriers count) s = some s' ∧ Mapped isDynamicBarriers kept n limit bar s' ∧
      Used s s' (fun _ => 0) (slotsIn count barriers) := by
  induction barriers generalizing s with
  | nil =>
    refine ⟨s, rfl, h, fun _ => rfl, fun _ => rfl, fun v => ?_⟩
    exact (Nat.add_zero _).symm
  | cons v barriers ih =>
    obtain ⟨⟨hv, hproducer⟩, hready⟩ := forall_mem_cons.mp hready
    obtain ⟨hkeptv, hkept⟩ := forall_mem_cons.mp hkept
    have hslotv := hslots v
    rw [slotsIn_cons, if_pos rfl] at hslotv
    obtain ⟨next, hnext, hmapped, hused⟩ := consume_spec h hbar hv hkeptv hcount hproducer (by omega)
    have hrest := ih hmapped hkept (fun w hw => ⟨(hready w hw).1, ?_⟩) (fun w => ?_)
    · obtain ⟨s', hs', hmapped', hused'⟩ := hrest
      refine ⟨s', ?_, hmapped', ?_⟩
      · rw [foldlM_cons, hnext]
        exact hs'
      · have htrans := hused.trans hused'
        refine ⟨htrans.realId, htrans.producerCount, fun w => ?_⟩
        rw [slotsIn_cons]
        exact htrans.consumerCount w
    · have hw' := hused.producerCount w
      rw [(hready w hw).2] at hw'
      exact hw'.symm
    · have hslot := hslots w
      rw [slotsIn_cons, hused.consumerCount] at hslot
      omega

theorem producers_spec {barriers : List ℕ} (h : Mapped isDynamicBarriers kept n limit bar s) (hbar : bar ≤ n)
    (hready : ∀ v ∈ barriers, v < bar ∧ InUse kept s v)
    (hslots : ∀ v, slotsIn count barriers v ≤ s.producerCount v) :
    ∃ s', barriers.foldlM (produce isDynamicBarriers count) s = some s' ∧ Mapped isDynamicBarriers kept n limit bar s' ∧
      Used s s' (slotsIn count barriers) (fun _ => 0) := by
  induction barriers generalizing s with
  | nil =>
    refine ⟨s, rfl, h, fun _ => rfl, fun v => ?_, fun _ => rfl⟩
    exact (Nat.add_zero _).symm
  | cons v barriers ih =>
    obtain ⟨⟨hv, hconsumer⟩, hready⟩ := forall_mem_cons.mp hready
    have hslotv := hslots v
    rw [slotsIn_cons, if_pos rfl] at hslotv
    obtain ⟨next, hnext, hmapped, hused⟩ := produce_spec h hbar hv hconsumer (show count ≤ _ by omega)
    have hrest := ih hmapped (fun w hw => ⟨(hready w hw).1, ?_⟩) (fun w => ?_)
    · obtain ⟨s', hs', hmapped', hused'⟩ := hrest
      refine ⟨s', ?_, hmapped', ?_⟩
      · rw [foldlM_cons, hnext]
        exact hs'
      · have htrans := hused.trans hused'
        refine ⟨htrans.realId, fun w => ?_, htrans.consumerCount⟩
        rw [slotsIn_cons]
        exact htrans.producerCount w
    · apply (hready w hw).2.imp_left
      rw [hused.consumerCount]
      exact id
    · have hslot := hslots w
      rw [slotsIn_cons, hused.producerCount] at hslot
      omega

end

end NpuCompiler.Barrier.Simulator
