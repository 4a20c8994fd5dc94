import Mathlib.Data.List.Nodup
import NpuCompiler.Barrier.TaskOrder

namespace NpuCompiler.Barrier

open List

def Produced (info : BarrierInfo) (executed : List ℕ) (b : ℕ) : Prop :=
  (∃ p, p ∈ info.getBarrierProducers b) ∧ ∀ p, p ∈ info.getBarrierProducers b → p ∈ executed

def Ordered (orderByConsumption : Bool) (info : BarrierInfo) (executed : List ℕ) (b : ℕ) : Prop :=
  if orderByConsumption then Produced info executed b else ∃ p, p ∈ info.getBarrierProducers b ∧ p ∈ executed

/-- The simulation from `info` after the tasks of `executed`, and the update of `barriers` by a further task. -/
structure Updating (orderByConsumption : Bool) (info : BarrierInfo) (executed : List ℕ) (t : ℕ) (barriers : List ℕ)
    (sim : Simulation) : Prop where
  consistent : sim.info.Consistent
  producers : ∀ b p, p ∈ sim.info.getBarrierProducers b ↔
    p ∈ info.getBarrierProducers b ∧ p ∉ executed ∧ ¬ (p = t ∧ b ∈ barriers)
  consumers : ∀ b c, c ∈ sim.info.getBarrierConsumers b ↔
    c ∈ info.getBarrierConsumers b ∧ ¬ Produced info executed b ∧ ¬ (Produced info (executed ++ [t]) b ∧ b ∈ barriers)
  order_nodup : sim.newBarrierOrder.Nodup
  order : ∀ b, b ∈ sim.newBarrierOrder ↔ Ordered orderByConsumption info executed b ∨
    (Ordered orderByConsumption info (executed ++ [t]) b ∧ b ∈ barriers)

structure Executed (orderByConsumption : Bool) (info : BarrierInfo) (executed : List ℕ) (sim : Simulation) : Prop where
  consistent : sim.info.Consistent
  producers : ∀ b p, p ∈ sim.info.getBarrierProducers b ↔ p ∈ info.getBarrierProducers b ∧ p ∉ executed
  consumers : ∀ b c, c ∈ sim.info.getBarrierConsumers b ↔ c ∈ info.getBarrierConsumers b ∧ ¬ Produced info executed b
  order_nodup : sim.newBarrierOrder.Nodup
  order : ∀ b, b ∈ sim.newBarrierOrder ↔ Ordered orderByConsumption info executed b

section
variable {orderByConsumption : Bool} {info : BarrierInfo} {executed barriers : List ℕ} {sim : Simulation} {t b : ℕ}

theorem Produced.append (h : Produced info executed b) (tasks : List ℕ) : Produced info (executed ++ tasks) b :=
  ⟨h.1, fun p hp => mem_append_left _ (h.2 p hp)⟩

theorem Ordered.append (h : Ordered orderByConsumption info executed b) (tasks : List ℕ) :
    Ordered orderByConsumption info (executed ++ tasks) b := by
  unfold Ordered at h ⊢
  split_ifs at h ⊢
  · exact h.append tasks
  · obtain ⟨p, hp, hmem⟩ := h
    exact ⟨p, hp, mem_append_left _ hmem⟩

theorem produced_append_iff (ht : t ∉ info.getBarrierProducers b) :
    Produced info (executed ++ [t]) b ↔ Produced info executed b := by
  constructor
  · rintro ⟨hex, hall⟩
    refine ⟨hex, fun p hp => ?_⟩
    cases mem_append.mp (hall p hp) with
    | inl hmem => exact hmem
    | inr hlast => exact absurd (mem_singleton.mp hlast ▸ hp) ht
  · intro h
    exact h.append [t]

theorem ordered_append_iff (ht : t ∉ info.getBarrierProducers b) :
    Ordered orderByConsumption info (executed ++ [t]) b ↔ Ordered orderByConsumption info executed b := by
  constructor
  · intro h
    unfold Ordered at h ⊢
    split_ifs at h ⊢
    · exact (produced_append_iff ht).mp h
    · obtain ⟨p, hp, hmem⟩ := h
      cases mem_append.mp hmem with
      | inl hmem => exact ⟨p, hp, hmem⟩
      | inr hlast => exact absurd (mem_singleton.mp hlast ▸ hp) ht
  · intro h
    exact h.append [t]

theorem nodup_append_singleton {l : List ℕ} (h : l.Nodup) (hb : b ∉ l) : (l ++ [b]).Nodup := by
  simpa [nodup_append] using ⟨h, fun a ha => ne_of_mem_of_not_mem ha hb⟩

theorem updateBarrier_order (hnodup : sim.newBarrierOrder.Nodup)
    (horder : b ∈ sim.newBarrierOrder ↔ Ordered orderByConsumption info executed b) (ht : t ∈ info.getBarrierProducers b)
    (hfresh : t ∉ executed) (hempty : ((sim.info.removeProducer b t).getBarrierProducers b).size = 0 ↔
      Produced info (executed ++ [t]) b) :
    (updateBarrier orderByConsumption t sim b).newBarrierOrder.Nodup ∧
      ∀ x, x ∈ (updateBarrier orderByConsumption t sim b).newBarrierOrder ↔
        x ∈ sim.newBarrierOrder ∨ (x = b ∧ Ordered orderByConsumption info (executed ++ [t]) b) := by
  unfold updateBarrier
  unfold Ordered at horder ⊢
  cases orderByConsumption with
  | true =>
    have hnew : b ∉ sim.newBarrierOrder := by
      rw [horder]
      exact fun hproduced => hfresh (hproduced.2 t ht)
    by_cases hlast : Produced info (executed ++ [t]) b
    · simp only [hempty.mpr hlast, Bool.not_true, Bool.false_and, Bool.false_eq_true, if_false, if_true]
      refine ⟨nodup_append_singleton hnodup hnew, fun x => ?_⟩
      rw [mem_append, mem_singleton]
      tauto
    · simp only [mt hempty.mp hlast, Bool.not_true, Bool.false_and, Bool.false_eq_true, if_false, if_true]
      refine ⟨hnodup, fun x => ?_⟩
      tauto
  | false =>
    have hturn : ∃ p, p ∈ info.getBarrierProducers b ∧ p ∈ executed ++ [t] :=
      ⟨t, ht, mem_append_right _ (mem_singleton_self t)⟩
    by_cases hmem : b ∈ sim.newBarrierOrder
    · have hcontains : sim.newBarrierOrder.contains b = true := by simpa using hmem
      have hold : (updateBarrier false t sim b).newBarrierOrder = sim.newBarrierOrder := by
        unfold updateBarrier
        simp only [hcontains, Bool.not_true, Bool.and_false, Bool.false_eq_true, if_false]
        split_ifs <;> rfl
      unfold updateBarrier at hold
      rw [hold]
      refine ⟨hnodup, fun x => ?_⟩
      constructor
      · exact .inl
      · rintro (h | ⟨rfl, -⟩)
        · exact h
        · exact hmem
    · have hcontains : sim.newBarrierOrder.contains b = false := by simpa using hmem
      have hnew : (updateBarrier false t sim b).newBarrierOrder = sim.newBarrierOrder ++ [b] := by
        unfold updateBarrier
        simp only [hcontains, Bool.not_false, Bool.and_true, Bool.false_eq_true, if_false, if_true]
        split_ifs <;> rfl
      unfold updateBarrier at hnew
      rw [hnew]
      refine ⟨nodup_append_singleton hnodup hmem, fun x => ?_⟩
      rw [mem_append, mem_singleton]
      tauto

theorem Updating.step (h : Updating orderByConsumption info executed t barriers sim) (hb : b ∉ barriers)
    (ht : t ∈ info.getBarrierProducers b) (hfresh : t ∉ executed) :
    Updating orderByConsumption info executed t (barriers ++ [b]) (updateBarrier orderByConsumption t sim b) := by
  obtain ⟨hconsistent, hproducers, hconsumers, hnodup, horder⟩ := h
  have hunproduced : ¬ Produced info executed b := fun hp => hfresh (hp.2 t ht)
  have hremoved : ∀ b' p, p ∈ (sim.info.removeProducer b t).getBarrierProducers b' ↔
      p ∈ info.getBarrierProducers b' ∧ p ∉ executed ∧ ¬ (p = t ∧ b' ∈ barriers ++ [b]) := by
    intro b' p
    rw [BarrierInfo.mem_producers_removeProducer, hproducers, mem_append, mem_singleton]
    tauto
  have hempty : ((sim.info.removeProducer b t).getBarrierProducers b).size = 0 ↔ Produced info (executed ++ [t]) b := by
    rw [SmallSet.size_eq_zero]
    constructor
    · intro hnone
      refine ⟨⟨t, ht⟩, fun p hp => ?_⟩
      have hp' := hnone p
      rw [hremoved] at hp'
      simp only [mem_append, mem_singleton] at hp' ⊢
      tauto
    · rintro ⟨-, hall⟩ p hp
      rw [hremoved] at hp
      have hp' := hall p hp.1
      simp only [mem_append, mem_singleton] at hp hp'
      tauto
  have horderB : b ∈ sim.newBarrierOrder ↔ Ordered orderByConsumption info executed b := by
    rw [horder]
    tauto
  obtain ⟨hnodup', horder'⟩ := updateBarrier_order hnodup horderB ht hfresh hempty
  have horderAll : ∀ x, x ∈ (updateBarrier orderByConsumption t sim b).newBarrierOrder ↔
      Ordered orderByConsumption info executed x ∨
        (Ordered orderByConsumption info (executed ++ [t]) x ∧ x ∈ barriers ++ [b]) := by
    intro x
    rw [horder', horder, mem_append, mem_singleton]
    constructor
    · rintro ((hold | ⟨hnew, hx⟩) | ⟨rfl, hturn⟩)
      · exact .inl hold
      · exact .inr ⟨hnew, .inl hx⟩
      · exact .inr ⟨hturn, .inr rfl⟩
    · rintro (hold | ⟨hnew, hx | rfl⟩)
      · exact .inl (.inl hold)
      · exact .inl (.inr ⟨hnew, hx⟩)
      · exact .inr ⟨rfl, hnew⟩
  by_cases hlast : Produced info (executed ++ [t]) b
  · have hinfo : (updateBarrier orderByConsumption t sim b).info = (sim.info.removeProducer b t).resetBarrier b := by
      unfold updateBarrier
      simp only [hempty.mpr hlast, if_true]
    refine ⟨?_, ?_, ?_, hnodup', horderAll⟩
    · rw [hinfo]
      exact hconsistent.removeProducer.resetBarrier
    · intro b' p
      rw [hinfo, BarrierInfo.mem_producers_resetBarrier, hremoved]
      constructor
      · exact And.right
      · intro hp
        refine ⟨?_, hp⟩
        rintro rfl
        exact SmallSet.size_eq_zero.mp (hempty.mpr hlast) p ((hremoved _ p).mpr hp)
    · intro b' c
      rw [hinfo, BarrierInfo.mem_consumers_resetBarrier, BarrierInfo.consumers_removeProducer, hconsumers, mem_append,
        mem_singleton]
      constructor
      · rintro ⟨hne, hc, hold, hnew⟩
        exact ⟨hc, hold, fun hproduced => hnew ⟨hproduced.1, hproduced.2.resolve_right hne⟩⟩
      · rintro ⟨hc, hold, hnew⟩
        refine ⟨?_, hc, hold, fun hproduced => hnew ⟨hproduced.1, .inl hproduced.2⟩⟩
        rintro rfl
        exact hnew ⟨hlast, .inr rfl⟩
  · have hinfo : (updateBarrier orderByConsumption t sim b).info = sim.info.removeProducer b t := by
      unfold updateBarrier
      simp only [mt hempty.mp hlast, if_false]
    refine ⟨?_, ?_, ?_, hnodup', horderAll⟩
    · rw [hinfo]
      exact hconsistent.removeProducer
    · intro b' p
      rw [hinfo, hremoved]
    · intro b' c
      rw [hinfo, BarrierInfo.consumers_removeProducer, hconsumers, mem_append, mem_singleton]
      constructor
      · rintro ⟨hc, hold, hnew⟩
        refine ⟨hc, hold, ?_⟩
        rintro ⟨hproduced, hx | rfl⟩
        · exact hnew ⟨hproduced, hx⟩
        · exact hlast hproduced
      · rintro ⟨hc, hold, hnew⟩
        exact ⟨hc, hold, fun hproduced => hnew ⟨hproduced.1, .inl hproduced.2⟩⟩

theorem Updating.foldl (rest : List ℕ) (h : Updating orderByConsumption info executed t barriers sim)
    (hnodup : (barriers ++ rest).Nodup) (ht : ∀ b ∈ rest, t ∈ info.getBarrierProducers b) (hfresh : t ∉ executed) :
    Updating orderByConsumption info executed t (barriers ++ rest)
      (rest.foldl (updateBarrier orderByConsumption t) sim) := by
  induction rest generalizing barriers sim with
  | nil => rwa [append_nil]
  | cons b rest ih =>
    obtain ⟨htb, ht⟩ := forall_mem_cons.mp ht
    have hsplit : barriers ++ b :: rest = barriers ++ [b] ++ rest := by simp
    have hb : b ∉ barriers := by
      intro hmem
      exact (nodup_append.mp hnodup).2.2 b hmem b (mem_cons_self ..) rfl
    rw [hsplit] at hnodup ⊢
    exact ih (h.step hb htb hfresh) hnodup ht

theorem newTaskOpOrder_foldl (bs : List ℕ) :
    (bs.foldl (updateBarrier orderByConsumption t) sim).newTaskOpOrder = sim.newTaskOpOrder := by
  induction bs generalizing sim with
  | nil => rfl
  | cons b bs ih =>
    rw [foldl_cons, ih]
    unfold updateBarrier
    by_cases hempty : ((sim.info.removeProducer b t).getBarrierProducers b).size = 0
    · simp only [hempty, if_true]
    · simp only [hempty, if_false]

theorem executeReadyOp_order :
    (executeReadyOp orderByConsumption sim t).newTaskOpOrder = sim.newTaskOpOrder ++ [t] := newTaskOpOrder_foldl _

theorem Executed.step (h : Executed orderByConsumption info executed sim) (hfresh : t ∉ executed) :
    Executed orderByConsumption info (executed ++ [t]) (executeReadyOp orderByConsumption sim t) := by
  obtain ⟨hconsistent, hproducers, hconsumers, hnodup, horder⟩ := h
  have hstart : Updating orderByConsumption info executed t [] { sim with newTaskOpOrder := sim.newTaskOpOrder ++ [t] } :=
    ⟨hconsistent, fun b p => by simp [hproducers], fun b c => by simp [hconsumers], hnodup, fun b => by simp [horder]⟩
  have hupdates : ∀ b, b ∈ (sim.info.getUpdateBarriers t).toList ↔ t ∈ info.getBarrierProducers b := by
    intro b
    rw [← SmallSet.mem_iff, hconsistent.update_iff, hproducers]
    exact and_iff_left hfresh
  obtain ⟨hconsistent', hproducers', hconsumers', hnodup', horder'⟩ := hstart.foldl (sim.info.getUpdateBarriers t).toList
    (by simpa using SmallSet.toList_nodup _) (fun b hb => (hupdates b).mp hb) hfresh
  refine ⟨hconsistent', ?_, ?_, hnodup', ?_⟩
  · intro b p
    change p ∈ (List.foldl _ _ _ : Simulation).info.getBarrierProducers b ↔ _
    rw [hproducers', nil_append, hupdates, mem_append, mem_singleton]
    constructor
    · rintro ⟨hp, hold, hnew⟩
      refine ⟨hp, ?_⟩
      rintro (hmem | rfl)
      · exact hold hmem
      · exact hnew ⟨rfl, hp⟩
    · rintro ⟨hp, hnot⟩
      exact ⟨hp, fun hmem => hnot (.inl hmem), fun hlast => hnot (.inr hlast.1)⟩
  · intro b c
    change c ∈ (List.foldl _ _ _ : Simulation).info.getBarrierConsumers b ↔ _
    rw [hconsumers', nil_append, hupdates]
    by_cases ht : t ∈ info.getBarrierProducers b
    · constructor
      · rintro ⟨hc, -, hnew⟩
        exact ⟨hc, fun hproduced => hnew ⟨hproduced, ht⟩⟩
      · rintro ⟨hc, hnew⟩
        exact ⟨hc, fun hold => hnew (hold.append [t]), fun hproduced => hnew hproduced.1⟩
    · rw [produced_append_iff ht]
      tauto
  · intro b
    change b ∈ (List.foldl _ _ _ : Simulation).newBarrierOrder ↔ _
    rw [horder', nil_append, hupdates]
    by_cases ht : t ∈ info.getBarrierProducers b
    · constructor
      · rintro (hold | ⟨hnew, -⟩)
        · exact hold.append [t]
        · exact hnew
      · exact fun hnew => .inr ⟨hnew, ht⟩
    · rw [ordered_append_iff ht]
      tauto

theorem Executed.foldl (ready : List ℕ) (h : Executed orderByConsumption info executed sim)
    (horder : sim.newTaskOpOrder = executed) (hnodup : (executed ++ ready).Nodup) :
    Executed orderByConsumption info (executed ++ ready) (ready.foldl (executeReadyOp orderByConsumption) sim) ∧
      (ready.foldl (executeReadyOp orderByConsumption) sim).newTaskOpOrder = executed ++ ready := by
  induction ready generalizing executed sim with
  | nil => simpa using ⟨h, horder⟩
  | cons t ready ih =>
    have hsplit : executed ++ t :: ready = executed ++ [t] ++ ready := by simp
    have hfresh : t ∉ executed := by
      intro hmem
      exact (nodup_append.mp hnodup).2.2 t hmem t (mem_cons_self ..) rfl
    rw [hsplit] at hnodup ⊢
    exact ih (h.step hfresh) (by rw [executeReadyOp_order, horder]) hnodup

theorem executed_nil (h : info.Consistent) : Executed orderByConsumption info [] ⟨info, [], []⟩ := by
  have hnone : ∀ b, ¬ Produced info [] b := by
    rintro b ⟨⟨p, hp⟩, hall⟩
    exact not_mem_nil (hall p hp)
  refine ⟨h, fun b p => by simp, fun b c => by simp [hnone], .nil, fun b => ?_⟩
  unfold Ordered
  split_ifs
  · simp [hnone]
  · simp

end

end NpuCompiler.Barrier
