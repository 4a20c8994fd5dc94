import NpuCompiler.Barrier.TemporaryBarriers

namespace NpuCompiler.Barrier.FifoBarrierInfo

open BarrierInfo GraphSplit List

section
variable {maps maps' : BarrierInfo} {b child : ℕ}

structure Merged (maps maps' : BarrierInfo) (b child : ℕ) : Prop where
  consistent : maps'.Consistent
  tasks : maps'.getNumOfTasks = maps.getNumOfTasks
  barriers : maps'.getNumOfBarrierOps = maps.getNumOfBarrierOps
  producers : ∀ x, maps'.getBarrierProducers x = if x = child then ∅ else maps.getBarrierProducers x
  consumers : ∀ x t, t ∈ maps'.getBarrierConsumers x ↔
    x ≠ child ∧ (t ∈ maps.getBarrierConsumers x ∨ x = b ∧ t ∈ maps.getBarrierConsumers child)

theorem merged_of_consistent (h : maps.Consistent) (hb : b < maps.getNumOfBarrierOps) :
    Merged maps ((maps.addConsumers b (maps.getBarrierConsumers child).toList).resetBarrier child) b child := by
  have hadd := addConsumers_spec h hb (fun t ht => (h.consumer_lt (b := child) ht).2)
  generalize maps.addConsumers b (maps.getBarrierConsumers child).toList = added at hadd
  refine ⟨hadd.consistent.resetBarrier, by rw [numOfTasks_resetBarrier, hadd.tasks],
    by rw [numOfBarrierOps_resetBarrier, hadd.barriers], ?_, ?_⟩
  · intro x
    rw [← hadd.producers x]
    change row (added.produce.left.modify child (fun _ => ∅)) x = _
    rw [row_modify]
    by_cases hx : x = child
    · subst hx
      rw [if_pos rfl]
      by_cases hlt : x < added.produce.left.length
      · rw [if_pos ⟨rfl, hlt⟩]
      · rw [if_neg (fun h => hlt h.2), row_out (Nat.le_of_not_lt hlt)]
    · rw [if_neg hx, if_neg (fun h => hx h.1.symm)]
      rfl
  · intro x t
    rw [mem_consumers_resetBarrier, hadd.consumers, or_comm]
    rfl

theorem Merged.mem_producers (h : Merged maps maps' b child) {x t : ℕ} :
    t ∈ maps'.getBarrierProducers x ↔ x ≠ child ∧ t ∈ maps.getBarrierProducers x := by
  rw [h.producers]
  by_cases hx : x = child
  · simp [hx]
  · simp [hx]

theorem Merged.edgeAt (h : Merged maps maps' b child) {x p c : ℕ} :
    maps'.EdgeAt x p c ↔ x ≠ child ∧ p ∈ maps.getBarrierProducers x ∧
      (c ∈ maps.getBarrierConsumers x ∨ x = b ∧ c ∈ maps.getBarrierConsumers child) := by
  unfold EdgeAt
  rw [h.mem_producers, h.consumers]
  constructor
  · exact fun h => ⟨h.1.1, h.1.2, h.2.2⟩
  · exact fun h => ⟨⟨h.1, h.2.1⟩, h.1, h.2.2⟩

theorem Merged.edge_iff (h : Merged maps maps' b child) (hne : b ≠ child)
    (hsame : ∀ t, t ∈ maps.getBarrierProducers b ↔ t ∈ maps.getBarrierProducers child) {p c : ℕ} :
    maps'.Edge p c ↔ maps.Edge p c := by
  constructor
  · rintro ⟨x, hx⟩
    obtain ⟨-, hp, hc | ⟨heq, hc⟩⟩ := h.edgeAt.mp hx
    · exact ⟨x, hp, hc⟩
    · exact ⟨child, (hsame p).mp (heq ▸ hp), hc⟩
  · rintro ⟨x, hp, hc⟩
    by_cases hx : x = child
    · exact ⟨b, h.edgeAt.mpr ⟨hne, (hsame p).mpr (hx ▸ hp), .inr ⟨rfl, hx ▸ hc⟩⟩⟩
    · exact ⟨x, h.edgeAt.mpr ⟨hx, hp, .inl hc⟩⟩

end

section
variable {split : GraphSplit} {fifo : ℕ → ℕ → Prop} {s : FifoBarrierInfo} {maps : BarrierInfo} {b child : ℕ}

theorem Sound.no_consumers_behind (h : Sound split fifo s) {p c : ℕ} (hdep : (b, p, c) ∈ s.fifoDependencies) (hlt : b < child)
    (hchild : child < s.maps.getNumOfBarrierOps)
    (hsame : ∀ t, t ∈ s.maps.getBarrierProducers b ↔ t ∈ s.maps.getBarrierProducers child)
    (hidle : (∀ t, t ∉ s.maps.getBarrierProducers child) → ∀ t, t ∉ s.maps.getBarrierConsumers child) (t : ℕ) :
    t ∉ s.maps.getBarrierConsumers child := by
  apply hidle
  intro x hx
  have hp : x = p := h.producer b p c hdep x ((hsame x).mpr hx)
  obtain ⟨p', c', hdep'⟩ := h.temporary.exists_dependency (Nat.le_trans (h.temporary.range hdep).1 (Nat.le_of_lt hlt)) hchild
  have hp' : x = p' := h.producer child p' c' hdep' x hx
  rw [← hp] at hdep
  rw [← hp'] at hdep'
  exact Nat.ne_of_lt hlt (h.eq_of_parent hdep hdep')

theorem Sound.merge (h : Sound split fifo s) (hmerged : Merged s.maps maps b child) (hlt : b < child)
    (hchild : child < s.maps.getNumOfBarrierOps)
    (hsame : ∀ t, t ∈ s.maps.getBarrierProducers b ↔ t ∈ s.maps.getBarrierProducers child)
    (hidle : (∀ t, t ∉ s.maps.getBarrierProducers child) → ∀ t, t ∉ s.maps.getBarrierConsumers child) :
    Sound split fifo { s with maps } := by
  have hproducers : ∀ x t, t ∈ maps.getBarrierProducers x → t ∈ s.maps.getBarrierProducers x := fun x t ht =>
    (hmerged.mem_producers.mp ht).2
  have hconsumers : ∀ t p c, (t, p, c) ∈ s.fifoDependencies → ∀ x, x ∈ maps.getBarrierConsumers t ↔
      t ≠ child ∧ x ∈ s.maps.getBarrierConsumers t := by
    intro t p c hdep x
    rw [hmerged.consumers]
    apply and_congr_right
    intro hne
    apply or_iff_left
    rintro ⟨rfl, hx⟩
    exact h.no_consumers_behind hdep hlt hchild hsame hidle x hx
  refine ⟨hmerged.consistent, ?_, hmerged.barriers.trans h.length, h.indices, h.parents, ?_, ?_, ?_, ?_, h.implied⟩
  · intro p c hedge
    exact h.fits p c ((hmerged.edge_iff (Nat.ne_of_lt hlt) hsame).mp hedge)
  · exact fun t p c hdep x hx => h.producer t p c hdep x (hproducers t x hx)
  · exact fun t p c hdep x hx => h.consumer t p c hdep x ((hconsumers t p c hdep x).mp hx).2
  · intro t p c hdep
    rw [hmerged.mem_producers, hconsumers t p c hdep c]
    exact and_congr_right (fun _ => h.whole t p c hdep)
  · intro t p c hdep hp x hx
    have hsingle := h.single t p c hdep (hproducers t p hp)
    obtain ⟨-, hpx, hc | ⟨rfl, hc⟩⟩ := hmerged.edgeAt.mp hx
    · exact hsingle x ⟨hpx, hc⟩
    · -- the edge was at `child`, which has no producers any more
      have ht := hsingle child ⟨(hsame p).mp hpx, hc⟩
      exact absurd ht.symm (hmerged.mem_producers.mp hp).1

end

section
variable {config : OptimizeConfig} {fifo : ℕ → ℕ → Prop} {s : FifoBarrierInfo} {checkValidSlotCount : Bool}
  {barriersRangeVec : List ℕ} {state : BarrierInfo × List (List ℕ)}

structure Merging (split : GraphSplit) (fifo : ℕ → ℕ → Prop) (s : FifoBarrierInfo) (barriersRangeVec : List ℕ)
    (state : BarrierInfo × List (List ℕ)) : Prop where
  sound : Sound split fifo { s with maps := state.1 }
  tasks : state.1.getNumOfTasks = s.maps.getNumOfTasks
  edges : ∀ p c, state.1.Edge p c ↔ s.maps.Edge p c
  length : state.2.length = barriersRangeVec.length
  copied : ∀ i < barriersRangeVec.length,
    state.2.getD i [] = (state.1.getBarrierProducers (barriersRangeVec.getD i 0)).toList
  idle : ∀ b ∈ barriersRangeVec, (∀ t, t ∉ state.1.getBarrierProducers b) → ∀ t, t ∉ state.1.getBarrierConsumers b

section
variable (h : Merging config.split fifo s barriersRangeVec state) (hsorted : barriersRangeVec.Pairwise (· < ·))
  (hrange : ∀ b ∈ barriersRangeVec, b < s.numOfBarrierOps + s.fifoDependencies.length)
include h hsorted hrange

theorem Merging.step {i j : ℕ} (hij : i < j)
    (hj : j < barriersRangeVec.length) :
    Merging config.split fifo s barriersRangeVec (mergeSameProducers config checkValidSlotCount barriersRangeVec state (i, j)) := by
  unfold mergeSameProducers
  dsimp only
  split_ifs with hmerge
  · have hi := Nat.lt_trans hij hj
    have hmemi : barriersRangeVec.getD i 0 ∈ barriersRangeVec := by
      rw [getD_eq_getElem _ _ hi]
      exact getElem_mem hi
    have hmemj : barriersRangeVec.getD j 0 ∈ barriersRangeVec := by
      rw [getD_eq_getElem _ _ hj]
      exact getElem_mem hj
    have hlt : barriersRangeVec.getD i 0 < barriersRangeVec.getD j 0 := by
      rw [getD_eq_getElem _ _ hi, getD_eq_getElem _ _ hj]
      exact pairwise_iff_getElem.mp hsorted i j hi hj hij
    have hbound : ∀ b ∈ barriersRangeVec, b < state.1.getNumOfBarrierOps := fun b hb => h.sound.length.symm ▸ hrange b hb
    have htoList := hmerge.1
    rw [h.copied i hi, h.copied j hj] at htoList
    have hinj : ∀ i' < barriersRangeVec.length, barriersRangeVec.getD i' 0 = barriersRangeVec.getD j 0 → i' = j := by
      intro i' hi' heq
      rw [getD_eq_getElem _ _ hi', getD_eq_getElem _ _ hj] at heq
      have hnodup : barriersRangeVec.Nodup := hsorted.imp Nat.ne_of_lt
      exact hnodup.getElem_inj_iff.mp heq
    generalize barriersRangeVec.getD i 0 = b at hmemi hlt htoList ⊢
    generalize hchild : barriersRangeVec.getD j 0 = child at hmemj hlt htoList hinj ⊢
    have hsame : ∀ t, t ∈ state.1.getBarrierProducers b ↔ t ∈ state.1.getBarrierProducers child := by
      intro t
      rw [SmallSet.mem_iff, SmallSet.mem_iff, htoList]
    have hmerged := @merged_of_consistent state.1 b child h.sound.consistent (hbound b hmemi)
    generalize (state.1.addConsumers b (state.1.getBarrierConsumers child).toList).resetBarrier child = maps at hmerged ⊢
    refine ⟨h.sound.merge hmerged hlt (hbound child hmemj) hsame (h.idle child hmemj), hmerged.tasks.trans h.tasks, ?_, ?_, ?_, ?_⟩
    · exact fun p c => (hmerged.edge_iff (Nat.ne_of_lt hlt) hsame).trans (h.edges p c)
    · rw [length_set, h.length]
    · intro i' hi'
      rw [hmerged.producers, getD_eq_getElem?_getD, getElem?_set]
      by_cases heq : j = i'
      · subst heq
        rw [if_pos rfl, if_pos (h.length.symm ▸ hj), if_pos hchild]
        rfl
      · rw [if_neg heq, if_neg (fun heq' => heq (hinj i' hi' heq').symm), ← getD_eq_getElem?_getD]
        exact h.copied i' hi'
    · intro x hx hproducers t ht
      obtain ⟨hne, hold | ⟨rfl, hnew⟩⟩ := (hmerged.consumers x t).mp ht
      · apply h.idle x hx _ t hold
        exact fun y hy => hproducers y (hmerged.mem_producers.mpr ⟨hne, hy⟩)
      · apply h.idle child hmemj _ t hnew
        exact fun y hy => hproducers y (hmerged.mem_producers.mpr ⟨hne, (hsame y).mpr hy⟩)
  · exact h

theorem Merging.run {inds : List (ℕ × ℕ)}
    (hinds : ∀ ind ∈ inds, ind.1 < ind.2 ∧ ind.2 < barriersRangeVec.length) :
    Merging config.split fifo s barriersRangeVec
      (inds.foldl (mergeSameProducers config checkValidSlotCount barriersRangeVec) state) := by
  induction inds generalizing state with
  | nil => exact h
  | cons ind inds ih =>
    obtain ⟨⟨hij, hj⟩, hinds⟩ := forall_mem_cons.mp hinds
    exact ih (h.step hsorted hrange hij hj) hinds

end

theorem merging_init (h : Sound config.split fifo s) {lo hi : ℕ}
    (hbarriers : BlockBarriers s lo hi s.maps.getUpdateBarriers barriersRangeVec) :
    Merging config.split fifo s barriersRangeVec
      (s.maps, barriersRangeVec.map (fun barInd => (s.maps.getBarrierProducers barInd).toList)) := by
  refine ⟨h, rfl, fun _ _ => Iff.rfl, length_map _, ?_, ?_⟩
  · intro i hi
    rw [getD_eq_getElem _ _ hi, getD_eq_getElem _ _ (by rw [length_map]; exact hi), getElem_map]
  · intro b hb hproducers
    obtain ⟨t, -, -, ht⟩ := hbarriers.used b hb
    exact absurd (h.consistent.update_iff.mp ht) (hproducers t)

theorem optimizeBarriersWithSameProducers_preserves (h : Sound config.split fifo s) {k : ℕ}
    (hk : k < config.split.getControlGraphBlockCount) :
    ∃ s', s.optimizeBarriersWithSameProducers config checkValidSlotCount k = .ok s' ∧ Preserves config.split fifo s s' ∧
      s'.fifoDependencies = s.fifoDependencies := by
  obtain ⟨lo, hi, hrange⟩ := @exists_range config.split s.maps k hk true false
  obtain ⟨l, hl, hbarriers⟩ := @getBarriersForTaskBlock_spec config s k lo hi true false true hrange
  unfold optimizeBarriersWithSameProducers
  rw [hl]
  dsimp only [bind, Except.bind]
  by_cases hnil : l = []
  · rw [if_pos hnil]
    exact ⟨s, rfl, h.preserves_refl, rfl⟩
  · have hmem : ∀ b ∈ l, b ≤ s.numOfBarrierOps + s.fifoDependencies.length - 1 := fun b hb => Nat.le_sub_one_of_lt (hbarriers.lt b hb)
    have hhead : l.headD 0 ∈ l := by
      cases l with
      | nil => exact absurd rfl hnil
      | cons b l => exact mem_cons_self
    have hlast : l.getLastD 0 ∈ l := by
      rw [getLastD_eq_getLast?, getLast?_eq_some_getLast hnil, Option.getD_some]
      exact getLast_mem hnil
    rw [if_neg hnil, if_neg (Nat.not_lt.mpr (hmem _ hhead)), if_neg (Nat.not_lt.mpr (hmem _ hlast))]
    have hinds : ∀ ind ∈ (List.range l.length).flatMap (fun ind1 => (tasksFrom (ind1 + 1) l.length).map (fun ind2 => (ind1, ind2))),
        ind.1 < ind.2 ∧ ind.2 < l.length := by
      intro ind hind
      obtain ⟨i, -, hind⟩ := mem_flatMap.mp hind
      obtain ⟨j, hj, rfl⟩ := mem_map.mp hind
      exact mem_tasksFrom.mp hj
    have hmerging := @Merging.run config fifo s checkValidSlotCount l _ (merging_init h hbarriers) hbarriers.sorted hbarriers.lt _ hinds
    refine ⟨_, rfl, ⟨hmerging.sound, hmerging.tasks, rfl, ?_⟩, rfl⟩
    intro p c
    constructor
    · apply OrderedBy.mono
      exact fun p c hedge => .single (.inl ((hmerging.edges p c).mp hedge))
    · apply OrderedBy.mono
      exact fun p c hedge => .single (.inl ((hmerging.edges p c).mpr hedge))

end

end NpuCompiler.Barrier.FifoBarrierInfo
