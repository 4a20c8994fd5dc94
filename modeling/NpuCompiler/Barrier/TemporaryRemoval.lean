import NpuCompiler.Barrier.TemporaryBarriers

namespace NpuCompiler.Barrier.FifoBarrierInfo

open BarrierInfo GraphSplit List

variable {split : GraphSplit} {fifo : ℕ → ℕ → Prop} {s : FifoBarrierInfo} {maps : BarrierInfo} {t p c : ℕ}

structure Cleared (s : BarrierInfo) (done : List ℕ) (s' : BarrierInfo) : Prop where
  consistent : s'.Consistent
  tasks : s'.getNumOfTasks = s.getNumOfTasks
  barriers : s'.getNumOfBarrierOps = s.getNumOfBarrierOps
  producers : ∀ b x, x ∈ s'.getBarrierProducers b ↔ b ∉ done ∧ x ∈ s.getBarrierProducers b
  consumers : ∀ b x, x ∈ s'.getBarrierConsumers b ↔ b ∉ done ∧ x ∈ s.getBarrierConsumers b

theorem hasBarrierDependency_some (h : maps.Consistent) (hat : maps.EdgeAt t p c) (hsingle : ∀ b, maps.EdgeAt b p c → b = t) :
    hasBarrierDependency maps p c = some t := by
  cases hfind : hasBarrierDependency maps p c with
  | none => exact absurd hat (hasBarrierDependency_none h hfind t)
  | some b =>
    unfold hasBarrierDependency at hfind
    have hproducer := h.update_iff.mp (mem_of_find?_eq_some hfind)
    have hfound := find?_some hfind
    rw [decide_eq_true_eq] at hfound
    have hconsumer := h.wait_iff.mp hfound
    rw [hsingle b ⟨hproducer, hconsumer⟩]

theorem hasBarrierDependency_ne (h : maps.Consistent) (hp : p ∉ maps.getBarrierProducers t) :
    hasBarrierDependency maps p c ≠ some t := by
  intro hfind
  exact hp (h.update_iff.mp (mem_of_find?_eq_some hfind))

theorem Cleared.step (h : Temporary s) {done : List ℕ} (hcleared : Cleared s.maps done maps) (ht : t ∉ done)
    (hdep : (t, p, c) ∈ s.fifoDependencies) : Cleared s.maps (done ++ [t]) (removeBarrierDependency maps (t, p, c)) := by
  unfold removeBarrierDependency
  dsimp only
  by_cases hp : p ∈ s.maps.getBarrierProducers t
  · have hc := (h.whole t p c hdep).mp hp
    have hat : maps.EdgeAt t p c := ⟨(hcleared.producers t p).mpr ⟨ht, hp⟩, (hcleared.consumers t c).mpr ⟨ht, hc⟩⟩
    rw [if_pos]
    · refine ⟨hcleared.consistent.removeProducer.removeConsumer, ?_, ?_, ?_, ?_⟩
      · rw [numOfTasks_removeConsumer, numOfTasks_removeProducer, hcleared.tasks]
      · rw [numOfBarrierOps_removeConsumer, numOfBarrierOps_removeProducer, hcleared.barriers]
      · intro b x
        rw [producers_removeConsumer, mem_producers_removeProducer, hcleared.producers, mem_append, mem_singleton]
        constructor
        · rintro ⟨hne, hb, hx⟩
          refine ⟨not_or.mpr ⟨hb, ?_⟩, hx⟩
          rintro rfl
          exact hne ⟨rfl, h.producer b p c hdep x hx⟩
        · rintro ⟨hb, hx⟩
          exact ⟨fun heq => hb (.inr heq.1), fun hmem => hb (.inl hmem), hx⟩
      · intro b x
        rw [mem_consumers_removeConsumer, consumers_removeProducer, hcleared.consumers, mem_append, mem_singleton]
        constructor
        · rintro ⟨hne, hb, hx⟩
          refine ⟨not_or.mpr ⟨hb, ?_⟩, hx⟩
          rintro rfl
          exact hne ⟨rfl, h.consumer b p c hdep x hx⟩
        · rintro ⟨hb, hx⟩
          exact ⟨fun heq => hb (.inr heq.1), fun hmem => hb (.inl hmem), hx⟩
    · apply hasBarrierDependency_some hcleared.consistent hat
      intro b hb
      exact h.single t p c hdep hp b ⟨((hcleared.producers b p).mp hb.1).2, ((hcleared.consumers b c).mp hb.2).2⟩
  · -- the barrier was merged into another one and has no tasks
    obtain ⟨hproducers, hconsumers⟩ := h.empty hdep hp
    rw [if_neg (hasBarrierDependency_ne hcleared.consistent (fun hmem => hp ((hcleared.producers t p).mp hmem).2))]
    refine ⟨hcleared.consistent, hcleared.tasks, hcleared.barriers, ?_, ?_⟩
    · intro b x
      rw [hcleared.producers, mem_append, mem_singleton, not_or, and_assoc]
      exact and_congr_right (fun _ => ⟨fun hx => ⟨fun heq => hproducers x (heq ▸ hx), hx⟩, fun hx => hx.2⟩)
    · intro b x
      rw [hcleared.consumers, mem_append, mem_singleton, not_or, and_assoc]
      exact and_congr_right (fun _ => ⟨fun hx => ⟨fun heq => hconsumers x (heq ▸ hx), hx⟩, fun hx => hx.2⟩)

theorem removeBarrierDependency_run (h : Temporary s) :
    Cleared s.maps (s.fifoDependencies.map Prod.fst) (s.fifoDependencies.foldl removeBarrierDependency s.maps) := by
  suffices hrun : ∀ (todo done : List (ℕ × ℕ × ℕ)) (maps : BarrierInfo), s.fifoDependencies = done ++ todo →
      Cleared s.maps (done.map Prod.fst) maps →
      Cleared s.maps (s.fifoDependencies.map Prod.fst) (todo.foldl removeBarrierDependency maps) by
    apply hrun s.fifoDependencies [] s.maps rfl
    exact ⟨h.consistent, rfl, rfl, by simp, by simp⟩
  intro todo
  induction todo with
  | nil =>
    intro done maps heq hcleared
    rw [append_nil] at heq
    exact heq ▸ hcleared
  | cons dep todo ih =>
    intro done maps heq hcleared
    obtain ⟨t, p, c⟩ := dep
    have hnodup := nodup_of_indices h.indices
    rw [heq, map_append, nodup_append] at hnodup
    have ht : t ∉ done.map Prod.fst := by
      intro hmem
      exact hnodup.2.2 t hmem t mem_cons_self rfl
    apply ih (done ++ [(t, p, c)]) _ (by rw [heq]; simp)
    rw [map_append]
    apply hcleared.step h ht
    rw [heq]
    exact mem_append_right _ mem_cons_self

section
variable {rows : List TaskSet} {n i : ℕ}

theorem row_take : row (rows.take n) i = if i < n then row rows i else ∅ := by
  unfold row
  rw [getD_eq_getElem?_getD, getElem?_take]
  by_cases hi : i < n
  · rw [if_pos hi, if_pos hi, getD_eq_getElem?_getD]
  · rw [if_neg hi, if_neg hi]
    rfl

theorem sum_size_drop (h : ∀ i, n ≤ i → ∀ x, x ∉ row rows i) : ((rows.drop n).map SmallSet.size).sum = 0 := by
  rw [List.sum_eq_zero_iff_forall_eq_nat]
  intro size hsize
  obtain ⟨tasks, htasks, rfl⟩ := mem_map.mp hsize
  obtain ⟨j, hj, rfl⟩ := getElem_of_mem htasks
  have hrow : (rows.drop n)[j] = row rows (n + j) := by
    unfold row
    rw [getElem_drop, getD_eq_getElem]
  rw [hrow]
  unfold SmallSet.size
  rw [length_eq_zero_iff, SmallSet.toList_eq_nil]
  exact h _ (Nat.le_add_right _ _)

theorem inverse_take {links : LinkMap 16} (h : links.Inverse) (hempty : ∀ l, n ≤ l → ∀ r, r ∉ row links.left l) :
    LinkMap.Inverse (⟨links.left.take n, links.right⟩ : LinkMap 16) := by
  intro l r
  change r ∈ row (links.left.take n) l ↔ l ∈ row links.right r
  rw [row_take, ← h l r]
  by_cases hl : l < n
  · rw [if_pos hl]
  · rw [if_neg hl]
    exact iff_of_false SmallSet.not_mem_empty (hempty l (Nat.le_of_not_lt hl) r)

end

structure Restored (s s' : FifoBarrierInfo) : Prop where
  consistent : s'.maps.Consistent
  tasks : s'.maps.getNumOfTasks = s.maps.getNumOfTasks
  barriers : s'.maps.getNumOfBarrierOps = s.numOfBarrierOps
  ops : s'.numOfBarrierOps = s.numOfBarrierOps
  dependencies : s'.fifoDependencies = []
  producers : ∀ b x, x ∈ s'.maps.getBarrierProducers b ↔ b < s.numOfBarrierOps ∧ x ∈ s.maps.getBarrierProducers b
  consumers : ∀ b x, x ∈ s'.maps.getBarrierConsumers b ↔ b < s.numOfBarrierOps ∧ x ∈ s.maps.getBarrierConsumers b

theorem removeBarrierDependenciesImpliedByFIFO_restored (h : Temporary s) :
    ∃ s', s.removeBarrierDependenciesImpliedByFIFO = .ok s' ∧ Restored s s' := by
  have hcleared := removeBarrierDependency_run h
  unfold removeBarrierDependenciesImpliedByFIFO
  dsimp only
  generalize s.fifoDependencies.foldl removeBarrierDependency s.maps = maps at hcleared
  have hproduceLength : maps.produce.left.length - s.fifoDependencies.length = s.numOfBarrierOps := by
    have hlength := hcleared.barriers.trans h.length
    change maps.produce.left.length = _ at hlength
    omega
  have hconsumeLength : maps.consume.left.length - s.fifoDependencies.length = s.numOfBarrierOps := by
    rw [hcleared.consistent.barriers, hproduceLength]
  have hdone : ∀ b, s.numOfBarrierOps ≤ b → b < s.maps.getNumOfBarrierOps → b ∈ s.fifoDependencies.map Prod.fst := by
    intro b hle hlt
    obtain ⟨p, c, hdep⟩ := h.exists_dependency hle hlt
    exact mem_map.mpr ⟨_, hdep, rfl⟩
  have hnoProducer : ∀ b, s.numOfBarrierOps ≤ b → ∀ x, x ∉ maps.getBarrierProducers b := by
    intro b hle x hx
    obtain ⟨hb, hx⟩ := (hcleared.producers b x).mp hx
    exact hb (hdone b hle (h.consistent.producer_lt hx).1)
  have hnoConsumer : ∀ b, s.numOfBarrierOps ≤ b → ∀ x, x ∉ maps.getBarrierConsumers b := by
    intro b hle x hx
    obtain ⟨hb, hx⟩ := (hcleared.consumers b x).mp hx
    exact hb (hdone b hle (h.consistent.consumer_lt hx).1)
  have hkept : ∀ b, b < s.numOfBarrierOps → b ∉ s.fifoDependencies.map Prod.fst := by
    intro b hlt hmem
    obtain ⟨⟨t, p, c⟩, hdep, rfl⟩ := mem_map.mp hmem
    exact absurd (h.range hdep).1 (Nat.not_le.mpr hlt)
  unfold usersOfTemporaryBarriers removeTemporaryBarriers
  rw [hproduceLength, hconsumeLength, if_neg (not_not.mpr (sum_size_drop hnoProducer)),
    if_neg (not_not.mpr (sum_size_drop hnoConsumer))]
  have hleft : (maps.produce.left.take s.numOfBarrierOps).length = s.numOfBarrierOps := by
    rw [length_take]
    omega
  have hright : (maps.consume.left.take s.numOfBarrierOps).length = s.numOfBarrierOps := by
    rw [length_take]
    omega
  refine ⟨_, rfl, ⟨inverse_take hcleared.consistent.produce hnoProducer, inverse_take hcleared.consistent.consume hnoConsumer,
    hright.trans hleft.symm, hcleared.consistent.tasks⟩, hcleared.tasks, hleft, rfl, rfl, ?_, ?_⟩
  · intro b x
    change x ∈ row (maps.produce.left.take s.numOfBarrierOps) b ↔ _
    rw [row_take]
    by_cases hb : b < s.numOfBarrierOps
    · rw [if_pos hb]
      apply (hcleared.producers b x).trans
      simp only [hkept b hb, not_false_eq_true, true_and, hb]
    · rw [if_neg hb]
      simp [hb]
  · intro b x
    change x ∈ row (maps.consume.left.take s.numOfBarrierOps) b ↔ _
    rw [row_take]
    by_cases hb : b < s.numOfBarrierOps
    · rw [if_pos hb]
      apply (hcleared.consumers b x).trans
      simp only [hkept b hb, not_false_eq_true, true_and, hb]
    · rw [if_neg hb]
      simp [hb]

theorem Restored.edgeAt {s' : FifoBarrierInfo} (h : Restored s s') {b x y : ℕ} :
    s'.maps.EdgeAt b x y ↔ b < s.numOfBarrierOps ∧ s.maps.EdgeAt b x y := by
  unfold EdgeAt
  rw [h.producers, h.consumers]
  tauto

theorem removeBarrierDependenciesImpliedByFIFO_preserves (h : Sound split fifo s) :
    ∃ s', s.removeBarrierDependenciesImpliedByFIFO = .ok s' ∧ Preserves split fifo s s' ∧ s'.fifoDependencies = [] := by
  obtain ⟨s', hs', hrestored⟩ := removeBarrierDependenciesImpliedByFIFO_restored h.temporary
  refine ⟨s', hs', ?_, hrestored.dependencies⟩
  have hnone : ∀ (P : ℕ → ℕ → ℕ → Prop) (t p c : ℕ), (t, p, c) ∈ s'.fifoDependencies → P t p c := by
    intro P t p c hdep
    rw [hrestored.dependencies] at hdep
    exact absurd hdep not_mem_nil
  refine ⟨⟨hrestored.consistent, ?_, ?_, ?_, ?_, hnone _, hnone _, hnone _, hnone _, hnone (fun _ p c => fifo p c)⟩,
    hrestored.tasks, hrestored.ops, ?_⟩
  · rintro x y ⟨b, hb⟩
    exact h.fits x y ⟨b, (hrestored.edgeAt.mp hb).2⟩
  · rw [hrestored.dependencies, hrestored.barriers, hrestored.ops]
    rfl
  · rw [hrestored.dependencies]
    rfl
  · rw [hrestored.dependencies]
    exact nodup_nil
  · intro x y
    constructor
    · apply OrderedBy.mono
      rintro x y ⟨b, hb⟩
      exact .single (.inl ⟨b, (hrestored.edgeAt.mp hb).2⟩)
    · apply OrderedBy.mono
      rintro x y ⟨b, hb⟩
      by_cases hlt : b < s.numOfBarrierOps
      · exact .single (.inl ⟨b, hrestored.edgeAt.mpr ⟨hlt, hb⟩⟩)
      · obtain ⟨p, c, hdep⟩ := h.temporary.exists_dependency (Nat.le_of_not_lt hlt) (h.consistent.producer_lt hb.1).1
        rw [h.producer b p c hdep x hb.1, h.consumer b p c hdep y hb.2]
        exact .single (.inr (h.implied b p c hdep))

end NpuCompiler.Barrier.FifoBarrierInfo
