import NpuCompiler.Barrier.BlockRanges

namespace NpuCompiler.Barrier

open BarrierInfo GraphSplit List

namespace BarrierInfo

def OrderedBy (s : BarrierInfo) (fifo : ℕ → ℕ → Prop) : ℕ → ℕ → Prop := Relation.TransGen (fun p c => s.Edge p c ∨ fifo p c)

theorem OrderedBy.mono {s s' : BarrierInfo} {fifo : ℕ → ℕ → Prop} {p c : ℕ} (h : ∀ p c, s.Edge p c → s'.OrderedBy fifo p c)
    (hordered : s.OrderedBy fifo p c) : s'.OrderedBy fifo p c := by
  apply Relation.TransGen.closed _ p c hordered
  rintro p c (hedge | hfifo)
  · exact h p c hedge
  · exact .single (.inr hfifo)

theorem OrderedBy.of_ordered {s : BarrierInfo} {fifo : ℕ → ℕ → Prop} {p c : ℕ} (h : s.Ordered p c) : s.OrderedBy fifo p c :=
  Relation.TransGen.mono (fun _ _ hedge => .inl hedge) p c h

end BarrierInfo

namespace FifoBarrierInfo

structure Sound (split : GraphSplit) (fifo : ℕ → ℕ → Prop) (s : FifoBarrierInfo) : Prop where
  consistent : s.maps.Consistent
  fits : ∀ p c, s.maps.Edge p c → split.Fits p c
  length : s.maps.getNumOfBarrierOps = s.numOfBarrierOps + s.fifoDependencies.length
  indices : s.fifoDependencies.map Prod.fst = (List.range s.fifoDependencies.length).map (s.numOfBarrierOps + ·)
  parents : (s.fifoDependencies.map (fun dep => dep.2.1)).Nodup
  producer : ∀ t p c, (t, p, c) ∈ s.fifoDependencies → ∀ x ∈ s.maps.getBarrierProducers t, x = p
  consumer : ∀ t p c, (t, p, c) ∈ s.fifoDependencies → ∀ x ∈ s.maps.getBarrierConsumers t, x = c
  /-- A temporary barrier has both its tasks or none of them. -/
  whole : ∀ t p c, (t, p, c) ∈ s.fifoDependencies → (p ∈ s.maps.getBarrierProducers t ↔ c ∈ s.maps.getBarrierConsumers t)
  /-- While it has them, it is the only barrier between them. -/
  single : ∀ t p c, (t, p, c) ∈ s.fifoDependencies → p ∈ s.maps.getBarrierProducers t → ∀ b, s.maps.EdgeAt b p c → b = t
  implied : ∀ t p c, (t, p, c) ∈ s.fifoDependencies → fifo p c

structure Temporary (s : FifoBarrierInfo) : Prop where
  consistent : s.maps.Consistent
  length : s.maps.getNumOfBarrierOps = s.numOfBarrierOps + s.fifoDependencies.length
  indices : s.fifoDependencies.map Prod.fst = (List.range s.fifoDependencies.length).map (s.numOfBarrierOps + ·)
  producer : ∀ t p c, (t, p, c) ∈ s.fifoDependencies → ∀ x ∈ s.maps.getBarrierProducers t, x = p
  consumer : ∀ t p c, (t, p, c) ∈ s.fifoDependencies → ∀ x ∈ s.maps.getBarrierConsumers t, x = c
  whole : ∀ t p c, (t, p, c) ∈ s.fifoDependencies → (p ∈ s.maps.getBarrierProducers t ↔ c ∈ s.maps.getBarrierConsumers t)
  single : ∀ t p c, (t, p, c) ∈ s.fifoDependencies → p ∈ s.maps.getBarrierProducers t → ∀ b, s.maps.EdgeAt b p c → b = t

section
variable {s : FifoBarrierInfo} {p c t b : ℕ}

theorem Temporary.range (h : Temporary s) (hdep : (t, p, c) ∈ s.fifoDependencies) :
    s.numOfBarrierOps ≤ t ∧ t < s.maps.getNumOfBarrierOps := by
  have hmem : t ∈ s.fifoDependencies.map Prod.fst := mem_map.mpr ⟨_, hdep, rfl⟩
  rw [h.indices, mem_map] at hmem
  obtain ⟨i, hi, rfl⟩ := hmem
  have hlt := mem_range.mp hi
  rw [h.length]
  exact ⟨Nat.le_add_right _ _, Nat.add_lt_add_left hlt _⟩

theorem Temporary.exists_dependency (h : Temporary s) (hle : s.numOfBarrierOps ≤ b) (hlt : b < s.maps.getNumOfBarrierOps) :
    ∃ p c, (b, p, c) ∈ s.fifoDependencies := by
  rw [h.length] at hlt
  have hmem : b ∈ s.fifoDependencies.map Prod.fst := by
    rw [h.indices, mem_map]
    exact ⟨b - s.numOfBarrierOps, mem_range.mpr (by omega), by omega⟩
  obtain ⟨⟨t, p, c⟩, hdep, rfl⟩ := mem_map.mp hmem
  exact ⟨p, c, hdep⟩

theorem nodup_of_indices
    (h : s.fifoDependencies.map Prod.fst = (List.range s.fifoDependencies.length).map (s.numOfBarrierOps + ·)) :
    (s.fifoDependencies.map Prod.fst).Nodup := by
  rw [h]
  exact nodup_range.map (fun _ _ heq => Nat.add_left_cancel heq)

theorem Temporary.empty (h : Temporary s) (hdep : (t, p, c) ∈ s.fifoDependencies) (hp : p ∉ s.maps.getBarrierProducers t) :
    (∀ x, x ∉ s.maps.getBarrierProducers t) ∧ ∀ x, x ∉ s.maps.getBarrierConsumers t := by
  constructor
  · intro x hx
    exact hp (h.producer t p c hdep x hx ▸ hx)
  · intro x hx
    exact hp ((h.whole t p c hdep).mpr (h.consumer t p c hdep x hx ▸ hx))

end

structure Preserves (split : GraphSplit) (fifo : ℕ → ℕ → Prop) (s s' : FifoBarrierInfo) : Prop where
  sound : Sound split fifo s'
  tasks : s'.maps.getNumOfTasks = s.maps.getNumOfTasks
  ops : s'.numOfBarrierOps = s.numOfBarrierOps
  ordered : ∀ p c, s'.maps.OrderedBy fifo p c ↔ s.maps.OrderedBy fifo p c

section
variable {split : GraphSplit} {fifo : ℕ → ℕ → Prop} {s s' s'' : FifoBarrierInfo} {p c t b : ℕ}

theorem Sound.preserves_refl (h : Sound split fifo s) : Preserves split fifo s s := ⟨h, rfl, rfl, fun _ _ => Iff.rfl⟩

theorem Preserves.trans (h : Preserves split fifo s s') (h' : Preserves split fifo s' s'') : Preserves split fifo s s'' :=
  ⟨h'.sound, h'.tasks.trans h.tasks, h'.ops.trans h.ops, fun p c => (h'.ordered p c).trans (h.ordered p c)⟩

theorem Sound.temporary (h : Sound split fifo s) : Temporary s :=
  ⟨h.consistent, h.length, h.indices, h.producer, h.consumer, h.whole, h.single⟩

theorem Sound.eq_of_parent (h : Sound split fifo s) {t' c' : ℕ} (hdep : (t, p, c) ∈ s.fifoDependencies)
    (hdep' : (t', p, c') ∈ s.fifoDependencies) : t = t' := by
  have heq := inj_on_of_nodup_map h.parents hdep hdep' rfl
  exact congrArg Prod.fst heq

theorem hasBarrierDependency_none {maps : BarrierInfo} (h : maps.Consistent) (hnone : hasBarrierDependency maps p c = none)
    (b : ℕ) : ¬ maps.EdgeAt b p c := by
  rintro ⟨hp, hc⟩
  unfold hasBarrierDependency at hnone
  rw [find?_eq_none] at hnone
  apply hnone b (h.update_iff.mpr hp)
  exact decide_eq_true (h.wait_iff.mpr hc)

structure WithEdge (s s' : BarrierInfo) (p c : ℕ) : Prop where
  consistent : s'.Consistent
  tasks : s'.getNumOfTasks = s.getNumOfTasks
  barriers : s'.getNumOfBarrierOps = s.getNumOfBarrierOps + 1
  producers : ∀ b x, x ∈ s'.getBarrierProducers b ↔ (b = s.getNumOfBarrierOps ∧ x = p) ∨ x ∈ s.getBarrierProducers b
  consumers : ∀ b x, x ∈ s'.getBarrierConsumers b ↔ (b = s.getNumOfBarrierOps ∧ x = c) ∨ x ∈ s.getBarrierConsumers b

theorem addTemporary_withEdge {maps : BarrierInfo} (h : maps.Consistent) (hp : p < maps.getNumOfTasks) (hc : c < maps.getNumOfTasks) :
    WithEdge maps ((maps.addNewBarrier.addProducer maps.getNumOfBarrierOps p).addConsumer maps.getNumOfBarrierOps c) p c := by
  have hnew := h.addNewBarrier
  have hlt : maps.getNumOfBarrierOps < maps.addNewBarrier.getNumOfBarrierOps := by
    rw [numOfBarrierOps_addNewBarrier]
    exact Nat.lt_succ_self _
  have hproducer := hnew.addProducer hlt (by simpa using hp)
  have hlt' : maps.getNumOfBarrierOps < (maps.addNewBarrier.addProducer maps.getNumOfBarrierOps p).getNumOfBarrierOps := by
    rw [numOfBarrierOps_addProducer]
    exact hlt
  refine ⟨hproducer.addConsumer hlt' (by simpa using hc), by simp, by simp, ?_, ?_⟩
  · intro b x
    rw [producers_addConsumer, mem_producers_addProducer hlt, producers_addNewBarrier]
  · intro b x
    rw [mem_consumers_addConsumer (Nat.lt_of_lt_of_eq hlt' hproducer.barriers.symm), consumers_addProducer, consumers_addNewBarrier]

theorem WithEdge.edgeAt {maps maps' : BarrierInfo} (h : WithEdge maps maps' p c) (hconsistent : maps.Consistent) {b x y : ℕ} :
    maps'.EdgeAt b x y ↔ (b = maps.getNumOfBarrierOps ∧ x = p ∧ y = c) ∨ maps.EdgeAt b x y := by
  unfold EdgeAt
  rw [h.producers, h.consumers]
  by_cases hb : b = maps.getNumOfBarrierOps
  · subst hb
    have hproducers : x ∉ maps.getBarrierProducers maps.getNumOfBarrierOps := fun hx =>
      Nat.lt_irrefl _ (hconsistent.producer_lt hx).1
    have hconsumers : y ∉ maps.getBarrierConsumers maps.getNumOfBarrierOps := fun hy =>
      Nat.lt_irrefl _ (hconsistent.consumer_lt hy).1
    simp only [true_and, hproducers, hconsumers, or_false, false_and]
  · simp only [hb, false_and, false_or]

theorem addTemporaryBarrierDependence_preserves (h : Sound split fifo s) (hp : p < s.maps.getNumOfTasks)
    (hc : c < s.maps.getNumOfTasks) (hfits : split.Fits p c) (hfifo : fifo p c)
    (hnone : hasBarrierDependency s.maps p c = none) (hparent : p ∉ s.fifoDependencies.map (fun dep => dep.2.1)) :
    Preserves split fifo s (s.addTemporaryBarrierDependence p c) := by
  have hedge := addTemporary_withEdge h.consistent hp hc
  have hdeps : (s.addTemporaryBarrierDependence p c).fifoDependencies = s.fifoDependencies ++ [(s.maps.getNumOfBarrierOps, p, c)] := rfl
  have hops : (s.addTemporaryBarrierDependence p c).numOfBarrierOps = s.numOfBarrierOps := rfl
  change WithEdge s.maps (s.addTemporaryBarrierDependence p c).maps p c at hedge
  have hne : ∀ t p' c', (t, p', c') ∈ s.fifoDependencies → t ≠ s.maps.getNumOfBarrierOps := fun t p' c' hdep =>
    Nat.ne_of_lt (h.temporary.range hdep).2
  have hcases : ∀ t p' c', (t, p', c') ∈ (s.addTemporaryBarrierDependence p c).fifoDependencies →
      (t, p', c') ∈ s.fifoDependencies ∨ t = s.maps.getNumOfBarrierOps ∧ p' = p ∧ c' = c := by
    intro t p' c' hdep
    rw [hdeps, mem_append, mem_singleton, Prod.mk.injEq, Prod.mk.injEq] at hdep
    exact hdep
  have hnoProducer : ∀ x, x ∉ s.maps.getBarrierProducers s.maps.getNumOfBarrierOps := fun x hx =>
    Nat.lt_irrefl _ (h.consistent.producer_lt hx).1
  have hnoConsumer : ∀ x, x ∉ s.maps.getBarrierConsumers s.maps.getNumOfBarrierOps := fun x hx =>
    Nat.lt_irrefl _ (h.consistent.consumer_lt hx).1
  refine ⟨⟨hedge.consistent, ?_, ?_, ?_, ?_, ?_, ?_, ?_, ?_, ?_⟩, hedge.tasks, hops, ?_⟩
  · rintro x y ⟨b, hb⟩
    cases (hedge.edgeAt h.consistent).mp hb with
    | inl hnew => exact hnew.2.1 ▸ hnew.2.2 ▸ hfits
    | inr hold => exact h.fits x y ⟨b, hold⟩
  · rw [hedge.barriers, hops, hdeps, length_append, length_singleton, h.length, Nat.add_assoc]
  · rw [hdeps, hops, length_append, length_singleton, range_succ, map_append, map_append, h.indices, h.length]
    rfl
  · rw [hdeps, map_append, nodup_append]
    refine ⟨h.parents, nodup_cons.mpr ⟨not_mem_nil, nodup_nil⟩, ?_⟩
    intro x hx y hy heq
    rw [map_cons, map_nil, mem_singleton] at hy
    rw [heq, hy] at hx
    exact hparent hx
  · intro t p' c' hdep x hx
    rw [hedge.producers] at hx
    cases hcases t p' c' hdep with
    | inl hold =>
      apply h.producer t p' c' hold x
      exact hx.resolve_left (fun hnew => hne t p' c' hold hnew.1)
    | inr hnew =>
      rw [hnew.1] at hx
      rw [hnew.2.1]
      exact (hx.resolve_right (hnoProducer x)).2
  · intro t p' c' hdep x hx
    rw [hedge.consumers] at hx
    cases hcases t p' c' hdep with
    | inl hold =>
      apply h.consumer t p' c' hold x
      exact hx.resolve_left (fun hnew => hne t p' c' hold hnew.1)
    | inr hnew =>
      rw [hnew.1] at hx
      rw [hnew.2.2]
      exact (hx.resolve_right (hnoConsumer x)).2
  · intro t p' c' hdep
    rw [hedge.producers, hedge.consumers]
    cases hcases t p' c' hdep with
    | inl hold =>
      have := hne t p' c' hold
      simp only [this, false_and, false_or]
      exact h.whole t p' c' hold
    | inr hnew =>
      constructor
      · exact fun _ => .inl ⟨hnew.1, hnew.2.2⟩
      · exact fun _ => .inl ⟨hnew.1, hnew.2.1⟩
  · intro t p' c' hdep hproducer b hb
    rw [hedge.producers] at hproducer
    cases hcases t p' c' hdep with
    | inl hold =>
      have hold' := hproducer.resolve_left (fun hnew => hne t p' c' hold hnew.1)
      cases (hedge.edgeAt h.consistent).mp hb with
      | inl hnew =>
        apply absurd _ hparent
        exact mem_map.mpr ⟨_, hold, hnew.2.1⟩
      | inr hedgeAt => exact h.single t p' c' hold hold' b hedgeAt
    | inr hnew =>
      obtain ⟨rfl, rfl, rfl⟩ := hnew
      cases (hedge.edgeAt h.consistent).mp hb with
      | inl hnew => exact hnew.1
      | inr hedgeAt => exact absurd hedgeAt (hasBarrierDependency_none h.consistent hnone b)
  · intro t p' c' hdep
    cases hcases t p' c' hdep with
    | inl hold => exact h.implied t p' c' hold
    | inr hnew => exact hnew.2.1 ▸ hnew.2.2 ▸ hfifo
  · intro x y
    constructor
    · apply OrderedBy.mono
      rintro x y ⟨b, hb⟩
      cases (hedge.edgeAt h.consistent).mp hb with
      | inl hnew => exact .single (.inr (hnew.2.1 ▸ hnew.2.2 ▸ hfifo))
      | inr hold => exact .single (.inl ⟨b, hold⟩)
    · apply OrderedBy.mono
      rintro x y ⟨b, hb⟩
      exact .single (.inl ⟨b, (hedge.edgeAt h.consistent).mpr (.inr hb)⟩)

end

section
variable {config : OptimizeConfig} {fifo : ℕ → ℕ → Prop} {s : FifoBarrierInfo} {queueType : TaskQueueType} {lo hi : ℕ}

def ParentsIn (config : OptimizeConfig) (queueTypes : List TaskQueueType) (s : FifoBarrierInfo) : Prop :=
  ∀ t p c, (t, p, c) ∈ s.fifoDependencies → config.getTaskQueueType p ∈ queueTypes

theorem ParentsIn.mono {queueTypes queueTypes' : List TaskQueueType} (h : ParentsIn config queueTypes s)
    (hsub : ∀ q ∈ queueTypes, q ∈ queueTypes') : ParentsIn config queueTypes' s :=
  fun t p c hdep => hsub _ (h t p c hdep)

structure QueueOrder (config : OptimizeConfig) (fifo : ℕ → ℕ → Prop) (lo hi : ℕ) : Prop where
  fits : ∀ p c, lo ≤ p → p < c → c ≤ hi → config.split.Fits p c
  implied : ∀ p c, config.getTaskQueueType p = config.getTaskQueueType c → p < c → fifo p c

theorem linkFifoTasks_preserves {queueTypes : List TaskQueueType} {prevIndex : ℕ} {fifoTasks : List ℕ}
    (h : Sound config.split fifo s) (horder : QueueOrder config fifo lo hi)
    (hsorted : (prevIndex :: fifoTasks).Pairwise (· < ·)) (hlo : lo ≤ prevIndex)
    (htasks : ∀ t ∈ prevIndex :: fifoTasks, t < s.maps.getNumOfTasks ∧ config.getTaskQueueType t = queueType)
    (hparents : ∀ t p c, (t, p, c) ∈ s.fifoDependencies →
      config.getTaskQueueType p ∈ queueTypes ∨ config.getTaskQueueType p = queueType ∧ p < prevIndex)
    (hfresh : queueType ∉ queueTypes) :
    Preserves config.split fifo s (linkFifoTasks hi s prevIndex fifoTasks) ∧
      ParentsIn config (queueType :: queueTypes) (linkFifoTasks hi s prevIndex fifoTasks) := by
  have hin : ParentsIn config (queueType :: queueTypes) s := by
    intro t p c hdep
    cases hparents t p c hdep with
    | inl hold => exact mem_cons_of_mem _ hold
    | inr hnew => exact hnew.1 ▸ mem_cons_self
  induction fifoTasks generalizing s prevIndex with
  | nil => exact ⟨h.preserves_refl, hin⟩
  | cons currIndex fifoTasks ih =>
    unfold linkFifoTasks
    by_cases hcurr : currIndex ≤ hi
    · rw [if_pos hcurr]
      obtain ⟨hlt, hsorted'⟩ := pairwise_cons.mp hsorted
      have hprevCurr := hlt currIndex mem_cons_self
      obtain ⟨⟨hprev, htype⟩, htasks'⟩ := forall_mem_cons.mp htasks
      obtain ⟨hcurrLt, hcurrType⟩ := htasks' currIndex mem_cons_self
      -- the parent is new: its queue has only had parents before it
      have hstep : Preserves config.split fifo s (s.addFifoDependency prevIndex currIndex) ∧
          ∀ t p c, (t, p, c) ∈ (s.addFifoDependency prevIndex currIndex).fifoDependencies →
            (t, p, c) ∈ s.fifoDependencies ∨ p = prevIndex := by
        unfold addFifoDependency
        cases hdependency : hasBarrierDependency s.maps prevIndex currIndex with
        | some b => exact ⟨h.preserves_refl, fun _ _ _ hdep => .inl hdep⟩
        | none =>
          constructor
          · apply addTemporaryBarrierDependence_preserves h hprev hcurrLt (horder.fits _ _ hlo hprevCurr hcurr)
              (horder.implied _ _ (htype.trans hcurrType.symm) hprevCurr) hdependency
            rw [mem_map]
            rintro ⟨⟨t, p, c⟩, hdep, hp⟩
            change p = prevIndex at hp
            cases hparents t p c hdep with
            | inl hold => exact hfresh (htype ▸ hp ▸ hold)
            | inr hnew => exact Nat.lt_irrefl _ (hp ▸ hnew.2)
          · intro t p c hdep
            cases mem_append.mp hdep with
            | inl hold => exact .inl hold
            | inr hnew =>
              rw [mem_singleton, Prod.mk.injEq, Prod.mk.injEq] at hnew
              exact .inr hnew.2.1
      obtain ⟨hpreserves, hdeps⟩ := hstep
      generalize s.addFifoDependency prevIndex currIndex = s' at hpreserves hdeps
      have hparents' : ∀ t p c, (t, p, c) ∈ s'.fifoDependencies →
          config.getTaskQueueType p ∈ queueTypes ∨ config.getTaskQueueType p = queueType ∧ p < currIndex := by
        intro t p c hdep
        cases hdeps t p c hdep with
        | inl hold =>
          apply (hparents t p c hold).imp_right
          exact fun hnew => ⟨hnew.1, Nat.lt_trans hnew.2 hprevCurr⟩
        | inr hnew => exact .inr ⟨hnew ▸ htype, hnew ▸ hprevCurr⟩
      have hin' : ParentsIn config (queueType :: queueTypes) s' := by
        intro t p c hdep
        cases hparents' t p c hdep with
        | inl hold => exact mem_cons_of_mem _ hold
        | inr hnew => exact hnew.1 ▸ mem_cons_self
      obtain ⟨hrest, hparentsIn⟩ := ih hpreserves.sound hsorted' (Nat.le_trans hlo (Nat.le_of_lt hprevCurr))
        (fun t ht => hpreserves.tasks.symm ▸ htasks' t ht) hparents' hin'
      exact ⟨hpreserves.trans hrest, hparentsIn⟩
    · rw [if_neg hcurr]
      exact ⟨h.preserves_refl, hin⟩

theorem linkQueue_preserves {queueTypes : List TaskQueueType} {executorKind : Option (List ExecutorKind)}
    (h : Sound config.split fifo s) (horder : QueueOrder config fifo lo hi) (hfresh : queueType ∉ queueTypes)
    (hparents : ParentsIn config queueTypes s) :
    let s' := linkQueue executorKind lo hi s
      (queueType, (List.range s.maps.getNumOfTasks).filter (fun taskInd => config.getTaskQueueType taskInd = queueType))
    Preserves config.split fifo s s' ∧ ParentsIn config (queueType :: queueTypes) s' := by
  have hskip : Preserves config.split fifo s s ∧ ParentsIn config (queueType :: queueTypes) s :=
    ⟨h.preserves_refl, hparents.mono (fun q hq => mem_cons_of_mem _ hq)⟩
  have hmem : ∀ t ∈ (List.range s.maps.getNumOfTasks).filter (fun taskInd => config.getTaskQueueType taskInd = queueType),
      t < s.maps.getNumOfTasks ∧ config.getTaskQueueType t = queueType := by
    intro t ht
    rw [mem_filter, mem_range, decide_eq_true_eq] at ht
    exact ht
  have hsorted : ((List.range s.maps.getNumOfTasks).filter
      (fun taskInd => config.getTaskQueueType taskInd = queueType)).Pairwise (· < ·) := pairwise_lt_range.filter _
  generalize (List.range s.maps.getNumOfTasks).filter _ = fifoTasks at hmem hsorted
  unfold linkQueue
  dsimp only
  split_ifs
  · exact hskip
  · exact hskip
  · cases hfind : fifoTasks.find? (fun taskInd => lo ≤ taskInd && taskInd < hi) with
    | none => exact hskip
    | some prevIndex =>
      have hprev := find?_some hfind
      rw [Bool.and_eq_true, decide_eq_true_eq] at hprev
      apply linkFifoTasks_preserves h horder _ hprev.1 _ _ hfresh
      · rw [pairwise_cons]
        exact ⟨fun t ht => of_decide_eq_true (mem_filter.mp ht).2, hsorted.filter _⟩
      · rw [forall_mem_cons]
        exact ⟨hmem _ (mem_of_find?_eq_some hfind), fun t ht => hmem t (mem_filter.mp ht).1⟩
      · exact fun t p c hdep => .inl (hparents t p c hdep)

theorem linkQueues_preserves (h : Sound config.split fifo s) (horder : QueueOrder config fifo lo hi)
    {executorKind : Option (List ExecutorKind)} {queueTypes done : List TaskQueueType} (hnodup : (done ++ queueTypes).Nodup)
    (hparents : ParentsIn config done s) {n : ℕ} (hn : s.maps.getNumOfTasks = n) :
    Preserves config.split fifo s ((queueTypes.map (fun queueType =>
      (queueType, (List.range n).filter (fun taskInd => config.getTaskQueueType taskInd = queueType)))).foldl
        (linkQueue executorKind lo hi) s) := by
  induction queueTypes generalizing s done with
  | nil => exact h.preserves_refl
  | cons queueType queueTypes ih =>
    rw [map_cons, foldl_cons]
    have hnodup' : ((done ++ [queueType]) ++ queueTypes).Nodup := by simpa using hnodup
    have hfresh : queueType ∉ done := by
      intro hmem
      exact (nodup_append.mp hnodup).2.2 queueType hmem queueType mem_cons_self rfl
    obtain ⟨hpreserves, hparents'⟩ := @linkQueue_preserves config fifo s queueType lo hi done executorKind h horder hfresh hparents
    rw [hn] at hpreserves hparents'
    apply hpreserves.trans
    apply ih hpreserves.sound hnodup' _ (hpreserves.tasks.trans hn)
    exact hparents'.mono (fun q hq => by simpa [or_comm] using hq)

theorem createBarrierDependenciesImpliedByFIFO_preserves (h : Sound config.split fifo s)
    (hsplit : config.split.WellFormed s.maps.getNumOfTasks) {k : ℕ} (hk : k < config.split.getControlGraphBlockCount)
    (hqueues : config.taskQueueTypes ≠ [])
    (himplied : ∀ p c, config.getTaskQueueType p = config.getTaskQueueType c → p < c → fifo p c)
    (hdeps : s.fifoDependencies = []) {executorKind : Option (List ExecutorKind)} :
    ∃ s', s.createBarrierDependenciesImpliedByFIFO config (buildTaskQueueTypeMap config s.maps.getNumOfTasks) k executorKind =
      .ok s' ∧ Preserves config.split fifo s s' := by
  obtain ⟨lo, hi, hrange⟩ := @exists_range config.split s.maps k hk false false
  have hmap : buildTaskQueueTypeMap config s.maps.getNumOfTasks ≠ [] := fun hnil => hqueues (map_eq_nil_iff.mp hnil)
  unfold createBarrierDependenciesImpliedByFIFO
  rw [if_neg hmap, hrange]
  refine ⟨_, rfl, ?_⟩
  apply @linkQueues_preserves config fifo s lo hi h ⟨fun p c => fits_of_inner hsplit hrange, himplied⟩ executorKind _ []
    config.taskQueueTypes_nodup _ _ rfl
  intro t p c hdep
  rw [hdeps] at hdep
  exact absurd hdep not_mem_nil

end

end FifoBarrierInfo

end NpuCompiler.Barrier
