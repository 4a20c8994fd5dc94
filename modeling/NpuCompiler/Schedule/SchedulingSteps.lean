import NpuCompiler.Schedule.SchedulerBooks

namespace NpuCompiler.Schedule.FeasibleMemoryScheduler

open List

variable {f : FeasibleMemoryScheduler} {entry : Ledger} {done pending : Set ℕ} {s₀ : SchedulerState} {opIdx : ℕ}

def IsUnderway (f : FeasibleMemoryScheduler) (entry : Ledger) (done pending : Set ℕ) (s : SchedulerState) : Prop :=
  Underway f entry done pending s.ledger

theorem ensures_throwUnless {P : SchedulerState → Prop} (condition : Bool) (message : String) :
    Ensures P (throwUnless condition message) (fun _ => P) := by
  unfold throwUnless
  apply ensures_ite
  · exact fun _ => ensures_pure (fun _ hs => hs)
  · exact fun _ => ensures_throw _

theorem ensures_read {α : Type} {P : SchedulerState → Prop} (g : SchedulerState → Except String α) :
    Ensures P (readState g) (fun _ => P) :=
  ensures_readState (fun _ hs _ _ => hs)

theorem ensures_look {P : SchedulerState → Prop} : Ensures P (get : SchedulerM SchedulerState) (fun a s => a = s ∧ P s) :=
  ensures_get (fun _ hs => ⟨rfl, hs⟩)

theorem ensures_glance {P : SchedulerState → Prop} : Ensures P (get : SchedulerM SchedulerState) (fun _ => P) :=
  ensures_get (fun _ hs => hs)

theorem ensures_unrecorded {g : SchedulerState → SchedulerState} (h : ∀ s, (g s).ledger = s.ledger) :
    Ensures (IsUnderway f entry done pending) (modify g : SchedulerM PUnit)
      (fun _ => IsUnderway f entry done pending) := by
  apply ensures_modify
  intro s hs
  unfold IsUnderway
  rwa [h s]

section

theorem lookup_present {m : ℕ → Option ℕ} {k : ℕ} (h : m k ≠ none) :
    Function.update m k (some ((m k).getD 0)) = m := by
  obtain ⟨v, hv⟩ := Option.ne_none_iff_exists'.mp h
  rw [hv, Option.getD_some, ← hv, Function.update_eq_self]

theorem ensures_opIdxEndCycleAt (h : s₀.ledger.Scheduled opIdx) :
    Ensures (fun s => s = s₀) (opIdxEndCycleAt opIdx) (fun _ s => s = s₀) := by
  apply ensures_bind (R := fun _ s => s = s₀)
  · apply ensures_modify
    rintro s rfl
    have hsame := lookup_present h
    simp only [SchedulerState.ledger] at hsame
    rw [hsame]
  · intro _
    apply ensures_bind ensures_look
    exact fun _ => ensures_pure (fun _ hs => hs.2)

theorem ensures_bufferProducerAt {buffer : ℕ} (h : s₀.ledger.Produced buffer) :
    Ensures (fun s => s = s₀) (bufferProducerAt buffer) (fun _ s => s = s₀) := by
  apply ensures_bind (R := fun _ s => s = s₀)
  · apply ensures_modify
    rintro s rfl
    have hsame := lookup_present h
    simp only [SchedulerState.ledger] at hsame
    rw [hsame]
  · intro _
    apply ensures_bind ensures_look
    exact fun _ => ensures_pure (fun _ hs => hs.2)

theorem ensures_delayByOp (h : s₀.ledger.Scheduled opIdx) (cycle : ℕ) :
    Ensures (fun s => s = s₀) (delayByOp cycle opIdx) (fun _ s => s = s₀) := by
  apply ensures_bind (ensures_opIdxEndCycleAt h)
  exact fun _ => ensures_pure (fun _ hs => hs)

theorem ensures_getCurrentCycle (h : ∀ dep ∈ f.getOpDeps opIdx, s₀.ledger.Scheduled dep) (depEndCycle : ℕ) :
    Ensures (fun s => s = s₀) (f.getCurrentCycleAndExecutorInstanceMask opIdx depEndCycle) (fun _ s => s = s₀) := by
  apply ensures_bind (ensures_read _)
  intro queueAndCycle
  apply ensures_bind (R := fun _ s => s = s₀)
  · exact ensures_foldlM (J := fun _ s => s = s₀) (fun dep hdep cycle => ensures_delayByOp (h dep hdep) cycle) _
  · exact fun _ => ensures_pure (fun _ hs => hs)

theorem ensures_getEarliestComputeBeginCycle (hbooks : Books f s₀.ledger)
    (h : ∀ dep ∈ f.getOpDeps opIdx, s₀.ledger.Scheduled dep) :
    Ensures (fun s => s = s₀) (f.getEarliestComputeBeginCycle opIdx) (fun _ s => s = s₀) := by
  apply ensures_bind (ensures_getCurrentCycle h 0)
  intro queueAndCycle
  apply ensures_bind ensures_look
  intro s
  apply (ensures_foldlM (J := fun _ s => s = s₀) ?_ _).weaken (fun _ hs => hs.2) (fun _ _ hs => hs)
  intro buffer _ cycle
  apply ensures_of_each
  rintro s₁ rfl
  apply ensures_bind ensures_look
  intro s
  apply ensures_of_each
  rintro s₂ ⟨rfl, rfl⟩
  cases hproducer : s.bufferProducer buffer with
  | none => exact ensures_pure (fun _ hs => hs)
  | some producer => exact ensures_delayByOp (hbooks.producer_scheduled buffer producer hproducer) cycle

theorem alive_removeDynamicSpill {h h' : LinearScanHandler} {val : ℕ} (heq : h.removeDynamicSpill val = .ok h') :
    h'.aliveValues = h.aliveValues := by
  unfold LinearScanHandler.removeDynamicSpill at heq
  split_ifs at heq
  cases heq
  rfl

theorem ensures_scheduleSpilledOpBuffer (buffer : ℕ) (ho : opIdx ∈ done) :
    Ensures (IsUnderway f entry done pending) (f.scheduleSpilledOpBuffer opIdx buffer)
      (fun _ s => IsUnderway f entry done pending s ∧ s.ledger.Produced buffer) := by
  apply ensures_bind (ensures_read _)
  intro queueAndCycle
  apply ensures_bind ensures_glance
  intro _
  apply ensures_bind (ensures_throwUnless _ _)
  intro _
  apply ensures_bind (ensures_unrecorded (fun _ => by rfl))
  intro _
  apply ensures_bind (ensures_throwUnless _ _)
  intro _
  apply ensures_bind (R := fun _ => IsUnderway f entry done pending)
    (ensures_modify (fun _ hs => Underway.eraseSpillBuffer hs))
  intro _
  apply ensures_bind (R := fun handler s =>
    IsUnderway f entry done pending s ∧ handler.aliveValues = s.scan.handler.aliveValues)
  · exact ensures_readState (fun _ hs _ heq => ⟨hs, alive_removeDynamicSpill heq⟩)
  · intro handler
    apply ensures_bind (R := fun _ => IsUnderway f entry done pending)
    · apply ensures_modify
      rintro s ⟨hs, halive⟩
      have hsame : (s.updateHandler (fun _ => handler)).ledger = s.ledger := by
        simp [SchedulerState.ledger, SchedulerState.updateHandler, halive]
      unfold IsUnderway
      rwa [hsame]
    · intro _
      apply ensures_bind (ensures_unrecorded (fun _ => by rfl))
      intro _
      apply ensures_bind (R := fun _ s => IsUnderway f entry done pending s ∧ s.ledger.Produced buffer)
      · apply ensures_modify
        intro s hs
        have hscheduled := hs.scheduled opIdx ho
        have hp := pushed (f := f)
          (.create opIdx queueAndCycle (f.spillCycleCost buffer) .implicitSpillReadOp (some buffer)) s
        constructor
        · exact (hs.push hp (hs.books.deps_scheduled opIdx hscheduled)
            (fun b hb => Or.inl (hs.books.outputs_produced opIdx hscheduled b hb))).mono (Set.subset_insert _ _)
              (subset_refl _)
        · exact (hp.produced buffer).mpr (Or.inr (mem_singleton.mpr rfl))
      · exact fun _ => ensures_pure (fun _ hs => hs)

theorem ensures_reviveBuffer {val : ℕ} (hval : val ∈ pending) :
    Ensures (IsUnderway f entry done pending) (f.reviveBuffer val) (fun _ => IsUnderway f entry done pending) := by
  apply ensures_bind (R := fun _ => IsUnderway f entry done pending)
    (ensures_modify (fun _ hs => Underway.markAsAlive hs (Or.inr hval)))
  intro _
  apply ensures_bind ensures_look
  intro s
  apply ensures_ite
  · intro _
    cases hproducer : s.bufferProducer val with
    | none => exact ensures_throw _
    | some producer =>
      apply ensures_bind (R := fun _ => IsUnderway f entry done pending)
      · have hread : Ensures (IsUnderway f entry (insert producer done) pending)
            (f.scheduleSpilledOpBuffer producer val) _ :=
          ensures_scheduleSpilledOpBuffer val (Set.mem_insert producer done)
        apply hread.weaken
        · rintro _ ⟨rfl, hs⟩
          exact hs.finish (hs.books.producer_scheduled val producer hproducer)
        · exact fun _ _ hs => hs.1.mono (Set.subset_insert _ _) (subset_refl _)
      · exact fun _ => ensures_pure (fun _ hs => hs)
  · exact fun _ => ensures_pure (fun _ hs => hs.2)

def Demanded (demands : List (ℕ ×ₗ ℕ)) (depIdx : ℕ) (s : SchedulerState) : Prop :=
  s.ledger.Scheduled depIdx ∨ ∃ cycle, toLex (cycle, depIdx) ∈ demands

theorem ensures_addDemand (hbooks : Books f s₀.ledger) (demands : List (ℕ ×ₗ ℕ)) (depIdx : ℕ) :
    Ensures (fun s => s = s₀) (f.addDemand demands depIdx)
      (fun demands' s => s = s₀ ∧ demands ⊆ demands' ∧ Demanded demands' depIdx s₀) := by
  apply ensures_bind ensures_look
  intro s
  apply ensures_of_each
  rintro s₁ ⟨rfl, rfl⟩
  apply ensures_ite
  · intro hscheduled
    apply ensures_pure
    rintro s₁ rfl
    exact ⟨rfl, List.Subset.refl _, Or.inl (Option.isSome_iff_ne_none.mp hscheduled)⟩
  · intro _
    apply ensures_bind (R := fun _ s₁ => s₁ = s ∧ depIdx ∈ s.readyDataOps)
    · unfold throwUnless
      apply ensures_ite
      · exact fun hready => ensures_pure (fun _ hs => ⟨hs, by simpa using hready⟩)
      · exact fun _ => ensures_throw _
    · intro _
      apply ensures_of_each
      rintro s₁ ⟨rfl, hready⟩
      apply ensures_bind (ensures_getCurrentCycle (hbooks.ready_deps depIdx hready) 0)
      intro queueAndCycle
      apply ensures_pure
      rintro s₂ rfl
      exact ⟨rfl, subset_cons_self _ _, Or.inr ⟨queueAndCycle.cycle, mem_cons_self⟩⟩

theorem Demanded.mono {demands demands' : List (ℕ ×ₗ ℕ)} {depIdx : ℕ} {s : SchedulerState}
    (h : Demanded demands depIdx s) (hsub : demands ⊆ demands') : Demanded demands' depIdx s :=
  h.imp_right (fun ⟨cycle, hmem⟩ => ⟨cycle, hsub hmem⟩)

theorem ensures_addDemands (hbooks : Books f s₀.ledger) (deps : List ℕ) (demands : List (ℕ ×ₗ ℕ)) :
    Ensures (fun s => s = s₀) (deps.foldlM f.addDemand demands)
      (fun demands' s => s = s₀ ∧ demands ⊆ demands' ∧ ∀ dep ∈ deps, Demanded demands' dep s₀) := by
  induction deps generalizing demands with
  | nil => exact ensures_pure (fun s hs => ⟨hs, List.Subset.refl _, fun _ h => absurd h not_mem_nil⟩)
  | cons dep deps ih =>
    rw [foldlM_cons]
    apply ensures_bind (ensures_addDemand hbooks demands dep)
    intro demands₁
    apply ensures_of_each
    rintro s ⟨rfl, hsub₁, hdep⟩
    apply (ih demands₁).weaken (fun _ hs => hs)
    rintro demands₂ s' ⟨rfl, hsub₂, hdeps⟩
    exact ⟨rfl, List.Subset.trans hsub₁ hsub₂, forall_mem_cons.mpr ⟨hdep.mono hsub₂, hdeps⟩⟩

def Schedules (f : FeasibleMemoryScheduler) (entry : Ledger) (schedule : ℕ → SchedulerM ℕ) : Prop :=
  ∀ depIdx done pending, Ensures (IsUnderway f entry done pending) (schedule depIdx)
    (fun _ => IsUnderway f entry (insert depIdx done) pending)

section
variable {schedule : ℕ → SchedulerM ℕ} (h : Schedules f entry schedule)
include h

theorem ensures_scheduleDemand (depIdx : ℕ) :
    Ensures (IsUnderway f entry done pending)
      (do
        let _ ← schedule depIdx
        modify (·.eraseReadyData depIdx) : SchedulerM PUnit)
      (fun _ => IsUnderway f entry (insert depIdx done) pending) := by
  apply ensures_bind (h depIdx done pending)
  intro _
  exact ensures_modify (fun _ hs => Underway.eraseReadyData hs)

theorem ensures_scheduleDemands (demands : List (ℕ ×ₗ ℕ)) :
    Ensures (IsUnderway f entry done pending)
      (demands.forM (fun demand => do
        let _ ← schedule (ofLex demand).2
        modify (·.eraseReadyData (ofLex demand).2)))
      (fun _ => IsUnderway f entry (done ∪ {op | ∃ demand ∈ demands, (ofLex demand).2 = op}) pending) := by
  induction demands generalizing done with
  | nil => exact ensures_pure (fun s hs => Underway.mono hs (by simp) (subset_refl _))
  | cons demand demands ih =>
    apply ensures_bind (ensures_scheduleDemand h (ofLex demand).2)
    intro _
    apply ih.weaken (fun _ hs => hs)
    intro _ s hs
    apply Underway.mono hs ?_ (subset_refl _)
    rintro op (hop | ⟨d, hd, rfl⟩)
    · exact Or.inl (Set.mem_insert_of_mem _ hop)
    · cases mem_cons.mp hd with
      | inl heq => exact Or.inl (heq ▸ Set.mem_insert _ _)
      | inr hd => exact Or.inr ⟨d, hd, rfl⟩

theorem ensures_scheduleDependencies : Ensures (IsUnderway f entry done pending) (f.scheduleDependencies schedule opIdx)
      (fun _ => IsUnderway f entry (done ∪ {dep | dep ∈ f.getOpDeps opIdx})
        (pending ∪ {b | b ∈ entry.getUsedBuffers opIdx})) := by
  apply ensures_bind ensures_look
  intro s
  apply ensures_bind (R := fun _ =>
    IsUnderway f entry done (pending ∪ {b | b ∈ entry.getUsedBuffers opIdx}))
  · apply ensures_of_each
    rintro s₁ ⟨rfl, hs⟩
    have hused : s.getUsedBuffers opIdx = entry.getUsedBuffers opIdx :=
      congrFun hs.untouched.getUsedBuffers opIdx
    apply (ensures_forM (I := IsUnderway f entry done (pending ∪ {b | b ∈ entry.getUsedBuffers opIdx})) ?_).weaken
    · rintro s₁ rfl
      exact Underway.mono hs (subset_refl _) Set.subset_union_left
    · exact fun _ _ hs => hs
    · intro val hval
      apply ensures_reviveBuffer
      right
      rw [← hused]
      exact mem_of_mem_filter hval
  intro _
  apply ensures_of_each
  intro s₁ hs₁
  apply ensures_bind (ensures_addDemands hs₁.books _ _)
  intro demands
  apply ensures_of_each
  rintro s₂ ⟨rfl, -, hdemands⟩
  -- what is scheduled by now stays so, the demands come on top
  have hnow : IsUnderway f entry (done ∪ {op | s₂.ledger.Scheduled op})
      (pending ∪ {b | b ∈ entry.getUsedBuffers opIdx}) s₂ :=
    ⟨hs₁.untouched, hs₁.tracked, hs₁.books, fun op hop => hop.elim (hs₁.scheduled op) id, hs₁.alive⟩
  apply ensures_bind ((ensures_scheduleDemands h (sortedOf demands)).weaken
    (fun s hs => by rwa [hs]) (fun _ _ hs => hs))
  intro _
  apply ensures_of_each
  intro s₃ hs₃
  have hdeps : ∀ dep ∈ f.getOpDeps opIdx, s₃.ledger.Scheduled dep := by
    intro dep hdep
    apply hs₃.scheduled
    cases hdemands dep hdep with
    | inl hscheduled => exact Or.inl (Or.inr hscheduled)
    | inr hdemand =>
      obtain ⟨cycle, hmem⟩ := hdemand
      exact Or.inr ⟨_, mem_sortedOf.mpr hmem, rfl⟩
  apply (ensures_getEarliestComputeBeginCycle hs₃.books hdeps).weaken (fun _ hs => hs)
  rintro _ s rfl
  refine ⟨hs₃.untouched, hs₃.tracked, hs₃.books, ?_, hs₃.alive⟩
  rintro op (hop | hop)
  · exact hs₃.scheduled op (Or.inl (Or.inl hop))
  · exact hdeps op hop

end

theorem ensures_placeOp {opType : EOpType} (htype : opType = .originalOp ∨ opType = .originalPrefetchedOp)
    (depEndCycle : ℕ) :
    Ensures (IsUnderway f entry (done ∪ {dep | dep ∈ f.getOpDeps opIdx})
        (pending ∪ {b | b ∈ entry.getUsedBuffers opIdx})) (f.placeOp opIdx opType depEndCycle)
      (fun _ => IsUnderway f entry (insert opIdx done) pending) := by
  apply ensures_of_each
  intro s hs
  have hdeps : ∀ dep ∈ f.getOpDeps opIdx, s.ledger.Scheduled dep := fun dep hdep => hs.scheduled dep (Or.inr hdep)
  apply ensures_bind (ensures_getCurrentCycle hdeps depEndCycle)
  intro queueAndCycle
  apply ensures_bind ((ensures_unrecorded (fun _ => by rfl)).weaken (fun s' hs' => hs' ▸ hs) (fun _ _ hs => hs))
  intro _
  apply ensures_bind (R := fun _ => IsUnderway f entry (insert opIdx done) pending)
  · apply ensures_modify
    intro s' hs'
    generalize hop : (if f.isLoopPrefetch opIdx then EOpType.loopOp else opType) = opType'
    let elem := HeapEntry.create opIdx queueAndCycle (f.operationCycleCost opIdx) opType' none
    have htype' : opType' = .originalOp ∨ opType' = .originalPrefetchedOp ∨ opType' = .loopOp := by
      rw [← hop]
      split_ifs
      · exact Or.inr (Or.inr rfl)
      · exact htype.imp_right Or.inl
    have helem : elem.toElement.isSpillReadOp = false ∧ elem.toElement.isOriginalOp = true := by
      obtain h | h | h := htype' <;>
        simp [elem, HeapEntry.create, HeapEntry.toElement, HeapElement.isSpillReadOp, HeapElement.isOriginalOp, h]
    have hp := pushed (f := f) elem s'
    have houtputs : ∀ b ∈ f.getOutputBuffers elem.op_,
        s'.ledger.Produced b ∨ (b, true) ∈ SchedulerState.buffersOf f elem := by
      intro b hb
      right
      unfold SchedulerState.buffersOf
      rw [if_neg (by simp [helem.1]), if_pos helem.2]
      exact mem_append_left _ (mem_map_of_mem hb)
    have hpushed := Underway.push hs' hp (fun dep hdep => hs'.scheduled dep (Or.inr hdep)) houtputs
    have hused : (s'.pushToCycleBeginHeap f elem).getUsedBuffers opIdx = entry.getUsedBuffers opIdx :=
      congrFun hpushed.untouched.getUsedBuffers opIdx
    have hsettled : Underway f entry _ pending _ :=
      Underway.settle (by rwa [hused]) (hpushed.scheduled opIdx (Set.mem_insert _ _))
    exact hsettled.mono (Set.insert_subset_insert Set.subset_union_left) (subset_refl _)
  · exact fun _ => ensures_pure (fun _ hs => hs)

theorem schedules_scheduleOpWithin (entry : Ledger) {opType : EOpType}
    (htype : opType = .originalOp ∨ opType = .originalPrefetchedOp) (depth : ℕ) :
    Schedules f entry (fun opIdx => f.scheduleOpWithin depth opIdx opType) := by
  induction depth generalizing opType with
  | zero => exact fun _ _ _ => ensures_throw _
  | succ depth ih =>
    intro opIdx done pending
    apply ensures_bind (ensures_scheduleDependencies (ih (Or.inl rfl)))
    exact fun depEndCycle => ensures_placeOp htype depEndCycle

theorem ensures_scheduleOp {opType : EOpType} (htype : opType = .originalOp ∨ opType = .originalPrefetchedOp) :
    Ensures (IsUnderway f entry done pending) (f.scheduleOp opIdx opType)
      (fun _ => IsUnderway f entry (insert opIdx done) pending) :=
  schedules_scheduleOpWithin entry htype (opIdx + 1) opIdx done pending

theorem ensures_canAllocBuffers (buffers : List ℕ) : Ensures (IsUnderway f entry done pending)
    (f.canAllocBuffers buffers) (fun _ => IsUnderway f entry done pending) := by
  apply ensures_bind (ensures_read _)
  intro ordered
  apply ensures_bind ensures_look
  intro s
  apply ensures_bind (R := fun _ => IsUnderway f entry done pending)
  · apply ensures_modify
    rintro s' ⟨rfl, hs⟩
    exact hs
  · exact fun _ => ensures_pure (fun _ hs => hs)

theorem ensures_getPrefetchInfo (opIdx : ℕ) : Ensures (IsUnderway f entry done pending) (f.getPrefetchInfo opIdx)
    (fun _ => IsUnderway f entry done pending) := by
  apply ensures_bind ensures_look
  intro s
  apply ensures_of_each
  rintro s₀ ⟨rfl, hs⟩
  apply ensures_ite
  · intro hready
    apply ensures_bind (ensures_read _)
    intro operationBuffers
    apply ensures_bind (ensures_getCurrentCycle (hs.books.ready_deps opIdx hready) 0)
    exact fun _ => ensures_pure (fun _ heq => heq ▸ hs)
  · intro _
    cases s.spillBufferMap opIdx with
    | none =>
      apply ensures_bind (ensures_throwUnless _ _)
      exact fun _ => ensures_pure (fun _ heq => heq ▸ hs)
    | some operationBuffers =>
      apply ensures_bind (ensures_read _)
      exact fun _ => ensures_pure (fun _ heq => heq ▸ hs)

theorem ensures_prefetchSpilledBuffer (val : ℕ) (ho : opIdx ∈ done) : Ensures (IsUnderway f entry done pending)
    (f.prefetchSpilledBuffer opIdx val) (fun _ => IsUnderway f entry done pending) := by
  apply ensures_bind (R := fun _ => IsUnderway f entry done (insert val pending))
  · apply ensures_modify
    intro s hs
    exact Underway.markAsAlive (hs.mono (subset_refl _) (Set.subset_insert _ _)) (Or.inr (Set.mem_insert _ _))
  · intro _
    apply ensures_bind (ensures_scheduleSpilledOpBuffer val ho)
    intro _
    apply ensures_pure
    exact fun _ hs => hs.1.settleBuffer hs.2

theorem ensures_executePrefetch (opIdx : ℕ) : Ensures (IsUnderway f entry done pending) (f.executePrefetch opIdx)
    (fun _ => IsUnderway f entry done pending) := by
  apply ensures_bind ensures_look
  intro s
  apply ensures_of_each
  rintro s₀ ⟨rfl, hs⟩
  apply ensures_ite
  · intro _
    apply ensures_bind ((ensures_scheduleOp (Or.inr rfl)).weaken (fun _ heq => heq ▸ hs) (fun _ _ hs => hs))
    intro _
    apply ensures_bind (R := fun _ => IsUnderway f entry done pending)
    · apply ensures_modify
      exact fun _ hs => (Underway.eraseReadyData hs).mono (Set.subset_insert _ _) (subset_refl _)
    · exact fun _ => ensures_pure (fun _ hs => hs)
  · intro _
    apply ensures_bind (R := fun buffers s' => s' = s ∧ (s.spillBufferMap opIdx = none → buffers = []))
    · apply ensures_readState
      rintro s' rfl buffers hsorted
      refine ⟨rfl, fun hnone => ?_⟩
      rw [hnone] at hsorted
      exact (Except.ok.inj hsorted).symm
    intro spilledBuffers
    apply ensures_of_each
    rintro s' ⟨rfl, hnone⟩
    apply ensures_bind (R := fun _ => IsUnderway f entry done pending)
    · cases hspill : s'.spillBufferMap opIdx with
      | none =>
        rw [hnone hspill]
        exact ensures_pure (fun _ heq => heq ▸ hs)
      | some buffers =>
        -- the operation of spilled buffers was scheduled when they were evicted
        have ho : s'.ledger.Scheduled opIdx := hs.books.spilled_scheduled opIdx (by simp [SchedulerState.ledger, hspill])
        have hloop : Ensures (IsUnderway f entry (insert opIdx done) pending)
            (spilledBuffers.forM (f.prefetchSpilledBuffer opIdx)) (fun _ => IsUnderway f entry (insert opIdx done) pending) :=
          ensures_forM (fun val _ => ensures_prefetchSpilledBuffer val (Set.mem_insert _ _))
        exact hloop.weaken (fun _ heq => heq ▸ hs.finish ho)
          (fun _ _ hs => Underway.mono hs (Set.subset_insert _ _) (subset_refl _))
    · exact fun _ => ensures_pure (fun _ hs => hs)

theorem noteFragmentation_ledger (check : Bool) (buffers : List ℕ) (s : SchedulerState) :
    (f.noteFragmentation check buffers s).ledger = s.ledger := by
  unfold noteFragmentation
  split_ifs <;> rfl

theorem ensures_prefetchCandidates (last : LastScheduled) (barrierLimit : ℕ) (check : Bool) (candidates : List ℕ)
    (aliveOperationCount : ℕ) (buffersToAllocate : List ℕ) : Ensures (IsUnderway f entry done pending)
      (f.prefetchCandidates last barrierLimit check candidates aliveOperationCount buffersToAllocate)
      (fun _ => IsUnderway f entry done pending) := by
  induction candidates generalizing aliveOperationCount buffersToAllocate with
  | nil => exact ensures_pure (fun _ hs => hs)
  | cons opIdx candidates ih =>
    apply ensures_bind (ensures_getPrefetchInfo opIdx)
    rintro ⟨scheduleCycle, prefetchBuffers⟩
    apply ensures_ite
    · exact fun _ => ih _ _
    · intro _
      apply ensures_ite
      · exact fun _ => ensures_pure (fun _ hs => hs)
      · intro _
        apply ensures_bind (ensures_canAllocBuffers _)
        intro fits
        apply ensures_ite
        · intro _
          apply ensures_bind (ensures_unrecorded (noteFragmentation_ledger _ _))
          exact fun _ => ensures_pure (fun _ hs => hs)
        · intro _
          apply ensures_bind (ensures_executePrefetch opIdx)
          intro count
          apply ensures_ite
          · exact fun _ => ensures_pure (fun _ hs => hs)
          · exact fun _ => ih _ _

theorem ensures_addAliveOperations (h : ∀ b ∈ s₀.scan.handler.aliveValues, s₀.ledger.Produced b) :
    Ensures (fun s => s = s₀) (s₀.scan.handler.aliveValues.foldlM f.addAliveOperation []) (fun _ s => s = s₀) := by
  apply ensures_foldlM (J := fun _ s => s = s₀) (b := [])
  intro buffer hbuffer aliveOperations
  apply ensures_bind (ensures_bufferProducerAt (h buffer hbuffer))
  exact fun _ => ensures_pure (fun _ hs => hs)

theorem ensures_prefetchOps (scheduledOps : List (ℕ × ℕ)) (buffersToAllocate : List ℕ) (check : Bool) :
    Ensures (IsUnderway f entry done ∅) (f.prefetchOps scheduledOps buffersToAllocate check)
      (fun _ => IsUnderway f entry done ∅) := by
  apply ensures_bind ensures_look
  intro s
  apply ensures_of_each
  rintro s₀ ⟨rfl, hs⟩
  have halive : ∀ b ∈ s.scan.handler.aliveValues, s.ledger.Produced b :=
    fun b hb => (hs.alive b hb).resolve_right (Set.notMem_empty b)
  apply ensures_bind (ensures_addAliveOperations halive)
  intro aliveOperations
  apply ensures_ite
  · exact fun _ => ensures_pure (fun _ heq => heq ▸ hs)
  · intro _
    apply ensures_bind (ensures_look)
    intro s'
    apply (ensures_prefetchCandidates _ _ _ _ _ _).weaken (fun _ heq => heq.2 ▸ hs) (fun _ _ hs => hs)

end

end NpuCompiler.Schedule.FeasibleMemoryScheduler
