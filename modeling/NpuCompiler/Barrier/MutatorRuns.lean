import NpuCompiler.Barrier.GraphSplit

namespace NpuCompiler.Barrier

open List

inductive PublicCall
  | mutator (call : Call)
  | adjustTasksDependenciesToGraphSplitConstraints (tasks : List ℕ)

section
variable (split : GraphSplit)

def PublicCall.run : PublicCall → GraphM PUnit
  | mutator call => perform call
  | adjustTasksDependenciesToGraphSplitConstraints tasks => do
    let _ ← Barrier.adjustTasksDependenciesToGraphSplitConstraints split tasks

def runCalls (calls : List PublicCall) : GraphM PUnit := calls.forM (PublicCall.run split)

def reached (s : BarrierInfo) (calls : List PublicCall) : Traced := endState (runCalls split calls ⟨s, []⟩)

end

/-- As long as no call erases from a set it runs over with two elements or more, all maps so far are consistent. -/
def ConsistentSoFar (s : Traced) : Prop :=
  (∀ step ∈ s.calls, step.2.ownSetSmall step.1 = true) → s.info.Consistent ∧ ∀ step ∈ s.calls, step.1.Consistent

section
variable {split : GraphSplit}

theorem keeps_ask {α : Type} (f : BarrierInfo → Except String α) : Keeps ConsistentSoFar (ask f) := keeps_readState _

theorem keeps_throw {α : Type} (e : Failure) : Keeps ConsistentSoFar (throw e : GraphM α) := fun _ h => h

theorem keeps_perform (call : Call) : Keeps ConsistentSoFar (perform call) := by
  intro s h
  unfold perform
  dsimp only
  -- Each of the calls before was performed on consistent maps, and so is this one.
  have hcalls : (∀ step ∈ s.calls ++ [(s.info, call)], step.2.ownSetSmall step.1 = true) →
      s.info.Consistent ∧ call.ownSetSmall s.info = true ∧ ∀ step ∈ s.calls ++ [(s.info, call)], step.1.Consistent := by
    intro hsmall
    obtain ⟨hinfo, hbefore⟩ := h (fun step hstep => hsmall step (mem_append_left _ hstep))
    refine ⟨hinfo, hsmall (s.info, call) (mem_append_right _ (mem_singleton_self _)), ?_⟩
    intro step hstep
    cases mem_append.mp hstep with
    | inl hstep => exact hbefore step hstep
    | inr hstep =>
      rw [mem_singleton.mp hstep]
      exact hinfo
  cases happly : call.apply s.info with
  | none =>
    intro hsmall
    obtain ⟨hinfo, -, hsteps⟩ := hcalls hsmall
    exact ⟨hinfo, hsteps⟩
  | some info =>
    intro hsmall
    obtain ⟨hinfo, hown, hsteps⟩ := hcalls hsmall
    exact ⟨Call.apply_consistent hinfo hown happly, hsteps⟩

theorem keeps_updateControlMap (taskBlockInd : ℕ) (state : Adjusting) :
    Keeps ConsistentSoFar (updateControlMap split taskBlockInd state) := by
  apply keeps_ite
  · exact keeps_pure _
  · apply keeps_bind (keeps_ask _)
    exact fun _ => keeps_pure _

theorem keeps_linkToSyncPoint (taskInd syncPoint : ℕ) (syncPointWaitBars : TaskSet) (state : Adjusting) :
    Keeps ConsistentSoFar (linkToSyncPoint taskInd syncPoint syncPointWaitBars state) := by
  apply keeps_bind (keeps_ask _)
  intro path
  refine keeps_ite (keeps_pure _) ?_
  apply keeps_bind (keeps_forM (fun _ => keeps_perform _) _)
  exact fun _ => keeps_pure _

theorem keeps_adjustUpdateBarrier (taskInd taskBlockInd : ℕ) (taskSyncPoint : Option ℕ) (state : Adjusting)
    (updateBarrierInd : ℕ) :
    Keeps ConsistentSoFar (adjustUpdateBarrier split taskInd taskBlockInd taskSyncPoint state updateBarrierInd) := by
  apply keeps_bind (keeps_ask _)
  intro barrierBlockIndex
  cases taskSyncPoint with
  | none =>
    dsimp only
    exact keeps_ite (keeps_throw _) (keeps_pure _)
  | some syncPoint =>
    dsimp only
    refine keeps_ite (keeps_pure _) ?_
    apply keeps_bind (keeps_ask _)
    intro sync
    refine keeps_ite (keeps_pure _) ?_
    apply keeps_bind (keeps_perform _)
    intro _
    apply keeps_bind (keeps_ask _)
    intro syncPointWaitBars
    refine keeps_ite (keeps_throw _) ?_
    apply keeps_bind (keeps_updateControlMap _ _)
    intro state
    exact keeps_ite (keeps_pure _) (keeps_linkToSyncPoint _ _ _ _)

theorem keeps_removeProducersWithoutConsumers (waitBarrierInd : ℕ) :
    Keeps ConsistentSoFar (removeProducersWithoutConsumers waitBarrierInd) := by
  apply keeps_bind (keeps_ask _)
  intro barrierConsumers
  exact keeps_ite (keeps_perform _) (keeps_pure _)

theorem keeps_linkToPreviousSyncPoint (taskInd taskBlockInd : ℕ) (state : Adjusting) :
    Keeps ConsistentSoFar (linkToPreviousSyncPoint split taskInd taskBlockInd state) := by
  apply keeps_bind (keeps_ask _)
  intro prevSyncPoint
  cases prevSyncPoint with
  | none => exact keeps_throw _
  | some syncPoint =>
    apply keeps_bind (keeps_updateControlMap _ _)
    intro state
    apply keeps_bind (keeps_ask _)
    intro sync
    refine keeps_ite (keeps_pure _) ?_
    apply keeps_bind (keeps_ask _)
    intro path
    refine keeps_ite (keeps_pure _) ?_
    apply keeps_bind (keeps_ask _)
    intro prevSyncPointUpdateBarriers
    apply keeps_bind (keeps_forM (fun _ => keeps_perform _) _)
    exact fun _ => keeps_pure _

theorem keeps_adjustWaitBarrier (taskInd taskBlockInd : ℕ) (state : Adjusting) (waitBarrierInd : ℕ) :
    Keeps ConsistentSoFar (adjustWaitBarrier split taskInd taskBlockInd state waitBarrierInd) := by
  apply keeps_bind (keeps_ask _)
  intro barrierBlockIndex
  apply keeps_bind (keeps_ask _)
  intro barrierLastProducer
  refine keeps_ite (keeps_pure _) ?_
  apply keeps_bind (keeps_ask _)
  intro lastSync
  refine keeps_ite (keeps_pure _) ?_
  apply keeps_bind (keeps_perform _)
  intro _
  apply keeps_bind (keeps_removeProducersWithoutConsumers _)
  exact fun _ => keeps_linkToPreviousSyncPoint _ _ _

theorem keeps_adjustTask (state : Adjusting) (taskInd : ℕ) : Keeps ConsistentSoFar (adjustTask split state taskInd) := by
  apply keeps_bind (keeps_ask _)
  intro taskBlockInd
  apply keeps_bind (keeps_ask _)
  intro taskSyncPoint
  apply keeps_bind (keeps_ask _)
  intro taskUpdateBarriers
  apply keeps_bind (keeps_foldlM (keeps_adjustUpdateBarrier _ _ _) _ _)
  intro state
  apply keeps_bind (keeps_ask _)
  intro taskWaitBarriers
  exact keeps_foldlM (keeps_adjustWaitBarrier _ _) _ _

theorem keeps_publicCall (call : PublicCall) : Keeps ConsistentSoFar (call.run split) := by
  cases call with
  | mutator call => exact keeps_perform call
  | adjustTasksDependenciesToGraphSplitConstraints tasks =>
    have hadjust : Keeps ConsistentSoFar (adjustTasksDependenciesToGraphSplitConstraints split tasks) := by
      refine keeps_ite (keeps_pure _) ?_
      apply keeps_bind (keeps_foldlM keeps_adjustTask _ _)
      exact fun _ => keeps_pure _
    apply keeps_bind hadjust
    exact fun _ => keeps_pure _

end

/-- All maps of a run are consistent when no call erases from a set it runs over with two elements or more. -/
theorem reached_consistent (split : GraphSplit) (calls : List PublicCall) {s : BarrierInfo} (h : s.Consistent)
    (hsmall : ∀ step ∈ (reached split s calls).calls, step.2.ownSetSmall step.1 = true) :
    (reached split s calls).info.Consistent ∧ ∀ step ∈ (reached split s calls).calls, step.1.Consistent := by
  have hinit : ConsistentSoFar ⟨s, []⟩ := fun _ => ⟨h, fun step hstep => absurd hstep not_mem_nil⟩
  exact keeps_forM keeps_publicCall calls ⟨s, []⟩ hinit hsmall

/-- A run that fills an empty graph. -/
theorem reached_consistent_fill :
    (reached ⟨[], []⟩ BarrierInfo.empty [.mutator .addNewBarrier, .mutator .addNewTaskOp, .mutator (.addProducer 0 0),
      .mutator (.removeOwnProducers 0)]).info.Consistent :=
  (reached_consistent ⟨[], []⟩ [.mutator .addNewBarrier, .mutator .addNewTaskOp, .mutator (.addProducer 0 0),
    .mutator (.removeOwnProducers 0)] BarrierInfo.consistent_empty (by decide)).1

def crossBlock : BarrierInfo :=
  let tasks := BarrierInfo.empty.addNewTaskOp.addNewTaskOp.addNewTaskOp.addNewTaskOp
  let barriers := tasks.addNewBarrier.addNewBarrier.addNewBarrier
  let crossing := (barriers.addProducers 0 [0, 1]).addConsumers 0 [3]
  let behind := (crossing.addProducers 1 [2]).addConsumers 1 [3]
  (behind.addProducers 2 [0, 1]).addConsumers 2 [2]

theorem crossBlock_consistent : crossBlock.Consistent := by
  have htasks := BarrierInfo.consistent_empty.addNewTaskOp.addNewTaskOp.addNewTaskOp.addNewTaskOp
  have hbarriers := htasks.addNewBarrier.addNewBarrier.addNewBarrier
  have hproducers₀ := (BarrierInfo.addProducers_spec (b := 0) hbarriers (by decide) (by decide : ∀ t ∈ [0, 1], t < 4)).consistent
  have hconsumers₀ := (BarrierInfo.addConsumers_spec (b := 0) hproducers₀ (by decide) (by decide : ∀ t ∈ [3], t < 4)).consistent
  have hproducers₁ := (BarrierInfo.addProducers_spec (b := 1) hconsumers₀ (by decide) (by decide : ∀ t ∈ [2], t < 4)).consistent
  have hconsumers₁ := (BarrierInfo.addConsumers_spec (b := 1) hproducers₁ (by decide) (by decide : ∀ t ∈ [3], t < 4)).consistent
  have hproducers₂ := (BarrierInfo.addProducers_spec (b := 2) hconsumers₁ (by decide) (by decide : ∀ t ∈ [0, 1], t < 4)).consistent
  exact (BarrierInfo.addConsumers_spec (b := 2) hproducers₂ (by decide) (by decide : ∀ t ∈ [2], t < 4)).consistent

theorem crossBlock_stale :
    let s := (reached ⟨[2], [0, 0, 0, 1]⟩ crossBlock [.adjustTasksDependenciesToGraphSplitConstraints [3]]).info
    (¬ 0 ∈ s.getBarrierProducers 0) ∧ 0 ∈ s.getUpdateBarriers 0 := by
  decide

theorem adjust_loses_inverse : ¬ ∀ (split : GraphSplit) (calls : List PublicCall) (s : BarrierInfo), s.Consistent →
    (reached split s calls).info.Consistent := by
  intro hall
  have h := hall ⟨[2], [0, 0, 0, 1]⟩ [.adjustTasksDependenciesToGraphSplitConstraints [3]] crossBlock crossBlock_consistent
  obtain ⟨hproducer, hupdate⟩ := crossBlock_stale
  exact hproducer (h.update_iff.mp hupdate)

end NpuCompiler.Barrier
