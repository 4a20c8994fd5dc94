import NpuCompiler.Barrier.LinearizeOrder

namespace NpuCompiler.Barrier

open BarrierInfo FifoBarrierInfo GraphSplit Sweeps List

section
variable {config : OptimizeConfig} {availableSlots : ℕ} {s : BarrierInfo} {st st' : LinearizeState} {tasks : List ℕ} {linearized : Bool}

theorem blockIndexes_spec (hsplit : config.split.WellFormed s.getNumOfTasks) (hlt : ∀ t ∈ tasks, t < s.getNumOfTasks) :
    ∃ blockIndexes : List (ℕ × ℕ), tasks.mapM (fun task => do
        let blockIdx ← config.split.getControlGraphBlockIndex task
        return (task, blockIdx)) = .ok blockIndexes ∧
      ∀ t ∈ tasks, blockIndexes.lookup t = some (blockOf config.split.syncTasksIds t) := by
  refine ⟨tasks.map fun t => (t, blockOf config.split.syncTasksIds t), ?_, ?_⟩
  · induction tasks with
    | nil => rfl
    | cons t tasks ih =>
      obtain ⟨ht, hlt⟩ := forall_mem_cons.mp hlt
      rw [mapM_cons, blockIndex_eq hsplit ht, ih hlt]
      rfl
  · intro t ht
    induction tasks with
    | nil => exact absurd ht not_mem_nil
    | cons u tasks ih =>
      rw [map_cons, lookup_cons]
      by_cases heq : t = u
      · rw [heq, beq_self_eq_true]
      · rw [beq_false_of_ne heq]
        exact ih (fun t ht => hlt t (mem_cons_of_mem _ ht)) ((mem_cons.mp ht).resolve_left heq)

theorem KnownPath.sound (h : st.rebuildControlMap = true ∨ KeptMap config st) {a b : ℕ} (ha : a < st.barrierInfo.getNumOfTasks)
    (hb : b < st.barrierInfo.getNumOfTasks) (hblock : blockOf config.split.syncTasksIds a = blockOf config.split.syncTasksIds b)
    (hknown : KnownPath config st a b) : st.barrierInfo.Ordered a b := by
  unfold KnownPath at hknown
  by_cases hrebuild : st.rebuildControlMap = true
  · rwa [if_pos hrebuild] at hknown
  · rw [if_neg hrebuild] at hknown
    rcases hknown with ⟨hmap, hset⟩ | ⟨-, hordered⟩
    · exact (h.resolve_left hrebuild).sound a b ha hb (hblock.trans hmap) hmap hset
    · exact hordered

theorem refreshControlMap_spec (h : IndexedBlocks config st.barrierInfo) (hmap : st.rebuildControlMap = true ∨ KeptMap config st)
    {blockIndexes : List (ℕ × ℕ)} {currTask nextTask : ℕ} (hlt : currTask < nextTask) (hnext : nextTask < st.barrierInfo.getNumOfTasks)
    (hcurrIndex : blockIndexes.lookup currTask = some (blockOf config.split.syncTasksIds currTask))
    (hnextIndex : blockIndexes.lookup nextTask = some (blockOf config.split.syncTasksIds nextTask)) :
    ∃ st' known, st.refreshControlMap config blockIndexes currTask nextTask = .ok st' ∧ st'.barrierInfo = st.barrierInfo ∧
      MapTells config st.barrierInfo known st' ∧
        (∀ a b, blockOf config.split.syncTasksIds b < st'.controlMapBlockIdx → ¬known a b) ∧
          (∀ a b, st'.controlMapBlockIdx < blockOf config.split.syncTasksIds b → (known a b ↔ st.barrierInfo.Ordered a b)) ∧
            (∀ a b, a < st.barrierInfo.getNumOfTasks → b < st.barrierInfo.getNumOfTasks →
              blockOf config.split.syncTasksIds a = blockOf config.split.syncTasksIds b → known a b → st.barrierInfo.Ordered a b) ∧
                ∀ a b, nextTask ≤ b → (known a b ↔ KnownPath config st a b) := by
  have hknownSound := @KnownPath.sound config st hmap
  unfold LinearizeState.refreshControlMap
  unfold KnownPath at hknownSound ⊢
  by_cases hrebuild : st.rebuildControlMap = true
  · have hcurr : currTask < st.barrierInfo.getNumOfTasks := by omega
    obtain ⟨k, hk, hlookup⟩ : ∃ k, k ≤ blockOf config.split.syncTasksIds nextTask ∧
        (blockIndexes.lookup (if decide (currTask ∈ config.split.syncTasksIds) = true then nextTask else currTask)).getD 0 = k := by
      by_cases hsync : decide (currTask ∈ config.split.syncTasksIds) = true
      · rw [if_pos hsync, hnextIndex]
        exact ⟨_, le_refl _, rfl⟩
      · rw [if_neg hsync, hcurrIndex]
        exact ⟨_, blockOf_mono hlt.le, rfl⟩
    have hcount : k < config.split.getControlGraphBlockCount :=
      Nat.lt_succ_of_le (hk.trans countP_le_length)
    obtain ⟨taskControlMap, offset, hbuild, htells⟩ := @buildControlMap_spec config st.barrierInfo (fun _ _ => False) k h.split h.pos
      h.consistent h.fits st (withLinks_refl h.consistent) (fun _ _ hlink => hlink.elim) hcount
    refine ⟨{ st with taskControlMap := taskControlMap, controlMapOffset := offset, controlMapBlockIdx := k },
      fun a b => k ≤ blockOf config.split.syncTasksIds b ∧ st.barrierInfo.Ordered a b, ?_, rfl, ⟨htells.range, ?_⟩, ?_, ?_,
      fun a b _ _ _ hknown => hknown.2, ?_⟩
    · rw [if_pos hrebuild, isSyncPoint_eq h.split hcurr]
      change LinearizeState.buildControlMap config st _ = _
      rw [hlookup]
      exact hbuild
    · intro a b ha hb hblockA hblockB
      exact (htells.tells a b ha hb hblockA hblockB).trans (and_iff_right (le_of_eq hblockB.symm)).symm
    · intro a b hb hknown
      exact absurd hknown.1 (Nat.not_le.mpr hb)
    · intro a b hb
      exact and_iff_right (le_of_lt hb)
    · intro a b hb
      rw [if_pos hrebuild]
      exact and_iff_right (hk.trans (blockOf_mono hb))
  · obtain ⟨hrange, hsound⟩ := hmap.resolve_left hrebuild
    simp only [if_neg hrebuild] at hknownSound ⊢
    refine ⟨st, _, rfl, rfl, ⟨hrange, ?_⟩, ?_, ?_, fun a b => hknownSound, fun a b _ => Iff.rfl⟩
    · intro a b _ _ _ hblockB
      rw [and_iff_right hblockB, or_iff_left]
      omega
    · intro a b hb
      omega
    · intro a b hb
      rw [and_iff_right hb, or_iff_right]
      omega

theorem linearizeTasks_spec (h : IndexedBlocks config st.barrierInfo) (hmap : st.rebuildControlMap = true ∨ KeptMap config st)
    (hsorted : tasks.Pairwise (· < ·)) (hlt : ∀ t ∈ tasks, t < st.barrierInfo.getNumOfTasks) (htwo : 2 ≤ tasks.length) :
    ∃ linearized st', linearizeTasks config availableSlots tasks st = .ok (linearized, st') ∧
      WithLinks st.barrierInfo st'.barrierInfo
        (LinkedIn config (KnownPath config st) (sectionsOf config availableSlots st.barrierInfo tasks)) ∧ KeptMap config st' := by
  obtain ⟨currTask, nextTask, rest, rfl⟩ : ∃ currTask nextTask rest, tasks = currTask :: nextTask :: rest := by
    match tasks, htwo with
    | currTask :: nextTask :: rest, _ => exact ⟨currTask, nextTask, rest, rfl⟩
  have hcurrNext : currTask < nextTask := (pairwise_cons.mp hsorted).1 nextTask mem_cons_self
  have hnextMem : nextTask ∈ currTask :: nextTask :: rest := mem_cons_of_mem _ mem_cons_self
  obtain ⟨blockIndexes, hblocks, hindexes⟩ := blockIndexes_spec h.split hlt
  obtain ⟨st₁, known, hrefresh, hinfo, htells, hbelow, habove, hsound, hknown⟩ := refreshControlMap_spec h hmap hcurrNext (hlt nextTask hnextMem)
    (hindexes currTask mem_cons_self) (hindexes nextTask hnextMem)
  have hstart : BeforeSection config st.barrierInfo known st₁.controlMapBlockIdx (fun _ _ => False) currTask
      (findEndItr config availableSlots st.barrierInfo currTask (nextTask :: rest)).1
      (findEndItr config availableSlots st.barrierInfo currTask (nextTask :: rest)).2 { st₁ with rebuildControlMap := false } := by
    refine ⟨?_, ⟨htells.range, htells.tells⟩, le_refl _, .inl rfl, fun _ _ hlink => hlink.elim⟩
    change LinkedBefore st.barrierInfo st₁.barrierInfo _ _ _
    rw [hinfo]
    exact linkedBefore_refl h.consistent
  have htopological : st.barrierInfo.Topological := fun p c hedge => (h.fits p c hedge).1
  obtain ⟨linearized, st', links, hrun, hlinks, hwith, htells'⟩ := @linearizeSections_spec config availableSlots
    st₁.controlMapBlockIdx st.barrierInfo known _ blockIndexes currTask _ _ _ h hbelow habove
    (fun a b ha hb hblock hknown => htopological.lt_of_ordered (hsound a b ha hb hblock hknown)) ((currTask :: nextTask :: rest).length + 1)
    (nextTask :: rest) (currTask :: nextTask :: rest) false hsorted hlt hindexes rfl (fun hnil => absurd hnil (cons_ne_nil _ _))
    (by simp) hstart
  refine ⟨linearized, st', ?_, ?_, ?_⟩
  · unfold linearizeTasks
    dsimp only
    rw [hblocks]
    change Except.bind (LinearizeState.refreshControlMap config st blockIndexes currTask nextTask) _ = _
    rw [hrefresh]
    exact hrun
  · have hsame : links = LinkedIn config (KnownPath config st) (sectionsOf config availableSlots st.barrierInfo (currTask :: nextTask :: rest)) := by
      funext p c
      apply propext
      rw [hlinks, or_iff_right id]
      apply linkedIn_congr
      intro current next hnear
      obtain ⟨hcurrent, hnext, hlt'⟩ := lt_of_infix hsorted hnear
      have hcurrentHead := (sectionsOf_spec hcurrent).1
      have hnextHead := (sectionsOf_spec hnext).1
      have hheads := hlt' _ hcurrentHead _ hnextHead
      apply hknown
      obtain ⟨hcurrLt, hsortedRest⟩ := pairwise_cons.mp hsorted
      rcases mem_cons.mp (mem_of_section hnext hnextHead) with heq | hmem
      · rcases mem_cons.mp (mem_of_section hcurrent hcurrentHead) with heq' | hmem'
        · omega
        · have := hcurrLt _ hmem'
          omega
      · rcases mem_cons.mp hmem with heq | hmem
        · exact heq.ge
        · exact ((pairwise_cons.mp hsortedRest).1 _ hmem).le
    rw [← hsame]
    exact hwith
  · obtain ⟨hi, hrange, hlength⟩ := htells'.range
    refine ⟨⟨hi, blockRange_of_tasks hwith.tasks.symm hrange, hlength⟩, ?_⟩
    intro a b ha hb hblockA hblockB hset
    rw [hwith.tasks] at ha hb
    apply hwith.kept h.consistent
    exact hsound a b ha hb (hblockA.trans hblockB.symm) ((htells'.tells a b ha hb hblockA hblockB).mp hset)

variable (config availableSlots) in
/-- The states at the beginning of a batch: each iteration begins with a new control map. -/
inductive LinearizeReached : LinearizeState → Prop
  | iteration {st : LinearizeState} (h : IndexedBlocks config st.barrierInfo) (hrebuild : st.rebuildControlMap = true) :
    LinearizeReached st
  | batch {st st' : LinearizeState} {tasks : List ℕ} {linearized : Bool} (h : LinearizeReached st) (hsorted : tasks.Pairwise (· < ·))
    (hlt : ∀ t ∈ tasks, t < st.barrierInfo.getNumOfTasks)
    (hrun : linearizeTasks config availableSlots tasks st = .ok (linearized, st')) (hblocks : IndexedBlocks config st'.barrierInfo) :
    LinearizeReached st'

theorem LinearizeReached.invariant (h : LinearizeReached config availableSlots st) :
    IndexedBlocks config st.barrierInfo ∧ (st.rebuildControlMap = true ∨ KeptMap config st) := by
  induction h with
  | iteration h hrebuild => exact ⟨h, .inl hrebuild⟩
  | @batch st st' tasks linearized h hsorted hlt hrun hblocks ih =>
    obtain ⟨hindexed, hmap⟩ := ih
    refine ⟨hblocks, ?_⟩
    match tasks, hsorted, hlt, hrun with
    | [], _, _, hrun =>
      cases hrun
      exact hmap
    | [_], _, _, hrun =>
      cases hrun
      exact hmap
    | currTask :: nextTask :: rest, hsorted, hlt, hrun =>
      obtain ⟨linearized', next, hrun', -, hkept⟩ := @linearizeTasks_spec config availableSlots st _ hindexed hmap hsorted hlt (by simp)
      rw [hrun] at hrun'
      cases hrun'
      exact .inr hkept

/-- Every batch of every iteration returns, and it linearizes its tasks exactly if their sections fit the blocks. -/
theorem linearizeTasks_iff (h : LinearizeReached config availableSlots st) (hsorted : tasks.Pairwise (· < ·))
    (hlt : ∀ t ∈ tasks, t < st.barrierInfo.getNumOfTasks) (htwo : 2 ≤ tasks.length) :
    ∃ linearized st', linearizeTasks config availableSlots tasks st = .ok (linearized, st') ∧
      (Linearized config st.barrierInfo st'.barrierInfo tasks ↔
        SectionsFit config (KnownPath config st) st.barrierInfo (sectionsOf config availableSlots st.barrierInfo tasks)) := by
  obtain ⟨hindexed, hmap⟩ := h.invariant
  obtain ⟨linearized, st', hrun, hlinks, -⟩ := @linearizeTasks_spec config availableSlots st tasks hindexed hmap hsorted hlt htwo
  refine ⟨linearized, st', hrun, sectionsFit_of_linearized hindexed hsorted hlinks, ?_⟩
  apply linearized_of_sectionsFit hindexed hsorted hlinks
  intro a b ha hb hblock hknown
  exact hknown.sound hmap (hlt a ha) (hlt b hb) hblock

end

section

def sharedSync : BarrierInfo :=
  let s := (List.range 5).foldl (fun s _ => s.addNewTaskOp) BarrierInfo.empty
  let s := s.addNewBarrier.addNewBarrier
  let s := (s.addProducer 0 0).addConsumer 0 1
  ((s.addProducer 1 2).addProducer 1 3).addConsumer 1 4

def sharedSyncConfig : OptimizeConfig where
  split := ⟨[2], buildTaskBlockMap [2] 5⟩
  taskOp := fun taskInd => ⟨1, if taskInd = 0 ∨ taskInd = 4 then .dpu else .dmaNN⟩
  getTaskQueueType := fun taskInd => if taskInd = 0 ∨ taskInd = 4 then ⟨.dpu, 0⟩ else ⟨.dmaNN, 0⟩
  taskQueueTypes := [⟨.dpu, 0⟩, ⟨.dmaNN, 0⟩]
  taskQueueTypes_nodup := by decide
  barrierMaxVariantSum := 64

def sharedSyncStart : LinearizeState := ⟨sharedSync, true, [], 0, 0⟩

theorem sharedSync_indexed : IndexedBlocks sharedSyncConfig sharedSync := by
  have htasks : ((List.range 5).foldl (fun s _ => s.addNewTaskOp) BarrierInfo.empty).Consistent :=
    foldl_invariant consistent_empty (fun _ _ _ hs => hs.addNewTaskOp)
  have hbarriers := htasks.addNewBarrier.addNewBarrier
  have hfirst : Consistent _ := (hbarriers.addProducer (b := 0) (t := 0) (by decide) (by decide)).addConsumer (b := 0) (t := 1)
    (by decide) (by decide)
  have hsecond := ((hfirst.addProducer (b := 1) (t := 2) (by decide) (by decide)).addProducer (b := 1) (t := 3) (by decide)
    (by decide)).addConsumer (b := 1) (t := 4) (by decide) (by decide)
  refine ⟨hsecond, ⟨by decide, by decide, by decide, by decide⟩, by decide, ?_⟩
  apply BarrierInfo.forall_edges
  unfold GraphSplit.Fits
  decide

/-- Without task 3 every section is a single task, and task 1 comes before the sync task of its block. -/
theorem linearizeTasks_iff_ownSections : ∃ linearized st', linearizeTasks sharedSyncConfig 32 [0, 1, 2, 4] sharedSyncStart =
      .ok (linearized, st') ∧ Linearized sharedSyncConfig sharedSync st'.barrierInfo [0, 1, 2, 4] := by
  obtain ⟨linearized, st', hrun, hiff⟩ := @linearizeTasks_iff sharedSyncConfig 32 sharedSyncStart [0, 1, 2, 4]
    (.iteration sharedSync_indexed rfl) (by decide) (by decide) (by decide)
  have hsections : sectionsOf sharedSyncConfig 32 sharedSync [0, 1, 2, 4] = [[0], [1], [2], [4]] := by
    have hcons (t : ℕ) (rest : List ℕ) (h : findEndItr sharedSyncConfig 32 sharedSync t rest = ([t], rest)) :
        sectionsOf sharedSyncConfig 32 sharedSync (t :: rest) = [t] :: sectionsOf sharedSyncConfig 32 sharedSync rest :=
      sectionsOf_cons h
    rw [hcons 0 [1, 2, 4] rfl, hcons 1 [2, 4] rfl, hcons 2 [4] rfl, hcons 4 [] rfl, sectionsOf]
  refine ⟨linearized, st', hrun, hiff.mpr ?_⟩
  change SectionsFit _ _ sharedSync (sectionsOf sharedSyncConfig 32 sharedSync [0, 1, 2, 4])
  rw [hsections]
  exact sectionsFit_of_blocks (by decide)

/-- The batch of both barriers: the new barrier leads from task 1 to the tasks 2 and 3, of which the latter lies in the next
block, and no control map of the first block can be built from then on. -/
theorem linearizeTasks_crossesBlock : LinearizeReached sharedSyncConfig 32 sharedSyncStart ∧
    ∃ linearized st', linearizeTasks sharedSyncConfig 32 [0, 1, 2, 3, 4] sharedSyncStart = .ok (linearized, st') ∧
      linearizeBarriers sharedSyncConfig 32 [0, 1] sharedSyncStart = .ok st' ∧
        sharedSyncConfig.split.buildTaskControlMap st'.barrierInfo 0 false =
          .error "Task 1 has update barrier 2 with a consumer (3) from outside of the current range [0, 2]." ∧
            ¬Linearized sharedSyncConfig sharedSync st'.barrierInfo [0, 1, 2, 3, 4] := by
  refine ⟨.iteration sharedSync_indexed rfl, _, _, rfl, rfl, rfl, fun hlinear => ?_⟩
  have hedge : (addBarrierBetween sharedSync [1] [2, 3]).Edge 1 3 := ⟨2, by decide, by decide⟩
  have hnew : ¬sharedSync.Edge 1 3 := fun hold =>
    (BarrierInfo.forall_edges (P := fun p c => ¬(p = 1 ∧ c = 3)) (by decide)) 1 3 hold ⟨rfl, rfl⟩
  exact absurd (hlinear.added 1 3 hedge hnew).2 (by decide)

end

end NpuCompiler.Barrier
