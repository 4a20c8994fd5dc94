import NpuCompiler.Barrier.DescriptorFetchRuns
import NpuCompiler.Barrier.SingleWaitOrder

namespace NpuCompiler.Barrier

open BarrierInfo GraphSplit

structure LinearizeState where
  barrierInfo : BarrierInfo
  rebuildControlMap : Bool
  taskControlMap : TaskControlMap
  controlMapOffset : ℕ
  controlMapBlockIdx : ℕ
  deriving DecidableEq

section
variable (config : OptimizeConfig) (availableSlots : ℕ) (s : BarrierInfo)

def useSameBarriers (taskA taskB : ℕ) : Bool :=
  if !(s.getWaitBarriers taskA).beq (s.getWaitBarriers taskB) then false
  else (s.getUpdateBarriers taskA).beq (s.getUpdateBarriers taskB)

/-- The loop of `findEndItr` over the tasks behind the current one: those that it passes, and the end iterator. -/
def passSameBarriers (currItr : ℕ) : ℕ → List ℕ → List ℕ × List ℕ
  | _, [] => ([], [])
  | slotCount, endItr :: tasks =>
    if useSameBarriers s currItr endItr then
      let slotCount := slotCount + (config.taskOp endItr).numOfSlotsUsed
      if slotCount > availableSlots then ([], endItr :: tasks)
      else
        let (passed, end_) := passSameBarriers currItr slotCount tasks
        (endItr :: passed, end_)
    else ([], endItr :: tasks)

def findEndItr (currItr : ℕ) (tasks : List ℕ) : List ℕ × List ℕ :=
  let (passed, end_) := passSameBarriers config availableSlots s currItr (config.taskOp currItr).numOfSlotsUsed tasks
  (currItr :: passed, end_)

def LinearizeState.buildControlMap (st : LinearizeState) (blockIdx : ℕ) : Except String LinearizeState := do
  let (taskControlMap, controlMapOffset) ← config.split.buildTaskControlMap st.barrierInfo blockIdx false
  return { st with taskControlMap, controlMapOffset, controlMapBlockIdx := blockIdx }

/-- Before the first batch of an iteration: the map of the block of the first task, or of the next one if that is a sync task. -/
def LinearizeState.refreshControlMap (st : LinearizeState) (blockIndexes : List (ℕ × ℕ)) (currTask nextTask : ℕ) :
    Except String LinearizeState :=
  if st.rebuildControlMap then do
    let sync ← config.split.isSyncPoint st.barrierInfo currTask
    st.buildControlMap config ((blockIndexes.lookup (if sync then nextTask else currTask)).getD 0)
  else .ok st

def LinearizeState.reachBlock (st : LinearizeState) (nextTaskBlockIdx : ℕ) : Except String LinearizeState :=
  if nextTaskBlockIdx > st.controlMapBlockIdx then st.buildControlMap config nextTaskBlockIdx else .ok st

def LinearizeState.barrierExists (st : LinearizeState) (currTaskBlockIdx currTask nextTask : ℕ) : Except String Bool :=
  if currTaskBlockIdx = st.controlMapBlockIdx then
    controlPathExistsBetweenTasksInSameBlock st.taskControlMap (currTask - st.controlMapOffset) (nextTask - st.controlMapOffset) true
  else .ok false

/-- A new barrier, with the tasks of one section as its producers and those of the next one as its consumers. -/
def addBarrierBetween (s : BarrierInfo) (producers consumers : List ℕ) : BarrierInfo :=
  let newBarrier := s.getNumOfBarrierOps
  (s.addNewBarrier.addProducers newBarrier producers).addConsumers newBarrier consumers

def linearizeSections (blockIndexes : List (ℕ × ℕ)) :
    ℕ → List ℕ → List ℕ → Bool → LinearizeState → Except String (Bool × LinearizeState)
  | 0, _, _, _, _ => .error "out of fuel"
  | _ + 1, [], _, linearized, st => .ok (linearized, st)
  | _ + 1, _ :: _, [], linearized, st => .ok (linearized, st)
  | fuel + 1, currTask :: currTasks, _ :: _, linearized, st =>
    let (producers, producersEnd) := findEndItr config availableSlots st.barrierInfo currTask currTasks
    match producersEnd with
    | [] => .ok (linearized, st)
    | nextTask :: nextTasks => do
      let (consumers, consumersEnd) := findEndItr config availableSlots st.barrierInfo nextTask nextTasks
      let currTaskBlockIdx := (blockIndexes.lookup currTask).getD 0
      let nextTaskBlockIdx := (blockIndexes.lookup nextTask).getD 0
      let st ← st.reachBlock config nextTaskBlockIdx
      if currTaskBlockIdx ≠ nextTaskBlockIdx then
        linearizeSections blockIndexes fuel (nextTask :: nextTasks) nextTasks linearized st
      else
        let barrierExists ← st.barrierExists currTaskBlockIdx currTask nextTask
        if barrierExists then linearizeSections blockIndexes fuel (nextTask :: nextTasks) nextTasks linearized st
        else
          linearizeSections blockIndexes fuel (nextTask :: nextTasks) consumersEnd true
            { st with barrierInfo := addBarrierBetween st.barrierInfo producers consumers }

def linearizeTasks (linearizationTasks : List ℕ) (st : LinearizeState) : Except String (Bool × LinearizeState) :=
  match linearizationTasks with
  | [] => .ok (false, st)
  | [_] => .ok (false, st)
  | currTask :: nextTask :: tasks => do
    let linearizationTasksBlockIndexes ← (currTask :: nextTask :: tasks).mapM (fun task => do
      let blockIdx ← config.split.getControlGraphBlockIndex task
      return (task, blockIdx))
    let st ← st.refreshControlMap config linearizationTasksBlockIndexes currTask nextTask
    linearizeSections config availableSlots linearizationTasksBlockIndexes (linearizationTasks.length + 1)
      (currTask :: nextTask :: tasks) (currTask :: nextTask :: tasks) false { st with rebuildControlMap := false }

def linearizeBarriers (barrierOps : List ℕ) (st : LinearizeState) : Except String LinearizeState := do
  let tasksToLinearize := sortedOf (barrierOps.flatMap fun barrierOp =>
    (st.barrierInfo.getBarrierProducers barrierOp).toList ++ (st.barrierInfo.getBarrierConsumers barrierOp).toList)
  let (_, st) ← linearizeTasks config availableSlots tasksToLinearize st
  return st

end

end NpuCompiler.Barrier

namespace NpuCompiler.Barrier

open BarrierInfo FifoBarrierInfo GraphSplit Sweeps

def SameBarriers (s : BarrierInfo) (taskA taskB : ℕ) : Prop :=
  (∀ b, b ∈ s.getWaitBarriers taskA ↔ b ∈ s.getWaitBarriers taskB) ∧
    ∀ b, b ∈ s.getUpdateBarriers taskA ↔ b ∈ s.getUpdateBarriers taskB

section
variable {config : OptimizeConfig} {availableSlots slotCount : ℕ} {s s' : BarrierInfo} {t u v : ℕ} {tasks passed rest : List ℕ}

theorem useSameBarriers_iff : useSameBarriers s t u = true ↔ SameBarriers s t u := by
  unfold useSameBarriers SameBarriers
  rw [← SmallSet.beq_iff, ← SmallSet.beq_iff]
  cases (s.getWaitBarriers t).beq (s.getWaitBarriers u) with
  | false => simp
  | true => simp

theorem SameBarriers.symm (h : SameBarriers s t u) : SameBarriers s u t := ⟨fun b => (h.1 b).symm, fun b => (h.2 b).symm⟩

theorem SameBarriers.trans (h : SameBarriers s t u) (h' : SameBarriers s u v) : SameBarriers s t v :=
  ⟨fun b => (h.1 b).trans (h'.1 b), fun b => (h.2 b).trans (h'.2 b)⟩

theorem passSameBarriers_append : (passSameBarriers config availableSlots s t slotCount tasks).1 ++
      (passSameBarriers config availableSlots s t slotCount tasks).2 = tasks := by
  induction tasks generalizing slotCount with
  | nil => rfl
  | cons u tasks ih =>
    unfold passSameBarriers
    dsimp only
    split_ifs with hsame hslots
    · rfl
    · exact congrArg (u :: ·) ih
    · rfl

theorem passSameBarriers_same (hu : u ∈ (passSameBarriers config availableSlots s t slotCount tasks).1) : SameBarriers s t u := by
  induction tasks generalizing slotCount with
  | nil => exact absurd hu List.not_mem_nil
  | cons v tasks ih =>
    unfold passSameBarriers at hu
    dsimp only at hu
    split_ifs at hu with hsame hslots
    · exact absurd hu List.not_mem_nil
    · rcases List.mem_cons.mp hu with rfl | hu
      · exact useSameBarriers_iff.mp hsame
      · exact ih hu
    · exact absurd hu List.not_mem_nil

theorem passSameBarriers_congr (h : passSameBarriers config availableSlots s t slotCount tasks = (passed, rest))
    (hpassed : ∀ u ∈ passed, SameBarriers s' t u) (hrest : ∀ u, SameBarriers s' t u → SameBarriers s t u) :
    passSameBarriers config availableSlots s' t slotCount tasks = (passed, rest) := by
  induction tasks generalizing slotCount passed with
  | nil => exact h
  | cons u tasks ih =>
    unfold passSameBarriers at h ⊢
    dsimp only at h ⊢
    split_ifs at h with hsame hslots
    · by_cases hsame' : useSameBarriers s' t u = true
      · rwa [if_pos hsame', if_pos hslots]
      · rwa [if_neg hsame']
    · obtain ⟨rfl, rfl⟩ := Prod.mk.inj h
      obtain ⟨hu, hpassed⟩ := List.forall_mem_cons.mp hpassed
      rw [if_pos (useSameBarriers_iff.mpr hu), if_neg hslots, ih rfl hpassed]
    · rwa [if_neg (fun hsame' => hsame (useSameBarriers_iff.mpr (hrest u (useSameBarriers_iff.mp hsame'))))]

theorem findEndItr_append : (findEndItr config availableSlots s t tasks).1 ++ (findEndItr config availableSlots s t tasks).2 = t :: tasks :=
  congrArg (t :: ·) passSameBarriers_append

theorem findEndItr_same (hu : u ∈ (findEndItr config availableSlots s t tasks).1) : SameBarriers s t u := by
  rcases List.mem_cons.mp hu with rfl | hu
  · exact ⟨fun _ => Iff.rfl, fun _ => Iff.rfl⟩
  · exact passSameBarriers_same hu

theorem findEndItr_spec (h : findEndItr config availableSlots s t tasks = (passed, rest)) :
    passed ++ rest = t :: tasks ∧ passed.headD 0 = t ∧ t ∈ passed ∧ ∀ u ∈ passed, SameBarriers s t u := by
  have happend := @findEndItr_append config availableSlots s t tasks
  have hsame := @findEndItr_same config availableSlots s t
  have hfirst : passed = t :: (passSameBarriers config availableSlots s t (config.taskOp t).numOfSlotsUsed tasks).1 :=
    (congrArg Prod.fst h).symm
  rw [h] at happend
  refine ⟨happend, ?_, ?_, ?_⟩
  · rw [hfirst]
    rfl
  · rw [hfirst]
    exact List.mem_cons_self
  · intro u hu
    apply @hsame u tasks
    rw [h]
    exact hu

theorem findEndItr_length : (findEndItr config availableSlots s t tasks).2.length < (t :: tasks).length := by
  have happend := congrArg List.length (@findEndItr_append config availableSlots s t tasks)
  rw [List.length_append] at happend
  rw [← happend]
  exact Nat.lt_add_of_pos_left (Nat.succ_pos _)

variable (config availableSlots s) in
def sectionsOf : List ℕ → List (List ℕ)
  | [] => []
  | t :: tasks => (findEndItr config availableSlots s t tasks).1 :: sectionsOf (findEndItr config availableSlots s t tasks).2
termination_by tasks => tasks.length
decreasing_by exact findEndItr_length

theorem sectionsOf_cons (h : findEndItr config availableSlots s t tasks = (passed, rest)) :
    sectionsOf config availableSlots s (t :: tasks) = passed :: sectionsOf config availableSlots s rest := by
  rw [sectionsOf, h]

end

/-- New barriers of which none is updated from the current section on. Behind it no task waits for one, and its tasks all
wait for the same ones. -/
structure LinkedBefore (s s' : BarrierInfo) (links : ℕ → ℕ → Prop) (current rest : List ℕ) : Prop extends WithLinks s s' links where
  newProducers : ∀ b, s.getNumOfBarrierOps ≤ b → ∀ t ∈ current ++ rest, t ∉ s'.getBarrierProducers b
  newConsumers : ∀ b, s.getNumOfBarrierOps ≤ b → ∀ t ∈ rest, t ∉ s'.getBarrierConsumers b
  uniform : ∀ b, s.getNumOfBarrierOps ≤ b → ∀ t ∈ current, ∀ u ∈ current, t ∈ s'.getBarrierConsumers b → u ∈ s'.getBarrierConsumers b

section
variable {config : OptimizeConfig} {availableSlots : ℕ} {s s' : BarrierInfo} {links : ℕ → ℕ → Prop} {current next rest tasks : List ℕ}
  {t u : ℕ}

theorem linkedBefore_refl (h : s.Consistent) : LinkedBefore s s (fun _ _ => False) current rest := by
  refine ⟨withLinks_refl h, ?_, ?_, ?_⟩
  · intro b hb t _ ht
    exact Nat.not_lt.mpr hb (h.producer_lt ht).1
  · intro b hb t _ ht
    exact Nat.not_lt.mpr hb (h.consumer_lt ht).1
  · intro b hb t _ u _ ht
    exact absurd (h.consumer_lt ht).1 (Nat.not_lt.mpr hb)

theorem LinkedBefore.advance (h : LinkedBefore s s' links current (next ++ rest)) : LinkedBefore s s' links next rest := by
  refine ⟨h.toWithLinks, ?_, ?_, ?_⟩
  · intro b hb t ht
    exact h.newProducers b hb t (List.mem_append_right _ ht)
  · intro b hb t ht
    exact h.newConsumers b hb t (List.mem_append_right _ ht)
  · intro b hb t ht u _ hmem
    exact absurd hmem (h.newConsumers b hb t (List.mem_append_left _ ht))

theorem LinkedBefore.link (h : LinkedBefore s s' links current (next ++ rest)) (hnodup : (current ++ (next ++ rest)).Nodup)
    (hlt : ∀ t ∈ current ++ next, t < s.getNumOfTasks) :
    LinkedBefore s (addBarrierBetween s' current next) (fun p c => links p c ∨ p ∈ current ∧ c ∈ next) next rest := by
  have hadd : WithBarrier s' (addBarrierBetween s' current next) current next := by
    apply addNewBarrier_spec h.consistent
    · intro t ht
      rw [h.tasks]
      exact hlt t (List.mem_append_left _ ht)
    · intro t ht
      rw [h.tasks]
      exact hlt t (List.mem_append_right _ ht)
  obtain ⟨-, hnodup', hcurrent⟩ := List.nodup_append.mp hnodup
  obtain ⟨-, -, hnext⟩ := List.nodup_append.mp hnodup'
  refine ⟨h.toWithLinks.trans (WithBarrier.withLinks h.consistent hadd), ?_, ?_, ?_⟩
  · intro b hb t ht hmem
    rcases (hadd.producers b t).mp hmem with ⟨-, hmem⟩ | hmem
    · exact hcurrent t hmem t ht rfl
    · exact h.newProducers b hb t (List.mem_append_right _ ht) hmem
  · intro b hb t ht hmem
    rcases (hadd.consumers b t).mp hmem with ⟨-, hmem⟩ | hmem
    · exact hnext t hmem t ht rfl
    · exact h.newConsumers b hb t (List.mem_append_right _ ht) hmem
  · intro b hb t ht u hu hmem
    rcases (hadd.consumers b t).mp hmem with ⟨rfl, -⟩ | hmem
    · exact (hadd.consumers _ u).mpr (.inl ⟨rfl, hu⟩)
    · exact absurd hmem (h.newConsumers b hb t (List.mem_append_left _ ht))

theorem WithLinks.sameBarriers (h : WithLinks s s' links) (hs : s.Consistent) (hsame : SameBarriers s' t u) : SameBarriers s t u := by
  constructor
  · intro b
    by_cases hb : b < s.getNumOfBarrierOps
    · have hwait := hsame.1 b
      rwa [h.consistent.wait_iff, h.consistent.wait_iff, h.consumers b hb, h.consumers b hb, ← hs.wait_iff, ← hs.wait_iff] at hwait
    · rw [hs.wait_iff, hs.wait_iff]
      exact iff_of_false (fun ht => hb (hs.consumer_lt ht).1) (fun hu => hb (hs.consumer_lt hu).1)
  · intro b
    by_cases hb : b < s.getNumOfBarrierOps
    · have hupdate := hsame.2 b
      rwa [h.consistent.update_iff, h.consistent.update_iff, h.producers b hb, h.producers b hb, ← hs.update_iff, ← hs.update_iff]
        at hupdate
    · rw [hs.update_iff, hs.update_iff]
      exact iff_of_false (fun ht => hb (hs.producer_lt ht).1) (fun hu => hb (hs.producer_lt hu).1)

theorem LinkedBefore.sameBarriers (h : LinkedBefore s s' links current rest) (hs : s.Consistent) (ht : t ∈ current) (hu : u ∈ current)
    (hsame : SameBarriers s t u) : SameBarriers s' t u := by
  constructor
  · intro b
    rw [h.consistent.wait_iff, h.consistent.wait_iff]
    by_cases hb : b < s.getNumOfBarrierOps
    · rw [h.consumers b hb, h.consumers b hb, ← hs.wait_iff, ← hs.wait_iff]
      exact hsame.1 b
    · exact ⟨h.uniform b (Nat.le_of_not_lt hb) t ht u hu, h.uniform b (Nat.le_of_not_lt hb) u hu t ht⟩
  · intro b
    rw [h.consistent.update_iff, h.consistent.update_iff]
    by_cases hb : b < s.getNumOfBarrierOps
    · rw [h.producers b hb, h.producers b hb, ← hs.update_iff, ← hs.update_iff]
      exact hsame.2 b
    · exact iff_of_false (h.newProducers b (Nat.le_of_not_lt hb) t (List.mem_append_left _ ht))
        (h.newProducers b (Nat.le_of_not_lt hb) u (List.mem_append_left _ hu))

theorem LinkedBefore.findEndItr_eq (h : LinkedBefore s s' links current rest) (hs : s.Consistent)
    (hend : findEndItr config availableSlots s t tasks = (current, rest)) :
    findEndItr config availableSlots s' t tasks = (current, rest) := by
  have hfirst : current = t :: (passSameBarriers config availableSlots s t (config.taskOp t).numOfSlotsUsed tasks).1 :=
    (congrArg Prod.fst hend).symm
  unfold findEndItr at hend ⊢
  rw [← hend]
  have hpass : passSameBarriers config availableSlots s' t (config.taskOp t).numOfSlotsUsed tasks =
      passSameBarriers config availableSlots s t (config.taskOp t).numOfSlotsUsed tasks := by
    apply passSameBarriers_congr rfl
    · intro u hu
      apply h.sameBarriers hs
      · rw [hfirst]
        exact List.mem_cons_self
      · rw [hfirst]
        exact List.mem_cons_of_mem _ hu
      · exact passSameBarriers_same hu
    · intro u hsame
      exact h.toWithLinks.sameBarriers hs hsame
  rw [hpass]

variable {k lo hi p q c a b : ℕ}

theorem blockRange_of_tasks (htasks : s'.getNumOfTasks = s.getNumOfTasks) (hk : BlockRange config.split s' k lo hi) :
    BlockRange config.split s k lo hi := by
  have hrange : config.split.getControlGraphBlockTaskRange s k true true = config.split.getControlGraphBlockTaskRange s' k true true := by
    unfold getControlGraphBlockTaskRange
    rw [htasks]
  exact ⟨hrange.trans hk.range, hk.le, htasks ▸ hk.lt, hk.first, htasks ▸ hk.last⟩

section
variable (hsplit : config.split.WellFormed s.getNumOfTasks)
include hsplit

theorem not_inRange_of_before (hk : BlockRange config.split s k lo hi) (hpq : p < q)
    (hq : blockOf config.split.syncTasksIds q < k) : inRange lo hi p ≠ true := by
  intro hp
  obtain ⟨hlo, -⟩ := inRange_iff.mp hp
  have hlt := block_lt_count hk.range
  have hcount : config.split.getControlGraphBlockCount = config.split.syncTasksIds.length + 1 := rfl
  have hrange := hk.range
  unfold getControlGraphBlockTaskRange at hrange
  rw [if_neg (Nat.not_le.mpr hlt), Except.ok.injEq, Prod.mk.injEq, if_neg (by omega), if_pos rfl] at hrange
  have hle := (not_congr (getD_lt_iff hsplit.sorted (t := q) (i := k - 1) (by omega))).mpr (by omega)
  omega

structure MapTells (config : OptimizeConfig) (s : BarrierInfo) (known : ℕ → ℕ → Prop) (st : LinearizeState) : Prop where
  range : ∃ hi, BlockRange config.split s st.controlMapBlockIdx st.controlMapOffset hi ∧
    st.taskControlMap.length = hi - st.controlMapOffset + 1
  tells : ∀ a b, a < s.getNumOfTasks → b < s.getNumOfTasks → blockOf config.split.syncTasksIds a = st.controlMapBlockIdx →
    blockOf config.split.syncTasksIds b = st.controlMapBlockIdx →
      ((st.taskControlMap.getD (a - st.controlMapOffset) []).getD (b - st.controlMapOffset) false = true ↔ known a b)

theorem found_of_ordered (hs : s.Consistent)
    (hfits : ∀ p c, s.Edge p c → config.split.Fits p c) (hk : BlockRange config.split s k lo hi)
    (ha : blockOf config.split.syncTasksIds a = k) (hb : blockOf config.split.syncTasksIds b = k) (h : s.Ordered a b) :
    Found (BlockEdge s lo hi) (Onward config.split s lo hi) a b := by
  have htopological : s.Topological := fun p c hedge => (hfits p c hedge).1
  have hrange {t : ℕ} (ht : t < s.getNumOfTasks) (hblock : blockOf config.split.syncTasksIds t = k) : inRange lo hi t = true :=
    inRange_block hsplit ht (hblock ▸ hk)
  induction h using Relation.TransGen.head_induction_on with
  | @single a hedge =>
    obtain ⟨bar, hp, hc⟩ := hedge
    exact .repaired (.down (.edge ⟨hrange (hs.producer_lt hp).2 ha, hrange (hs.consumer_lt hc).2 hb, bar, hp, hc⟩))
  | @head a c hedge hordered ih =>
    have hac := htopological a c hedge
    have hcb := htopological.lt_of_ordered hordered
    have hblock : blockOf config.split.syncTasksIds c = k := by
      have := @blockOf_mono config.split.syncTasksIds a c hac.le
      have := @blockOf_mono config.split.syncTasksIds c b hcb.le
      omega
    obtain ⟨bar, hp, hc⟩ := hedge
    have hcRange := hrange (hs.consumer_lt hc).2 hblock
    refine .forward ⟨⟨hrange (hs.producer_lt hp).2 ha, hcRange, bar, hp, hc⟩, ?_⟩ hac (ih hblock)
    rintro ⟨rfl, -⟩
    have := (inRange_iff.mp hcRange).2
    omega

theorem buildControlMap_spec (hpos : 0 < s.getNumOfTasks) (hs : s.Consistent)
    (hfits : ∀ p c, s.Edge p c → config.split.Fits p c) {st : LinearizeState} (hlinks : WithLinks s st.barrierInfo links)
    (hbefore : ∀ p c, links p c → ∃ q, p < q ∧ blockOf config.split.syncTasksIds q < k)
    (hcount : k < config.split.getControlGraphBlockCount) :
    ∃ taskControlMap offset, st.buildControlMap config k =
        .ok { st with taskControlMap := taskControlMap, controlMapOffset := offset, controlMapBlockIdx := k } ∧
      MapTells config s s.Ordered
        { st with taskControlMap := taskControlMap, controlMapOffset := offset, controlMapBlockIdx := k } := by
  have hsplit' : config.split.WellFormed st.barrierInfo.getNumOfTasks := hlinks.tasks.symm ▸ hsplit
  obtain ⟨lo, hi, hk'⟩ := exists_blockRange hsplit' hcount
  have hk : BlockRange config.split s k lo hi := blockRange_of_tasks hlinks.tasks hk'
  have hedge {p c : ℕ} (hp : inRange lo hi p = true) : st.barrierInfo.Edge p c ↔ s.Edge p c := by
    constructor
    · rintro ⟨bar, hpc⟩
      by_cases hbar : bar < s.getNumOfBarrierOps
      · exact ⟨bar, (hlinks.edgeAt_iff hbar).mp hpc⟩
      · obtain ⟨q, hpq, hq⟩ := hbefore p c ((hlinks.links p c).mp ⟨bar, Nat.le_of_not_lt hbar, hpc⟩)
        exact absurd hp (not_inRange_of_before hsplit hk hpq hq)
    · rintro ⟨bar, hpc⟩
      exact ⟨bar, (hlinks.edgeAt_iff (hs.producer_lt hpc.1).1).mpr hpc⟩
  have hblock : BlockEdge st.barrierInfo lo hi = BlockEdge s lo hi := by
    funext p c
    apply propext
    unfold BlockEdge
    constructor
    · rintro ⟨hp, hc, hpc⟩
      exact ⟨hp, hc, (hedge hp).mp hpc⟩
    · rintro ⟨hp, hc, hpc⟩
      exact ⟨hp, hc, (hedge hp).mpr hpc⟩
  have hclosed : Closed config.split st.barrierInfo lo hi false :=
    closed_of_fits hlinks.consistent hk' fun t c ht hpc => hfits t c ((hedge ht).mp hpc)
  have hpos' : 0 < st.barrierInfo.getNumOfTasks := hlinks.tasks.symm ▸ hpos
  obtain ⟨m, hbuild, hbits⟩ := buildTaskControlMap_found hlinks.consistent hsplit' hpos' hk' hclosed
  refine ⟨m, lo, ?_, ⟨hi, hk, length_buildTaskControlMap hlinks.consistent hsplit' hpos' hk' hclosed hbuild⟩, ?_⟩
  · unfold LinearizeState.buildControlMap
    rw [hbuild]
    rfl
  · intro a b ha hb hblockA hblockB
    have haRange : inRange lo hi a = true := inRange_block hsplit ha (hblockA ▸ hk)
    have hbRange : inRange lo hi b = true := inRange_block hsplit hb (hblockB ▸ hk)
    have honward : Onward config.split st.barrierInfo lo hi = Onward config.split s lo hi := by
      unfold Onward
      rw [hblock]
    rw [hblock, honward] at hbits
    constructor
    · intro hset
      have hfound : Found (BlockEdge s lo hi) (Onward config.split s lo hi) a b := hbits ▸ ⟨haRange, hbRange, hset⟩
      exact Relation.TransGen.mono (fun _ _ hpc => hpc.2.2) a b (hfound.transGen fun _ _ honward => honward.1)
    · intro hordered
      have hbit : RowBit lo hi m a b := hbits ▸ found_of_ordered hsplit hs hfits hk hblockA hblockB hordered
      exact hbit.2.2

end

end

end NpuCompiler.Barrier
