import NpuCompiler.Barrier.ControlMapRows
import NpuCompiler.Barrier.SplitRuns

namespace NpuCompiler.Barrier

open BarrierInfo FifoBarrierInfo GraphSplit Sweeps List Option

abbrev ExecutionGroupList := List (List ℕ)

structure ControlMapState where
  info : FifoBarrierInfo
  taskControlMap : TaskControlMap
  taskControlMapOffset : ℕ
  blockIdxOfTaskControlMap : Option ℕ

structure FetchState extends ControlMapState where
  /-- Each barrier with its latest consumer, the latest one first, and no two with the same one. -/
  legalizationBarriers : List (ℕ × ℕ)
  newDependenciesCreated : Bool

section
variable (config : OptimizeConfig)

def getTaskQueueType (s : BarrierInfo) (taskInd : ℕ) : Except String (Option TaskQueueType) :=
  let taskQueueTypeMap := buildTaskQueueTypeMap config s.getNumOfTasks
  if taskQueueTypeMap = [] then .error "Task queue map not initialized"
  else .ok ((taskQueueTypeMap.find? (fun item => taskInd ∈ item.2)).map Prod.fst)

def rebuildControlMap (taskBlock : ℕ) (st : ControlMapState) : Except String ControlMapState :=
  if st.blockIdxOfTaskControlMap = some taskBlock then .ok st
  else do
    let ((taskControlMap, taskControlMapOffset), info) ← st.info.buildTaskControlMap config taskBlock true false
    return ⟨info, taskControlMap, taskControlMapOffset, some taskBlock⟩

def isDepFromTaskAToTaskB (taskA taskB : ℕ) (st : ControlMapState) : Except String (Bool × ControlMapState) := do
  let taskABlock ← config.split.getControlGraphBlockIndex taskA
  let taskBBlock ← config.split.getControlGraphBlockIndex taskB
  if taskABlock < taskBBlock then return (true, st)
  else if taskABlock > taskBBlock then return (false, st)
  else
    let taskAQueueType ← getTaskQueueType config st.info.maps taskA
    let taskBQueueType ← getTaskQueueType config st.info.maps taskB
    if taskAQueueType.isSome ∧ taskAQueueType = taskBQueueType ∧ taskA < taskB then return (true, st)
    else
      let st ← rebuildControlMap config taskABlock st
      let isPath ← controlPathExistsBetweenTasksInSameBlock st.taskControlMap (taskA - st.taskControlMapOffset)
        (taskB - st.taskControlMapOffset) false
      return (isPath, st)

def existsDep : List (ℕ × ℕ) → ControlMapState → Except String (Bool × ControlMapState)
  | [], st => .ok (false, st)
  | (taskA, taskB) :: pairs, st => do
    let (isDep, st) ← isDepFromTaskAToTaskB config taskA taskB st
    if isDep then return (true, st) else existsDep pairs st

def barrierConsumerDependsOnGrandChildGroup (firstTaskInGrandChildGroup reusableWaitBarrier : ℕ) (st : ControlMapState) :
    Except String (Bool × ControlMapState) :=
  existsDep config ((st.info.maps.getBarrierConsumers reusableWaitBarrier).toList.map (firstTaskInGrandChildGroup, ·)) st

def canWaitBarrierBeUpdatedWithoutDeadlock (producer : ℕ) : List ℕ → ControlMapState →
    Except String (Option ℕ × ControlMapState)
  | [], st => .ok (none, st)
  | waitBarrier :: waitBarriers, st => do
    let (isDep, st) ← existsDep config ((st.info.maps.getBarrierConsumers waitBarrier).toList.map (·, producer)) st
    if isDep then canWaitBarrierBeUpdatedWithoutDeadlock producer waitBarriers st else return (some waitBarrier, st)

def getBarrierLatestConsumer (s : BarrierInfo) (barInd : ℕ) : Except String ℕ :=
  match (s.getBarrierConsumers barInd).toList.max? with
  | none => .error s!"Barrier {barInd} does not have any consumers."
  | some taskInd => .ok taskInd

def getBarrierEarliestConsumer (s : BarrierInfo) (barInd : ℕ) : Except String ℕ :=
  match (s.getBarrierConsumers barInd).toList.min? with
  | none => .error s!"Barrier {barInd} does not have any consumers."
  | some taskInd => .ok taskInd

def updatingBarrierInvalidatesPreviousExecGroup (barrierIdx : ℕ) : List (ℕ × ℕ) → ControlMapState →
    Except String (Bool × ControlMapState)
  | [], st => .ok (false, st)
  | (legalizationBarrier, latestConsumer) :: legalizationBarriers, st => do
    let earliestConsumer ← getBarrierEarliestConsumer st.info.maps barrierIdx
    if earliestConsumer > latestConsumer then return (false, st)
    else
      let (isDep, st) ← existsDep config ((st.info.maps.getBarrierConsumers barrierIdx).toList.product
        (st.info.maps.getBarrierConsumers legalizationBarrier).toList) st
      if isDep then return (true, st) else updatingBarrierInvalidatesPreviousExecGroup barrierIdx legalizationBarriers st

def findReusableWaitBarrier (producer consumer firstTaskInGrandChildGroup : ℕ) (legalizationBarriers : List (ℕ × ℕ))
    (st : ControlMapState) : Except String (Option ℕ × ControlMapState) := do
  let (candidate, st) ← canWaitBarrierBeUpdatedWithoutDeadlock config producer (st.info.maps.getWaitBarriers consumer).toList st
  match candidate with
  | none => return (none, st)
  | some reusableWaitBarrier =>
    let (dependsOnGrandChild, st) ←
      barrierConsumerDependsOnGrandChildGroup config firstTaskInGrandChildGroup reusableWaitBarrier st
    if dependsOnGrandChild then return (none, st)
    else
      let (invalidates, st) ← updatingBarrierInvalidatesPreviousExecGroup config reusableWaitBarrier legalizationBarriers st
      return (if invalidates then none else some reusableWaitBarrier, st)

def createNewBarrier (s : FifoBarrierInfo) (producer consumer : ℕ) : FifoBarrierInfo :=
  let barIdx := s.maps.getNumOfBarrierOps
  { s with
    maps := (s.maps.addNewBarrier.addProducer barIdx producer).addConsumer barIdx consumer
    numOfBarrierOps := s.numOfBarrierOps + 1 }

def firstTaskInGroup (fifoExecGroups : ExecutionGroupList) (grpIdx : ℕ) : ℕ := (fifoExecGroups.getD grpIdx []).headD 0

def lastTaskInGroup (fifoExecGroups : ExecutionGroupList) (grpIdx : ℕ) : ℕ := (fifoExecGroups.getD grpIdx []).getLastD 0

def findLegalizationBarrier (firstTaskInGrandChildGroup : ℕ) : List ℕ → ControlMapState →
    Except String (Option ℕ × ControlMapState)
  | [], st => .ok (none, st)
  | endGrpUpdateBarrier :: endGrpUpdateBarriers, st => do
    let (isDep, st) ← existsDep config
      ((st.info.maps.getBarrierConsumers endGrpUpdateBarrier).toList.map (firstTaskInGrandChildGroup, ·)) st
    if isDep then findLegalizationBarrier firstTaskInGrandChildGroup endGrpUpdateBarriers st
    else return (some endGrpUpdateBarrier, st)

def hasBarrierDependencyRequiredForDescriptorFetch (grpIdx blockIdx : ℕ) (fifoExecGroups : ExecutionGroupList)
    (wlmEnabled : Bool) (st : ControlMapState) : Except String ((Bool × Option ℕ) × ControlMapState) := do
  if ¬ grpIdx < fifoExecGroups.length then throw "Invalid group index"
  else if grpIdx + 1 = fifoExecGroups.length then return ((true, none), st)
  else
    let lastBlock ← config.split.getControlGraphBlockIndex (lastTaskInGroup fifoExecGroups grpIdx)
    if lastBlock ≠ blockIdx then return ((true, none), st)
    else
      let firstBlock ← config.split.getControlGraphBlockIndex (firstTaskInGroup fifoExecGroups (grpIdx + 1))
      if firstBlock ≠ blockIdx then return ((true, none), st)
      else if ¬ grpIdx < fifoExecGroups.length - 2 then return ((true, none), st)
      else
        let endGrpUpdateBarriers := st.info.maps.getUpdateBarriers (lastTaskInGroup fifoExecGroups grpIdx)
        if endGrpUpdateBarriers.size = 0 then return ((false, none), st)
        else if wlmEnabled then return ((true, none), st)
        else
          let (legalizationBarrierIdx, st) ←
            findLegalizationBarrier config (firstTaskInGroup fifoExecGroups (grpIdx + 2)) endGrpUpdateBarriers.toList st
          return ((legalizationBarrierIdx.isSome, legalizationBarrierIdx), st)

def insertLegalizationBarrier (legalizationBarriers : List (ℕ × ℕ)) (barrier : ℕ × ℕ) : List (ℕ × ℕ) :=
  if legalizationBarriers.any (fun other => other.2 = barrier.2) then legalizationBarriers
  else legalizationBarriers.filter (barrier.2 < ·.2) ++ barrier :: legalizationBarriers.filter (·.2 < barrier.2)

def FetchState.insert (st : FetchState) (barrierIdx : ℕ) : Except String FetchState := do
  let latestConsumer ← getBarrierLatestConsumer st.info.maps barrierIdx
  return { st with legalizationBarriers := insertLegalizationBarrier st.legalizationBarriers (barrierIdx, latestConsumer) }

def legalizeGroup (blockIdx : ℕ) (fifoExecGroups : ExecutionGroupList) (st : FetchState) (grpIdx : ℕ) :
    Except String FetchState := do
  let ((required, legalizationBarrierIdx), cm) ←
    hasBarrierDependencyRequiredForDescriptorFetch config grpIdx blockIdx fifoExecGroups false st.toControlMapState
  let st := { st with toControlMapState := cm }
  if required then
    match legalizationBarrierIdx with
    | none => return st
    | some barrierIdx => st.insert barrierIdx
  else
    let newBarProducer := lastTaskInGroup fifoExecGroups grpIdx
    let newBarConsumer := firstTaskInGroup fifoExecGroups (grpIdx + 1)
    let created (st : FetchState) : FetchState :=
      { st with info := createNewBarrier st.info newBarProducer newBarConsumer, newDependenciesCreated := true }
    if (st.info.maps.getWaitBarriers newBarConsumer).size = 0 then return created st
    else if ¬ grpIdx + 2 < fifoExecGroups.length then
      throw (s!"Grand child group does not exist for group index '{grpIdx}' in block '{blockIdx}' and " ++
        "legalization barrier is requested")
    else
      let (reusable, cm) ← findReusableWaitBarrier config newBarProducer newBarConsumer
        (firstTaskInGroup fifoExecGroups (grpIdx + 2)) st.legalizationBarriers st.toControlMapState
      let st := { st with toControlMapState := cm }
      match reusable with
      | none => return created st
      | some reusableWaitBarrier =>
        let info := { st.info with maps := st.info.maps.addProducer reusableWaitBarrier newBarProducer }
        FetchState.insert { st with info := info, newDependenciesCreated := true } reusableWaitBarrier

def legalizeQueue (blockIdx : ℕ) (st : FetchState) (entry : TaskQueueType × ExecutionGroupList) : Except String FetchState :=
  let st := { st with legalizationBarriers := [] }
  if entry.2.length ≤ 1 then .ok st
  else (List.range (entry.2.length - 1)).foldlM (legalizeGroup config blockIdx entry.2) st

def beginLegalization (blockIdx : ℕ) (s : FifoBarrierInfo) : Except String FetchState := do
  if buildTaskQueueTypeMap config s.maps.getNumOfTasks = [] then throw "TaskQueueTypeMap has not been created"
  else
    let ((taskControlMap, taskControlMapOffset), info) ← s.buildTaskControlMap config blockIdx true false
    return ⟨⟨info, taskControlMap, taskControlMapOffset, some blockIdx⟩, [], false⟩

def createBarrierDependenciesForDescriptorFetchInNonWlm (blockIdx : ℕ)
    (executionGroups : List (TaskQueueType × ExecutionGroupList)) (s : FifoBarrierInfo) : Except String (FifoBarrierInfo × Bool) := do
  let st ← beginLegalization config blockIdx s
  let st ← executionGroups.foldlM (legalizeQueue config blockIdx) st
  return (st.info, st.newDependenciesCreated)

end

/-- What `isDepFromTaskAToTaskB` sees in the block whose control map is built. -/
def SeenDep (config : OptimizeConfig) (s : BarrierInfo) (k lo hi a b : ℕ) : Prop :=
  a = b ∨ QueueEdge config a b ∨ Found (SeenEdge config s k lo hi true) (SeenOnward config s k lo hi true) a b

/-- A state of a call that began with the graph `s`: the control map is the one of the start, whatever was added since. -/
structure Mapped (config : OptimizeConfig) (s : BarrierInfo) (k lo hi : ℕ) (maps : BarrierInfo) (st : ControlMapState) : Prop where
  info : st.info = ofMaps maps
  split : BlockSplit config maps
  tasks : maps.getNumOfTasks = s.getNumOfTasks
  block : st.blockIdxOfTaskControlMap = some k
  offset : st.taskControlMapOffset = lo
  length : st.taskControlMap.length = hi - lo + 1
  rows : RowBit lo hi st.taskControlMap = Found (SeenEdge config s k lo hi true) (SeenOnward config s k lo hi true)

section
variable {config : OptimizeConfig} {s maps : BarrierInfo} {st : ControlMapState} {k lo hi a b t : ℕ}

theorem getTaskQueueType_eq (hqueues : config.taskQueueTypes ≠ []) (ht : t < maps.getNumOfTasks) :
    getTaskQueueType config maps t =
      .ok (if config.getTaskQueueType t ∈ config.taskQueueTypes then some (config.getTaskQueueType t) else none) := by
  have hmap : buildTaskQueueTypeMap config maps.getNumOfTasks ≠ [] := fun hnil => hqueues (map_eq_nil_iff.mp hnil)
  unfold getTaskQueueType
  dsimp only
  rw [if_neg hmap]
  congr 1
  cases hfind : (buildTaskQueueTypeMap config maps.getNumOfTasks).find? (fun item => t ∈ item.2) with
  | none =>
    refine (if_neg fun hqueue => ?_).symm
    have hout := find?_eq_none.mp hfind _ (mem_map_of_mem hqueue)
    exact absurd (by simpa using ht) hout
  | some item =>
    obtain ⟨queueType, hqueue, rfl⟩ := mem_map.mp (mem_of_find?_eq_some hfind)
    have htQueue := find?_some hfind
    rw [decide_eq_true_eq, mem_filter, decide_eq_true_eq] at htQueue
    rw [htQueue.2, if_pos hqueue]
    rfl

section
variable (hk : BlockRange config.split s k lo hi) (hst : Mapped config s k lo hi maps st)
include hk hst

theorem isDepFromTaskAToTaskB_eq (ha : a < maps.getNumOfTasks) (hb : b < maps.getNumOfTasks)
    (hab : blockOf config.split.syncTasksIds a = k ∨ blockOf config.split.syncTasksIds b = k) :
    ∃ isDep, isDepFromTaskAToTaskB config a b st = .ok (isDep, st) ∧
      (blockOf config.split.syncTasksIds a = blockOf config.split.syncTasksIds b → (isDep = true ↔ SeenDep config s k lo hi a b)) := by
  have hsplit : config.split.WellFormed s.getNumOfTasks := hst.tasks ▸ hst.split.split
  unfold isDepFromTaskAToTaskB
  rw [blockIndex_eq hst.split.split ha, blockIndex_eq hst.split.split hb, hst.info]
  change ∃ isDep, (if blockOf config.split.syncTasksIds a < blockOf config.split.syncTasksIds b then _ else
    if blockOf config.split.syncTasksIds a > blockOf config.split.syncTasksIds b then _ else _) = _ ∧ _
  by_cases hlt : blockOf config.split.syncTasksIds a < blockOf config.split.syncTasksIds b
  · rw [if_pos hlt]
    exact ⟨true, rfl, fun heq => absurd heq (Nat.ne_of_lt hlt)⟩
  · rw [if_neg hlt]
    by_cases hgt : blockOf config.split.syncTasksIds a > blockOf config.split.syncTasksIds b
    · rw [if_pos hgt]
      exact ⟨false, rfl, fun heq => absurd heq (Nat.ne_of_gt hgt)⟩
    · rw [if_neg hgt]
      have heq : blockOf config.split.syncTasksIds a = blockOf config.split.syncTasksIds b := by omega
      have haBlock : blockOf config.split.syncTasksIds a = k := hab.elim id heq.trans
      have haIn := inRange_block hsplit (hst.tasks ▸ ha) (haBlock.symm ▸ hk)
      have hbIn := inRange_block hsplit (hst.tasks ▸ hb) ((heq.symm.trans haBlock).symm ▸ hk)
      obtain ⟨haLo, haHi⟩ := inRange_iff.mp haIn
      obtain ⟨hbLo, hbHi⟩ := inRange_iff.mp hbIn
      have hlength := hst.length
      change ∃ isDep, Except.bind (getTaskQueueType config maps a) _ = _ ∧ _
      rw [getTaskQueueType_eq hst.split.queues ha]
      change ∃ isDep, Except.bind (getTaskQueueType config maps b) _ = _ ∧ _
      rw [getTaskQueueType_eq hst.split.queues hb]
      change ∃ isDep, (if _ ∧ _ ∧ a < b then _ else _) = _ ∧ _
      by_cases hqueue : QueueEdge config a b
      · obtain ⟨hltTasks, htype, htracked⟩ := hqueue
        rw [if_pos ⟨by rw [if_pos htracked]; rfl, by rw [htype], hltTasks⟩]
        exact ⟨true, rfl, fun _ => ⟨fun _ => .inr (.inl ⟨hltTasks, htype, htracked⟩), fun _ => rfl⟩⟩
      · rw [if_neg (by
          rintro ⟨htracked, htype, hltTasks⟩
          have haTracked : config.getTaskQueueType a ∈ config.taskQueueTypes := by
            by_contra hnot
            rw [if_neg hnot] at htracked
            exact absurd htracked Bool.false_ne_true
          rw [if_pos haTracked] at htype
          split_ifs at htype
          exact hqueue ⟨hltTasks, Option.some.inj htype, haTracked⟩)]
        unfold rebuildControlMap
        rw [haBlock, if_pos hst.block]
        change ∃ isDep, Except.bind (controlPathExistsBetweenTasksInSameBlock _ _ _ _) _ = _ ∧ _
        unfold controlPathExistsBetweenTasksInSameBlock
        rw [hst.offset, if_neg (fun hnil => by simp [hnil] at hlength), if_neg (by omega), if_neg (by omega)]
        by_cases hsame : a = b
        · rw [if_pos (by rw [hsame])]
          exact ⟨true, rfl, fun _ => ⟨fun _ => .inl hsame, fun _ => rfl⟩⟩
        · rw [if_neg (by omega), if_neg Bool.false_ne_true]
          refine ⟨_, rfl, fun _ => ?_⟩
          unfold SeenDep
          rw [← hst.rows, or_iff_right hsame, or_iff_right hqueue]
          exact ⟨fun hbit => ⟨haIn, hbIn, hbit⟩, fun hbit => hbit.2.2⟩

theorem existsDep_eq (pairs : List (ℕ × ℕ)) (hpairs : ∀ pair ∈ pairs, (pair.1 < maps.getNumOfTasks ∧ pair.2 < maps.getNumOfTasks) ∧
      (blockOf config.split.syncTasksIds pair.1 = k ∨ blockOf config.split.syncTasksIds pair.2 = k)) :
    ∃ isDep, existsDep config pairs st = .ok (isDep, st) ∧ (isDep = false → ∀ pair ∈ pairs,
      blockOf config.split.syncTasksIds pair.1 = blockOf config.split.syncTasksIds pair.2 →
        ¬ SeenDep config s k lo hi pair.1 pair.2) := by
  induction pairs with
  | nil => exact ⟨false, rfl, fun _ pair hpair => absurd hpair not_mem_nil⟩
  | cons pair pairs ih =>
    obtain ⟨⟨hpair, hblock⟩, hpairs'⟩ := forall_mem_cons.mp hpairs
    obtain ⟨isDep, hrun, hseen⟩ := isDepFromTaskAToTaskB_eq hk hst hpair.1 hpair.2 hblock
    unfold existsDep
    rw [hrun]
    cases isDep with
    | true => exact ⟨true, rfl, fun heq => absurd heq Bool.true_eq_false.mp⟩
    | false =>
      obtain ⟨isDep, hrest, hnone⟩ := ih hpairs'
      refine ⟨isDep, hrest, fun hfalse => forall_mem_cons.mpr ⟨?_, hnone hfalse⟩⟩
      exact fun heq hdep => absurd ((hseen heq).mpr hdep) Bool.false_ne_true

omit hk in
theorem Mapped.consumer_lt (ht : t ∈ maps.getBarrierConsumers b) : t < maps.getNumOfTasks := (hst.split.consistent.consumer_lt ht).2

theorem canWaitBarrierBeUpdatedWithoutDeadlock_spec {producer : ℕ} (hproducer : producer < maps.getNumOfTasks)
    (hblock : blockOf config.split.syncTasksIds producer = k) {waitBarriers : List ℕ}
    (hwaits : ∀ W ∈ waitBarriers, ∀ c ∈ maps.getBarrierConsumers W, blockOf config.split.syncTasksIds c = k) :
    ∃ candidate, canWaitBarrierBeUpdatedWithoutDeadlock config producer waitBarriers st = .ok (candidate, st) ∧
      ∀ W, candidate = some W → W ∈ waitBarriers ∧ ∀ c ∈ maps.getBarrierConsumers W, ¬ SeenDep config s k lo hi c producer := by
  induction waitBarriers with
  | nil => exact ⟨none, rfl, fun _ heq => absurd heq (some_ne_none _).symm⟩
  | cons W waitBarriers ih =>
    obtain ⟨hW, hwaits'⟩ := forall_mem_cons.mp hwaits
    obtain ⟨isDep, hrun, hnone⟩ := existsDep_eq hk hst ((maps.getBarrierConsumers W).toList.map (·, producer)) (by
      intro pair hpair
      obtain ⟨c, hc, rfl⟩ := mem_map.mp hpair
      exact ⟨⟨hst.consumer_lt (SmallSet.mem_iff.mpr hc), hproducer⟩, .inr hblock⟩)
    unfold canWaitBarrierBeUpdatedWithoutDeadlock
    rw [show st.info.maps = maps by rw [hst.info]; rfl, hrun]
    cases isDep with
    | true =>
      obtain ⟨candidate, hrest, hspec⟩ := ih hwaits'
      exact ⟨candidate, hrest, fun W heq => ⟨mem_cons_of_mem _ (hspec W heq).1, (hspec W heq).2⟩⟩
    | false =>
      refine ⟨some W, rfl, ?_⟩
      intro W' heq
      rw [← Option.some.inj heq]
      refine ⟨mem_cons_self, fun c hc => ?_⟩
      exact hnone rfl _ (mem_map_of_mem (SmallSet.mem_iff.mp hc)) ((hW c hc).trans hblock.symm)

theorem updatingBarrierInvalidatesPreviousExecGroup_ok (hc : ∃ c, c ∈ maps.getBarrierConsumers b)
    (hblock : ∀ c ∈ maps.getBarrierConsumers b, blockOf config.split.syncTasksIds c = k) (legalizationBarriers : List (ℕ × ℕ)) :
    ∃ invalidates, updatingBarrierInvalidatesPreviousExecGroup config b legalizationBarriers st = .ok (invalidates, st) := by
  have hearliest : ∃ earliest, getBarrierEarliestConsumer maps b = .ok earliest := by
    obtain ⟨c, hc⟩ := hc
    unfold getBarrierEarliestConsumer
    cases hmin : (maps.getBarrierConsumers b).toList.min? with
    | none => exact absurd hc (SmallSet.toList_eq_nil.mp (min?_eq_none_iff.mp hmin) c)
    | some earliest => exact ⟨earliest, rfl⟩
  obtain ⟨earliest, hearliest⟩ := hearliest
  induction legalizationBarriers with
  | nil => exact ⟨false, rfl⟩
  | cons barrier legalizationBarriers ih =>
    obtain ⟨isDep, hrun, -⟩ := existsDep_eq hk hst
      ((maps.getBarrierConsumers b).toList.product (maps.getBarrierConsumers barrier.1).toList) (by
      intro pair hpair
      obtain ⟨hconsumer, hother⟩ := mem_product.mp hpair
      exact ⟨⟨hst.consumer_lt (SmallSet.mem_iff.mpr hconsumer), hst.consumer_lt (SmallSet.mem_iff.mpr hother)⟩,
        .inl (hblock _ (SmallSet.mem_iff.mpr hconsumer))⟩)
    unfold updatingBarrierInvalidatesPreviousExecGroup
    rw [show st.info.maps = maps by rw [hst.info]; rfl, hearliest]
    change ∃ invalidates, (if earliest > barrier.2 then _ else _) = _
    by_cases hlater : earliest > barrier.2
    · rw [if_pos hlater]
      exact ⟨false, rfl⟩
    · rw [if_neg hlater, hrun]
      cases isDep with
      | true => exact ⟨true, rfl⟩
      | false => exact ih

omit hk in
theorem Mapped.consumers_block {c : ℕ} (hc : c ∈ maps.getBarrierConsumers b) (hblock : blockOf config.split.syncTasksIds c = k) :
    ∀ c ∈ maps.getBarrierConsumers b, blockOf config.split.syncTasksIds c = k := by
  obtain ⟨block, -, hconsumers⟩ := hst.split.blocks b
  exact fun c' hc' => (hconsumers c' hc').trans ((hconsumers c hc).symm.trans hblock)

theorem findReusableWaitBarrier_spec {producer consumer firstTask : ℕ} (hproducer : producer < maps.getNumOfTasks)
    (hproducerBlock : blockOf config.split.syncTasksIds producer = k) (hconsumerBlock : blockOf config.split.syncTasksIds consumer = k)
    (hfirst : firstTask < maps.getNumOfTasks) (legalizationBarriers : List (ℕ × ℕ)) :
    ∃ reusable, findReusableWaitBarrier config producer consumer firstTask legalizationBarriers st = .ok (reusable, st) ∧
      ∀ W, reusable = some W → consumer ∈ maps.getBarrierConsumers W ∧
        ∀ c ∈ maps.getBarrierConsumers W, ¬ SeenDep config s k lo hi c producer := by
  have hinfo : st.info.maps = maps := by
    rw [hst.info]
    rfl
  have hwaits (W : ℕ) (hW : W ∈ (maps.getWaitBarriers consumer).toList) : consumer ∈ maps.getBarrierConsumers W :=
    hst.split.consistent.wait_iff.mp (SmallSet.mem_iff.mpr hW)
  obtain ⟨candidate, hcandidate, hspec⟩ := canWaitBarrierBeUpdatedWithoutDeadlock_spec hk hst hproducer hproducerBlock
    (fun W hW => hst.consumers_block (hwaits W hW) hconsumerBlock)
  unfold findReusableWaitBarrier
  rw [hinfo, hcandidate]
  cases candidate with
  | none => exact ⟨none, rfl, fun _ heq => absurd heq (some_ne_none _).symm⟩
  | some W =>
    obtain ⟨hmem, hunseen⟩ := hspec W rfl
    have hblock := hst.consumers_block (hwaits W hmem) hconsumerBlock
    obtain ⟨depends, hdepends, -⟩ := existsDep_eq hk hst ((maps.getBarrierConsumers W).toList.map (firstTask, ·)) (by
      intro pair hpair
      obtain ⟨c, hc, rfl⟩ := mem_map.mp hpair
      exact ⟨⟨hfirst, hst.consumer_lt (SmallSet.mem_iff.mpr hc)⟩, .inr (hblock c (SmallSet.mem_iff.mpr hc))⟩)
    change ∃ reusable, Except.bind (existsDep config ((st.info.maps.getBarrierConsumers W).toList.map _) st) _ = _ ∧ _
    rw [hinfo, hdepends]
    cases depends with
    | true => exact ⟨none, rfl, fun _ heq => absurd heq (some_ne_none _).symm⟩
    | false =>
      obtain ⟨invalidates, hinvalidates⟩ := updatingBarrierInvalidatesPreviousExecGroup_ok hk hst ⟨consumer, hwaits W hmem⟩ hblock
        legalizationBarriers
      change ∃ reusable, Except.bind (updatingBarrierInvalidatesPreviousExecGroup config W legalizationBarriers st) _ = _ ∧ _
      rw [hinvalidates]
      refine ⟨_, rfl, ?_⟩
      intro W' heq
      cases invalidates with
      | true => exact absurd heq (some_ne_none _).symm
      | false => exact Option.some.inj heq ▸ ⟨hwaits W hmem, hunseen⟩

theorem findLegalizationBarrier_spec {firstTask : ℕ} (hfirst : firstTask < maps.getNumOfTasks) (updateBarriers : List ℕ)
    (hblock : ∀ b ∈ updateBarriers, ∀ c ∈ maps.getBarrierConsumers b, blockOf config.split.syncTasksIds c = k) :
    ∃ found, findLegalizationBarrier config firstTask updateBarriers st = .ok (found, st) ∧ ∀ b, found = some b → b ∈ updateBarriers := by
  induction updateBarriers with
  | nil => exact ⟨none, rfl, fun _ heq => absurd heq (some_ne_none _).symm⟩
  | cons b updateBarriers ih =>
    obtain ⟨hb, hblock'⟩ := forall_mem_cons.mp hblock
    obtain ⟨isDep, hrun, -⟩ := existsDep_eq hk hst ((maps.getBarrierConsumers b).toList.map (firstTask, ·)) (by
      intro pair hpair
      obtain ⟨c, hc, rfl⟩ := mem_map.mp hpair
      exact ⟨⟨hfirst, hst.consumer_lt (SmallSet.mem_iff.mpr hc)⟩, .inr (hb c (SmallSet.mem_iff.mpr hc))⟩)
    unfold findLegalizationBarrier
    rw [show st.info.maps = maps by rw [hst.info]; rfl, hrun]
    cases isDep with
    | true =>
      obtain ⟨found, hrest, hmem⟩ := ih hblock'
      exact ⟨found, hrest, fun b' heq => mem_cons_of_mem _ (hmem b' heq)⟩
    | false =>
      refine ⟨some b, rfl, ?_⟩
      intro b' heq
      rw [← Option.some.inj heq]
      exact mem_cons_self

end

theorem blockOf_succ_eq {sync : List ℕ} (hab : a < b) (ha : blockOf sync a = k) (hb : blockOf sync b = k) : blockOf sync (a + 1) = k := by
  have hle := @blockOf_mono sync a (a + 1) (Nat.le_succ a)
  have hle' := @blockOf_mono sync (a + 1) b hab
  omega

end

structure GroupsOf (config : OptimizeConfig) (numOfTasks : ℕ) (queueType : TaskQueueType) (fifoExecGroups : ExecutionGroupList) :
    Prop where
  sorted : fifoExecGroups.flatten.Pairwise (· < ·)
  tasks : ∀ t ∈ fifoExecGroups.flatten, t < numOfTasks ∧ config.getTaskQueueType t = queueType
  nonempty : ∀ group ∈ fifoExecGroups, group ≠ []

section
variable {config : OptimizeConfig} {s maps : BarrierInfo} {st : ControlMapState} {queueType : TaskQueueType} {n i k lo hi : ℕ}
  {fifoExecGroups : ExecutionGroupList}

section
variable (h : GroupsOf config n queueType fifoExecGroups) (hlt : i < fifoExecGroups.length)
include h hlt

theorem GroupsOf.first_mem : firstTaskInGroup fifoExecGroups i ∈ fifoExecGroups[i] := by
  have hne := h.nonempty _ (getElem_mem hlt)
  unfold firstTaskInGroup
  rw [getD_eq_getElem _ _ hlt, headD_eq_head?_getD, head?_eq_some_head hne, getD_some]
  exact head_mem hne

theorem GroupsOf.last_mem : lastTaskInGroup fifoExecGroups i ∈ fifoExecGroups[i] := by
  have hne := h.nonempty _ (getElem_mem hlt)
  unfold lastTaskInGroup
  rw [getD_eq_getElem _ _ hlt, getLastD_eq_getLast?, getLast?_eq_some_getLast hne, getD_some]
  exact getLast_mem hne

theorem GroupsOf.mem {t : ℕ}
    (ht : t ∈ fifoExecGroups[i]) : t < n ∧ config.getTaskQueueType t = queueType :=
  h.tasks t (mem_flatten.mpr ⟨_, getElem_mem hlt, ht⟩)

end

theorem GroupsOf.queueOrder (h : GroupsOf config n queueType fifoExecGroups) (hi : i + 1 < fifoExecGroups.length) :
    QueueOrder config.getTaskQueueType (lastTaskInGroup fifoExecGroups i) (firstTaskInGroup fifoExecGroups (i + 1)) := by
  have hi' : i < fifoExecGroups.length := Nat.lt_of_succ_lt hi
  have hlast := h.last_mem hi'
  have hfirst := h.first_mem hi
  have hpairs := pairwise_iff_getElem.mp (pairwise_flatten.mp h.sorted).2 i (i + 1) hi' hi (Nat.lt_succ_self i)
  exact ⟨hpairs _ hlast _ hfirst, (h.mem hi' hlast).2.trans (h.mem hi hfirst).2.symm⟩

theorem hasBarrierDependencyRequiredForDescriptorFetch_spec (hk : BlockRange config.split s k lo hi)
    (hst : Mapped config s k lo hi maps st) (hgroups : GroupsOf config maps.getNumOfTasks queueType fifoExecGroups)
    (hi' : i + 1 < fifoExecGroups.length) :
    ∃ required found, hasBarrierDependencyRequiredForDescriptorFetch config i k fifoExecGroups false st =
        .ok ((required, found), st) ∧ (∀ b, found = some b → lastTaskInGroup fifoExecGroups i ∈ maps.getBarrierProducers b) ∧
      (required = false → i + 2 < fifoExecGroups.length ∧
        blockOf config.split.syncTasksIds (lastTaskInGroup fifoExecGroups i) = k ∧
        blockOf config.split.syncTasksIds (firstTaskInGroup fifoExecGroups (i + 1)) = k) := by
  have hi := Nat.lt_of_succ_lt hi'
  have hlast := (hgroups.mem hi (hgroups.last_mem hi)).1
  have hfirst := (hgroups.mem hi' (hgroups.first_mem hi')).1
  -- the branches without a missing barrier
  have hnone : ∃ required found, Except.ok ((true, none), st) = (Except.ok ((required, found), st) : Except String _) ∧
      (∀ b, found = some b → lastTaskInGroup fifoExecGroups i ∈ maps.getBarrierProducers b) ∧
      (required = false → i + 2 < fifoExecGroups.length ∧
        blockOf config.split.syncTasksIds (lastTaskInGroup fifoExecGroups i) = k ∧
        blockOf config.split.syncTasksIds (firstTaskInGroup fifoExecGroups (i + 1)) = k) :=
    ⟨true, none, rfl, fun _ heq => absurd heq (some_ne_none _).symm, fun heq => absurd heq Bool.true_eq_false.mp⟩
  unfold hasBarrierDependencyRequiredForDescriptorFetch
  rw [if_neg (not_not.mpr hi), if_neg (Nat.ne_of_lt hi'), blockIndex_eq hst.split.split hlast, blockIndex_eq hst.split.split hfirst,
    show st.info.maps = maps by rw [hst.info]; rfl]
  change ∃ required found, (if blockOf config.split.syncTasksIds (lastTaskInGroup fifoExecGroups i) ≠ k then _ else
    if blockOf config.split.syncTasksIds (firstTaskInGroup fifoExecGroups (i + 1)) ≠ k then _ else
    if ¬ i < fifoExecGroups.length - 2 then _ else _) = _ ∧ _
  by_cases hlastBlock : blockOf config.split.syncTasksIds (lastTaskInGroup fifoExecGroups i) = k
  · rw [if_neg (not_not.mpr hlastBlock)]
    by_cases hfirstBlock : blockOf config.split.syncTasksIds (firstTaskInGroup fifoExecGroups (i + 1)) = k
    · rw [if_neg (not_not.mpr hfirstBlock)]
      by_cases hgrand : i < fifoExecGroups.length - 2
      · rw [if_neg (not_not.mpr hgrand)]
        have hgrand' : i + 2 < fifoExecGroups.length := by omega
        have hgrandFirst := (hgroups.mem hgrand' (hgroups.first_mem hgrand')).1
        by_cases hnoUpdate : (maps.getUpdateBarriers (lastTaskInGroup fifoExecGroups i)).size = 0
        · dsimp only
          rw [if_pos hnoUpdate]
          exact ⟨false, none, rfl, fun _ heq => absurd heq (some_ne_none _).symm, fun _ => ⟨hgrand', hlastBlock, hfirstBlock⟩⟩
        · have hupdates (b : ℕ) (hb : b ∈ (maps.getUpdateBarriers (lastTaskInGroup fifoExecGroups i)).toList) :
              lastTaskInGroup fifoExecGroups i ∈ maps.getBarrierProducers b :=
            hst.split.consistent.update_iff.mp (SmallSet.mem_iff.mpr hb)
          obtain ⟨found, hrun, hmem⟩ := findLegalizationBarrier_spec hk hst hgrandFirst
            (maps.getUpdateBarriers (lastTaskInGroup fifoExecGroups i)).toList (by
              intro b hb c hc
              obtain ⟨block, hproducers, hconsumers⟩ := hst.split.blocks b
              rw [hconsumers c hc, ← hproducers _ (hupdates b hb)]
              exact blockOf_succ_eq (hgroups.queueOrder hi').1 hlastBlock hfirstBlock)
          dsimp only
          rw [if_neg hnoUpdate, if_neg Bool.false_ne_true, hrun]
          exact ⟨found.isSome, found, rfl, fun b heq => hupdates b (hmem b heq), fun _ => ⟨hgrand', hlastBlock, hfirstBlock⟩⟩
      · rw [if_pos hgrand]
        exact hnone
    · rw [if_pos hfirstBlock]
      exact hnone
  · rw [if_pos hlastBlock]
    exact hnone

end

end NpuCompiler.Barrier
