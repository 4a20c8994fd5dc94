import NpuCompiler.Barrier.RedundantDependencies

namespace NpuCompiler.Barrier

open BarrierInfo FifoBarrierInfo GraphSplit List SmallSet

section
variable (config : OptimizeConfig)

def allImplicit (s : BarrierInfo) (queue : List ℕ) : List ℕ → Except String Bool
  | [] => .ok true
  | taskInd :: taskInds =>
    if taskInd ∉ queue then .ok false
    else do
      let sync ← config.split.isSyncPoint s taskInd
      if sync then return false else allImplicit s queue taskInds

def haveSameImplicitDependencyTaskQueueType (s : BarrierInfo) (taskInds : TaskSet) : Except String (Option TaskQueueType) :=
  match taskInds.toList with
  | [] => .ok none
  | firstTaskInd :: _ =>
    let taskQueueTypeMap := buildTaskQueueTypeMap config s.getNumOfTasks
    if taskQueueTypeMap = [] then .error "Task queue map not initialized"
    else match taskQueueTypeMap.find? (fun item => firstTaskInd ∈ item.2) with
      | none => .ok none
      | some item => do
        let same ← allImplicit config s item.2 taskInds.toList
        return if same then some item.1 else none

def findExplicitDependencies (s : BarrierInfo) (type : Option TaskQueueType) (dependencies : TaskSet) : Except String TaskSet :=
  dependencies.toList.foldlM (fun dependenciesToRemove taskInd => do
    let sync ← config.split.isSyncPoint s taskInd
    return if sync then dependenciesToRemove
      else if type.all (fun type => type = config.getTaskQueueType taskInd) then dependenciesToRemove.insert taskInd
      else dependenciesToRemove) ∅

def removeExplicitAtBarrier (s : BarrierInfo) (barrierIdx : ℕ) : Except String BarrierInfo := do
  -- the consumers
  let producerTaskQueueType ← haveSameImplicitDependencyTaskQueueType config s (s.getBarrierProducers barrierIdx)
  let consumersToRemove ← (match producerTaskQueueType with
    | none => .ok ∅
    | some type => findExplicitDependencies config s (some type) (s.getBarrierConsumers barrierIdx))
  let s := removeConsumers s barrierIdx consumersToRemove
  -- the producers
  let consumerTaskQueueType ← haveSameImplicitDependencyTaskQueueType config s (s.getBarrierConsumers barrierIdx)
  let producersToRemove ←
    (if consumerTaskQueueType.isSome ∨ (s.getBarrierConsumers barrierIdx).size = 0 then
      findExplicitDependencies config s consumerTaskQueueType (s.getBarrierProducers barrierIdx)
    else .ok ∅)
  let s := removeProducers s barrierIdx producersToRemove
  if xor ((s.getBarrierConsumers barrierIdx).size = 0) ((s.getBarrierProducers barrierIdx).size = 0) then
    let side := if (s.getBarrierProducers barrierIdx).size = 0 then "producers" else "consumers"
    throw s!"Invalid optimization : Only barrier {side} became empty for barrier '{barrierIdx}'"
  else return s

def removeExplicitInBlock (s : FifoBarrierInfo) (taskBlockIndex : ℕ) : Except String FifoBarrierInfo := do
  let blockUpdateBarriers ← s.getBarriersForTaskBlock config taskBlockIndex true false true
  let maps ← blockUpdateBarriers.foldlM (removeExplicitAtBarrier config) s.maps
  return { s with maps := maps }

def removeExplicitDependencies (s : FifoBarrierInfo) : Except String FifoBarrierInfo :=
  (List.range config.split.getControlGraphBlockCount).foldlM (removeExplicitInBlock config) s

end

section
variable {config : OptimizeConfig} {s : BarrierInfo} {queue taskInds : List ℕ} {tasks : TaskSet}

def Implicit (config : OptimizeConfig) (queueType : TaskQueueType) (tasks : TaskSet) : Prop :=
  ∀ t ∈ tasks, config.getTaskQueueType t = queueType ∧ t ∉ config.split.syncTasksIds

theorem allImplicit_spec (hsplit : config.split.WellFormed s.getNumOfTasks) (hlt : ∀ t ∈ taskInds, t < s.getNumOfTasks) :
    ∃ same, allImplicit config s queue taskInds = .ok same ∧
      (same = true ↔ ∀ t ∈ taskInds, t ∈ queue ∧ t ∉ config.split.syncTasksIds) := by
  induction taskInds with
  | nil => exact ⟨true, rfl, by simp⟩
  | cons t taskInds ih =>
    obtain ⟨ht, hlt'⟩ := forall_mem_cons.mp hlt
    obtain ⟨same, hrun, hsame⟩ := ih hlt'
    unfold allImplicit
    by_cases hqueue : t ∈ queue
    · rw [if_neg (not_not.mpr hqueue), isSyncPoint_eq hsplit ht]
      change ∃ same, (if decide (t ∈ config.split.syncTasksIds) = true then _ else _) = _ ∧ _
      by_cases hsync : t ∈ config.split.syncTasksIds
      · rw [if_pos (decide_eq_true hsync)]
        exact ⟨false, rfl, by simp [hsync]⟩
      · rw [if_neg (by simpa using hsync)]
        refine ⟨same, hrun, ?_⟩
        rw [hsame, forall_mem_cons]
        exact ⟨fun hrest => ⟨⟨hqueue, hsync⟩, hrest⟩, fun hrest => hrest.2⟩
    · rw [if_pos hqueue]
      exact ⟨false, rfl, by simp [hqueue]⟩

theorem haveSameImplicitDependencyTaskQueueType_spec (hsplit : config.split.WellFormed s.getNumOfTasks)
    (hqueues : config.taskQueueTypes ≠ []) (hlt : ∀ t ∈ tasks, t < s.getNumOfTasks) :
    ∃ type, haveSameImplicitDependencyTaskQueueType config s tasks = .ok type ∧
      (∀ queueType, type = some queueType →
        queueType ∈ config.taskQueueTypes ∧ Implicit config queueType tasks ∧ ∃ t, t ∈ tasks) ∧
      (type = none → ∀ queueType ∈ config.taskQueueTypes, Implicit config queueType tasks → ∀ t, t ∉ tasks) := by
  have hmap : buildTaskQueueTypeMap config s.getNumOfTasks ≠ [] := fun hnil => hqueues (map_eq_nil_iff.mp hnil)
  unfold haveSameImplicitDependencyTaskQueueType
  match hlist : tasks.toList with
  | [] =>
    refine ⟨none, rfl, fun _ heq => absurd heq (Option.some_ne_none _).symm, ?_⟩
    exact fun _ _ _ _ => toList_eq_nil.mp hlist
  | t :: taskInds =>
    have ht : t ∈ tasks := mem_iff.mpr (hlist ▸ mem_cons_self)
    dsimp only
    rw [if_neg hmap]
    cases hfind : (buildTaskQueueTypeMap config s.getNumOfTasks).find? (fun item => t ∈ item.2) with
    | none =>
      refine ⟨none, rfl, fun _ heq => absurd heq (Option.some_ne_none _).symm, ?_⟩
      intro _ queueType hqueue himplicit
      have hout := find?_eq_none.mp hfind _ (mem_map_of_mem hqueue)
      exact absurd (by simpa using ⟨hlt t ht, (himplicit t ht).1⟩) hout
    | some item =>
      obtain ⟨queueType, hqueue, rfl⟩ := mem_map.mp (mem_of_find?_eq_some hfind)
      have htQueue := find?_some hfind
      rw [decide_eq_true_eq, mem_filter, decide_eq_true_eq] at htQueue
      obtain ⟨same, hrun, hsame⟩ := @allImplicit_spec config s
        ((List.range s.getNumOfTasks).filter (fun taskInd => config.getTaskQueueType taskInd = queueType)) (t :: taskInds) hsplit
        (fun u hu => hlt u (mem_iff.mpr (hlist ▸ hu)))
      have hall : same = true ↔ Implicit config queueType tasks := by
        rw [hsame, ← hlist]
        refine forall_congr' (fun u => forall_congr' (fun hu => and_congr_left' ?_))
        rw [mem_filter, mem_range, decide_eq_true_eq]
        exact and_iff_right (hlt u hu)
      dsimp only
      rw [hrun]
      refine ⟨_, rfl, ?_, ?_⟩
      · intro queueType' heq
        cases same with
        | false => exact absurd heq (Option.some_ne_none _).symm
        | true =>
          rw [← Option.some.inj heq]
          exact ⟨hqueue, hall.mp rfl, t, ht⟩
      · intro hnone queueType' _ himplicit
        cases same with
        | true => exact absurd hnone (Option.some_ne_none _)
        | false =>
          have heq : queueType' = queueType := (himplicit t ht).1.symm.trans htQueue.2
          exact absurd (hall.mpr (heq ▸ himplicit)) Bool.false_ne_true

def Explicit (config : OptimizeConfig) (type : Option TaskQueueType) (t : ℕ) : Prop :=
  t ∉ config.split.syncTasksIds ∧ ∀ queueType, type = some queueType → config.getTaskQueueType t = queueType

theorem mem_insertExplicit {type : Option TaskQueueType} {t u : ℕ} :
    u ∈ (if decide (t ∈ config.split.syncTasksIds) = true then tasks
      else if type.all (fun type => type = config.getTaskQueueType t) then tasks.insert t else tasks) ↔
      u ∈ tasks ∨ u = t ∧ Explicit config type t := by
  have htype : type.all (fun type => type = config.getTaskQueueType t) = true ↔
      ∀ queueType, type = some queueType → config.getTaskQueueType t = queueType := by
    cases type with
    | none => simp
    | some queueType => simp [eq_comm]
  by_cases hsync : t ∈ config.split.syncTasksIds
  · rw [if_pos (decide_eq_true hsync)]
    exact ⟨.inl, fun hu => hu.elim id (fun hexplicit => absurd hsync hexplicit.2.1)⟩
  · rw [if_neg (by simpa using hsync)]
    by_cases hall : type.all (fun type => type = config.getTaskQueueType t) = true
    · rw [if_pos hall, mem_insert, or_comm]
      exact or_congr_right (and_iff_left ⟨hsync, htype.mp hall⟩).symm
    · rw [if_neg hall]
      exact ⟨.inl, fun hu => hu.elim id (fun hexplicit => absurd (htype.mpr hexplicit.2.2) hall)⟩

theorem findExplicitDependencies_spec (hsplit : config.split.WellFormed s.getNumOfTasks) (hlt : ∀ t ∈ tasks, t < s.getNumOfTasks)
    (type : Option TaskQueueType) :
    ∃ result, findExplicitDependencies config s type tasks = .ok result ∧
      ∀ t, t ∈ result ↔ t ∈ tasks ∧ Explicit config type t := by
  have hrun : ∀ taskInds : List ℕ, (∀ t ∈ taskInds, t < s.getNumOfTasks) → ∀ dependenciesToRemove : TaskSet,
      ∃ result, taskInds.foldlM (fun (dependenciesToRemove : TaskSet) taskInd => do
        let sync ← config.split.isSyncPoint s taskInd
        return if sync then dependenciesToRemove
          else if type.all (fun type => type = config.getTaskQueueType taskInd) then dependenciesToRemove.insert taskInd
          else dependenciesToRemove) dependenciesToRemove = Except.ok result ∧
        ∀ t, t ∈ result ↔ t ∈ dependenciesToRemove ∨ t ∈ taskInds ∧ Explicit config type t := by
    intro taskInds
    induction taskInds with
    | nil => exact fun _ dependenciesToRemove => ⟨dependenciesToRemove, rfl, by simp⟩
    | cons t taskInds ih =>
      intro hlt dependenciesToRemove
      obtain ⟨ht, hlt'⟩ := forall_mem_cons.mp hlt
      rw [foldlM_cons, isSyncPoint_eq hsplit ht]
      obtain ⟨result, hrest, hmem⟩ := ih hlt' (if decide (t ∈ config.split.syncTasksIds) = true then dependenciesToRemove
        else if type.all (fun type => type = config.getTaskQueueType t) then dependenciesToRemove.insert t
        else dependenciesToRemove)
      refine ⟨result, hrest, ?_⟩
      intro u
      rw [hmem, mem_insertExplicit, mem_cons, or_assoc]
      apply or_congr_right
      constructor
      · rintro (⟨rfl, hexplicit⟩ | ⟨hu, hexplicit⟩)
        · exact ⟨.inl rfl, hexplicit⟩
        · exact ⟨.inr hu, hexplicit⟩
      · rintro ⟨rfl | hu, hexplicit⟩
        · exact .inl ⟨rfl, hexplicit⟩
        · exact .inr ⟨hu, hexplicit⟩
  obtain ⟨result, hresult, hmem⟩ := hrun tasks.toList hlt ∅
  refine ⟨result, hresult, ?_⟩
  intro t
  rw [hmem]
  exact or_iff_right not_mem_empty

variable {type type' : Option TaskQueueType} {P P' C C' : TaskSet}

/-- The sets of a barrier before and behind the two steps: first the consumers of the producers' queue go, and then the
producers of the queue of the consumers that are left. -/
structure Lightens (config : OptimizeConfig) (type type' : Option TaskQueueType) (P P' C C' : TaskSet) : Prop where
  produced : ∀ queueType, type = some queueType → Implicit config queueType P
  unproduced : type = none → ∀ queueType ∈ config.taskQueueTypes, Implicit config queueType P → ∀ t, t ∉ P
  consumed : ∀ queueType, type' = some queueType →
    queueType ∈ config.taskQueueTypes ∧ Implicit config queueType C' ∧ ∃ c, c ∈ C'
  consumers : ∀ c, c ∈ C' ↔ c ∈ C ∧ ¬ ∃ queueType, type = some queueType ∧ Explicit config (some queueType) c
  producers : ∀ p, p ∈ P' ↔ p ∈ P ∧ ¬ ((type'.isSome ∨ ∀ c, c ∉ C') ∧ Explicit config type' p)

theorem Lightens.sameQueue (h : Lightens config type type' P P' C C') {p c : ℕ} (hp : p ∈ P) (hc : c ∈ C)
    (hout : ¬ (p ∈ P' ∧ c ∈ C')) : config.getTaskQueueType p = config.getTaskQueueType c := by
  by_cases hc' : c ∈ C'
  · have hp' : p ∉ P' := fun hp' => hout ⟨hp', hc'⟩
    have hdropped : (type'.isSome ∨ ∀ c, c ∉ C') ∧ Explicit config type' p := by
      by_contra hkept
      exact hp' ((h.producers p).mpr ⟨hp, hkept⟩)
    obtain ⟨hsome | hempty, hexplicit⟩ := hdropped
    · obtain ⟨queueType, rfl⟩ := Option.isSome_iff_exists.mp hsome
      exact (hexplicit.2 queueType rfl).trans ((h.consumed queueType rfl).2.1 c hc').1.symm
    · exact absurd hc' (hempty c)
  · have hdropped : ∃ queueType, type = some queueType ∧ Explicit config (some queueType) c := by
      by_contra hkept
      exact hc' ((h.consumers c).mpr ⟨hc, hkept⟩)
    obtain ⟨queueType, rfl, hexplicit⟩ := hdropped
    exact (h.produced queueType rfl p hp).1.trans (hexplicit.2 queueType rfl).symm

theorem Lightens.sides (h : Lightens config type type' P P' C C') (hwaits : (∃ c, c ∈ C) → ∃ p, p ∈ P)
    (hends : (∀ c, c ∉ C) → ∀ p ∈ P, p ∉ config.split.syncTasksIds) : (∃ p, p ∈ P') ↔ ∃ c, c ∈ C' := by
  by_cases hempty : ∀ c, c ∉ C'
  · -- the producers are all of one queue, or there have been no consumers
    have hnone : type' = none := by
      cases htype : type' with
      | none => rfl
      | some queueType =>
        obtain ⟨-, -, c, hc⟩ := h.consumed queueType htype
        exact absurd hc (hempty c)
    have hsync : ∀ p ∈ P, p ∉ config.split.syncTasksIds := by
      cases htype : type with
      | none =>
        apply hends
        intro c hc
        apply hempty c
        rw [h.consumers]
        exact ⟨hc, fun ⟨queueType, heq, _⟩ => Option.some_ne_none _ (heq.symm.trans htype)⟩
      | some queueType => exact fun p hp => (h.produced queueType htype p hp).2
    constructor
    · rintro ⟨p, hp⟩
      obtain ⟨hpP, hkept⟩ := (h.producers p).mp hp
      refine absurd ⟨.inr hempty, hsync p hpP, ?_⟩ hkept
      exact fun queueType heq => absurd (hnone.symm.trans heq) (Option.some_ne_none _).symm
    · rintro ⟨c, hc⟩
      exact absurd hc (hempty c)
  · push Not at hempty
    obtain ⟨c, hc⟩ := hempty
    obtain ⟨hcC, hcKept⟩ := (h.consumers c).mp hc
    obtain ⟨p₀, hp₀⟩ := hwaits ⟨c, hcC⟩
    refine iff_of_true ?_ ⟨c, hc⟩
    by_contra hnone
    push Not at hnone
    -- all producers go, so that they are of the queue of the consumers
    have hall : ∀ p ∈ P, type'.isSome ∧ Explicit config type' p := by
      intro p hp
      by_contra hkept
      apply hnone p
      rw [h.producers]
      refine ⟨hp, ?_⟩
      rintro ⟨hsome | hempty, hexplicit⟩
      · exact hkept ⟨hsome, hexplicit⟩
      · exact hempty c hc
    obtain ⟨queueType', rfl⟩ := Option.isSome_iff_exists.mp (hall p₀ hp₀).1
    obtain ⟨htracked, himplicit, -⟩ := h.consumed queueType' rfl
    cases htype : type with
    | none =>
      refine h.unproduced htype queueType' htracked ?_ p₀ hp₀
      exact fun p hp => ⟨(hall p hp).2.2 queueType' rfl, (hall p hp).2.1⟩
    | some queueType =>
      have hqueue : queueType = queueType' :=
        (h.produced queueType htype p₀ hp₀).1.symm.trans ((hall p₀ hp₀).2.2 queueType' rfl)
      refine hcKept ⟨queueType, htype, (himplicit c hc).2, ?_⟩
      intro queueType'' heq
      rw [← Option.some.inj heq, hqueue]
      exact (himplicit c hc).1

end

def TwoSided (s : BarrierInfo) (b : ℕ) : Prop := (∃ p, p ∈ s.getBarrierProducers b) → ∃ c, c ∈ s.getBarrierConsumers b

structure Lightened (config : OptimizeConfig) (s s' : BarrierInfo) : Prop where
  split : SplitGraph config s'
  tasks : s'.getNumOfTasks = s.getNumOfTasks
  barriers : s'.getNumOfBarrierOps = s.getNumOfBarrierOps
  producers : ∀ b x, x ∈ s'.getBarrierProducers b → x ∈ s.getBarrierProducers b
  consumers : ∀ b x, x ∈ s'.getBarrierConsumers b → x ∈ s.getBarrierConsumers b
  order : ∀ p c, s.Edge p c → s'.Edge p c ∨ QueueOrder config.getTaskQueueType p c
  twoSided : ∀ b, TwoSided s b → TwoSided s' b

section
variable {config : OptimizeConfig} {s s' s'' : BarrierInfo} {b p c : ℕ}

theorem lightened_refl (h : SplitGraph config s) : Lightened config s s :=
  ⟨h, rfl, rfl, fun _ _ => id, fun _ _ => id, fun _ _ => .inl, fun _ => id⟩

theorem Lightened.trans (h : Lightened config s s') (h' : Lightened config s' s'') : Lightened config s s'' := by
  refine ⟨h'.split, h'.tasks.trans h.tasks, h'.barriers.trans h.barriers, fun b x hx => h.producers b x (h'.producers b x hx),
    fun b x hx => h.consumers b x (h'.consumers b x hx), ?_, fun b hsides => h'.twoSided b (h.twoSided b hsides)⟩
  intro p c hedge
  cases h.order p c hedge with
  | inl hedge => exact h'.order p c hedge
  | inr hqueue => exact .inr hqueue

theorem Lightened.orderedBy_iff (h : Lightened config s s') :
    s'.OrderedBy (QueueOrder config.getTaskQueueType) p c ↔ s.OrderedBy (QueueOrder config.getTaskQueueType) p c := by
  constructor
  · apply OrderedBy.mono
    rintro p c ⟨b, hp, hc⟩
    exact .single (.inl ⟨b, h.producers b p hp, h.consumers b c hc⟩)
  · apply OrderedBy.mono
    exact fun p c hedge => .single (h.order p c hedge)

theorem lightened_of_lightens {type type' : Option TaskQueueType} (h : SplitGraph config s) (hconsistent : s'.Consistent)
    (htasks : s'.getNumOfTasks = s.getNumOfTasks) (hbarriers : s'.getNumOfBarrierOps = s.getNumOfBarrierOps)
    (hproducers : ∀ b' ≠ b, ∀ x, x ∈ s'.getBarrierProducers b' ↔ x ∈ s.getBarrierProducers b')
    (hconsumers : ∀ b' ≠ b, ∀ x, x ∈ s'.getBarrierConsumers b' ↔ x ∈ s.getBarrierConsumers b')
    (hlightens : Lightens config type type' (s.getBarrierProducers b) (s'.getBarrierProducers b) (s.getBarrierConsumers b)
      (s'.getBarrierConsumers b)) :
    Lightened config s s' ∧ TwoSided s' b := by
  have hsides := hlightens.sides (h.waits b) (fun hnone p hp => (h.ends b hnone p hp).1)
  have hproducersSub (b' x : ℕ) (hx : x ∈ s'.getBarrierProducers b') : x ∈ s.getBarrierProducers b' := by
    by_cases heq : b' = b
    · rw [heq] at hx ⊢
      exact ((hlightens.producers x).mp hx).1
    · exact (hproducers b' heq x).mp hx
  have hconsumersSub (b' x : ℕ) (hx : x ∈ s'.getBarrierConsumers b') : x ∈ s.getBarrierConsumers b' := by
    by_cases heq : b' = b
    · rw [heq] at hx ⊢
      exact ((hlightens.consumers x).mp hx).1
    · exact (hconsumers b' heq x).mp hx
  have hedge (p c : ℕ) : s'.Edge p c → s.Edge p c :=
    fun ⟨b', hp, hc⟩ => ⟨b', hproducersSub b' p hp, hconsumersSub b' c hc⟩
  refine ⟨⟨⟨hconsistent, htasks.symm ▸ h.split, htasks.symm ▸ h.pos, h.queues, fun p c hpc => h.fits p c (hedge p c hpc), ?_, ?_⟩,
    htasks, hbarriers, hproducersSub, hconsumersSub, ?_, ?_⟩, hsides.mp⟩
  · intro b' hwaiting
    by_cases heq : b' = b
    · rw [heq] at hwaiting ⊢
      exact hsides.mpr hwaiting
    · simp only [hproducers b' heq, hconsumers b' heq] at hwaiting ⊢
      exact h.waits b' hwaiting
  · intro b' hnone p hp
    by_cases heq : b' = b
    · rw [heq] at hnone hp
      obtain ⟨c, hc⟩ := hsides.mp ⟨p, hp⟩
      exact absurd hc (hnone c)
    · simp only [hproducers b' heq, hconsumers b' heq] at hnone hp ⊢
      exact h.ends b' hnone p hp
  · rintro p c ⟨b', hp, hc⟩
    by_cases heq : b' = b
    · by_cases hkept : p ∈ s'.getBarrierProducers b ∧ c ∈ s'.getBarrierConsumers b
      · exact .inl ⟨b, hkept⟩
      · rw [heq] at hp hc
        exact .inr ⟨h.topological p c ⟨b, hp, hc⟩, hlightens.sameQueue hp hc hkept⟩
    · exact .inl ⟨b', (hproducers b' heq p).mpr hp, (hconsumers b' heq c).mpr hc⟩
  · intro b' htwo
    by_cases heq : b' = b
    · exact heq ▸ hsides.mp
    · unfold TwoSided at htwo ⊢
      simp only [hproducers b' heq, hconsumers b' heq]
      exact htwo

theorem removeExplicitAtBarrier_spec (h : SplitGraph config s) (b : ℕ) :
    ∃ s', removeExplicitAtBarrier config s b = .ok s' ∧ Lightened config s s' ∧ TwoSided s' b := by
  obtain ⟨type, htype, hproduced, hunproduced⟩ := @haveSameImplicitDependencyTaskQueueType_spec config s (s.getBarrierProducers b)
    h.split h.queues (fun t ht => (h.consistent.producer_lt ht).2)
  obtain ⟨dropped, hdropped, hmemDropped⟩ : ∃ tasks, (match type with
      | none => .ok ∅
      | some type => findExplicitDependencies config s (some type) (s.getBarrierConsumers b)) = Except.ok tasks ∧
      ∀ t, t ∈ tasks ↔ t ∈ s.getBarrierConsumers b ∧ ∃ queueType, type = some queueType ∧ Explicit config (some queueType) t := by
    cases type with
    | none => exact ⟨∅, rfl, by simp⟩
    | some queueType =>
      obtain ⟨tasks, hrun, hmem⟩ := @findExplicitDependencies_spec config s (s.getBarrierConsumers b) h.split
        (fun t ht => (h.consistent.consumer_lt ht).2) (some queueType)
      exact ⟨tasks, hrun, fun t => by simp [hmem]⟩
  obtain ⟨hconsistent₁, htasks₁, hbarriers₁, hconsumers₁, hproducers₁⟩ := @removeConsumers_spec s b dropped h.consistent
  have hsplit₁ : config.split.WellFormed (removeConsumers s b dropped).getNumOfTasks := htasks₁.symm ▸ h.split
  obtain ⟨type', htype', hconsumed, -⟩ := @haveSameImplicitDependencyTaskQueueType_spec config (removeConsumers s b dropped)
    ((removeConsumers s b dropped).getBarrierConsumers b) hsplit₁ h.queues (fun t ht => (hconsistent₁.consumer_lt ht).2)
  obtain ⟨dropped', hdropped', hmemDropped'⟩ : ∃ tasks,
      (if type'.isSome ∨ ((removeConsumers s b dropped).getBarrierConsumers b).size = 0 then
        findExplicitDependencies config (removeConsumers s b dropped) type' ((removeConsumers s b dropped).getBarrierProducers b)
      else .ok ∅) = Except.ok tasks ∧
      ∀ t, t ∈ tasks ↔ t ∈ s.getBarrierProducers b ∧
        (type'.isSome ∨ ∀ c, c ∉ (removeConsumers s b dropped).getBarrierConsumers b) ∧ Explicit config type' t := by
    obtain ⟨tasks, hrun, hmem⟩ := @findExplicitDependencies_spec config (removeConsumers s b dropped)
      ((removeConsumers s b dropped).getBarrierProducers b) hsplit₁ (fun t ht => (hconsistent₁.producer_lt ht).2) type'
    split_ifs with hcond
    all_goals rw [size_eq_zero] at hcond
    · refine ⟨tasks, hrun, ?_⟩
      intro t
      rw [hmem, hproducers₁]
      exact and_congr_right' (and_iff_right hcond).symm
    · exact ⟨∅, rfl, fun t => ⟨fun ht => absurd ht not_mem_empty, fun ht => absurd ht.2.1 hcond⟩⟩
  obtain ⟨hconsistent₂, htasks₂, hbarriers₂, hproducers₂, hconsumers₂⟩ :=
    @removeProducers_spec (removeConsumers s b dropped) b dropped' hconsistent₁
  have hlightens : Lightens config type type' (s.getBarrierProducers b)
      ((removeProducers (removeConsumers s b dropped) b dropped').getBarrierProducers b) (s.getBarrierConsumers b)
      ((removeProducers (removeConsumers s b dropped) b dropped').getBarrierConsumers b) := by
    refine ⟨fun queueType heq => (hproduced queueType heq).2.1, hunproduced, ?_, ?_, ?_⟩
    · intro queueType heq
      rw [hconsumers₂]
      exact hconsumed queueType heq
    · intro c
      rw [hconsumers₂, hconsumers₁, hmemDropped, and_comm]
      exact and_congr_right (fun hc => not_congr ((and_iff_right rfl).trans (and_iff_right hc)))
    · intro p
      rw [hproducers₂, hproducers₁, hmemDropped', hconsumers₂, and_comm]
      exact and_congr_right (fun hp => not_congr ((and_iff_right rfl).trans (and_iff_right hp)))
  have hspec := lightened_of_lightens h hconsistent₂ (htasks₂.trans htasks₁) (hbarriers₂.trans hbarriers₁)
    (fun b' hne x => by rw [hproducers₂, hproducers₁]; exact and_iff_right (fun hmem => hne hmem.1))
    (fun b' hne x => by rw [hconsumers₂, hconsumers₁]; exact and_iff_right (fun hmem => hne hmem.1)) hlightens
  refine ⟨removeProducers (removeConsumers s b dropped) b dropped', ?_, hspec⟩
  have hsides : (∃ p, p ∈ (removeProducers (removeConsumers s b dropped) b dropped').getBarrierProducers b) ↔
      ∃ c, c ∈ (removeProducers (removeConsumers s b dropped) b dropped').getBarrierConsumers b :=
    ⟨hspec.2, hspec.1.split.waits b⟩
  have hsizes : decide (((removeProducers (removeConsumers s b dropped) b dropped').getBarrierConsumers b).size = 0) =
      decide (((removeProducers (removeConsumers s b dropped) b dropped').getBarrierProducers b).size = 0) := by
    rw [decide_eq_decide, size_eq_zero, size_eq_zero, ← not_exists, ← not_exists, hsides]
  unfold removeExplicitAtBarrier
  rw [htype]
  change Except.bind (match type with
    | none => .ok ∅
    | some type => findExplicitDependencies config s (some type) (s.getBarrierConsumers b)) _ = _
  rw [hdropped]
  change Except.bind (haveSameImplicitDependencyTaskQueueType config (removeConsumers s b dropped) _) _ = _
  rw [htype']
  change Except.bind (if _ then _ else _) _ = _
  rw [hdropped']
  apply if_neg
  rw [hsizes, Bool.xor_self]
  exact Bool.false_ne_true

variable {k t : ℕ}

theorem exists_updateBlock (hsplit : config.split.WellFormed s.getNumOfTasks) (ht : t < s.getNumOfTasks) :
    ∃ k < config.split.getControlGraphBlockCount, ∃ first last,
      config.split.getControlGraphBlockTaskRange s k true false = .ok (first, last) ∧ first ≤ t ∧ t ≤ last := by
  have hcount : config.split.getControlGraphBlockCount = config.split.syncTasksIds.length + 1 := rfl
  have hle : blockOf config.split.syncTasksIds (t + 1) ≤ config.split.syncTasksIds.length := countP_le_length
  refine ⟨blockOf config.split.syncTasksIds (t + 1), by omega, ?_⟩
  unfold getControlGraphBlockTaskRange
  rw [if_neg (by omega)]
  simp only [if_true, Bool.false_eq_true, if_false]
  refine ⟨_, _, rfl, ?_, ?_⟩
  · split_ifs with hzero
    · exact Nat.zero_le _
    · have := (getD_lt_iff hsplit.sorted (t := t + 1) (i := blockOf config.split.syncTasksIds (t + 1) - 1) (by omega)).mpr
        (by omega)
      omega
  · split_ifs with hlast
    · omega
    · have hge := (not_congr (getD_lt_iff hsplit.sorted (t := t + 1) (i := blockOf config.split.syncTasksIds (t + 1))
        (by omega))).mpr (Nat.lt_irrefl _)
      omega

def BlockTwoSided (config : OptimizeConfig) (k : ℕ) (s : BarrierInfo) : Prop :=
  ∀ first last, config.split.getControlGraphBlockTaskRange s k true false = .ok (first, last) →
    ∀ b p, p ∈ s.getBarrierProducers b → first ≤ p → p ≤ last → TwoSided s b

theorem Lightened.blockTwoSided (h : Lightened config s s') (hblock : BlockTwoSided config k s) : BlockTwoSided config k s' := by
  intro first last hrange b p hp hfirst hlast
  have hrange' : config.split.getControlGraphBlockTaskRange s k true false = .ok (first, last) := by
    unfold getControlGraphBlockTaskRange at hrange ⊢
    rw [← hrange, h.tasks]
  exact h.twoSided b (hblock first last hrange' b p (h.producers b p hp) hfirst hlast)

theorem removeExplicitInBlock_spec (h : SplitGraph config s) (hk : k < config.split.getControlGraphBlockCount) :
    ∃ s', removeExplicitInBlock config (ofMaps s) k = .ok (ofMaps s') ∧ Lightened config s s' ∧ BlockTwoSided config k s' := by
  obtain ⟨first, last, hrange⟩ := @exists_range config.split s k hk true false
  obtain ⟨barriers, hbarriers, hspec⟩ := @getBarriersForTaskBlock_spec config (ofMaps s) k first last true false true hrange
  obtain ⟨s', hrun, hlightened, htwo⟩ := @foldlM_establishes _ _ _ (Lightened config s) (fun b s' => TwoSided s' b) barriers s
    (removeExplicitAtBarrier config) (lightened_refl h) (by
      intro b _ maps hmaps
      obtain ⟨maps', hstep, hlightened, htwo⟩ := removeExplicitAtBarrier_spec hmaps.split b
      exact ⟨maps', hstep, hmaps.trans hlightened, htwo, hlightened.twoSided⟩)
  refine ⟨s', ?_, hlightened, ?_⟩
  · unfold removeExplicitInBlock
    rw [hbarriers]
    change Except.bind (barriers.foldlM (removeExplicitAtBarrier config) s) _ = _
    rw [hrun]
    exact congrArg Except.ok (ofMaps_update hlightened.barriers)
  · intro first' last' hrange' b p hp hfirst hlast
    have hranges : config.split.getControlGraphBlockTaskRange s' k true false =
        config.split.getControlGraphBlockTaskRange s k true false := by
      unfold getControlGraphBlockTaskRange
      rw [hlightened.tasks]
    rw [hranges, hrange, Except.ok.injEq, Prod.mk.injEq] at hrange'
    obtain ⟨rfl, rfl⟩ := hrange'
    have hp' := hlightened.producers b p hp
    exact htwo b (hspec.complete p hfirst hlast b (h.consistent.update_iff.mpr hp') (h.consistent.producer_lt hp').1)

theorem removeExplicit_run (h : SplitGraph config s) :
    ∃ s', removeExplicitDependencies config (ofMaps s) = .ok (ofMaps s') ∧ Lightened config s s' ∧ ∀ b, TwoSided s' b := by
  obtain ⟨st, hrun, ⟨s', rfl, hlightened⟩, hblocks⟩ := @foldlM_establishes _ _ _
    (fun st => ∃ maps, st = ofMaps maps ∧ Lightened config s maps)
    (fun k st => BlockTwoSided config k st.maps) (List.range config.split.getControlGraphBlockCount) (ofMaps s)
    (removeExplicitInBlock config) ⟨s, rfl, lightened_refl h⟩ (by
      rintro k hk _ ⟨maps, rfl, hmaps⟩
      obtain ⟨maps', hstep, hlightened, hblock⟩ := removeExplicitInBlock_spec hmaps.split (mem_range.mp hk)
      exact ⟨_, hstep, ⟨maps', rfl, hmaps.trans hlightened⟩, hblock, fun _ => hlightened.blockTwoSided⟩)
  refine ⟨s', hrun, hlightened, ?_⟩
  rintro b ⟨p, hp⟩
  obtain ⟨k, hk, first, last, hrange, hfirst, hlast⟩ := exists_updateBlock hlightened.split.split
    (hlightened.split.consistent.producer_lt hp).2
  exact hblocks k (mem_range.mpr hk) first last hrange b p hp hfirst hlast ⟨p, hp⟩

/-- Both functions keep the order of the tasks and end without an exception. The first one leaves no side of a barrier empty that
has not been, and behind the second one each barrier has both sides or none. -/
theorem removeDependencies_keepsOrder (h : SplitGraph config s) (considerTaskFifoDependency : Bool) :
    (∃ s', removeRedundantBarrierProducersAndConsumers config considerTaskFifoDependency (ofMaps s) = .ok (ofMaps s') ∧
      SplitGraph config s' ∧
      (∀ p c, s'.OrderedBy (QueueOrder config.getTaskQueueType) p c ↔ s.OrderedBy (QueueOrder config.getTaskQueueType) p c) ∧
      ∀ b, ((∃ p, p ∈ s'.getBarrierProducers b) ↔ ∃ p, p ∈ s.getBarrierProducers b) ∧
        ((∃ c, c ∈ s'.getBarrierConsumers b) ↔ ∃ c, c ∈ s.getBarrierConsumers b)) ∧
    ∃ s', removeExplicitDependencies config (ofMaps s) = .ok (ofMaps s') ∧ SplitGraph config s' ∧
      (∀ p c, s'.OrderedBy (QueueOrder config.getTaskQueueType) p c ↔ s.OrderedBy (QueueOrder config.getTaskQueueType) p c) ∧
      ∀ b, (∃ p, p ∈ s'.getBarrierProducers b) ↔ ∃ c, c ∈ s'.getBarrierConsumers b := by
  constructor
  · obtain ⟨s', hrun, hsplit, hpruned⟩ := removeRedundant_run h considerTaskFifoDependency
    have hlt (x y : ℕ) : s.OrderedBy (QueueOrder config.getTaskQueueType) x y → x < y := orderedBy_lt h.topological queueOrder_lt
    refine ⟨s', hrun, hsplit, fun p c => hpruned.orderedBy_iff h.topological queueOrder_lt, ?_⟩
    intro b
    constructor
    · exact ⟨fun ⟨p, hp⟩ => ⟨p, hpruned.producers b p hp⟩, fun ⟨p, hp⟩ => hpruned.exists_producer hlt hp⟩
    · exact ⟨fun ⟨c, hc⟩ => ⟨c, hpruned.consumers b c hc⟩, fun ⟨c, hc⟩ => hpruned.exists_consumer hlt hc⟩
  · obtain ⟨s', hrun, hlightened, htwo⟩ := removeExplicit_run h
    exact ⟨s', hrun, hlightened.split, fun p c => hlightened.orderedBy_iff, fun b => ⟨htwo b, hlightened.split.waits b⟩⟩

def oneBarrier (producers consumers : List ℕ) : BarrierInfo :=
  (BarrierInfo.empty.addNewTaskOp.addNewTaskOp.addNewTaskOp.addNewTaskOp.addNewBarrier.addProducers 0 producers).addConsumers 0
    consumers

def oneQueueConfig (syncTasksIds : List ℕ) : OptimizeConfig where
  split := ⟨syncTasksIds, buildTaskBlockMap syncTasksIds 4⟩
  taskOp := fun _ => ⟨1, .dmaNN⟩
  getTaskQueueType := fun taskInd => ⟨.dmaNN, taskInd / 3⟩
  taskQueueTypes := [⟨.dmaNN, 0⟩, ⟨.dmaNN, 1⟩]
  taskQueueTypes_nodup := by decide
  barrierMaxVariantSum := 64

/-- A sync task that updates a barrier without consumers, a barrier without producers, and a barrier across a sync task. -/
theorem removeDependencies_unsplit : (oneBarrier [1] []).Topological ∧
    removeExplicitDependencies (oneQueueConfig [1]) (ofMaps (oneBarrier [1] [])) =
      .error "Invalid optimization : Only barrier consumers became empty for barrier '0'" ∧
    (oneBarrier [] [1]).Topological ∧
    removeExplicitDependencies (oneQueueConfig []) (ofMaps (oneBarrier [] [1])) = .ok (ofMaps (oneBarrier [] [1])) ∧
    (oneBarrier [0] [3]).Topological ∧
    removeRedundantBarrierProducersAndConsumers (oneQueueConfig [1]) true (ofMaps (oneBarrier [0] [3])) =
      .error "Task 0 has update barrier 0 with a consumer (3) from outside of the current range [0, 1]." := by
  refine ⟨?_, by rfl, ?_, by rfl, ?_, by rfl⟩
  all_goals
    apply BarrierInfo.forall_edges
    decide

/-- Two DMA queues, each of which hands a task over to the other, before and behind the sync task 4. -/
def twoBlocks : BarrierInfo :=
  chained ((List.range 6).foldl (fun s _ => s.addNewTaskOp) BarrierInfo.empty) [(0, 2), (1, 3), (3, 4), (4, 5)]

def twoBlocksConfig : OptimizeConfig where
  split := ⟨[4], buildTaskBlockMap [4] 6⟩
  taskOp := fun _ => ⟨1, .dmaNN⟩
  getTaskQueueType := fun taskInd => ⟨.dmaNN, if taskInd ∈ [2, 3, 5] then 1 else 0⟩
  taskQueueTypes := [⟨.dmaNN, 0⟩, ⟨.dmaNN, 1⟩]
  taskQueueTypes_nodup := by decide
  barrierMaxVariantSum := 64

theorem twoBlocks_split : SplitGraph twoBlocksConfig twoBlocks := by
  have htasks : ((List.range 6).foldl (fun s _ => s.addNewTaskOp) BarrierInfo.empty).Consistent :=
    foldl_invariant consistent_empty (fun _ _ _ hs => hs.addNewTaskOp)
  have hconsistent : twoBlocks.Consistent := (consistent_chained htasks (by decide)).1
  have hsides : ∀ b < 4, (twoBlocks.getBarrierProducers b).toList ≠ [] ∧ (twoBlocks.getBarrierConsumers b).toList ≠ [] := by decide
  have hfits : ∀ p c, twoBlocks.Edge p c → p < c ∧ ∀ t ∈ [4], p < t → c ≤ t := BarrierInfo.forall_edges (by decide)
  refine ⟨hconsistent, ⟨by decide, by decide, by decide, by decide⟩, by decide, by decide, hfits, ?_, ?_⟩
  · rintro b ⟨c, hc⟩
    obtain ⟨p, hp⟩ := exists_mem_of_ne_nil _ (hsides b (hconsistent.consumer_lt hc).1).1
    exact ⟨p, mem_iff.mpr hp⟩
  · intro b hnone p hp
    obtain ⟨c, hc⟩ := exists_mem_of_ne_nil _ (hsides b (hconsistent.producer_lt hp).1).2
    exact absurd (mem_iff.mpr hc) (hnone c)

theorem removeDependencies_keepsOrder_twoBlocks :
    (∃ s', removeRedundantBarrierProducersAndConsumers twoBlocksConfig true (ofMaps twoBlocks) = .ok (ofMaps s') ∧
      SplitGraph twoBlocksConfig s' ∧
      (∀ p c, s'.OrderedBy (QueueOrder twoBlocksConfig.getTaskQueueType) p c ↔
        twoBlocks.OrderedBy (QueueOrder twoBlocksConfig.getTaskQueueType) p c) ∧
      ∀ b, ((∃ p, p ∈ s'.getBarrierProducers b) ↔ ∃ p, p ∈ twoBlocks.getBarrierProducers b) ∧
        ((∃ c, c ∈ s'.getBarrierConsumers b) ↔ ∃ c, c ∈ twoBlocks.getBarrierConsumers b)) ∧
    ∃ s', removeExplicitDependencies twoBlocksConfig (ofMaps twoBlocks) = .ok (ofMaps s') ∧ SplitGraph twoBlocksConfig s' ∧
      (∀ p c, s'.OrderedBy (QueueOrder twoBlocksConfig.getTaskQueueType) p c ↔
        twoBlocks.OrderedBy (QueueOrder twoBlocksConfig.getTaskQueueType) p c) ∧
      ∀ b, (∃ p, p ∈ s'.getBarrierProducers b) ↔ ∃ c, c ∈ s'.getBarrierConsumers b :=
  removeDependencies_keepsOrder twoBlocks_split true

end

end NpuCompiler.Barrier
