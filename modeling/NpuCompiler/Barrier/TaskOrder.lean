import NpuCompiler.Barrier.BarrierInfo

namespace NpuCompiler.Barrier

open List

abbrev TaskOpQueues := List (List ℕ)

structure BarrierOp where
  wlmPage : Option ℕ
  isFinalBarrier : Bool
  deriving DecidableEq, Repr

def readyFront (info : BarrierInfo) : List ℕ → List ℕ
  | [] => []
  | taskInd :: _ => if (info.getWaitBarriers taskInd).size = 0 then [taskInd] else []

def allQueuesReachedEnd (frontTasks : TaskOpQueues) : Bool := frontTasks.all List.isEmpty

def allQueuesWaiting (info : BarrierInfo) (frontTasks : TaskOpQueues) : Bool :=
  !frontTasks.any (fun queue => !(readyFront info queue).isEmpty)

def findReadyOps (info : BarrierInfo) : ℕ → TaskOpQueues → List ℕ × TaskOpQueues
  | 0, frontTasks => ([], frontTasks)
  | fuel + 1, frontTasks =>
    if allQueuesWaiting info frontTasks then ([], frontTasks)
    else
      let readyOps := frontTasks.flatMap (readyFront info)
      let next := findReadyOps info fuel (frontTasks.map (fun queue => queue.drop (readyFront info queue).length))
      (readyOps ++ next.1, next.2)

def findReadyOpsFromTaskOpQueues (info : BarrierInfo) (frontTasks : TaskOpQueues) : List ℕ × TaskOpQueues :=
  findReadyOps info frontTasks.flatten.length frontTasks

structure Simulation where
  info : BarrierInfo
  newTaskOpOrder : List ℕ
  newBarrierOrder : List ℕ

section
variable (orderByConsumption : Bool)

def updateBarrier (readyOp : ℕ) (sim : Simulation) (barrierInd : ℕ) : Simulation :=
  let info := sim.info.removeProducer barrierInd readyOp
  let order := if !orderByConsumption && !sim.newBarrierOrder.contains barrierInd then sim.newBarrierOrder ++ [barrierInd]
    else sim.newBarrierOrder
  if (info.getBarrierProducers barrierInd).size = 0 then
    { sim with
      info := info.resetBarrier barrierInd
      newBarrierOrder := if orderByConsumption then order ++ [barrierInd] else order }
  else { sim with info, newBarrierOrder := order }

def removeBarrierProducer (sim : Simulation) (readyOp : ℕ) : Simulation :=
  (sim.info.getUpdateBarriers readyOp).toList.foldl (updateBarrier orderByConsumption readyOp) sim

def executeReadyOp (sim : Simulation) (readyOp : ℕ) : Simulation :=
  removeBarrierProducer orderByConsumption { sim with newTaskOpOrder := sim.newTaskOpOrder ++ [readyOp] } readyOp

def simulate : ℕ → TaskOpQueues → Simulation → Except String Simulation
  | 0, _, _ => .error "Failed to simulate execution. Possible deadlock or barrier misconfiguration"
  | fuel + 1, frontTasks, sim =>
    if allQueuesReachedEnd frontTasks then .ok sim
    else
      let (readyOps, frontTasks) := findReadyOpsFromTaskOpQueues sim.info frontTasks
      if readyOps = [] then .error "Failed to simulate execution. Possible deadlock or barrier misconfiguration"
      else simulate fuel frontTasks (readyOps.foldl (executeReadyOp orderByConsumption) sim)

def alignWithPages (barrierOps : List BarrierOp) (newBarrierOrder : List ℕ) : Except String (List ℕ) :=
  if newBarrierOrder ≠ [] ∧ (barrierOps.head?.bind BarrierOp.wlmPage).isSome then
    if barrierOps.any (fun barrierOp => barrierOp.wlmPage.isNone) then .error "No WLM page assignment for barrier"
    else
      let page := fun barrierInd => (barrierOps[barrierInd]?.bind BarrierOp.wlmPage).getD 0
      .ok (newBarrierOrder.mergeSort (fun barOpIdx1 barOpIdx2 => page barOpIdx1 ≤ page barOpIdx2))
  else .ok newBarrierOrder

def moveFinalBarrier (barrierOps : List BarrierOp) (newBarrierOrder : List ℕ) : Except String (List ℕ) :=
  match newBarrierOrder.filter (fun barrierInd => (barrierOps[barrierInd]?.map BarrierOp.isFinalBarrier).getD false) with
  | [] => .ok newBarrierOrder
  | [finalBarOp] => .ok (newBarrierOrder.erase finalBarOp ++ [finalBarOp])
  | _ => .error "More then one final barrier"

def orderExecutionTasksAndBarriers (taskOpQueues : TaskOpQueues) (info : BarrierInfo) (barrierOps : List BarrierOp) :
    Except String (List ℕ × List ℕ) := do
  let sim ← simulate orderByConsumption (taskOpQueues.flatten.length + 1) taskOpQueues ⟨info, [], []⟩
  if sim.newTaskOpOrder.length ≠ info.getNumOfTasks then throw "Failed to order all tasks"
  let barriersWithNoUse := (List.range info.getNumOfBarrierOps).countP (fun barrierInd =>
    (info.getBarrierProducers barrierInd).size = 0 ∧ (info.getBarrierConsumers barrierInd).size = 0)
  if sim.newBarrierOrder.length ≠ info.getNumOfBarrierOps - barriersWithNoUse then throw "Failed to order all barriers"
  let newBarrierOrder ← alignWithPages barrierOps sim.newBarrierOrder
  let newBarrierOrder ← moveFinalBarrier barrierOps newBarrierOrder
  return (sim.newTaskOpOrder, newBarrierOrder)

variable {info : BarrierInfo} {fronts : TaskOpQueues}

theorem allQueuesWaiting_eq_false : allQueuesWaiting info fronts = false ↔ ∃ queue ∈ fronts, readyFront info queue ≠ [] := by
  unfold allQueuesWaiting
  simp

theorem readyFront_append (queue : List ℕ) :
    readyFront info queue ++ queue.drop (readyFront info queue).length = queue := by
  cases queue with
  | nil => rfl
  | cons t queue =>
    rw [readyFront]
    split_ifs <;> rfl

theorem waits_of_mem_readyFront {t : ℕ} {queue : List ℕ} (h : t ∈ readyFront info queue) :
    (info.getWaitBarriers t).size = 0 := by
  cases queue with
  | nil => exact absurd h not_mem_nil
  | cons u queue =>
    rw [readyFront] at h
    by_cases hempty : (info.getWaitBarriers u).size = 0
    · rw [if_pos hempty] at h
      rwa [mem_singleton.mp h]
    · rw [if_neg hempty] at h
      exact absurd h not_mem_nil

def Advanced (order queue rest : List ℕ) : Prop := ∃ tasks, queue = tasks ++ rest ∧ tasks.Sublist order

theorem advanced_append {order order' : List ℕ} {queues rests fronts : TaskOpQueues}
    (h : List.Forall₂ (Advanced order) queues rests) (h' : List.Forall₂ (Advanced order') rests fronts) :
    List.Forall₂ (Advanced (order ++ order')) queues fronts := by
  induction h generalizing fronts with
  | nil =>
    cases h'
    exact .nil
  | cons hqueue hqueues ih =>
    cases h' with
    | cons hrest hrests =>
      obtain ⟨tasks, rfl, hsub⟩ := hqueue
      obtain ⟨tasks', rfl, hsub'⟩ := hrest
      exact .cons ⟨tasks ++ tasks', (append_assoc ..).symm, hsub.append hsub'⟩ (ih hrests)

theorem advanced_refl (queues : TaskOpQueues) : List.Forall₂ (Advanced []) queues queues := by
  rw [forall₂_same]
  intro queue _
  exact ⟨[], rfl, List.Sublist.refl _⟩

theorem advanced_round (fronts : TaskOpQueues) :
    List.Forall₂ (Advanced (fronts.flatMap (readyFront info))) fronts
      (fronts.map (fun queue => queue.drop (readyFront info queue).length)) := by
  rw [forall₂_map_right_iff, forall₂_same]
  intro queue hqueue
  refine ⟨readyFront info queue, (readyFront_append queue).symm, ?_⟩
  rw [flatMap_def]
  exact sublist_flatten_of_mem (mem_map_of_mem hqueue)

theorem perm_round (fronts : TaskOpQueues) :
    (fronts.flatMap (readyFront info) ++
      (fronts.map (fun queue => queue.drop (readyFront info queue).length)).flatten).Perm fronts.flatten := by
  induction fronts with
  | nil => exact .nil
  | cons queue fronts ih =>
    rw [flatMap_cons, map_cons, flatten_cons, flatten_cons, append_assoc]
    conv_rhs => rw [← @readyFront_append info queue]
    rw [append_assoc]
    apply List.Perm.append_left
    rw [← append_assoc]
    apply (perm_append_comm.append_right _).trans
    rw [append_assoc]
    exact ih.append_left _

theorem length_round {fronts : TaskOpQueues} (h : allQueuesWaiting info fronts = false) :
    0 < (fronts.flatMap (readyFront info)).length := by
  obtain ⟨queue, hqueue, hne⟩ := allQueuesWaiting_eq_false.mp h
  apply length_pos_of_ne_nil
  intro hnil
  exact hne (flatMap_eq_nil_iff.mp hnil queue hqueue)

structure FoundReady (info : BarrierInfo) (fronts : TaskOpQueues) (found : List ℕ × TaskOpQueues) : Prop where
  advanced : List.Forall₂ (Advanced found.1) fronts found.2
  perm : (found.1 ++ found.2.flatten).Perm fronts.flatten
  ready : ∀ t ∈ found.1, (info.getWaitBarriers t).size = 0
  waiting : allQueuesWaiting info found.2 = true

theorem findReadyOps_spec (fuel : ℕ) (fronts : TaskOpQueues) (hfuel : fronts.flatten.length ≤ fuel) :
    FoundReady info fronts (findReadyOps info fuel fronts) := by
  induction fuel generalizing fronts with
  | zero =>
    refine ⟨advanced_refl fronts, .refl _, by simp [findReadyOps], ?_⟩
    change allQueuesWaiting info fronts = true
    by_contra hwaiting
    have hlength := (@perm_round info fronts).length_eq
    have hpos := length_round ((Bool.not_eq_true _).mp hwaiting)
    rw [length_append] at hlength
    omega
  | succ fuel ih =>
    rw [findReadyOps]
    by_cases hwaiting : allQueuesWaiting info fronts = true
    · rw [if_pos hwaiting]
      exact ⟨advanced_refl fronts, .refl _, by simp, hwaiting⟩
    · have hperm := @perm_round info fronts
      have hlength := hperm.length_eq
      have hpos := length_round ((Bool.not_eq_true _).mp hwaiting)
      rw [length_append] at hlength
      obtain ⟨hadvanced, hrest, hready, hend⟩ :=
        ih (fronts.map (fun queue => queue.drop (readyFront info queue).length)) (by omega)
      rw [if_neg hwaiting]
      refine ⟨advanced_append (advanced_round fronts) hadvanced, ?_, ?_, hend⟩
      · rw [append_assoc]
        exact (hrest.append_left _).trans hperm
      · intro t ht
        cases mem_append.mp ht with
        | inl hround =>
          obtain ⟨queue, -, hmem⟩ := mem_flatMap.mp hround
          exact waits_of_mem_readyFront hmem
        | inr hnext => exact hready t hnext

end

end NpuCompiler.Barrier
