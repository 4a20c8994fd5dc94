import NpuCompiler.Barrier.SplitRuns
import NpuCompiler.Barrier.SingleWaitOrder

namespace NpuCompiler.Barrier

open BarrierInfo List SmallSet

def pushTask (queues : List (TaskQueueType × List ℕ)) (taskQueueType : TaskQueueType) (taskInd : ℕ) :
    List (TaskQueueType × List ℕ) :=
  if taskQueueType ∈ queues.map Prod.fst then
    queues.map (fun queue => if queue.1 = taskQueueType then (queue.1, queue.2 ++ [taskInd]) else queue)
  else queues ++ [(taskQueueType, [taskInd])]

def getTaskOpQueues (getTaskQueueType : ℕ → TaskQueueType) (targetExecutorKind : ExecutorKind) (s : BarrierInfo) :
    List (TaskQueueType × List ℕ) :=
  (List.range s.getNumOfTasks).foldl (fun queues taskInd =>
    if (getTaskQueueType taskInd).type ≠ targetExecutorKind then queues
    else pushTask queues (getTaskQueueType taskInd) taskInd) []

def linkOutOfOrder (state : BarrierInfo × List ℕ) (task : ℕ) : BarrierInfo × List ℕ :=
  let (s, nextUpdateBarriers) := state
  let updateBarriers := s.getUpdateBarriers task
  if updateBarriers.size = 0 then state
  else if (s.getWaitBarriers task).size ≠ 0 then (s, sortedOf (nextUpdateBarriers ++ updateBarriers.toList))
  else
    let minUpdateBarrier := getMinEntry updateBarriers
    let s' := (nextUpdateBarriers.takeWhile (· < minUpdateBarrier)).foldl (fun s nextUpdate => s.addProducer nextUpdate task) s
    (s', sortedOf (nextUpdateBarriers ++ (s'.getUpdateBarriers task).toList))

def resolveOutOfOrderDependencies (dmaTaskOpQueues : List (TaskQueueType × List ℕ)) (s : BarrierInfo) : BarrierInfo :=
  dmaTaskOpQueues.foldl (fun s entry => (entry.2.reverse.foldl linkOutOfOrder (s, [])).1) s

structure TaskConfig where
  taskInd : ℕ
  cycleCost : ℤ
  cycleStart : ℤ
  deriving DecidableEq

abbrev TaskConfigQueues := List (TaskQueueType × List TaskConfig)

def taskIndMap (taskQueueMap : TaskConfigQueues) (taskInd : ℕ) : TaskConfig :=
  (((taskQueueMap.flatMap Prod.snd).reverse.find? (fun op => op.taskInd = taskInd))).getD ⟨taskInd, 0, 0⟩

def TaskConfig.cycleEnd (op : TaskConfig) : ℤ := op.cycleStart + op.cycleCost

def taskQueueIsBottleneck (getTaskQueueType : ℕ → TaskQueueType) (s : BarrierInfo) (taskInd barrierInd : ℕ)
    (producers : Bool) : Bool :=
  let tasks := if producers then s.getBarrierProducers barrierInd else s.getBarrierConsumers barrierInd
  tasks.toList.all (fun task =>
    getTaskQueueType taskInd = getTaskQueueType task ∧
      -- would indicate a cycle
      ¬ ((producers ∧ task ≥ taskInd) ∨ (¬ producers ∧ taskInd ≥ task)))

def findValidBarrierCandidates (maxWaitBarrier minUpdateBarrier : ℕ) (maybeNewBarriers : TaskSet) : TaskSet :=
  SmallSet.ofList (maybeNewBarriers.toList.filter (fun barrierIdn =>
    ¬ (barrierIdn ≤ maxWaitBarrier ∨ barrierIdn ≥ minUpdateBarrier)))

def linkNewBarriers (s : BarrierInfo) (taskInd : ℕ) (newBarriers : TaskSet) (producer : Bool) : BarrierInfo :=
  newBarriers.toList.foldl (fun s newBarrierInd =>
    if producer then s.addProducer newBarrierInd taskInd else s.addConsumer newBarrierInd taskInd) s

section
variable (getTaskQueueType : ℕ → TaskQueueType) (taskIndMap : ℕ → TaskConfig)

def taskCanBeLinkedToNewUpdateBarrier (s : BarrierInfo) (taskInd barrierInd : ℕ) : Bool :=
  if taskQueueIsBottleneck getTaskQueueType s taskInd barrierInd false then true
  -- avoid comparing invalid costs
  else if (s.getBarrierProducers barrierInd).toList.any (fun producerInd => (taskIndMap producerInd).cycleCost = 1) then false
  else (s.getBarrierConsumers barrierInd).toList.all (fun consumerInd =>
    (taskIndMap taskInd).cycleEnd ≤ (taskIndMap consumerInd).cycleStart)

def taskCanBeLinkedToNewWaitBarrier (s : BarrierInfo) (taskInd barrierInd : ℕ) : Bool :=
  if taskQueueIsBottleneck getTaskQueueType s taskInd barrierInd true then true
  else (s.getBarrierProducers barrierInd).toList.all (fun producerInd =>
    (taskIndMap producerInd).cycleCost ≠ 1 ∧ (taskIndMap taskInd).cycleStart > (taskIndMap producerInd).cycleEnd)

def nextWaitCandidates (s : BarrierInfo) (maxWaitBarrier minUpdateBarrier : ℕ) : List TaskConfig → TaskSet → TaskSet
  | [], intermediateBarriers => intermediateBarriers
  | nextTask :: ops, intermediateBarriers =>
    let nextWaitBarriers := s.getWaitBarriers nextTask.taskInd
    if getMaxEntry nextWaitBarriers > minUpdateBarrier then intermediateBarriers
    else nextWaitCandidates s maxWaitBarrier minUpdateBarrier ops
      (intermediateBarriers.union (findValidBarrierCandidates maxWaitBarrier minUpdateBarrier nextWaitBarriers))

/-- The candidates among the update barriers of the previous tasks of the queue, the nearest of which is the first. -/
def prevUpdateCandidates (s : BarrierInfo) (maxWaitBarrier minUpdateBarrier : ℕ) : List TaskConfig → TaskSet → TaskSet
  | [], intermediateBarriers => intermediateBarriers
  | prevTask :: ops, intermediateBarriers =>
    let prevUpdateBarriers := s.getUpdateBarriers prevTask.taskInd
    if getMinEntry prevUpdateBarriers < maxWaitBarrier then intermediateBarriers
    else prevUpdateCandidates s maxWaitBarrier minUpdateBarrier ops
      (intermediateBarriers.union (findValidBarrierCandidates maxWaitBarrier minUpdateBarrier prevUpdateBarriers))

def linkUpdateBarriers (s : BarrierInfo) (frontTask : TaskConfig) (nextTasks : List TaskConfig) : BarrierInfo :=
  let minUpdateBarrier := getMinEntry (s.getUpdateBarriers frontTask.taskInd)
  let maxWaitBarrier := getMaxEntry (s.getWaitBarriers frontTask.taskInd)
  if minUpdateBarrier = 0 then s
  else if (maxWaitBarrier + 1) % 2 ^ 64 = minUpdateBarrier then s
  else
    let intermediateBarriers := nextWaitCandidates s maxWaitBarrier minUpdateBarrier nextTasks ∅
    let newUpdateBarriers := SmallSet.ofList (intermediateBarriers.toList.filter (fun barrier =>
      taskCanBeLinkedToNewUpdateBarrier getTaskQueueType taskIndMap s frontTask.taskInd barrier))
    linkNewBarriers s frontTask.taskInd newUpdateBarriers true

def linkWaitBarriers (s : BarrierInfo) (prevTasks : List TaskConfig) (frontTaskRev : TaskConfig) : BarrierInfo :=
  let maxWaitBarrier := getMaxEntry (s.getWaitBarriers frontTaskRev.taskInd)
  let minUpdateBarrier := getMinEntry (s.getUpdateBarriers frontTaskRev.taskInd)
  if maxWaitBarrier = 2 ^ 64 - 1 then s
  else if minUpdateBarrier = maxWaitBarrier + 1 then s
  else
    let intermediateBarriers := prevUpdateCandidates s maxWaitBarrier minUpdateBarrier prevTasks ∅
    let newWaitBarriers := SmallSet.ofList (intermediateBarriers.toList.filter (fun barrier =>
      taskCanBeLinkedToNewWaitBarrier getTaskQueueType taskIndMap s frontTaskRev.taskInd barrier))
    linkNewBarriers s frontTaskRev.taskInd newWaitBarriers false

def handleUpdateBarriers (s : BarrierInfo) : List TaskConfig → BarrierInfo
  | [] => s
  | frontTask :: ops => handleUpdateBarriers (linkUpdateBarriers getTaskQueueType taskIndMap s frontTask ops) ops

def handleWaitBarriers (s : BarrierInfo) (prevTasks : List TaskConfig) : List TaskConfig → BarrierInfo
  | [] => s
  | frontTaskRev :: ops =>
    handleWaitBarriers (linkWaitBarriers getTaskQueueType taskIndMap s prevTasks frontTaskRev) (frontTaskRev :: prevTasks) ops

def reduceParallelControlFlowsForQueue (ops : List TaskConfig) (s : BarrierInfo) : BarrierInfo :=
  let s := handleUpdateBarriers getTaskQueueType taskIndMap s ops
  handleWaitBarriers getTaskQueueType taskIndMap s (ops.take 1) (ops.drop 1)

end

def reduceParallelControlFlows (getTaskQueueType : ℕ → TaskQueueType) (taskQueueMap : TaskConfigQueues) (s : BarrierInfo) :
    BarrierInfo :=
  taskQueueMap.foldl (fun s entry =>
    if entry.1.type ≠ .dmaNN then s
    else reduceParallelControlFlowsForQueue getTaskQueueType (taskIndMap taskQueueMap) entry.2 s) s

structure Extended (allowed : ℕ → ℕ → Prop) (s s' : BarrierInfo) : Prop where
  consistent : s'.Consistent
  tasks : s'.getNumOfTasks = s.getNumOfTasks
  barriers : s'.getNumOfBarrierOps = s.getNumOfBarrierOps
  kept : ∀ p c, s.Edge p c → s'.Edge p c
  new : ∀ p c, s'.Edge p c → s.Edge p c ∨ allowed p c

section
variable {allowed : ℕ → ℕ → Prop} {s s' s'' : BarrierInfo} {b t : ℕ}

theorem extended_refl (h : s.Consistent) : Extended allowed s s := ⟨h, rfl, rfl, fun _ _ => id, fun _ _ => .inl⟩

theorem Extended.trans (h : Extended allowed s s') (h' : Extended allowed s' s'') : Extended allowed s s'' := by
  refine ⟨h'.consistent, h'.tasks.trans h.tasks, h'.barriers.trans h.barriers, ?_, ?_⟩
  · intro p c hedge
    exact h'.kept p c (h.kept p c hedge)
  · intro p c hedge
    cases h'.new p c hedge with
    | inl hedge => exact h.new p c hedge
    | inr hallowed => exact .inr hallowed

theorem addProducer_extended (h : s.Consistent) (hb : b < s.getNumOfBarrierOps) (ht : t < s.getNumOfTasks)
    (hallowed : ∀ c ∈ s.getBarrierConsumers b, allowed t c) : Extended allowed s (s.addProducer b t) := by
  refine ⟨h.addProducer hb ht, numOfTasks_addProducer, numOfBarrierOps_addProducer, ?_, ?_⟩
  · rintro p c ⟨b', hp, hc⟩
    exact ⟨b', (mem_producers_addProducer hb).mpr (.inr hp), hc⟩
  · rintro p c ⟨b', hp, hc⟩
    cases (mem_producers_addProducer hb).mp hp with
    | inl heq =>
      obtain ⟨rfl, rfl⟩ := heq
      exact .inr (hallowed c hc)
    | inr hp => exact .inl ⟨b', hp, hc⟩

theorem addConsumer_extended (h : s.Consistent) (hb : b < s.getNumOfBarrierOps) (ht : t < s.getNumOfTasks)
    (hallowed : ∀ p ∈ s.getBarrierProducers b, allowed p t) : Extended allowed s (s.addConsumer b t) := by
  have hb' : b < s.consume.left.length := Nat.lt_of_lt_of_eq hb h.barriers.symm
  refine ⟨h.addConsumer hb ht, rfl, rfl, ?_, ?_⟩
  · rintro p c ⟨b', hp, hc⟩
    exact ⟨b', hp, (mem_consumers_addConsumer hb').mpr (.inr hc)⟩
  · rintro p c ⟨b', hp, hc⟩
    cases (mem_consumers_addConsumer hb').mp hc with
    | inl heq =>
      obtain ⟨rfl, rfl⟩ := heq
      exact .inr (hallowed p hp)
    | inr hc => exact .inl ⟨b', hp, hc⟩

theorem addToBarriers_extended {barriers : List ℕ} (h : s.Consistent) (ht : t < s.getNumOfTasks)
    (hb : ∀ b ∈ barriers, b < s.getNumOfBarrierOps ∧ ∀ c ∈ s.getBarrierConsumers b, allowed t c) :
    Extended allowed s (barriers.foldl (fun s b => s.addProducer b t) s) := by
  induction barriers generalizing s with
  | nil => exact extended_refl h
  | cons b barriers ih =>
    obtain ⟨hfirst, hb⟩ := forall_mem_cons.mp hb
    have hadd := addProducer_extended h hfirst.1 ht hfirst.2
    apply hadd.trans
    apply ih hadd.consistent
    · rw [hadd.tasks]
      exact ht
    · rw [hadd.barriers]
      exact hb

theorem waitForBarriers_extended {barriers : List ℕ} (h : s.Consistent) (ht : t < s.getNumOfTasks)
    (hb : ∀ b ∈ barriers, b < s.getNumOfBarrierOps ∧ ∀ p ∈ s.getBarrierProducers b, allowed p t) :
    Extended allowed s (barriers.foldl (fun s b => s.addConsumer b t) s) := by
  induction barriers generalizing s with
  | nil => exact extended_refl h
  | cons b barriers ih =>
    obtain ⟨hfirst, hb⟩ := forall_mem_cons.mp hb
    have hadd := addConsumer_extended h hfirst.1 ht hfirst.2
    exact hadd.trans (ih hadd.consistent ht hb)

end

def FifoOrder (getTaskQueueType : ℕ → TaskQueueType) (numOfTasks p c : ℕ) : Prop :=
  QueueOrder getTaskQueueType p c ∧ c < numOfTasks

section
variable {getTaskQueueType : ℕ → TaskQueueType} {s s' s₀ : BarrierInfo} {queueType : TaskQueueType} {task : ℕ}
  {tasks nextUpdateBarriers : List ℕ}

structure QueueOf (getTaskQueueType : ℕ → TaskQueueType) (numOfTasks : ℕ) (queue : TaskQueueType × List ℕ) : Prop where
  sorted : queue.2.Pairwise (· < ·)
  tasks : ∀ t ∈ queue.2, t < numOfTasks ∧ getTaskQueueType t = queue.1

theorem getTaskOpQueues_spec (targetExecutorKind : ExecutorKind) :
    ∀ queue ∈ getTaskOpQueues getTaskQueueType targetExecutorKind s, QueueOf getTaskQueueType s.getNumOfTasks queue := by
  have hrun : ∀ (taskInds : List ℕ) (queues : List (TaskQueueType × List ℕ)), taskInds.Pairwise (· < ·) →
      (∀ t ∈ taskInds, t < s.getNumOfTasks) →
      (∀ queue ∈ queues, QueueOf getTaskQueueType s.getNumOfTasks queue ∧ ∀ t ∈ queue.2, ∀ u ∈ taskInds, t < u) →
      ∀ queue ∈ taskInds.foldl (fun queues taskInd =>
        if (getTaskQueueType taskInd).type ≠ targetExecutorKind then queues
        else pushTask queues (getTaskQueueType taskInd) taskInd) queues, QueueOf getTaskQueueType s.getNumOfTasks queue := by
    intro taskInds
    induction taskInds with
    | nil => exact fun queues _ _ h queue hqueue => (h queue hqueue).1
    | cons t taskInds ih =>
      intro queues hsorted hlt h
      obtain ⟨hhead, hsorted⟩ := pairwise_cons.mp hsorted
      obtain ⟨ht, hlt⟩ := forall_mem_cons.mp hlt
      have hkept : ∀ queue ∈ queues, QueueOf getTaskQueueType s.getNumOfTasks queue ∧ ∀ t ∈ queue.2, ∀ u ∈ taskInds, t < u :=
        fun queue hqueue => ⟨(h queue hqueue).1, fun t ht u hu => (h queue hqueue).2 t ht u (mem_cons_of_mem _ hu)⟩
      rw [foldl_cons]
      apply ih _ hsorted hlt
      unfold pushTask
      split_ifs with hkind hin
      · exact hkept
      · intro queue hqueue
        obtain ⟨old, hold, rfl⟩ := mem_map.mp hqueue
        split_ifs with heq
        · obtain ⟨hqueueOf, hbefore⟩ := h old hold
          refine ⟨⟨?_, ?_⟩, ?_⟩
          · rw [pairwise_append]
            refine ⟨hqueueOf.sorted, pairwise_singleton _ _, ?_⟩
            intro u hu v hv
            rw [mem_singleton.mp hv]
            exact hbefore u hu t mem_cons_self
          · intro u hu
            cases mem_append.mp hu with
            | inl hu => exact hqueueOf.tasks u hu
            | inr hu =>
              rw [mem_singleton.mp hu]
              exact ⟨ht, heq.symm⟩
          · intro u hu v hv
            cases mem_append.mp hu with
            | inl hu => exact hbefore u hu v (mem_cons_of_mem _ hv)
            | inr hu =>
              rw [mem_singleton.mp hu]
              exact hhead v hv
        · exact hkept old hold
      · intro queue hqueue
        cases mem_append.mp hqueue with
        | inl hqueue => exact hkept queue hqueue
        | inr hqueue =>
          rw [mem_singleton.mp hqueue]
          refine ⟨⟨pairwise_singleton _ _, ?_⟩, ?_⟩
          · intro u hu
            rw [mem_singleton.mp hu]
            exact ⟨ht, rfl⟩
          · intro u hu v hv
            rw [mem_singleton.mp hu]
            exact hhead v hv
  exact hrun _ _ pairwise_lt_range (fun t ht => mem_range.mp ht)
    (fun queue hqueue => absurd hqueue not_mem_nil)

def UpdatedLater (getTaskQueueType : ℕ → TaskQueueType) (s : BarrierInfo) (tasks nextUpdateBarriers : List ℕ) : Prop :=
  ∀ b ∈ nextUpdateBarriers, ∃ p ∈ s.getBarrierProducers b, ∀ t ∈ tasks, FifoOrder getTaskQueueType s.getNumOfTasks t p

theorem linkOutOfOrder_extended (h : Extended (s₀.OrderedBy (FifoOrder getTaskQueueType s₀.getNumOfTasks)) s₀ s)
    (htask : task < s.getNumOfTasks) (hlater : UpdatedLater getTaskQueueType s (task :: tasks) nextUpdateBarriers)
    (hqueue : ∀ t ∈ tasks, FifoOrder getTaskQueueType s.getNumOfTasks t task) :
    Extended (s₀.OrderedBy (FifoOrder getTaskQueueType s₀.getNumOfTasks)) s₀ (linkOutOfOrder (s, nextUpdateBarriers) task).1 ∧
      UpdatedLater getTaskQueueType (linkOutOfOrder (s, nextUpdateBarriers) task).1 tasks
        (linkOutOfOrder (s, nextUpdateBarriers) task).2 := by
  have hupdated : ∀ s' : BarrierInfo, s'.Consistent → s'.getNumOfTasks = s.getNumOfTasks →
      (∀ b t, t ∈ s.getBarrierProducers b → t ∈ s'.getBarrierProducers b) →
      UpdatedLater getTaskQueueType s' tasks (sortedOf (nextUpdateBarriers ++ (s'.getUpdateBarriers task).toList)) := by
    intro s' hconsistent htasks hproducers b hb
    rw [htasks]
    cases mem_append.mp (mem_sortedOf.mp hb) with
    | inl hb =>
      obtain ⟨p, hp, hfifo⟩ := hlater b hb
      exact ⟨p, hproducers b p hp, fun t ht => hfifo t (mem_cons_of_mem _ ht)⟩
    | inr hb => exact ⟨task, hconsistent.update_iff.mp hb, hqueue⟩
  unfold linkOutOfOrder
  dsimp only
  split_ifs with hnone hwait
  · refine ⟨h, fun b hb => ?_⟩
    obtain ⟨p, hp, hfifo⟩ := hlater b hb
    exact ⟨p, hp, fun t ht => hfifo t (mem_cons_of_mem _ ht)⟩
  · exact ⟨h, hupdated s h.consistent rfl (fun _ _ => id)⟩
  · have hadd : Extended (s₀.OrderedBy (FifoOrder getTaskQueueType s₀.getNumOfTasks)) s
        ((nextUpdateBarriers.takeWhile (· < getMinEntry (s.getUpdateBarriers task))).foldl
          (fun s nextUpdate => s.addProducer nextUpdate task) s) := by
      apply addToBarriers_extended h.consistent htask
      intro b hb
      obtain ⟨p, hp, hfifo⟩ := hlater b (takeWhile_subset _ hb)
      refine ⟨(h.consistent.producer_lt hp).1, fun c hc => ?_⟩
      have hbefore := hfifo task mem_cons_self
      rw [h.tasks] at hbefore
      apply Relation.TransGen.head (.inr hbefore)
      cases h.new p c ⟨b, hp, hc⟩ with
      | inl hedge => exact .single (.inl hedge)
      | inr hordered => exact hordered
    refine ⟨h.trans hadd, hupdated _ hadd.consistent hadd.tasks ?_⟩
    have hkeep : ∀ (barriers : List ℕ) (s : BarrierInfo), (∀ b ∈ barriers, b < s.getNumOfBarrierOps) → ∀ b t,
        t ∈ s.getBarrierProducers b → t ∈ (barriers.foldl (fun s b => s.addProducer b task) s).getBarrierProducers b := by
      intro barriers
      induction barriers with
      | nil => exact fun _ _ _ _ ht => ht
      | cons first barriers ih =>
        intro s hlt b t ht
        obtain ⟨hfirst, hlt⟩ := forall_mem_cons.mp hlt
        apply ih
        · rw [numOfBarrierOps_addProducer]
          exact hlt
        · exact (mem_producers_addProducer hfirst).mpr (.inr ht)
    apply hkeep
    intro b hb
    obtain ⟨p, hp, -⟩ := hlater b (takeWhile_subset _ hb)
    exact (h.consistent.producer_lt hp).1

theorem linkQueueOutOfOrder_extended (h : Extended (s₀.OrderedBy (FifoOrder getTaskQueueType s₀.getNumOfTasks)) s₀ s)
    (hsorted : tasks.Pairwise (· > ·)) (htasks : ∀ t ∈ tasks, t < s.getNumOfTasks ∧ getTaskQueueType t = queueType)
    (hlater : UpdatedLater getTaskQueueType s tasks nextUpdateBarriers) :
    Extended (s₀.OrderedBy (FifoOrder getTaskQueueType s₀.getNumOfTasks)) s₀
      (tasks.foldl linkOutOfOrder (s, nextUpdateBarriers)).1 := by
  induction tasks generalizing s nextUpdateBarriers with
  | nil => exact h
  | cons task tasks ih =>
    obtain ⟨hhead, hsorted⟩ := pairwise_cons.mp hsorted
    obtain ⟨htask, htasks⟩ := forall_mem_cons.mp htasks
    have hqueue : ∀ t ∈ tasks, FifoOrder getTaskQueueType s.getNumOfTasks t task := fun t ht =>
      ⟨⟨hhead t ht, (htasks t ht).2.trans htask.2.symm⟩, htask.1⟩
    obtain ⟨hstep, hlater⟩ := linkOutOfOrder_extended h htask.1 hlater hqueue
    rw [foldl_cons]
    apply ih hstep hsorted _ hlater
    rw [hstep.tasks, ← h.tasks]
    exact htasks

theorem resolveOutOfOrderDependencies_extended (h : s.Consistent) :
    Extended (s.OrderedBy (FifoOrder getTaskQueueType s.getNumOfTasks)) s
      (resolveOutOfOrderDependencies (getTaskOpQueues getTaskQueueType .dmaNN s) s) := by
  have hrun : ∀ (queues : List (TaskQueueType × List ℕ)) (s' : BarrierInfo),
      (∀ queue ∈ queues, QueueOf getTaskQueueType s.getNumOfTasks queue) →
      Extended (s.OrderedBy (FifoOrder getTaskQueueType s.getNumOfTasks)) s s' →
      Extended (s.OrderedBy (FifoOrder getTaskQueueType s.getNumOfTasks)) s
        (queues.foldl (fun s entry => (entry.2.reverse.foldl linkOutOfOrder (s, [])).1) s') := by
    intro queues
    induction queues with
    | nil => exact fun _ _ h => h
    | cons queue queues ih =>
      intro s' hqueues h'
      obtain ⟨hqueue, hqueues⟩ := forall_mem_cons.mp hqueues
      rw [foldl_cons]
      apply ih _ hqueues
      apply @linkQueueOutOfOrder_extended getTaskQueueType s' s queue.1
      · exact h'
      · exact pairwise_reverse.mpr hqueue.sorted
      · rw [h'.tasks]
        exact fun t ht => hqueue.tasks t (mem_reverse.mp ht)
      · exact fun b hb => absurd hb not_mem_nil
  exact hrun _ s (getTaskOpQueues_spec .dmaNN) (extended_refl h)

end

structure RespectsOrder (getTaskQueueType : ℕ → TaskQueueType) (taskIndMap : ℕ → TaskConfig) (s : BarrierInfo) : Prop where
  cost : ∀ t < s.getNumOfTasks, 1 ≤ (taskIndMap t).cycleCost
  edges : ∀ p c, s.Edge p c → (taskIndMap p).cycleEnd ≤ (taskIndMap c).cycleStart
  queues : ∀ p c, FifoOrder getTaskQueueType s.getNumOfTasks p c → (taskIndMap p).cycleEnd ≤ (taskIndMap c).cycleStart

section
variable {getTaskQueueType : ℕ → TaskQueueType} {taskIndMap : ℕ → TaskConfig} {s s' s₀ : BarrierInfo} {taskInd b : ℕ}
  {op : TaskConfig} {ops prevTasks : List TaskConfig} {intermediateBarriers : TaskSet}

def CycleOrder (taskIndMap : ℕ → TaskConfig) (p c : ℕ) : Prop := (taskIndMap p).cycleEnd ≤ (taskIndMap c).cycleStart

theorem taskQueueIsBottleneck_producers (h : taskQueueIsBottleneck getTaskQueueType s taskInd b true = true) :
    ∀ p ∈ s.getBarrierProducers b, QueueOrder getTaskQueueType p taskInd := by
  intro p hp
  have hall := all_eq_true.mp h p hp
  simp only [decide_eq_true_eq] at hall
  exact ⟨by simpa using hall.2, hall.1.symm⟩

theorem taskQueueIsBottleneck_consumers (h : taskQueueIsBottleneck getTaskQueueType s taskInd b false = true) :
    ∀ c ∈ s.getBarrierConsumers b, QueueOrder getTaskQueueType taskInd c := by
  intro c hc
  have hall := all_eq_true.mp h c hc
  simp only [decide_eq_true_eq] at hall
  exact ⟨by simpa using hall.2, hall.1⟩

theorem taskCanBeLinkedToNewUpdateBarrier_spec (h : s.Consistent)
    (hqueues : ∀ p c, FifoOrder getTaskQueueType s.getNumOfTasks p c → CycleOrder taskIndMap p c)
    (hlink : taskCanBeLinkedToNewUpdateBarrier getTaskQueueType taskIndMap s taskInd b = true) :
    ∀ c ∈ s.getBarrierConsumers b, CycleOrder taskIndMap taskInd c := by
  intro c hc
  unfold taskCanBeLinkedToNewUpdateBarrier at hlink
  split_ifs at hlink with hqueue hcost
  · exact hqueues taskInd c ⟨taskQueueIsBottleneck_consumers hqueue c hc, (h.consumer_lt hc).2⟩
  · have hall := all_eq_true.mp hlink c hc
    simp only [decide_eq_true_eq] at hall
    exact hall

theorem taskCanBeLinkedToNewWaitBarrier_spec (htask : taskInd < s.getNumOfTasks)
    (hqueues : ∀ p c, FifoOrder getTaskQueueType s.getNumOfTasks p c → CycleOrder taskIndMap p c)
    (hlink : taskCanBeLinkedToNewWaitBarrier getTaskQueueType taskIndMap s taskInd b = true) :
    ∀ p ∈ s.getBarrierProducers b, CycleOrder taskIndMap p taskInd := by
  intro p hp
  unfold taskCanBeLinkedToNewWaitBarrier at hlink
  split_ifs at hlink with hqueue
  · exact hqueues p taskInd ⟨taskQueueIsBottleneck_producers hqueue p hp, htask⟩
  · have hall := all_eq_true.mp hlink p hp
    simp only [decide_eq_true_eq] at hall
    exact Int.le_of_lt hall.2

theorem mem_findValidBarrierCandidates {maxWaitBarrier minUpdateBarrier : ℕ} {barriers : TaskSet}
    (hb : b ∈ findValidBarrierCandidates maxWaitBarrier minUpdateBarrier barriers) : b ∈ barriers := by
  unfold findValidBarrierCandidates at hb
  exact (mem_filter.mp (mem_ofList.mp hb)).1

theorem nextWaitCandidates_lt {maxWaitBarrier minUpdateBarrier : ℕ} (h : s.Consistent)
    (hlt : ∀ b ∈ intermediateBarriers, b < s.getNumOfBarrierOps) :
    ∀ b ∈ nextWaitCandidates s maxWaitBarrier minUpdateBarrier ops intermediateBarriers, b < s.getNumOfBarrierOps := by
  induction ops generalizing intermediateBarriers with
  | nil => exact hlt
  | cons nextTask ops ih =>
    unfold nextWaitCandidates
    dsimp only
    split_ifs
    · exact hlt
    · apply ih
      intro b hb
      cases mem_union.mp hb with
      | inl hb => exact hlt b hb
      | inr hb => exact (h.consumer_lt (h.wait_iff.mp (mem_findValidBarrierCandidates hb))).1

theorem prevUpdateCandidates_lt {maxWaitBarrier minUpdateBarrier : ℕ} (h : s.Consistent)
    (hlt : ∀ b ∈ intermediateBarriers, b < s.getNumOfBarrierOps) :
    ∀ b ∈ prevUpdateCandidates s maxWaitBarrier minUpdateBarrier ops intermediateBarriers, b < s.getNumOfBarrierOps := by
  induction ops generalizing intermediateBarriers with
  | nil => exact hlt
  | cons prevTask ops ih =>
    unfold prevUpdateCandidates
    dsimp only
    split_ifs
    · exact hlt
    · apply ih
      intro b hb
      cases mem_union.mp hb with
      | inl hb => exact hlt b hb
      | inr hb => exact (h.producer_lt (h.update_iff.mp (mem_findValidBarrierCandidates hb))).1

theorem linkUpdateBarriers_extended (h : s.Consistent) (htask : op.taskInd < s.getNumOfTasks)
    (hqueues : ∀ p c, FifoOrder getTaskQueueType s.getNumOfTasks p c → CycleOrder taskIndMap p c) :
    Extended (CycleOrder taskIndMap) s (linkUpdateBarriers getTaskQueueType taskIndMap s op ops) := by
  unfold linkUpdateBarriers
  dsimp only
  split_ifs
  · exact extended_refl h
  · exact extended_refl h
  · apply addToBarriers_extended h htask
    intro b hb
    obtain ⟨hcandidate, hlink⟩ := mem_filter.mp (mem_ofList.mp hb)
    exact ⟨nextWaitCandidates_lt h (fun _ hb => absurd hb not_mem_empty) b hcandidate,
      taskCanBeLinkedToNewUpdateBarrier_spec h hqueues hlink⟩

theorem linkWaitBarriers_extended (h : s.Consistent) (htask : op.taskInd < s.getNumOfTasks)
    (hqueues : ∀ p c, FifoOrder getTaskQueueType s.getNumOfTasks p c → CycleOrder taskIndMap p c) :
    Extended (CycleOrder taskIndMap) s (linkWaitBarriers getTaskQueueType taskIndMap s prevTasks op) := by
  unfold linkWaitBarriers
  dsimp only
  split_ifs
  · exact extended_refl h
  · exact extended_refl h
  · apply waitForBarriers_extended h htask
    intro b hb
    obtain ⟨hcandidate, hlink⟩ := mem_filter.mp (mem_ofList.mp hb)
    exact ⟨prevUpdateCandidates_lt h (fun _ hb => absurd hb not_mem_empty) b hcandidate,
      taskCanBeLinkedToNewWaitBarrier_spec htask hqueues hlink⟩

section
variable (h : Extended (CycleOrder taskIndMap) s₀ s) (hops : ∀ op ∈ ops, op.taskInd < s₀.getNumOfTasks)
  (hqueues : ∀ p c, FifoOrder getTaskQueueType s₀.getNumOfTasks p c → CycleOrder taskIndMap p c)
include h hops hqueues

theorem handleUpdateBarriers_extended :
    Extended (CycleOrder taskIndMap) s₀ (handleUpdateBarriers getTaskQueueType taskIndMap s ops) := by
  induction ops generalizing s with
  | nil => exact h
  | cons frontTask ops ih =>
    obtain ⟨hfront, hops⟩ := forall_mem_cons.mp hops
    rw [← h.tasks] at hfront
    exact ih (h.trans (linkUpdateBarriers_extended h.consistent hfront (h.tasks.symm ▸ hqueues))) hops

theorem handleWaitBarriers_extended :
    Extended (CycleOrder taskIndMap) s₀ (handleWaitBarriers getTaskQueueType taskIndMap s prevTasks ops) := by
  induction ops generalizing s prevTasks with
  | nil => exact h
  | cons frontTask ops ih =>
    obtain ⟨hfront, hops⟩ := forall_mem_cons.mp hops
    rw [← h.tasks] at hfront
    exact ih (h.trans (linkWaitBarriers_extended h.consistent hfront (h.tasks.symm ▸ hqueues))) hops

end

theorem reduceParallelControlFlows_extended {taskQueueMap : TaskConfigQueues} (h : s.Consistent)
    (hops : ∀ entry ∈ taskQueueMap, ∀ op ∈ entry.2, op.taskInd < s.getNumOfTasks)
    (hqueues : ∀ p c, FifoOrder getTaskQueueType s.getNumOfTasks p c → CycleOrder (Barrier.taskIndMap taskQueueMap) p c) :
    Extended (CycleOrder (Barrier.taskIndMap taskQueueMap)) s (reduceParallelControlFlows getTaskQueueType taskQueueMap s) := by
  unfold reduceParallelControlFlows
  generalize Barrier.taskIndMap taskQueueMap = taskIndMap at hqueues ⊢
  have hrun : ∀ (queues : TaskConfigQueues) (s' : BarrierInfo),
      (∀ entry ∈ queues, ∀ op ∈ entry.2, op.taskInd < s.getNumOfTasks) → Extended (CycleOrder taskIndMap) s s' →
      Extended (CycleOrder taskIndMap) s (queues.foldl (fun s entry => if entry.1.type ≠ .dmaNN then s
        else reduceParallelControlFlowsForQueue getTaskQueueType taskIndMap entry.2 s) s') := by
    intro queues
    induction queues with
    | nil => exact fun _ _ h => h
    | cons entry queues ih =>
      intro s' hops h'
      obtain ⟨hentry, hops⟩ := forall_mem_cons.mp hops
      rw [foldl_cons]
      apply ih _ hops
      split_ifs
      · exact h'
      · unfold reduceParallelControlFlowsForQueue
        apply handleWaitBarriers_extended
        · exact handleUpdateBarriers_extended h' hentry hqueues
        · exact fun op hop => hentry op (mem_of_mem_drop hop)
        · exact hqueues
  exact hrun taskQueueMap s hops (extended_refl h)

theorem RespectsOrder.acyclic (h : RespectsOrder getTaskQueueType taskIndMap s) (hconsistent : s.Consistent) (t : ℕ) :
    ¬ s.OrderedBy (FifoOrder getTaskQueueType s.getNumOfTasks) t t := by
  have hlt : ∀ p c, s.Edge p c ∨ FifoOrder getTaskQueueType s.getNumOfTasks p c →
      (taskIndMap p).cycleStart < (taskIndMap c).cycleStart := by
    intro p c hstep
    have hcost : 1 ≤ (taskIndMap p).cycleCost := by
      apply h.cost
      rcases hstep with ⟨b, hp, -⟩ | hfifo
      · exact (hconsistent.producer_lt hp).2
      · exact Nat.lt_trans hfifo.1.1 hfifo.2
    have hend : (taskIndMap p).cycleEnd ≤ (taskIndMap c).cycleStart := hstep.elim (h.edges p c) (h.queues p c)
    unfold TaskConfig.cycleEnd at hend
    omega
  intro hcycle
  have hpath : ∀ c, s.OrderedBy (FifoOrder getTaskQueueType s.getNumOfTasks) t c →
      (taskIndMap t).cycleStart < (taskIndMap c).cycleStart := by
    intro c hordered
    induction hordered with
    | single hstep => exact hlt _ _ hstep
    | tail _ hstep ih => exact Int.lt_trans ih (hlt _ _ hstep)
  exact Int.lt_irrefl _ (hpath t hcycle)

end

section
variable {getTaskQueueType : ℕ → TaskQueueType} {s : BarrierInfo}

/-- The out-of-order dependencies are implied by the order of the queues, and the links added to reduce parallel control
flows follow the order of the queues or of the cycles. -/
theorem simplifySchedule_order (h : s.Consistent) :
    (∀ p c, (resolveOutOfOrderDependencies (getTaskOpQueues getTaskQueueType .dmaNN s) s).OrderedBy
        (FifoOrder getTaskQueueType s.getNumOfTasks) p c ↔ s.OrderedBy (FifoOrder getTaskQueueType s.getNumOfTasks) p c) ∧
      ∀ taskQueueMap : TaskConfigQueues, (∀ entry ∈ taskQueueMap, ∀ op ∈ entry.2, op.taskInd < s.getNumOfTasks) →
        RespectsOrder getTaskQueueType (taskIndMap taskQueueMap) s →
        (∀ p c, s.OrderedBy (FifoOrder getTaskQueueType s.getNumOfTasks) p c →
          (reduceParallelControlFlows getTaskQueueType taskQueueMap s).OrderedBy
            (FifoOrder getTaskQueueType s.getNumOfTasks) p c) ∧
        ∀ t, ¬ (reduceParallelControlFlows getTaskQueueType taskQueueMap s).OrderedBy
          (FifoOrder getTaskQueueType s.getNumOfTasks) t t := by
  constructor
  · intro p c
    have hextended := @resolveOutOfOrderDependencies_extended getTaskQueueType s h
    constructor
    · apply OrderedBy.mono
      intro p c hedge
      cases hextended.new p c hedge with
      | inl hedge => exact .single (.inl hedge)
      | inr hordered => exact hordered
    · apply OrderedBy.mono
      exact fun p c hedge => .single (.inl (hextended.kept p c hedge))
  · intro taskQueueMap hops hrespects
    have hextended := reduceParallelControlFlows_extended h hops hrespects.queues
    constructor
    · intro p c
      apply OrderedBy.mono
      exact fun p c hedge => .single (.inl (hextended.kept p c hedge))
    · have hrespects' : RespectsOrder getTaskQueueType (taskIndMap taskQueueMap)
          (reduceParallelControlFlows getTaskQueueType taskQueueMap s) := by
        refine ⟨hextended.tasks.symm ▸ hrespects.cost, ?_, hextended.tasks.symm ▸ hrespects.queues⟩
        intro p c hedge
        cases hextended.new p c hedge with
        | inl hedge => exact hrespects.edges p c hedge
        | inr hcycles => exact hcycles
      intro t
      have hacyclic := hrespects'.acyclic hextended.consistent t
      rw [hextended.tasks] at hacyclic
      exact hacyclic

/-- The even tasks are in one queue and the odd ones in the other, two at a time. -/
def twoQueues : BarrierInfo :=
  let tasks := BarrierInfo.empty.addNewTaskOp.addNewTaskOp.addNewTaskOp.addNewTaskOp.addNewTaskOp.addNewTaskOp
  let first := (tasks.addNewBarrier.addNewBarrier.addNewBarrier.addProducers 0 [0]).addConsumers 0 [1]
  let second := (first.addProducers 1 [2]).addConsumers 1 [3, 4]
  (second.addProducers 2 [1, 3]).addConsumers 2 [5]

theorem twoQueues_consistent : twoQueues.Consistent := by
  have htasks := consistent_empty.addNewTaskOp.addNewTaskOp.addNewTaskOp.addNewTaskOp.addNewTaskOp.addNewTaskOp
  have hbarriers := htasks.addNewBarrier.addNewBarrier.addNewBarrier
  have hproducers₀ := (@addProducers_spec _ 0 hbarriers (by decide) [0] (by decide)).consistent
  have hconsumers₀ := (@addConsumers_spec _ 0 hproducers₀ (by decide) [1] (by decide)).consistent
  have hproducers₁ := (@addProducers_spec _ 1 hconsumers₀ (by decide) [2] (by decide)).consistent
  have hconsumers₁ := (@addConsumers_spec _ 1 hproducers₁ (by decide) [3, 4] (by decide)).consistent
  have hproducers₂ := (@addProducers_spec _ 2 hconsumers₁ (by decide) [1, 3] (by decide)).consistent
  exact (@addConsumers_spec _ 2 hproducers₂ (by decide) [5] (by decide)).consistent

def twoQueueCycles : TaskConfigQueues :=
  [(⟨.dmaNN, 0⟩, [⟨0, 2, 0⟩, ⟨2, 2, 2⟩, ⟨4, 2, 4⟩]), (⟨.dmaNN, 1⟩, [⟨1, 2, 2⟩, ⟨3, 2, 4⟩, ⟨5, 2, 6⟩])]

theorem twoQueues_respectsOrder : RespectsOrder oddAndEven (taskIndMap twoQueueCycles) twoQueues := by
  have hqueue : ∀ c < 6, ∀ p < c, p % 2 = c % 2 →
      (taskIndMap twoQueueCycles p).cycleEnd ≤ (taskIndMap twoQueueCycles c).cycleStart := by decide
  refine ⟨by decide, BarrierInfo.forall_edges (by decide), ?_⟩
  intro p c ⟨⟨hlt, hsame⟩, hc⟩
  have hid : (p : ℤ) % 2 = (c : ℤ) % 2 := congrArg TaskQueueType.id hsame
  exact hqueue c hc p hlt (by omega)

/-- The task 1 becomes a producer of the barrier that task 4 of the other queue waits for. -/
theorem simplifySchedule_order_twoQueues :
    (reduceParallelControlFlows oddAndEven twoQueueCycles twoQueues).Edge 1 4 ∧
    (∀ p c, twoQueues.OrderedBy (FifoOrder oddAndEven twoQueues.getNumOfTasks) p c →
      (reduceParallelControlFlows oddAndEven twoQueueCycles twoQueues).OrderedBy
        (FifoOrder oddAndEven twoQueues.getNumOfTasks) p c) ∧
    ∀ t, ¬ (reduceParallelControlFlows oddAndEven twoQueueCycles twoQueues).OrderedBy
      (FifoOrder oddAndEven twoQueues.getNumOfTasks) t t :=
  ⟨⟨1, by decide, by decide⟩,
    (simplifySchedule_order twoQueues_consistent).2 twoQueueCycles (by decide) twoQueues_respectsOrder⟩

end

end NpuCompiler.Barrier
