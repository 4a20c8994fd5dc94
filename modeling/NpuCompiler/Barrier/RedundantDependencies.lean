import NpuCompiler.Barrier.ControlMapRows
import NpuCompiler.Barrier.SplitRuns

namespace NpuCompiler.Barrier

open BarrierInfo FifoBarrierInfo GraphSplit Sweeps List

section
variable (config : OptimizeConfig)

def removeProducers (s : BarrierInfo) (barrierInd : ℕ) (taskInds : TaskSet) : BarrierInfo :=
  taskInds.toList.foldl (fun s taskInd => s.removeProducer barrierInd taskInd) s

def removeConsumers (s : BarrierInfo) (barrierInd : ℕ) (taskInds : TaskSet) : BarrierInfo :=
  taskInds.toList.foldl (fun s taskInd => s.removeConsumer barrierInd taskInd) s

section
variable (s : BarrierInfo) (taskControlMap : TaskControlMap) (taskControlMapOffset : ℕ) (producer : Bool)

def findRedundantDependency (taskIndex : ℕ) (dependenciesToRemove : TaskSet) (nextIndex : ℕ) : Except String TaskSet := do
  let nextSync ← config.split.isSyncPoint s nextIndex
  if nextSync then return dependenciesToRemove
  else
    let isPath ← controlPathExistsBetweenTasksInSameBlock taskControlMap (taskIndex - taskControlMapOffset)
      (nextIndex - taskControlMapOffset) false
    return if isPath then dependenciesToRemove.insert (if producer then taskIndex else nextIndex) else dependenciesToRemove

def findRedundantIn : List ℕ → TaskSet → Except String TaskSet
  | [], dependenciesToRemove => .ok dependenciesToRemove
  | taskIndex :: sortedDependencies, dependenciesToRemove => do
    let sync ← config.split.isSyncPoint s taskIndex
    if sync then findRedundantIn sortedDependencies dependenciesToRemove
    else
      let dependenciesToRemove ← sortedDependencies.foldlM
        (findRedundantDependency config s taskControlMap taskControlMapOffset producer taskIndex) dependenciesToRemove
      findRedundantIn sortedDependencies dependenciesToRemove

def findRedundantDependencies (dependencies : TaskSet) : Except String TaskSet :=
  findRedundantIn config s taskControlMap taskControlMapOffset producer (sortedOf dependencies.toList) ∅

end

def removeRedundantInBlock (considerTaskFifoDependency : Bool) (s : FifoBarrierInfo) (taskBlockIndex : ℕ) :
    Except String FifoBarrierInfo := do
  let ((taskControlMap, controlMapOffset), s) ← s.buildTaskControlMap config taskBlockIndex considerTaskFifoDependency false
  let blockUpdateBarriers ← s.getBarriersForTaskBlock config taskBlockIndex true false true
  let s ← blockUpdateBarriers.foldlM (fun s barrierIdx => do
    let producersToRemove ← findRedundantDependencies config s.maps taskControlMap controlMapOffset true
      (s.maps.getBarrierProducers barrierIdx)
    return { s with maps := removeProducers s.maps barrierIdx producersToRemove }) s
  let blockWaitBarriers ← s.getBarriersForTaskBlock config taskBlockIndex false true false
  blockWaitBarriers.foldlM (fun s barrierIdx => do
    let consumersToRemove ← findRedundantDependencies config s.maps taskControlMap controlMapOffset false
      (s.maps.getBarrierConsumers barrierIdx)
    return { s with maps := removeConsumers s.maps barrierIdx consumersToRemove }) s

def removeRedundantBarrierProducersAndConsumers (considerTaskFifoDependency : Bool) (s : FifoBarrierInfo) :
    Except String FifoBarrierInfo :=
  (List.range config.split.getControlGraphBlockCount).foldlM (removeRedundantInBlock config considerTaskFifoDependency) s

end

/-- A graph of which some producers and consumers are dropped. A producer comes before another one of the barrier in `path`, and
a consumer after another one. -/
structure Pruned (path : ℕ → ℕ → Prop) (s s' : BarrierInfo) : Prop where
  consistent : s'.Consistent
  tasks : s'.getNumOfTasks = s.getNumOfTasks
  barriers : s'.getNumOfBarrierOps = s.getNumOfBarrierOps
  producers : ∀ b x, x ∈ s'.getBarrierProducers b → x ∈ s.getBarrierProducers b
  consumers : ∀ b x, x ∈ s'.getBarrierConsumers b → x ∈ s.getBarrierConsumers b
  droppedProducer : ∀ b x, x ∈ s.getBarrierProducers b → x ∉ s'.getBarrierProducers b → ∃ y ∈ s.getBarrierProducers b, path x y
  droppedConsumer : ∀ b y, y ∈ s.getBarrierConsumers b → y ∉ s'.getBarrierConsumers b → ∃ x ∈ s.getBarrierConsumers b, path x y

section
variable {path fifo : ℕ → ℕ → Prop} {s s' s'' : BarrierInfo} {b p c : ℕ} {tasks : TaskSet}

theorem pruned_refl (h : s.Consistent) : Pruned path s s :=
  ⟨h, rfl, rfl, fun _ _ => id, fun _ _ => id, fun _ _ hx hout => absurd hx hout, fun _ _ hy hout => absurd hy hout⟩

theorem Pruned.trans (h : Pruned path s s') (h' : Pruned path s' s'') : Pruned path s s'' := by
  refine ⟨h'.consistent, h'.tasks.trans h.tasks, h'.barriers.trans h.barriers, fun b x hx => h.producers b x (h'.producers b x hx),
    fun b x hx => h.consumers b x (h'.consumers b x hx), ?_, ?_⟩
  · intro b x hx hout
    by_cases hmid : x ∈ s'.getBarrierProducers b
    · obtain ⟨y, hy, hpath⟩ := h'.droppedProducer b x hmid hout
      exact ⟨y, h.producers b y hy, hpath⟩
    · exact h.droppedProducer b x hx hmid
  · intro b y hy hout
    by_cases hmid : y ∈ s'.getBarrierConsumers b
    · obtain ⟨x, hx, hpath⟩ := h'.droppedConsumer b y hmid hout
      exact ⟨x, h.consumers b x hx, hpath⟩
    · exact h.droppedConsumer b y hy hmid

theorem Pruned.edge (h : Pruned path s s') (hedge : s'.Edge p c) : s.Edge p c := by
  obtain ⟨b, hp, hc⟩ := hedge
  exact ⟨b, h.producers b p hp, h.consumers b c hc⟩

theorem Pruned.exists_producer (h : Pruned path s s') (hlt : ∀ x y, path x y → x < y) (hp : p ∈ s.getBarrierProducers b) :
    ∃ p', p' ∈ s'.getBarrierProducers b := by
  have hne : (s.getBarrierProducers b).toList ≠ [] := ne_nil_of_mem hp
  obtain ⟨m, hm⟩ := Option.ne_none_iff_exists'.mp (fun hnone => hne (max?_eq_none_iff.mp hnone))
  obtain ⟨hmem, hmax⟩ := max?_eq_some_iff.mp hm
  refine ⟨m, ?_⟩
  by_contra hout
  obtain ⟨y, hy, hpath⟩ := h.droppedProducer b m hmem hout
  exact Nat.not_le.mpr (hlt m y hpath) (hmax y hy)

theorem Pruned.exists_consumer (h : Pruned path s s') (hlt : ∀ x y, path x y → x < y) (hc : c ∈ s.getBarrierConsumers b) :
    ∃ c', c' ∈ s'.getBarrierConsumers b := by
  have hne : (s.getBarrierConsumers b).toList ≠ [] := ne_nil_of_mem hc
  obtain ⟨m, hm⟩ := Option.ne_none_iff_exists'.mp (fun hnone => hne (min?_eq_none_iff.mp hnone))
  obtain ⟨hmem, hmin⟩ := min?_eq_some_iff.mp hm
  refine ⟨m, ?_⟩
  by_contra hout
  obtain ⟨x, hx, hpath⟩ := h.droppedConsumer b m hmem hout
  exact Nat.not_le.mpr (hlt x m hpath) (hmin x hx)

theorem orderedBy_lt (htopological : s.Topological) (hfifo : ∀ x y, fifo x y → x < y) {x y : ℕ}
    (h : s.OrderedBy fifo x y) : x < y := by
  have hstep (x y : ℕ) (hxy : s.Edge x y ∨ fifo x y) : x < y := hxy.elim (htopological x y) (hfifo x y)
  induction h with
  | single hxy => exact hstep _ _ hxy
  | tail _ hxy ih => exact Nat.lt_trans ih (hstep _ _ hxy)

theorem Pruned.orderedBy_of_edge (h : Pruned (s.OrderedBy fifo) s s') (htopological : s.Topological)
    (hfifo : ∀ x y, fifo x y → x < y) : ∀ n p c, c - p ≤ n → s.Edge p c → s'.OrderedBy fifo p c := by
  have hlt (x y : ℕ) (hxy : s.OrderedBy fifo x y) : x < y := orderedBy_lt htopological hfifo hxy
  intro n
  induction n with
  | zero =>
    intro p c hlength hedge
    have := htopological p c hedge
    omega
  | succ n ih =>
    intro p c hlength hedge
    -- a path between tasks closer to each other than `p` and `c`
    have hpath (x y : ℕ) (hxy : s.OrderedBy fifo x y) : y - x ≤ n → s'.OrderedBy fifo x y := by
      induction hxy with
      | single hxy =>
        intro hshort
        cases hxy with
        | inl hedge => exact ih _ _ hshort hedge
        | inr hqueue => exact .single (.inr hqueue)
      | @tail z y hxz hzy ihxz =>
        intro hshort
        have hxz' := hlt _ _ hxz
        have hzy' := hlt _ _ (.single hzy)
        apply Relation.TransGen.trans (ihxz (by omega))
        cases hzy with
        | inl hedge => exact ih _ _ (by omega) hedge
        | inr hqueue => exact .single (.inr hqueue)
    have hpc := htopological p c hedge
    obtain ⟨b, hp, hc⟩ := hedge
    by_cases hp' : p ∈ s'.getBarrierProducers b
    · by_cases hc' : c ∈ s'.getBarrierConsumers b
      · exact .single (.inl ⟨b, hp', hc'⟩)
      · obtain ⟨x, hx, hxc⟩ := h.droppedConsumer b c hc hc'
        have hpx := htopological p x ⟨b, hp, hx⟩
        have hxc' := hlt x c hxc
        exact (ih p x (by omega) ⟨b, hp, hx⟩).trans (hpath x c hxc (by omega))
    · obtain ⟨y, hy, hpy⟩ := h.droppedProducer b p hp hp'
      have hyc := htopological y c ⟨b, hy, hc⟩
      have hpy' := hlt p y hpy
      exact (hpath p y hpy (by omega)).trans (ih y c (by omega) ⟨b, hy, hc⟩)

theorem Pruned.orderedBy_iff (h : Pruned (s.OrderedBy fifo) s s') (htopological : s.Topological) (hfifo : ∀ x y, fifo x y → x < y) :
    s'.OrderedBy fifo p c ↔ s.OrderedBy fifo p c := by
  constructor
  · apply OrderedBy.mono
    exact fun p c hedge => .single (.inl (h.edge hedge))
  · apply OrderedBy.mono
    exact fun p c hedge => h.orderedBy_of_edge htopological hfifo (c - p) p c (Nat.le_refl _) hedge

end

section
variable {path : ℕ → ℕ → Prop} {s : BarrierInfo} {b : ℕ} {tasks : TaskSet}

theorem mem_foldl_removeProducer {taskInds : List ℕ} {b' t : ℕ} :
    t ∈ (taskInds.foldl (fun s taskInd => s.removeProducer b taskInd) s).getBarrierProducers b' ↔
      ¬ (b' = b ∧ t ∈ taskInds) ∧ t ∈ s.getBarrierProducers b' := by
  induction taskInds generalizing s with
  | nil => simp
  | cons u taskInds ih =>
    rw [foldl_cons, ih, mem_producers_removeProducer, mem_cons]
    tauto

theorem mem_foldl_removeConsumer {taskInds : List ℕ} {b' t : ℕ} :
    t ∈ (taskInds.foldl (fun s taskInd => s.removeConsumer b taskInd) s).getBarrierConsumers b' ↔
      ¬ (b' = b ∧ t ∈ taskInds) ∧ t ∈ s.getBarrierConsumers b' := by
  induction taskInds generalizing s with
  | nil => simp
  | cons u taskInds ih =>
    rw [foldl_cons, ih, mem_consumers_removeConsumer, mem_cons]
    tauto

theorem removeProducers_spec (h : s.Consistent) : (removeProducers s b tasks).Consistent ∧
    (removeProducers s b tasks).getNumOfTasks = s.getNumOfTasks ∧
    (removeProducers s b tasks).getNumOfBarrierOps = s.getNumOfBarrierOps ∧
    (∀ b' t, t ∈ (removeProducers s b tasks).getBarrierProducers b' ↔ ¬ (b' = b ∧ t ∈ tasks) ∧ t ∈ s.getBarrierProducers b') ∧
    ∀ b', (removeProducers s b tasks).getBarrierConsumers b' = s.getBarrierConsumers b' := by
  have hrest : ∀ taskInds : List ℕ, ∀ s : BarrierInfo, s.Consistent →
      (taskInds.foldl (fun s taskInd => s.removeProducer b taskInd) s).Consistent ∧
      (taskInds.foldl (fun s taskInd => s.removeProducer b taskInd) s).getNumOfTasks = s.getNumOfTasks ∧
      (taskInds.foldl (fun s taskInd => s.removeProducer b taskInd) s).getNumOfBarrierOps = s.getNumOfBarrierOps ∧
      ∀ b', (taskInds.foldl (fun s taskInd => s.removeProducer b taskInd) s).getBarrierConsumers b' =
        s.getBarrierConsumers b' := by
    intro taskInds
    induction taskInds with
    | nil => exact fun s h => ⟨h, rfl, rfl, fun _ => rfl⟩
    | cons t taskInds ih =>
      intro s h
      obtain ⟨hconsistent, htasks, hbarriers, hconsumers⟩ := ih (s.removeProducer b t) h.removeProducer
      exact ⟨hconsistent, htasks.trans (by simp), hbarriers.trans (by simp), fun b' => (hconsumers b').trans (by simp)⟩
  obtain ⟨hconsistent, htasks, hbarriers, hconsumers⟩ := hrest tasks.toList s h
  exact ⟨hconsistent, htasks, hbarriers, fun b' t => mem_foldl_removeProducer, hconsumers⟩

theorem removeConsumers_spec (h : s.Consistent) : (removeConsumers s b tasks).Consistent ∧
    (removeConsumers s b tasks).getNumOfTasks = s.getNumOfTasks ∧
    (removeConsumers s b tasks).getNumOfBarrierOps = s.getNumOfBarrierOps ∧
    (∀ b' t, t ∈ (removeConsumers s b tasks).getBarrierConsumers b' ↔ ¬ (b' = b ∧ t ∈ tasks) ∧ t ∈ s.getBarrierConsumers b') ∧
    ∀ b', (removeConsumers s b tasks).getBarrierProducers b' = s.getBarrierProducers b' := by
  have hrest : ∀ taskInds : List ℕ, ∀ s : BarrierInfo, s.Consistent →
      (taskInds.foldl (fun s taskInd => s.removeConsumer b taskInd) s).Consistent ∧
      (taskInds.foldl (fun s taskInd => s.removeConsumer b taskInd) s).getNumOfTasks = s.getNumOfTasks ∧
      (taskInds.foldl (fun s taskInd => s.removeConsumer b taskInd) s).getNumOfBarrierOps = s.getNumOfBarrierOps ∧
      ∀ b', (taskInds.foldl (fun s taskInd => s.removeConsumer b taskInd) s).getBarrierProducers b' =
        s.getBarrierProducers b' := by
    intro taskInds
    induction taskInds with
    | nil => exact fun s h => ⟨h, rfl, rfl, fun _ => rfl⟩
    | cons t taskInds ih =>
      intro s h
      obtain ⟨hconsistent, htasks, hbarriers, hproducers⟩ := ih (s.removeConsumer b t) h.removeConsumer
      exact ⟨hconsistent, htasks.trans (by simp), hbarriers.trans (by simp), fun b' => (hproducers b').trans (by simp)⟩
  obtain ⟨hconsistent, htasks, hbarriers, hproducers⟩ := hrest tasks.toList s h
  exact ⟨hconsistent, htasks, hbarriers, fun b' t => mem_foldl_removeConsumer, hproducers⟩

theorem removeProducers_pruned (h : s.Consistent)
    (hdropped : ∀ x ∈ tasks, ∃ y ∈ s.getBarrierProducers b, path x y) : Pruned path s (removeProducers s b tasks) := by
  obtain ⟨hconsistent, htasks, hbarriers, hproducers, hconsumers⟩ := @removeProducers_spec s b tasks h
  refine ⟨hconsistent, htasks, hbarriers, fun b' x hx => ((hproducers b' x).mp hx).2, fun b' x hx => hconsumers b' ▸ hx, ?_, ?_⟩
  · intro b' x hx hout
    rw [hproducers] at hout
    have hmem : b' = b ∧ x ∈ tasks := by tauto
    exact hmem.1 ▸ hdropped x hmem.2
  · intro b' y hy hout
    rw [hconsumers] at hout
    exact absurd hy hout

theorem removeConsumers_pruned (h : s.Consistent)
    (hdropped : ∀ y ∈ tasks, ∃ x ∈ s.getBarrierConsumers b, path x y) : Pruned path s (removeConsumers s b tasks) := by
  obtain ⟨hconsistent, htasks, hbarriers, hconsumers, hproducers⟩ := @removeConsumers_spec s b tasks h
  refine ⟨hconsistent, htasks, hbarriers, fun b' x hx => hproducers b' ▸ hx, fun b' x hx => ((hconsumers b' x).mp hx).2, ?_, ?_⟩
  · intro b' x hx hout
    rw [hproducers] at hout
    exact absurd hx hout
  · intro b' y hy hout
    rw [hconsumers] at hout
    have hmem : b' = b ∧ y ∈ tasks := by tauto
    exact hmem.1 ▸ hdropped y hmem.2

end

section
variable {config : OptimizeConfig} {s : BarrierInfo} {lo hi : ℕ} {m : TaskControlMap} {found : ℕ → ℕ → Prop} {producer : Bool}

def Searched (config : OptimizeConfig) (s : BarrierInfo) (lo hi t : ℕ) : Prop :=
  t < s.getNumOfTasks ∧ (t ∉ config.split.syncTasksIds → inRange lo hi t = true)

theorem controlPathExists_forward (hlength : m.length = hi - lo + 1) (hbits : RowBit lo hi m = found) {x y : ℕ}
    (hx : inRange lo hi x = true) (hy : inRange lo hi y = true) (hne : x ≠ y) :
    ∃ isPath, controlPathExistsBetweenTasksInSameBlock m (x - lo) (y - lo) false = .ok isPath ∧ (isPath = true → found x y) := by
  obtain ⟨hlox, hxhi⟩ := inRange_iff.mp hx
  obtain ⟨hloy, hyhi⟩ := inRange_iff.mp hy
  unfold controlPathExistsBetweenTasksInSameBlock
  rw [if_neg (fun hnil => by simp [hnil] at hlength), if_neg (by omega), if_neg (by omega), if_neg (by omega),
    if_neg Bool.false_ne_true]
  refine ⟨_, rfl, ?_⟩
  intro hset
  rw [← hbits]
  exact ⟨hx, hy, hset⟩

def Redundant (found : ℕ → ℕ → Prop) (producer : Bool) (tasks : List ℕ) (x : ℕ) : Prop :=
  ∃ y ∈ tasks, if producer then found x y else found y x

theorem findRedundantIn_spec (hsplit : config.split.WellFormed s.getNumOfTasks) (hlength : m.length = hi - lo + 1)
    (hbits : RowBit lo hi m = found) {tasks sortedDependencies : List ℕ} (hsub : ∀ t ∈ sortedDependencies, t ∈ tasks)
    (hsorted : sortedDependencies.Pairwise (· < ·)) (hsearched : ∀ t ∈ sortedDependencies, Searched config s lo hi t)
    {dependenciesToRemove : TaskSet} (hremove : ∀ x ∈ dependenciesToRemove, Redundant found producer tasks x) :
    ∃ result, findRedundantIn config s m lo producer sortedDependencies dependenciesToRemove = .ok result ∧
      ∀ x ∈ result, Redundant found producer tasks x := by
  induction sortedDependencies generalizing dependenciesToRemove with
  | nil => exact ⟨_, rfl, hremove⟩
  | cons t sortedDependencies ih =>
    obtain ⟨ht, hsub'⟩ := forall_mem_cons.mp hsub
    obtain ⟨hlt, hsorted'⟩ := pairwise_cons.mp hsorted
    obtain ⟨htSearched, hsearched'⟩ := forall_mem_cons.mp hsearched
    unfold findRedundantIn
    rw [isSyncPoint_eq hsplit htSearched.1]
    change ∃ result, (if decide (t ∈ config.split.syncTasksIds) = true then _ else _) = _ ∧ _
    split_ifs with hsync
    · exact ih hsub' hsorted' hsearched' hremove
    · have htIn := htSearched.2 (fun hmem => hsync (decide_eq_true hmem))
      obtain ⟨found', hrun, hfound', -⟩ := @foldlM_establishes _ _ _ (fun set => ∀ x ∈ set, Redundant found producer tasks x)
        (fun _ _ => True) sortedDependencies dependenciesToRemove
        (findRedundantDependency config s m lo producer t) hremove
        (by
          intro u hu set hset
          have huSearched := hsearched' u hu
          unfold findRedundantDependency
          rw [isSyncPoint_eq hsplit huSearched.1]
          change ∃ set', (if decide (u ∈ config.split.syncTasksIds) = true then _ else _) = _ ∧ _
          by_cases huSync : decide (u ∈ config.split.syncTasksIds) = true
          · rw [if_pos huSync]
            exact ⟨set, rfl, hset, trivial, fun _ _ => trivial⟩
          · rw [if_neg huSync]
            have huIn := huSearched.2 (fun hmem => huSync (decide_eq_true hmem))
            obtain ⟨isPath, hpath, hspec⟩ := controlPathExists_forward hlength hbits htIn huIn (Nat.ne_of_lt (hlt u hu))
            rw [hpath]
            refine ⟨_, rfl, ?_, trivial, fun _ _ => trivial⟩
            cases isPath with
            | false => exact hset
            | true =>
              intro x hx
              cases SmallSet.mem_insert.mp hx with
              | inl heq =>
                rw [heq]
                cases producer with
                | true => exact ⟨u, hsub' u hu, hspec rfl⟩
                | false => exact ⟨t, ht, hspec rfl⟩
              | inr hx => exact hset x hx)
      rw [hrun]
      exact ih hsub' hsorted' hsearched' hfound'

theorem findRedundantDependencies_spec (hsplit : config.split.WellFormed s.getNumOfTasks) (hlength : m.length = hi - lo + 1)
    (hbits : RowBit lo hi m = found) {dependencies : TaskSet} (hsearched : ∀ t ∈ dependencies, Searched config s lo hi t) :
    ∃ result, findRedundantDependencies config s m lo producer dependencies = .ok result ∧
      ∀ x ∈ result, Redundant found producer dependencies.toList x := by
  apply findRedundantIn_spec hsplit hlength hbits
  · exact fun t ht => mem_sortedOf.mp ht
  · exact pairwise_sortedOf _
  · exact fun t ht => hsearched t (mem_sortedOf.mp ht)
  · exact fun x hx => absurd hx SmallSet.not_mem_empty

end

section
variable {config : OptimizeConfig} {s : BarrierInfo} {k lo hi : ℕ}

theorem exists_updateRange (hsplit : config.split.WellFormed s.getNumOfTasks) (hk : BlockRange config.split s k lo hi) :
    ∃ last, config.split.getControlGraphBlockTaskRange s k true false = .ok (lo, last) ∧ last ≤ hi ∧
      (last = hi ∧ hi = s.getNumOfTasks - 1 ∨ hi ∈ config.split.syncTasksIds ∧ last + 1 = hi) := by
  have hrange := hk.range
  have hlt := block_lt_count hk.range
  unfold getControlGraphBlockTaskRange at hrange ⊢
  rw [if_neg (Nat.not_le.mpr hlt)] at hrange ⊢
  simp only [if_true, Bool.false_eq_true, if_false, Except.ok.injEq, Prod.mk.injEq] at hrange ⊢
  obtain ⟨rfl, rfl⟩ := hrange
  refine ⟨_, ⟨rfl, rfl⟩, ?_⟩
  by_cases hlast : k = config.split.getControlGraphBlockCount - 1
  · rw [if_pos hlast, if_pos hlast]
    exact ⟨Nat.le_refl _, .inl ⟨rfl, rfl⟩⟩
  · rw [if_neg hlast, if_neg hlast]
    have hcount : config.split.getControlGraphBlockCount = config.split.syncTasksIds.length + 1 := rfl
    have hmem : config.split.syncTasksIds.getD k 0 ∈ config.split.syncTasksIds := sync_mem (by omega)
    have hpos := hsplit.pos _ hmem
    exact ⟨Nat.sub_le _ _, .inr ⟨hmem, by omega⟩⟩

theorem exists_waitRange (hk : BlockRange config.split s k lo hi) :
    ∃ first, config.split.getControlGraphBlockTaskRange s k false true = .ok (first, hi) ∧
      (first = lo ∧ lo = 0 ∨ lo ∈ config.split.syncTasksIds ∧ first = lo + 1) := by
  have hrange := hk.range
  have hlt := block_lt_count hk.range
  unfold getControlGraphBlockTaskRange at hrange ⊢
  rw [if_neg (Nat.not_le.mpr hlt)] at hrange ⊢
  simp only [if_true, Bool.false_eq_true, if_false, Except.ok.injEq, Prod.mk.injEq] at hrange ⊢
  obtain ⟨rfl, rfl⟩ := hrange
  refine ⟨_, ⟨rfl, rfl⟩, ?_⟩
  by_cases hfirst : k = 0
  · rw [if_pos hfirst, if_pos hfirst]
    exact .inl ⟨rfl, rfl⟩
  · rw [if_neg hfirst, if_neg hfirst]
    have hcount : config.split.getControlGraphBlockCount = config.split.syncTasksIds.length + 1 := rfl
    exact .inr ⟨sync_mem (by omega), rfl⟩

end

/-- A split graph in which every barrier has its tasks in one block. A barrier without consumers has no sync task as a
producer, and one without producers has no consumers. -/
structure SplitGraph (config : OptimizeConfig) (s : BarrierInfo) : Prop where
  consistent : s.Consistent
  split : config.split.WellFormed s.getNumOfTasks
  pos : 0 < s.getNumOfTasks
  queues : config.taskQueueTypes ≠ []
  fits : ∀ p c, s.Edge p c → config.split.Fits p c
  waits : ∀ b, (∃ c, c ∈ s.getBarrierConsumers b) → ∃ p, p ∈ s.getBarrierProducers b
  ends : ∀ b, (∀ c, c ∉ s.getBarrierConsumers b) → ∀ p ∈ s.getBarrierProducers b, p ∉ config.split.syncTasksIds ∧
    ∀ p' ∈ s.getBarrierProducers b, blockOf config.split.syncTasksIds p = blockOf config.split.syncTasksIds p'

section
variable {config : OptimizeConfig} {path : ℕ → ℕ → Prop} {s s' : BarrierInfo} {k lo hi : ℕ}

theorem SplitGraph.topological (h : SplitGraph config s) : s.Topological := fun p c hedge => (h.fits p c hedge).1

theorem SplitGraph.pruned (h : SplitGraph config s) (hpruned : Pruned path s s') (hlt : ∀ x y, path x y → x < y) :
    SplitGraph config s' := by
  refine ⟨hpruned.consistent, hpruned.tasks.symm ▸ h.split, hpruned.tasks.symm ▸ h.pos, h.queues,
    fun p c hedge => h.fits p c (hpruned.edge hedge), ?_, ?_⟩
  · rintro b ⟨c, hc⟩
    obtain ⟨p, hp⟩ := h.waits b ⟨c, hpruned.consumers b c hc⟩
    exact hpruned.exists_producer hlt hp
  · intro b hnone p hp
    have hnone' : ∀ c, c ∉ s.getBarrierConsumers b := by
      intro c hc
      obtain ⟨c', hc'⟩ := hpruned.exists_consumer hlt hc
      exact hnone c' hc'
    obtain ⟨hsync, hblock⟩ := h.ends b hnone' p (hpruned.producers b p hp)
    exact ⟨hsync, fun p' hp' => hblock p' (hpruned.producers b p' hp')⟩

theorem closed_of_fits {split : GraphSplit} (h : s.Consistent) (hk : BlockRange split s k lo hi)
    (hfits : ∀ t c, inRange lo hi t = true → s.Edge t c → split.Fits t c) : Closed split s lo hi false := by
  right
  intro t c ht hskip hedge
  obtain ⟨htlo, hthi⟩ := inRange_iff.mp ht
  obtain ⟨htc, hfits⟩ := hfits t c ht hedge
  rw [inRange_iff]
  refine ⟨by omega, ?_⟩
  cases hk.last with
  | inl hend =>
    obtain ⟨b, -, hc⟩ := hedge
    have := (h.consumer_lt hc).2
    omega
  | inr hsync =>
    have hne : t ≠ hi := fun heq => hskip ⟨heq, heq ▸ hsync⟩
    exact hfits hi hsync (by omega)

theorem SplitGraph.closed (h : SplitGraph config s) (hk : BlockRange config.split s k lo hi) :
    Closed config.split s lo hi false :=
  closed_of_fits h.consistent hk fun t c _ hedge => h.fits t c hedge

theorem blockOf_of_inRange (hsplit : config.split.WellFormed s.getNumOfTasks) (hk : BlockRange config.split s k lo hi) {t : ℕ}
    (ht : inRange lo hi t = true) (hsync : t ∉ config.split.syncTasksIds) : blockOf config.split.syncTasksIds t = k := by
  obtain ⟨hlo, hhi⟩ := inRange_iff.mp ht
  have hlt := block_lt_count hk.range
  have hcount : config.split.getControlGraphBlockCount = config.split.syncTasksIds.length + 1 := rfl
  have hle : blockOf config.split.syncTasksIds t ≤ config.split.syncTasksIds.length := countP_le_length
  have hrange := hk.range
  unfold getControlGraphBlockTaskRange at hrange
  rw [if_neg (Nat.not_le.mpr hlt), Except.ok.injEq, Prod.mk.injEq, if_pos rfl, if_pos rfl] at hrange
  rcases Nat.lt_trichotomy (blockOf config.split.syncTasksIds t) k with hbefore | heq | hbehind
  · have hge := (not_congr (getD_lt_iff hsplit.sorted (t := t) (i := k - 1) (by omega))).mpr (by omega)
    rw [if_neg (by omega)] at hrange
    have heq : t = config.split.syncTasksIds.getD (k - 1) 0 := by omega
    exact absurd (heq ▸ sync_mem (by omega)) hsync
  · exact heq
  · have hend := (getD_lt_iff hsplit.sorted (t := t) (i := k) (by omega)).mpr hbehind
    have hnot : ¬ k = config.split.getControlGraphBlockCount - 1 := by omega
    rw [if_neg hnot] at hrange
    omega

theorem SplitGraph.searched_producers (h : SplitGraph config s) (hk : BlockRange config.split s k lo hi) {last t b : ℕ}
    (hrange : config.split.getControlGraphBlockTaskRange s k true false = .ok (lo, last)) (hlo : lo ≤ t) (hlast : t ≤ last)
    (ht : t ∈ s.getBarrierProducers b) : ∀ x ∈ s.getBarrierProducers b, Searched config s lo hi x := by
  intro x hx
  have hxLt := (h.consistent.producer_lt hx).2
  refine ⟨hxLt, ?_⟩
  intro hxSync
  obtain ⟨last', hrange', hle, hend⟩ := exists_updateRange h.split hk
  rw [hrange, Except.ok.injEq, Prod.mk.injEq] at hrange'
  obtain ⟨-, rfl⟩ := hrange'
  by_cases hconsumer : ∃ c, c ∈ s.getBarrierConsumers b
  · obtain ⟨c, hc⟩ := hconsumer
    obtain ⟨htc, htFits⟩ := h.fits t c ⟨b, ht, hc⟩
    obtain ⟨hxc, hxFits⟩ := h.fits x c ⟨b, hx, hc⟩
    rw [inRange_iff]
    constructor
    · cases hk.first with
      | inl hzero => omega
      | inr hsync =>
        by_contra hlt
        have := hxFits lo hsync (by omega)
        omega
    · rcases hend with ⟨-, hn⟩ | ⟨hsync, hpred⟩
      · omega
      · have := htFits hi hsync (by omega)
        omega
  · push Not at hconsumer
    obtain ⟨htSync, hblock⟩ := h.ends b hconsumer t ht
    have htIn : inRange lo hi t = true := inRange_iff.mpr ⟨hlo, Nat.le_trans hlast hle⟩
    have htBlock := blockOf_of_inRange h.split hk htIn htSync
    have hk' := hk
    rw [← htBlock, hblock x hx] at hk'
    exact inRange_block h.split hxLt hk'

theorem SplitGraph.searched_consumers (h : SplitGraph config s) (hk : BlockRange config.split s k lo hi) {first t b : ℕ}
    (hrange : config.split.getControlGraphBlockTaskRange s k false true = .ok (first, hi)) (hfirst : first ≤ t) (hhi : t ≤ hi)
    (ht : t ∈ s.getBarrierConsumers b) : ∀ x ∈ s.getBarrierConsumers b, Searched config s lo hi x := by
  intro x hx
  have hxLt := (h.consistent.consumer_lt hx).2
  refine ⟨hxLt, ?_⟩
  intro hxSync
  obtain ⟨first', hrange', hstart⟩ := exists_waitRange hk
  rw [hrange, Except.ok.injEq, Prod.mk.injEq] at hrange'
  obtain ⟨rfl, -⟩ := hrange'
  obtain ⟨p, hp⟩ := h.waits b ⟨t, ht⟩
  obtain ⟨hpt, htFits⟩ := h.fits p t ⟨b, hp, ht⟩
  obtain ⟨hpx, hxFits⟩ := h.fits p x ⟨b, hp, hx⟩
  rw [inRange_iff]
  constructor
  · rcases hstart with ⟨-, hzero⟩ | ⟨hsync, hnext⟩
    · omega
    · by_contra hlt
      have := htFits lo hsync (by omega)
      omega
  · cases hk.last with
    | inl hn => omega
    | inr hsync =>
      by_contra hgt
      have := hxFits hi hsync (by omega)
      omega

end

section
variable {config : OptimizeConfig} {path found : ℕ → ℕ → Prop} {s maps : BarrierInfo} {m : TaskControlMap} {k lo hi t b : ℕ}

theorem SameMaps.pruned {maps' : BarrierInfo} (h : SameMaps maps maps') (hconsistent : maps'.Consistent) : Pruned path maps maps' :=
  ⟨hconsistent, h.tasks, h.barriers, fun b x => (h.producers b x).mp, fun b x => (h.consumers b x).mp,
    fun b x hx hout => absurd ((h.producers b x).mpr hx) hout, fun b y hy hout => absurd ((h.consumers b y).mpr hy) hout⟩

theorem Pruned.searched {tasks : TaskSet} (h : Pruned path s maps) (hsearched : ∀ x ∈ tasks, Searched config s lo hi x) :
    ∀ x ∈ tasks, Searched config maps lo hi x := by
  intro x hx
  obtain ⟨hlt, hin⟩ := hsearched x hx
  exact ⟨h.tasks.symm ▸ hlt, hin⟩

theorem ofMaps_update {s' : BarrierInfo} (h : s'.getNumOfBarrierOps = s.getNumOfBarrierOps) : { ofMaps s with maps := s' } = ofMaps s' :=
  eq_ofMaps h.symm rfl

section
variable (h : SplitGraph config s) (hk : BlockRange config.split s k lo hi) (hlength : m.length = hi - lo + 1)
  (hbits : RowBit lo hi m = found) (hfound : ∀ x y, found x y → path x y) (hpruned : Pruned path s maps)
include h hk hlength hbits hfound hpruned

theorem pruneProducers_spec {last : ℕ}
    (hrange : config.split.getControlGraphBlockTaskRange s k true false = .ok (lo, last)) (hlo : lo ≤ t) (hlast : t ≤ last)
    (ht : t ∈ s.getBarrierProducers b) :
    ∃ tasks, findRedundantDependencies config maps m lo true (maps.getBarrierProducers b) = .ok tasks ∧
      Pruned path s (removeProducers maps b tasks) := by
  have hsearched := h.searched_producers hk hrange hlo hlast ht
  obtain ⟨tasks, hrun, hredundant⟩ := @findRedundantDependencies_spec config maps lo hi m found true (hpruned.tasks.symm ▸ h.split)
    hlength hbits (maps.getBarrierProducers b)
    (hpruned.searched (fun x hx => hsearched x (hpruned.producers b x hx)))
  refine ⟨tasks, hrun, hpruned.trans (removeProducers_pruned hpruned.consistent ?_)⟩
  intro x hx
  obtain ⟨y, hy, hpath⟩ := hredundant x hx
  exact ⟨y, hy, hfound x y hpath⟩

theorem pruneConsumers_spec {first : ℕ}
    (hrange : config.split.getControlGraphBlockTaskRange s k false true = .ok (first, hi)) (hfirst : first ≤ t) (hhi : t ≤ hi)
    (ht : t ∈ s.getBarrierConsumers b) :
    ∃ tasks, findRedundantDependencies config maps m lo false (maps.getBarrierConsumers b) = .ok tasks ∧
      Pruned path s (removeConsumers maps b tasks) := by
  have hsearched := h.searched_consumers hk hrange hfirst hhi ht
  obtain ⟨tasks, hrun, hredundant⟩ := @findRedundantDependencies_spec config maps lo hi m found false (hpruned.tasks.symm ▸ h.split)
    hlength hbits (maps.getBarrierConsumers b)
    (hpruned.searched (fun x hx => hsearched x (hpruned.consumers b x hx)))
  refine ⟨tasks, hrun, hpruned.trans (removeConsumers_pruned hpruned.consistent ?_)⟩
  intro y hy
  obtain ⟨x, hx, hpath⟩ := hredundant y hy
  exact ⟨x, hx, hfound x y hpath⟩

end

theorem found_orderedBy {considerTaskFifoDependency : Bool} {x y : ℕ}
    (h : Found (SeenEdge config s k lo hi considerTaskFifoDependency) (SeenOnward config s k lo hi considerTaskFifoDependency) x y) :
    s.OrderedBy (QueueOrder config.getTaskQueueType) x y := by
  refine Relation.TransGen.mono ?_ x y (h.transGen (fun _ _ honward => honward.1))
  rintro x y ⟨-, -, hedge | ⟨-, first, last, -, q, -, hnext⟩⟩
  · exact .inl hedge
  · obtain ⟨-, hlt, -, hx, hy, -⟩ := hnext
    exact .inr ⟨hlt, hx.trans hy.symm⟩

theorem removeRedundantInBlock_spec (h : SplitGraph config s) (hlt : k < config.split.getControlGraphBlockCount)
    (considerTaskFifoDependency : Bool) :
    ∃ s', removeRedundantInBlock config considerTaskFifoDependency (ofMaps s) k = .ok (ofMaps s') ∧
      Pruned (s.OrderedBy (QueueOrder config.getTaskQueueType)) s s' := by
  obtain ⟨lo, hi, hk⟩ := exists_blockRange h.split hlt
  obtain ⟨m, restored, hbuild, hconsistent, hsame, hlength, hbits⟩ := @buildTaskControlMap_rows config s k lo hi
    considerTaskFifoDependency h.consistent h.split h.pos h.queues hk (h.closed hk)
  have hfound (x y : ℕ) := @found_orderedBy config s k lo hi considerTaskFifoDependency x y
  have hrestored : Pruned (s.OrderedBy (QueueOrder config.getTaskQueueType)) s restored := SameMaps.pruned hsame hconsistent
  -- a run over barriers keeps what is pruned so far
  let Keeps (st : FifoBarrierInfo) : Prop := ∃ maps, st = ofMaps maps ∧ Pruned (s.OrderedBy (QueueOrder config.getTaskQueueType)) s maps
  obtain ⟨last, hupdateRange, -⟩ := exists_updateRange h.split hk
  have hupdateRange' : config.split.getControlGraphBlockTaskRange (ofMaps restored).maps k true false = .ok (lo, last) := by
    unfold getControlGraphBlockTaskRange at hupdateRange ⊢
    rw [← hupdateRange]
    simp only [ofMaps, hsame.tasks]
  obtain ⟨updates, hupdates, hupdateSpec⟩ := @getBarriersForTaskBlock_spec config (ofMaps restored) k lo last true false true hupdateRange'
  obtain ⟨st₁, hrun₁, ⟨maps₁, rfl, hpruned₁⟩, -⟩ := @foldlM_establishes _ _ _ Keeps (fun _ _ => True) updates (ofMaps restored)
    (fun s barrierIdx => do
      let producersToRemove ← findRedundantDependencies config s.maps m lo true (s.maps.getBarrierProducers barrierIdx)
      return { s with maps := removeProducers s.maps barrierIdx producersToRemove }) ⟨restored, rfl, hrestored⟩ (by
      rintro b hb _ ⟨maps, rfl, hpruned⟩
      obtain ⟨t, hlo, hlast, ht⟩ := hupdateSpec.used b hb
      have ht' := hrestored.producers b t (hconsistent.update_iff.mp ht)
      obtain ⟨tasks, hrun, hpruned'⟩ := pruneProducers_spec h hk hlength hbits hfound hpruned hupdateRange hlo hlast ht'
      refine ⟨_, ?_, ⟨removeProducers maps b tasks, rfl, hpruned'⟩, trivial, fun _ _ => trivial⟩
      change Except.bind (findRedundantDependencies config maps m lo true (maps.getBarrierProducers b)) _ = _
      rw [hrun]
      exact congrArg Except.ok (ofMaps_update (removeProducers_spec hpruned.consistent).2.2.1))
  obtain ⟨first, hwaitRange, -⟩ := exists_waitRange hk
  have hwaitRange' : config.split.getControlGraphBlockTaskRange (ofMaps maps₁).maps k false true = .ok (first, hi) := by
    unfold getControlGraphBlockTaskRange at hwaitRange ⊢
    rw [← hwaitRange]
    simp only [ofMaps, hpruned₁.tasks]
  obtain ⟨waits, hwaits, hwaitSpec⟩ := @getBarriersForTaskBlock_spec config (ofMaps maps₁) k first hi false true false hwaitRange'
  obtain ⟨st₂, hrun₂, ⟨maps₂, rfl, hpruned₂⟩, -⟩ := @foldlM_establishes _ _ _ Keeps (fun _ _ => True) waits (ofMaps maps₁)
    (fun s barrierIdx => do
      let consumersToRemove ← findRedundantDependencies config s.maps m lo false (s.maps.getBarrierConsumers barrierIdx)
      return { s with maps := removeConsumers s.maps barrierIdx consumersToRemove }) ⟨maps₁, rfl, hpruned₁⟩ (by
      rintro b hb _ ⟨maps, rfl, hpruned⟩
      obtain ⟨t, hfirst, hhi, ht⟩ := hwaitSpec.used b hb
      have ht' := hpruned₁.consumers b t (hpruned₁.consistent.wait_iff.mp ht)
      obtain ⟨tasks, hrun, hpruned'⟩ := pruneConsumers_spec h hk hlength hbits hfound hpruned hwaitRange hfirst hhi ht'
      refine ⟨_, ?_, ⟨removeConsumers maps b tasks, rfl, hpruned'⟩, trivial, fun _ _ => trivial⟩
      change Except.bind (findRedundantDependencies config maps m lo false (maps.getBarrierConsumers b)) _ = _
      rw [hrun]
      exact congrArg Except.ok (ofMaps_update (removeConsumers_spec hpruned.consistent).2.2.1))
  refine ⟨maps₂, ?_, hpruned₂⟩
  unfold removeRedundantInBlock
  rw [hbuild]
  change Except.bind ((ofMaps restored).getBarriersForTaskBlock config k true false true) _ = _
  rw [hupdates]
  change Except.bind (List.foldlM _ _ _) _ = _
  rw [hrun₁]
  change Except.bind ((ofMaps maps₁).getBarriersForTaskBlock config k false true false) _ = _
  rw [hwaits]
  exact hrun₂

theorem queueOrder_lt (x y : ℕ) (h : QueueOrder config.getTaskQueueType x y) : x < y := h.1

theorem removeRedundant_run (h : SplitGraph config s) (considerTaskFifoDependency : Bool) :
    ∃ s', removeRedundantBarrierProducersAndConsumers config considerTaskFifoDependency (ofMaps s) = .ok (ofMaps s') ∧
      SplitGraph config s' ∧ Pruned (s.OrderedBy (QueueOrder config.getTaskQueueType)) s s' := by
  let Keeps (st : FifoBarrierInfo) : Prop := ∃ maps, st = ofMaps maps ∧ Pruned (s.OrderedBy (QueueOrder config.getTaskQueueType)) s maps
  have hlt (x y : ℕ) : s.OrderedBy (QueueOrder config.getTaskQueueType) x y → x < y := orderedBy_lt h.topological queueOrder_lt
  obtain ⟨st, hrun, ⟨maps, rfl, hpruned⟩, -⟩ := @foldlM_establishes _ _ _ Keeps (fun _ _ => True)
    (List.range config.split.getControlGraphBlockCount) (ofMaps s) (removeRedundantInBlock config considerTaskFifoDependency)
    ⟨s, rfl, pruned_refl h.consistent⟩ (by
      rintro k hk _ ⟨maps, rfl, hpruned⟩
      obtain ⟨maps', hstep, hpruned'⟩ := removeRedundantInBlock_spec (h.pruned hpruned hlt) (mem_range.mp hk)
        considerTaskFifoDependency
      have horder : maps.OrderedBy (QueueOrder config.getTaskQueueType) = s.OrderedBy (QueueOrder config.getTaskQueueType) := by
        funext p c
        exact propext (hpruned.orderedBy_iff h.topological queueOrder_lt)
      exact ⟨_, hstep, ⟨maps', rfl, hpruned.trans (horder ▸ hpruned')⟩, trivial, fun _ _ => trivial⟩)
  exact ⟨maps, hrun, h.pruned hpruned hlt, hpruned⟩

end

end NpuCompiler.Barrier
