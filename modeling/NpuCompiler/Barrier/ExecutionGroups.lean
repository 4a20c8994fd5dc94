import NpuCompiler.Barrier.DescriptorFetch

namespace NpuCompiler.Barrier

open List

/-- The `SwKernelOp`s of a task's body and the `DPUTaskOp`s of each of its `NCEClusterTaskOp`s. -/
structure TaskBody where
  swKernelOps : ℕ
  dpuTasks : List ℕ

structure ExecutionGroupAnalysis where
  taskQueueTypeMap : List (TaskQueueType × List ℕ)
  barrierInfo : Option (ℕ → TaskBody)
  maxKernelInvocationCount : ℕ
  maxKernelRangeCount : ℕ
  maxVariantCount : ℕ
  maxInvariantCount : ℕ

/-- The counts are `uint32_t`, the limits `size_t`. -/
def uint32 (counts : ℕ × ℕ) : ℕ × ℕ := (counts.1 % 2 ^ 32, counts.2 % 2 ^ 32)

/-- What a task adds to both counts of its group, and where they start again when it opens a group. -/
structure GroupCounts where
  added : ℕ → ℕ × ℕ
  reset : ℕ → ℕ × ℕ
  limits : ℕ × ℕ

namespace GroupCounts

variable (c : GroupCounts)

def Exceeds (counts : ℕ × ℕ) : Prop := counts.1 > c.limits.1 ∨ counts.2 > c.limits.2

instance (counts : ℕ × ℕ) : Decidable (c.Exceeds counts) := inferInstanceAs (Decidable (_ ∨ _))

def taskExecutionGroups (execGroup : List ℕ) (counts : ℕ × ℕ) : List ℕ → ExecutionGroupList
  | [] => if execGroup = [] then [] else [execGroup]
  | taskIdx :: queue =>
    let counts := uint32 (counts + c.added taskIdx)
    if c.Exceeds counts then execGroup :: taskExecutionGroups [taskIdx] (uint32 (c.reset taskIdx)) queue
    else taskExecutionGroups (execGroup ++ [taskIdx]) counts queue

end GroupCounts

namespace ExecutionGroupAnalysis

variable (a : ExecutionGroupAnalysis)

def kernelCounts : GroupCounts :=
  let count (taskIdx : ℕ) := match a.barrierInfo with
    | some body => (body taskIdx).swKernelOps
    | none => 1
  ⟨fun taskIdx => (count taskIdx, count taskIdx), fun taskIdx => (count taskIdx, count taskIdx),
    (a.maxKernelInvocationCount, a.maxKernelRangeCount)⟩

def variantCounts : GroupCounts where
  added taskIdx := match a.barrierInfo with
    | some body => ((body taskIdx).dpuTasks.sum, (body taskIdx).dpuTasks.length)
    | none => (1, 1)
  -- `dpuSize` has the variants of the last inner operation
  reset taskIdx := match a.barrierInfo with
    | some body => ((body taskIdx).dpuTasks.getLastD 0, 1)
    | none => (0, 1)
  limits := (a.maxVariantCount, a.maxInvariantCount)

def createSWTaskExecutionGroups : List (TaskQueueType × ExecutionGroupList) :=
  (a.taskQueueTypeMap.filter (·.1.type = .shaveAct)).map fun (queueType, tileSWQueue) =>
    (queueType, a.kernelCounts.taskExecutionGroups [] 0 tileSWQueue)

def createDPUTaskExecutionGroups : List (TaskQueueType × ExecutionGroupList) :=
  (a.taskQueueTypeMap.filter (·.1.type = .dpu)).map fun (queueType, tileDpuQueue) =>
    (queueType, a.variantCounts.taskExecutionGroups [] 0 tileDpuQueue)

end ExecutionGroupAnalysis

namespace GroupCounts

variable {c : GroupCounts} {execGroup queue : List ℕ} {counts : ℕ × ℕ} {groups : ExecutionGroupList} {taskIdx : ℕ}

def sum (c : GroupCounts) (group : List ℕ) : ℕ × ℕ := (group.map c.added).sum

/-- The groups of a queue: consecutive, within both limits and as long as these allow. -/
structure Grouped (c : GroupCounts) (queue : List ℕ) (groups : ExecutionGroupList) : Prop where
  concat : groups.flatten = queue
  nonempty : ∀ group ∈ groups, group ≠ []
  within : ∀ group ∈ groups, c.Exceeds (c.sum group) → group.length = 1
  closed : groups.IsChain fun group later => ∀ taskIdx ∈ later.head?, c.Exceeds (c.sum group + c.added taskIdx)

def greedyFrom (c : GroupCounts) (execGroup : List ℕ) : List ℕ → ExecutionGroupList
  | [] => [execGroup]
  | taskIdx :: queue =>
    if c.Exceeds (c.sum execGroup + c.added taskIdx) then execGroup :: greedyFrom c [taskIdx] queue
    else greedyFrom c (execGroup ++ [taskIdx]) queue

/-- The groups that the sums of the tasks' own numbers ask for, without a counter. -/
def greedyGroups (c : GroupCounts) : List ℕ → ExecutionGroupList
  | [] => []
  | taskIdx :: queue => greedyFrom c [taskIdx] queue

/-- In 32 bits the count of a group stays within the limits, and exceeds them with the task that opens the next group. -/
def CountsMatch (c : GroupCounts) (later count : List ℕ → ℕ × ℕ) : ExecutionGroupList → Prop
  | [] => True
  | group :: groups =>
    (∀ opened, opened <+: group → 1 < opened.length → ¬c.Exceeds (uint32 (count opened))) ∧
      (∀ next ∈ groups.head?, c.Exceeds (uint32 (count (group ++ next.take 1)))) ∧ CountsMatch c later later groups

theorem sum_append : c.sum (execGroup ++ [taskIdx]) = c.sum execGroup + c.added taskIdx := by
  simp [sum]

theorem Exceeds.mono {sums : ℕ × ℕ} (h : c.Exceeds counts) : c.Exceeds (counts + sums) := by
  unfold Exceeds at *
  rw [Prod.fst_add, Prod.snd_add]
  omega

theorem flatten_taskExecutionGroups : (c.taskExecutionGroups execGroup counts queue).flatten = execGroup ++ queue := by
  induction queue generalizing execGroup counts with
  | nil =>
    unfold taskExecutionGroups
    split_ifs with hnil
    · rw [hnil]
      rfl
    · simp
  | cons taskIdx queue ih =>
    unfold taskExecutionGroups
    dsimp only
    split_ifs
    · rw [flatten_cons, ih]
      rfl
    · rw [ih, append_assoc]
      rfl

theorem taskExecutionGroups_head (hne : execGroup ≠ []) :
    ∃ more rest, c.taskExecutionGroups execGroup counts queue = (execGroup ++ more) :: rest := by
  induction queue generalizing execGroup counts with
  | nil => exact ⟨[], [], by simp [taskExecutionGroups, hne]⟩
  | cons taskIdx queue ih =>
    unfold taskExecutionGroups
    dsimp only
    split_ifs
    · exact ⟨[], _, by rw [append_nil]⟩
    · obtain ⟨more, rest, heq⟩ := @ih (execGroup ++ [taskIdx]) (uint32 (counts + c.added taskIdx)) (by simp)
      exact ⟨taskIdx :: more, rest, by rw [heq, append_assoc]; rfl⟩

theorem greedyFrom_head : ∃ more rest, c.greedyFrom execGroup queue = (execGroup ++ more) :: rest := by
  induction queue generalizing execGroup with
  | nil => exact ⟨[], [], by rw [append_nil]; rfl⟩
  | cons taskIdx queue ih =>
    unfold greedyFrom
    split_ifs
    · exact ⟨[], _, by rw [append_nil]⟩
    · obtain ⟨more, rest, heq⟩ := @ih (execGroup ++ [taskIdx])
      exact ⟨taskIdx :: more, rest, by rw [heq, append_assoc]; rfl⟩

theorem Grouped.of_cons {group : List ℕ} (h : Grouped c (group ++ queue) (group :: groups)) : Grouped c queue groups := by
  refine ⟨?_, fun g hg => h.nonempty g (mem_cons_of_mem _ hg), fun g hg => h.within g (mem_cons_of_mem _ hg), ?_⟩
  · exact append_cancel_left h.concat
  · exact List.IsChain.tail h.closed

theorem uint32_add {sums : ℕ × ℕ} : uint32 (uint32 counts + sums) = uint32 (counts + sums) := by
  simp [uint32]

/-- What a group with a count counts: the tasks after the one that opens it in full. -/
def Counts (c : GroupCounts) (count : List ℕ → ℕ × ℕ) : Prop :=
  ∀ group taskIdx, group ≠ [] → count (group ++ [taskIdx]) = count group + c.added taskIdx

/-- By induction over the rest of the queue, with an open group that may only be too large alone. -/
theorem grouped_iff_countsMatch {later count : List ℕ → ℕ × ℕ} (hlater : c.Counts later)
    (hreset : ∀ taskIdx, later [taskIdx] = c.reset taskIdx) (hcount : c.Counts count) (hne : execGroup ≠ [])
    (hwithin : c.Exceeds (c.sum execGroup) → execGroup.length = 1)
    (hopened : ∀ opened, opened <+: execGroup → 1 < opened.length → ¬c.Exceeds (uint32 (count opened))) :
    Grouped c (execGroup ++ queue) (c.taskExecutionGroups execGroup (uint32 (count execGroup)) queue) ↔
      c.CountsMatch later count (c.greedyFrom execGroup queue) := by
  induction queue generalizing execGroup count with
  | nil =>
    unfold taskExecutionGroups greedyFrom CountsMatch CountsMatch
    rw [if_neg hne]
    refine iff_of_true ⟨by simp, ?_, ?_, isChain_singleton _⟩ ⟨hopened, by simp, trivial⟩
    · simpa using hne
    · simpa using hwithin
  | cons taskIdx queue ih =>
    have hlaterGroups := ih hlater (cons_ne_nil taskIdx []) (fun _ => rfl) (by
      intro opened hprefix hlong
      have := hprefix.length_le
      exact absurd hlong (Nat.not_lt.mpr this))
    rw [hreset] at hlaterGroups
    obtain ⟨more, rest, hhead⟩ := @taskExecutionGroups_head c [taskIdx] queue (uint32 (c.reset taskIdx)) (by simp)
    obtain ⟨longer, _, hlonger⟩ :=
      @taskExecutionGroups_head c (execGroup ++ [taskIdx]) queue (uint32 (count (execGroup ++ [taskIdx]))) (by simp)
    obtain ⟨_, _, hgreedy⟩ := @greedyFrom_head c [taskIdx] queue
    obtain ⟨_, _, hgreedyLonger⟩ := @greedyFrom_head c (execGroup ++ [taskIdx]) queue
    have hcounts : uint32 (uint32 (count execGroup) + c.added taskIdx) = uint32 (count (execGroup ++ [taskIdx])) := by
      rw [uint32_add, hcount execGroup taskIdx hne]
    unfold taskExecutionGroups greedyFrom
    dsimp only
    rw [hcounts]
    by_cases hexceeds : c.Exceeds (uint32 (count (execGroup ++ [taskIdx])))
    · rw [if_pos hexceeds]
      by_cases hsums : c.Exceeds (c.sum execGroup + c.added taskIdx)
      · rw [if_pos hsums, CountsMatch, ← hlaterGroups]
        constructor
        · refine fun h => ⟨hopened, ?_, h.of_cons⟩
          rw [hgreedy]
          intro next hnext
          cases hnext
          exact hexceeds
        · rintro ⟨-, -, h⟩
          refine ⟨?_, ?_, ?_, ?_⟩
          · rw [flatten_cons, h.concat]
            rfl
          · simpa using ⟨hne, h.nonempty⟩
          · simpa using ⟨hwithin, h.within⟩
          · have hclosed := h.closed
            rw [hhead] at hclosed ⊢
            apply hclosed.cons_cons
            intro group hgroup
            cases hgroup
            exact hsums
      · rw [if_neg hsums]
        refine iff_of_false (fun h => ?_) (fun h => ?_)
        · have hclosed := h.closed
          rw [hhead, isChain_cons_cons] at hclosed
          exact hsums (hclosed.1 taskIdx rfl)
        · rw [hgreedyLonger] at h
          refine h.1 _ (prefix_append _ _) ?_ hexceeds
          have := length_pos_iff.mpr hne
          rw [length_append, length_singleton]
          omega
    · rw [if_neg hexceeds]
      by_cases hsums : c.Exceeds (c.sum execGroup + c.added taskIdx)
      · rw [if_pos hsums, CountsMatch, hgreedy]
        refine iff_of_false (fun h => ?_) (fun h => hexceeds (h.2.1 _ rfl))
        have hlong := h.within _ (hlonger ▸ mem_cons_self)
        have hsum : c.sum (execGroup ++ [taskIdx] ++ longer) = c.sum execGroup + c.added taskIdx + c.sum longer := by
          simp [sum, add_assoc]
        have hlength := hlong (hsum ▸ hsums.mono)
        have hpos := length_pos_iff.mpr hne
        simp only [length_append, length_singleton] at hlength
        omega
      · rw [if_neg hsums]
        have hsame := @ih (execGroup ++ [taskIdx]) count hcount (by simp)
          (fun hwide => absurd (sum_append ▸ hwide) hsums) (by
            intro opened hprefix hlong
            rcases prefix_concat_iff.mp hprefix with rfl | hprefix
            · exact hexceeds
            · exact hopened opened hprefix hlong)
        rwa [append_assoc] at hsame

def FirstFits (c : GroupCounts) (queue : List ℕ) : Prop := ∀ taskIdx ∈ queue.head?, ¬c.Exceeds (uint32 (c.added taskIdx))

theorem counts_sum : c.Counts c.sum := fun _ _ _ => sum_append

theorem grouped_iff {later : List ℕ → ℕ × ℕ} (hlater : c.Counts later) (hreset : ∀ taskIdx, later [taskIdx] = c.reset taskIdx) :
    Grouped c queue (c.taskExecutionGroups [] 0 queue) ↔ c.FirstFits queue ∧ c.CountsMatch later c.sum (c.greedyGroups queue) := by
  cases queue with
  | nil => exact iff_of_true ⟨rfl, by simp [taskExecutionGroups], by simp [taskExecutionGroups], .nil⟩ ⟨by simp [FirstFits], trivial⟩
  | cons taskIdx queue =>
    have hfirst : c.FirstFits (taskIdx :: queue) ↔ ¬c.Exceeds (uint32 (c.added taskIdx)) := by
      simp [FirstFits]
    unfold taskExecutionGroups
    rw [hfirst, zero_add]
    by_cases hexceeds : c.Exceeds (uint32 (c.added taskIdx))
    · dsimp only
      rw [if_pos hexceeds]
      -- the group before the first task is closed although it is empty
      exact iff_of_false (fun h => h.nonempty [] mem_cons_self rfl) (fun h => h.1 hexceeds)
    · have hiff := @grouped_iff_countsMatch c [taskIdx] queue later c.sum hlater hreset counts_sum (by simp) (fun _ => rfl) (by
        intro opened hprefix hlong
        exact absurd hlong (Nat.not_lt.mpr hprefix.length_le))
      rw [show c.sum [taskIdx] = c.added taskIdx by simp [sum]] at hiff
      dsimp only
      rw [if_neg hexceeds, and_iff_right hexceeds]
      exact hiff

end GroupCounts

/-- The count of a group that an earlier one has been closed for: of the task that opens it, the variants of the last inner
operation, for one invariant. -/
def ExecutionGroupAnalysis.laterCounts (a : ExecutionGroupAnalysis) : List ℕ → ℕ × ℕ
  | [] => 0
  | taskIdx :: group => (a.barrierInfo.elim 0 fun body => (body taskIdx).dpuTasks.getLastD 0, 1) + a.variantCounts.sum group

theorem taskExecutionGroups_iff (a : ExecutionGroupAnalysis) (queue : List ℕ) :
    (a.kernelCounts.Grouped queue (a.kernelCounts.taskExecutionGroups [] 0 queue) ↔ a.kernelCounts.FirstFits queue ∧
      a.kernelCounts.CountsMatch a.kernelCounts.sum a.kernelCounts.sum (a.kernelCounts.greedyGroups queue)) ∧
    (a.variantCounts.Grouped queue (a.variantCounts.taskExecutionGroups [] 0 queue) ↔ a.variantCounts.FirstFits queue ∧
      a.variantCounts.CountsMatch a.laterCounts a.variantCounts.sum (a.variantCounts.greedyGroups queue)) := by
  refine ⟨GroupCounts.grouped_iff GroupCounts.counts_sum ?_, GroupCounts.grouped_iff ?_ ?_⟩
  · intro taskIdx
    simp [GroupCounts.sum, ExecutionGroupAnalysis.kernelCounts]
  · intro group taskIdx hne
    cases group with
    | nil => exact absurd rfl hne
    | cons first group =>
      change _ + a.variantCounts.sum (group ++ [taskIdx]) = _ + a.variantCounts.sum group + _
      rw [GroupCounts.sum_append, ← add_assoc]
  · intro taskIdx
    unfold ExecutionGroupAnalysis.laterCounts ExecutionGroupAnalysis.variantCounts
    cases a.barrierInfo with
    | none => rfl
    | some body => simp [GroupCounts.sum]

def wideTask : ExecutionGroupAnalysis := ⟨[(⟨.dpu, 0⟩, [0, 1])], some fun _ => ⟨0, [65]⟩, 32, 32, 64, 64⟩

theorem wideTask_emptyGroup : wideTask.createDPUTaskExecutionGroups = [(⟨.dpu, 0⟩, [[], [0], [1]])] ∧
    ¬wideTask.variantCounts.Grouped [0, 1] [[], [0], [1]] :=
  ⟨by decide, fun h => h.nonempty [] mem_cons_self rfl⟩

end NpuCompiler.Barrier
