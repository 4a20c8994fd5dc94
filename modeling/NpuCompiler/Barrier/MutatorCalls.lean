import Mathlib.Data.List.GetD
import NpuCompiler.Barrier.BarrierInfo
import NpuCompiler.Library.StateInvariant

namespace NpuCompiler.Barrier

open List

structure Slots where
  slots : List ℕ
  size : ℕ

/-- `SmallVector::erase` moves the later elements one slot down. The slot of the last one keeps its value. -/
def Slots.erase (v : Slots) (a : ℕ) : Slots :=
  let elements := v.slots.take v.size
  if a ∈ elements then
    ⟨elements.take (elements.idxOf a) ++ elements.drop (elements.idxOf a + 1) ++ v.slots.drop (v.size - 1), v.size - 1⟩
  else v

/-- One iteration of a loop that erases from the very set it runs over: the reference to the current slot is read
again for the second erasure. -/
def unlinkSlot (l : ℕ) (state : LinkMap 16 × Slots) (i : ℕ) : LinkMap 16 × Slots :=
  let taskInd := state.2.slots.getD i 0
  let slots := state.2.erase taskInd
  (⟨state.1.left.modify l (·.erase taskInd), state.1.right.modify (slots.slots.getD i 0) (·.erase l)⟩, slots)

def unlinkOwn (m : LinkMap 16) (l : ℕ) : LinkMap 16 :=
  let elements := (row m.left l).vector
  ((List.range elements.length).foldl (unlinkSlot l) (m, ⟨elements, elements.length⟩)).1

/-- The mutators. The tasks of a set are given as those that the loop over it reads. -/
inductive Call
  | addProducer (barrierInd taskInd : ℕ)
  | addConsumer (barrierInd taskInd : ℕ)
  | removeProducer (barrierInd taskInd : ℕ)
  | removeConsumer (barrierInd taskInd : ℕ)
  | addProducers (barrierInd : ℕ) (taskInds : List ℕ)
  | addConsumers (barrierInd : ℕ) (taskInds : List ℕ)
  | removeProducers (barrierInd : ℕ) (taskInds : List ℕ)
  | removeConsumers (barrierInd : ℕ) (taskInds : List ℕ)
  /-- `removeProducers` with a reference to the producers of the barrier itself. -/
  | removeOwnProducers (barrierInd : ℕ)
  /-- `removeConsumers` with a reference to the consumers of the barrier itself. -/
  | removeOwnConsumers (barrierInd : ℕ)
  | setWaitBarriers (taskInd : ℕ) (barriers : TaskSet)
  | setUpdateBarriers (taskInd : ℕ) (barriers : TaskSet)
  | resetBarrier (barrierInd : ℕ)
  | addNewBarrier
  | addNewTaskOp

namespace Call

def inRange (s : BarrierInfo) : Call → Bool
  | addProducer barrierInd taskInd | addConsumer barrierInd taskInd | removeProducer barrierInd taskInd
  | removeConsumer barrierInd taskInd => barrierInd < s.getNumOfBarrierOps && taskInd < s.getNumOfTasks
  | addProducers barrierInd taskInds | addConsumers barrierInd taskInds | removeProducers barrierInd taskInds
  | removeConsumers barrierInd taskInds => barrierInd < s.getNumOfBarrierOps && taskInds.all (· < s.getNumOfTasks)
  | removeOwnProducers barrierInd | removeOwnConsumers barrierInd | resetBarrier barrierInd =>
    barrierInd < s.getNumOfBarrierOps
  | setWaitBarriers taskInd barriers | setUpdateBarriers taskInd barriers =>
    taskInd < s.getNumOfTasks && barriers.toList.all (· < s.getNumOfBarrierOps)
  | addNewBarrier | addNewTaskOp => true

/-- There is no result where the source uses an index out of range, or an iterator of a tree node that it has erased. -/
def apply (s : BarrierInfo) (call : Call) : Option BarrierInfo :=
  if !call.inRange s then none
  else match call with
    | addProducer barrierInd taskInd => some (s.addProducer barrierInd taskInd)
    | addConsumer barrierInd taskInd => some (s.addConsumer barrierInd taskInd)
    | removeProducer barrierInd taskInd => some (s.removeProducer barrierInd taskInd)
    | removeConsumer barrierInd taskInd => some (s.removeConsumer barrierInd taskInd)
    | addProducers barrierInd taskInds => some (s.addProducers barrierInd taskInds)
    | addConsumers barrierInd taskInds => some (s.addConsumers barrierInd taskInds)
    | removeProducers barrierInd taskInds => some (taskInds.foldl (fun s taskInd => s.removeProducer barrierInd taskInd) s)
    | removeConsumers barrierInd taskInds => some (taskInds.foldl (fun s taskInd => s.removeConsumer barrierInd taskInd) s)
    | removeOwnProducers barrierInd =>
      if (s.getBarrierProducers barrierInd).set = [] then some { s with produce := unlinkOwn s.produce barrierInd } else none
    | removeOwnConsumers barrierInd =>
      if (s.getBarrierConsumers barrierInd).set = [] then some { s with consume := unlinkOwn s.consume barrierInd } else none
    | setWaitBarriers taskInd barriers => some (s.setWaitBarriers taskInd barriers)
    | setUpdateBarriers taskInd barriers => some (s.setUpdateBarriers taskInd barriers)
    | resetBarrier barrierInd => some (s.resetBarrier barrierInd)
    | addNewBarrier => some s.addNewBarrier
    | addNewTaskOp => some s.addNewTaskOp

def ownSetSmall (s : BarrierInfo) : Call → Bool
  | removeOwnProducers barrierInd =>
    (s.getBarrierProducers barrierInd).set = [] && (s.getBarrierProducers barrierInd).vector.length ≤ 1
  | removeOwnConsumers barrierInd =>
    (s.getBarrierConsumers barrierInd).set = [] && (s.getBarrierConsumers barrierInd).vector.length ≤ 1
  | _ => true

end Call

section
variable {m : LinkMap 16} {l : ℕ}

theorem unlinkOwn_inverse (h : m.Inverse) (hlength : (row m.left l).vector.length ≤ 1) : (unlinkOwn m l).Inverse := by
  unfold unlinkOwn
  cases helements : (row m.left l).vector with
  | nil => exact h
  | cons taskInd taskInds =>
    rw [helements, length_cons] at hlength
    have hnil : taskInds = [] := length_eq_zero_iff.mp (Nat.le_zero.mp (Nat.le_of_succ_le_succ hlength))
    subst hnil
    have hunlink : ((List.range [taskInd].length).foldl (unlinkSlot l) (m, ⟨[taskInd], [taskInd].length⟩)).1 =
        m.unlink l taskInd := by
      simp [range_succ, unlinkSlot, Slots.erase, LinkMap.unlink]
    dsimp only
    rw [hunlink]
    exact h.unlink

theorem length_unlinkOwn : (unlinkOwn m l).left.length = m.left.length ∧ (unlinkOwn m l).right.length = m.right.length := by
  have hfold : ∀ (is : List ℕ) (state : LinkMap 16 × Slots),
      (is.foldl (unlinkSlot l) state).1.left.length = state.1.left.length ∧
        (is.foldl (unlinkSlot l) state).1.right.length = state.1.right.length := by
    intro is
    induction is with
    | nil => exact fun _ => ⟨rfl, rfl⟩
    | cons i is ih =>
      intro state
      obtain ⟨hleft, hright⟩ := ih (unlinkSlot l state i)
      exact ⟨hleft.trans (length_modify ..), hright.trans (length_modify ..)⟩
  exact hfold _ _

end

namespace Call

variable {s s' : BarrierInfo} {b : ℕ} {taskInds : List ℕ}

theorem removeProducers_consistent (h : s.Consistent) :
    (taskInds.foldl (fun s taskInd => s.removeProducer b taskInd) s).Consistent := by
  induction taskInds generalizing s with
  | nil => exact h
  | cons t taskInds ih => exact ih h.removeProducer

theorem removeConsumers_consistent (h : s.Consistent) :
    (taskInds.foldl (fun s taskInd => s.removeConsumer b taskInd) s).Consistent := by
  induction taskInds generalizing s with
  | nil => exact h
  | cons t taskInds ih => exact ih h.removeConsumer

theorem apply_consistent {call : Call} (h : s.Consistent) (hsmall : call.ownSetSmall s = true) (happly : call.apply s = some s') :
    s'.Consistent := by
  unfold apply at happly
  by_cases hrange : call.inRange s = true
  · rw [hrange] at happly
    unfold inRange at hrange
    cases call with
    | addProducer b t =>
      simp only [Bool.and_eq_true, decide_eq_true_eq] at hrange
      cases happly
      exact h.addProducer hrange.1 hrange.2
    | addConsumer b t =>
      simp only [Bool.and_eq_true, decide_eq_true_eq] at hrange
      cases happly
      exact h.addConsumer hrange.1 hrange.2
    | removeProducer b t =>
      cases happly
      exact h.removeProducer
    | removeConsumer b t =>
      cases happly
      exact h.removeConsumer
    | addProducers b taskInds =>
      simp only [Bool.and_eq_true, decide_eq_true_eq, all_eq_true] at hrange
      cases happly
      exact (BarrierInfo.addProducers_spec h hrange.1 hrange.2).consistent
    | addConsumers b taskInds =>
      simp only [Bool.and_eq_true, decide_eq_true_eq, all_eq_true] at hrange
      cases happly
      exact (BarrierInfo.addConsumers_spec h hrange.1 hrange.2).consistent
    | removeProducers b taskInds =>
      cases happly
      exact removeProducers_consistent h
    | removeConsumers b taskInds =>
      cases happly
      exact removeConsumers_consistent h
    | removeOwnProducers b =>
      simp only [ownSetSmall, Bool.and_eq_true, decide_eq_true_eq] at hsmall
      have hresult : some { s with produce := unlinkOwn s.produce b } = some s' := by
        rw [← happly]
        exact (if_pos hsmall.1).symm
      cases hresult
      refine ⟨unlinkOwn_inverse h.produce hsmall.2, h.consume, ?_, ?_⟩
      · exact h.barriers.trans length_unlinkOwn.1.symm
      · exact h.tasks.trans length_unlinkOwn.2.symm
    | removeOwnConsumers b =>
      simp only [ownSetSmall, Bool.and_eq_true, decide_eq_true_eq] at hsmall
      have hresult : some { s with consume := unlinkOwn s.consume b } = some s' := by
        rw [← happly]
        exact (if_pos hsmall.1).symm
      cases hresult
      refine ⟨h.produce, unlinkOwn_inverse h.consume hsmall.2, ?_, ?_⟩
      · exact length_unlinkOwn.1.trans h.barriers
      · exact length_unlinkOwn.2.trans h.tasks
    | setWaitBarriers t barriers =>
      simp only [Bool.and_eq_true, decide_eq_true_eq, all_eq_true] at hrange
      cases happly
      exact h.setWaitBarriers hrange.1 hrange.2
    | setUpdateBarriers t barriers =>
      simp only [Bool.and_eq_true, decide_eq_true_eq, all_eq_true] at hrange
      cases happly
      exact h.setUpdateBarriers hrange.1 hrange.2
    | resetBarrier b =>
      cases happly
      exact h.resetBarrier
    | addNewBarrier =>
      cases happly
      exact h.addNewBarrier
    | addNewTaskOp =>
      cases happly
      exact h.addNewTaskOp
  · rw [(Bool.not_eq_true _).mp hrange] at happly
    cases happly

end Call

end NpuCompiler.Barrier
