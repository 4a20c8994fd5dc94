import Mathlib.Algebra.Ring.Nat
import NpuCompiler.Library.LinkMap

namespace NpuCompiler.Barrier

open List

/-- `llvm::SmallSet<size_t, 16>`, of task indices or of barrier indices. -/
abbrev TaskSet := SmallSet ℕ 16

structure BarrierInfo where
  /-- `_barrierProducerMap` and `_taskUpdateBarriers`. -/
  produce : LinkMap 16
  /-- `_barrierConsumerMap` and `_taskWaitBarriers`. -/
  consume : LinkMap 16
  deriving DecidableEq

namespace BarrierInfo

def empty : BarrierInfo := ⟨⟨[], []⟩, ⟨[], []⟩⟩

def getBarrierProducers (s : BarrierInfo) (barrierInd : ℕ) : TaskSet := row s.produce.left barrierInd

def getBarrierConsumers (s : BarrierInfo) (barrierInd : ℕ) : TaskSet := row s.consume.left barrierInd

def getUpdateBarriers (s : BarrierInfo) (taskInd : ℕ) : TaskSet := row s.produce.right taskInd

def getWaitBarriers (s : BarrierInfo) (taskInd : ℕ) : TaskSet := row s.consume.right taskInd

def getNumOfTasks (s : BarrierInfo) : ℕ := s.produce.right.length

def getNumOfBarrierOps (s : BarrierInfo) : ℕ := s.produce.left.length

def addProducer (s : BarrierInfo) (barrierInd taskInd : ℕ) : BarrierInfo :=
  { s with produce := s.produce.link barrierInd taskInd }

def addConsumer (s : BarrierInfo) (barrierInd taskInd : ℕ) : BarrierInfo :=
  { s with consume := s.consume.link barrierInd taskInd }

def removeProducer (s : BarrierInfo) (barrierInd taskInd : ℕ) : BarrierInfo :=
  { s with produce := s.produce.unlink barrierInd taskInd }

def removeConsumer (s : BarrierInfo) (barrierInd taskInd : ℕ) : BarrierInfo :=
  { s with consume := s.consume.unlink barrierInd taskInd }

def addProducers (s : BarrierInfo) (barrierInd : ℕ) (taskInds : List ℕ) : BarrierInfo :=
  taskInds.foldl (fun s taskInd => s.addProducer barrierInd taskInd) s

def addConsumers (s : BarrierInfo) (barrierInd : ℕ) (taskInds : List ℕ) : BarrierInfo :=
  taskInds.foldl (fun s taskInd => s.addConsumer barrierInd taskInd) s

def setWaitBarriers (s : BarrierInfo) (taskInd : ℕ) (barriers : TaskSet) : BarrierInfo :=
  { s with consume := s.consume.setRight taskInd barriers }

def setUpdateBarriers (s : BarrierInfo) (taskInd : ℕ) (barriers : TaskSet) : BarrierInfo :=
  { s with produce := s.produce.setRight taskInd barriers }

def resetBarrier (s : BarrierInfo) (barrierInd : ℕ) : BarrierInfo :=
  ⟨s.produce.clearLeft barrierInd, s.consume.clearLeft barrierInd⟩

def addNewBarrier (s : BarrierInfo) : BarrierInfo := ⟨s.produce.addLeft, s.consume.addLeft⟩

def addNewTaskOp (s : BarrierInfo) : BarrierInfo := ⟨s.produce.addRight, s.consume.addRight⟩

/-- The maps of producers and of update barriers are inverse to each other, and so are those of consumers and of
wait barriers. -/
structure Consistent (s : BarrierInfo) : Prop where
  produce : s.produce.Inverse
  consume : s.consume.Inverse
  barriers : s.consume.left.length = s.produce.left.length
  tasks : s.consume.right.length = s.produce.right.length

section
variable {s : BarrierInfo} {b t : ℕ}

theorem consistent_empty : Consistent empty := by
  refine ⟨?_, ?_, rfl, rfl⟩
  · intro b t
    rw [row_out (Nat.zero_le _), row_out (Nat.zero_le _)]
    simp
  · intro b t
    rw [row_out (Nat.zero_le _), row_out (Nat.zero_le _)]
    simp

section
variable (h : Consistent s)
include h

theorem Consistent.update_iff : b ∈ s.getUpdateBarriers t ↔ t ∈ s.getBarrierProducers b :=
  (h.produce b t).symm

theorem Consistent.wait_iff : b ∈ s.getWaitBarriers t ↔ t ∈ s.getBarrierConsumers b :=
  (h.consume b t).symm

theorem Consistent.producer_lt (ht : t ∈ s.getBarrierProducers b) :
    b < s.getNumOfBarrierOps ∧ t < s.getNumOfTasks := ⟨lt_of_mem_row ht, h.produce.lt_right ht⟩

theorem Consistent.consumer_lt (ht : t ∈ s.getBarrierConsumers b) :
    b < s.getNumOfBarrierOps ∧ t < s.getNumOfTasks := by
  constructor
  · exact Nat.lt_of_lt_of_eq (lt_of_mem_row ht) h.barriers
  · exact Nat.lt_of_lt_of_eq (h.consume.lt_right ht) h.tasks

theorem Consistent.addProducer (hb : b < s.getNumOfBarrierOps) (ht : t < s.getNumOfTasks) :
    Consistent (s.addProducer b t) :=
  ⟨h.produce.link hb ht, h.consume, by simpa [BarrierInfo.addProducer] using h.barriers,
    by simpa [BarrierInfo.addProducer] using h.tasks⟩

theorem Consistent.addConsumer (hb : b < s.getNumOfBarrierOps) (ht : t < s.getNumOfTasks) :
    Consistent (s.addConsumer b t) :=
  ⟨h.produce, h.consume.link (Nat.lt_of_lt_of_eq hb h.barriers.symm) (Nat.lt_of_lt_of_eq ht h.tasks.symm),
    by simpa [BarrierInfo.addConsumer] using h.barriers, by simpa [BarrierInfo.addConsumer] using h.tasks⟩

theorem Consistent.removeProducer : Consistent (s.removeProducer b t) :=
  ⟨h.produce.unlink, h.consume, by simpa [BarrierInfo.removeProducer] using h.barriers,
    by simpa [BarrierInfo.removeProducer] using h.tasks⟩

theorem Consistent.removeConsumer : Consistent (s.removeConsumer b t) :=
  ⟨h.produce, h.consume.unlink, by simpa [BarrierInfo.removeConsumer] using h.barriers,
    by simpa [BarrierInfo.removeConsumer] using h.tasks⟩

theorem Consistent.setWaitBarriers (ht : t < s.getNumOfTasks) {barriers : TaskSet}
    (hb : ∀ b ∈ barriers.toList, b < s.getNumOfBarrierOps) : Consistent (s.setWaitBarriers t barriers) :=
  ⟨h.produce, h.consume.setRight (Nat.lt_of_lt_of_eq ht h.tasks.symm) (fun b hmem => Nat.lt_of_lt_of_eq (hb b hmem) h.barriers.symm),
    by simpa [BarrierInfo.setWaitBarriers] using h.barriers, by simpa [BarrierInfo.setWaitBarriers] using h.tasks⟩

theorem Consistent.setUpdateBarriers (ht : t < s.getNumOfTasks) {barriers : TaskSet}
    (hb : ∀ b ∈ barriers.toList, b < s.getNumOfBarrierOps) : Consistent (s.setUpdateBarriers t barriers) :=
  ⟨h.produce.setRight ht hb, h.consume, by simpa [BarrierInfo.setUpdateBarriers] using h.barriers,
    by simpa [BarrierInfo.setUpdateBarriers] using h.tasks⟩

theorem Consistent.resetBarrier : Consistent (s.resetBarrier b) :=
  ⟨h.produce.clearLeft, h.consume.clearLeft, by simpa [BarrierInfo.resetBarrier] using h.barriers,
    by simpa [BarrierInfo.resetBarrier] using h.tasks⟩

theorem Consistent.addNewBarrier : Consistent s.addNewBarrier :=
  ⟨h.produce.addLeft, h.consume.addLeft,
    by simpa [BarrierInfo.addNewBarrier, LinkMap.addLeft] using h.barriers, h.tasks⟩

theorem Consistent.addNewTaskOp : Consistent s.addNewTaskOp :=
  ⟨h.produce.addRight, h.consume.addRight, h.barriers,
    by simpa [BarrierInfo.addNewTaskOp, LinkMap.addRight] using h.tasks⟩

end

variable {b' t' : ℕ}

@[simp] theorem mem_producers_removeProducer : t' ∈ (s.removeProducer b t).getBarrierProducers b' ↔
    ¬ (b' = b ∧ t' = t) ∧ t' ∈ s.getBarrierProducers b' := LinkMap.mem_unlink_left

@[simp] theorem consumers_removeProducer : (s.removeProducer b t).getBarrierConsumers b' = s.getBarrierConsumers b' := rfl

@[simp] theorem mem_consumers_removeConsumer : t' ∈ (s.removeConsumer b t).getBarrierConsumers b' ↔
    ¬ (b' = b ∧ t' = t) ∧ t' ∈ s.getBarrierConsumers b' := LinkMap.mem_unlink_left

@[simp] theorem producers_removeConsumer : (s.removeConsumer b t).getBarrierProducers b' = s.getBarrierProducers b' := rfl

@[simp] theorem mem_producers_resetBarrier :
    t' ∈ (s.resetBarrier b).getBarrierProducers b' ↔ b' ≠ b ∧ t' ∈ s.getBarrierProducers b' := LinkMap.mem_clearLeft_left

@[simp] theorem mem_consumers_resetBarrier :
    t' ∈ (s.resetBarrier b).getBarrierConsumers b' ↔ b' ≠ b ∧ t' ∈ s.getBarrierConsumers b' := LinkMap.mem_clearLeft_left

theorem mem_producers_addProducer (hb : b < s.getNumOfBarrierOps) : t' ∈ (s.addProducer b t).getBarrierProducers b' ↔
    (b' = b ∧ t' = t) ∨ t' ∈ s.getBarrierProducers b' := LinkMap.mem_link_left hb

theorem mem_consumers_addConsumer (hb : b < s.consume.left.length) :
    t' ∈ (s.addConsumer b t).getBarrierConsumers b' ↔ (b' = b ∧ t' = t) ∨ t' ∈ s.getBarrierConsumers b' :=
  LinkMap.mem_link_left hb

@[simp] theorem numOfTasks_removeProducer : (s.removeProducer b t).getNumOfTasks = s.getNumOfTasks :=
  LinkMap.length_unlink_right

@[simp] theorem numOfTasks_resetBarrier : (s.resetBarrier b).getNumOfTasks = s.getNumOfTasks :=
  LinkMap.length_clearLeft_right

@[simp] theorem numOfBarrierOps_removeProducer : (s.removeProducer b t).getNumOfBarrierOps = s.getNumOfBarrierOps :=
  LinkMap.length_unlink_left

@[simp] theorem numOfBarrierOps_resetBarrier : (s.resetBarrier b).getNumOfBarrierOps = s.getNumOfBarrierOps :=
  LinkMap.length_clearLeft_left

@[simp] theorem numOfTasks_addProducer : (s.addProducer b t).getNumOfTasks = s.getNumOfTasks := LinkMap.length_link_right

@[simp] theorem numOfBarrierOps_addProducer : (s.addProducer b t).getNumOfBarrierOps = s.getNumOfBarrierOps :=
  LinkMap.length_link_left

@[simp] theorem numOfTasks_addConsumer : (s.addConsumer b t).getNumOfTasks = s.getNumOfTasks := rfl

@[simp] theorem numOfBarrierOps_addConsumer : (s.addConsumer b t).getNumOfBarrierOps = s.getNumOfBarrierOps := rfl

@[simp] theorem numOfTasks_removeConsumer : (s.removeConsumer b t).getNumOfTasks = s.getNumOfTasks := rfl

@[simp] theorem numOfBarrierOps_removeConsumer : (s.removeConsumer b t).getNumOfBarrierOps = s.getNumOfBarrierOps := rfl

@[simp] theorem producers_addConsumer : (s.addConsumer b t).getBarrierProducers b' = s.getBarrierProducers b' := rfl

@[simp] theorem consumers_addProducer : (s.addProducer b t).getBarrierConsumers b' = s.getBarrierConsumers b' := rfl

@[simp] theorem producers_addNewBarrier : s.addNewBarrier.getBarrierProducers b' = s.getBarrierProducers b' :=
  row_append_empty

@[simp] theorem consumers_addNewBarrier : s.addNewBarrier.getBarrierConsumers b' = s.getBarrierConsumers b' :=
  row_append_empty

@[simp] theorem numOfTasks_addNewBarrier : s.addNewBarrier.getNumOfTasks = s.getNumOfTasks := rfl

@[simp] theorem numOfBarrierOps_addNewBarrier : s.addNewBarrier.getNumOfBarrierOps = s.getNumOfBarrierOps + 1 :=
  length_append

structure WithProducers (s s' : BarrierInfo) (b : ℕ) (taskInds : List ℕ) : Prop where
  consistent : s'.Consistent
  tasks : s'.getNumOfTasks = s.getNumOfTasks
  barriers : s'.getNumOfBarrierOps = s.getNumOfBarrierOps
  producers : ∀ b' t', t' ∈ s'.getBarrierProducers b' ↔ (b' = b ∧ t' ∈ taskInds) ∨ t' ∈ s.getBarrierProducers b'
  consumers : ∀ b', s'.getBarrierConsumers b' = s.getBarrierConsumers b'

theorem addProducers_spec (h : s.Consistent) (hb : b < s.getNumOfBarrierOps) {taskInds : List ℕ}
    (ht : ∀ t ∈ taskInds, t < s.getNumOfTasks) : WithProducers s (s.addProducers b taskInds) b taskInds := by
  unfold addProducers
  induction taskInds generalizing s with
  | nil => exact ⟨h, rfl, rfl, by simp, fun _ => rfl⟩
  | cons t taskInds ih =>
    obtain ⟨ht, hts⟩ := forall_mem_cons.mp ht
    obtain ⟨hconsistent, htasks, hbarriers, hproducers, hconsumers⟩ :=
      @ih (s.addProducer b t) (h.addProducer hb ht) (by simpa using hb) (by simpa using hts)
    refine ⟨hconsistent, by simpa using htasks, by simpa using hbarriers, ?_, fun b' => hconsumers b'⟩
    intro b' t'
    rw [foldl_cons, hproducers, mem_producers_addProducer hb, mem_cons]
    tauto

structure WithConsumers (s s' : BarrierInfo) (b : ℕ) (taskInds : List ℕ) : Prop where
  consistent : s'.Consistent
  tasks : s'.getNumOfTasks = s.getNumOfTasks
  barriers : s'.getNumOfBarrierOps = s.getNumOfBarrierOps
  consumers : ∀ b' t', t' ∈ s'.getBarrierConsumers b' ↔ (b' = b ∧ t' ∈ taskInds) ∨ t' ∈ s.getBarrierConsumers b'
  producers : ∀ b', s'.getBarrierProducers b' = s.getBarrierProducers b'

theorem addConsumers_spec (h : s.Consistent) (hb : b < s.getNumOfBarrierOps) {taskInds : List ℕ}
    (ht : ∀ t ∈ taskInds, t < s.getNumOfTasks) : WithConsumers s (s.addConsumers b taskInds) b taskInds := by
  unfold addConsumers
  induction taskInds generalizing s with
  | nil => exact ⟨h, rfl, rfl, by simp, fun _ => rfl⟩
  | cons t taskInds ih =>
    obtain ⟨ht, hts⟩ := forall_mem_cons.mp ht
    obtain ⟨hconsistent, htasks, hbarriers, hconsumers, hproducers⟩ :=
      @ih (s.addConsumer b t) (h.addConsumer hb ht) (by simpa using hb) (by simpa using hts)
    refine ⟨hconsistent, by simpa using htasks, by simpa using hbarriers, ?_, fun b' => hproducers b'⟩
    intro b' t'
    rw [foldl_cons, hconsumers, mem_consumers_addConsumer (Nat.lt_of_lt_of_eq hb h.barriers.symm), mem_cons]
    tauto

structure WithBarrier (s s' : BarrierInfo) (producerInds consumerInds : List ℕ) : Prop where
  consistent : s'.Consistent
  tasks : s'.getNumOfTasks = s.getNumOfTasks
  barriers : s'.getNumOfBarrierOps = s.getNumOfBarrierOps + 1
  producers : ∀ b' t', t' ∈ s'.getBarrierProducers b' ↔
    (b' = s.getNumOfBarrierOps ∧ t' ∈ producerInds) ∨ t' ∈ s.getBarrierProducers b'
  consumers : ∀ b' t', t' ∈ s'.getBarrierConsumers b' ↔
    (b' = s.getNumOfBarrierOps ∧ t' ∈ consumerInds) ∨ t' ∈ s.getBarrierConsumers b'

theorem addNewBarrier_spec (h : s.Consistent) {producerInds consumerInds : List ℕ} (hp : ∀ t ∈ producerInds, t < s.getNumOfTasks)
    (hc : ∀ t ∈ consumerInds, t < s.getNumOfTasks) :
    WithBarrier s ((s.addNewBarrier.addProducers s.getNumOfBarrierOps producerInds).addConsumers s.getNumOfBarrierOps consumerInds)
      producerInds consumerInds := by
  have hnew : s.getNumOfBarrierOps < s.addNewBarrier.getNumOfBarrierOps := by simp
  have hproduce := addProducers_spec h.addNewBarrier hnew hp
  have hconsume := addConsumers_spec hproduce.consistent (Nat.lt_of_lt_of_eq hnew hproduce.barriers.symm)
    (fun t ht => Nat.lt_of_lt_of_eq (hc t ht) hproduce.tasks.symm)
  refine ⟨hconsume.consistent, hconsume.tasks.trans hproduce.tasks, hconsume.barriers.trans (hproduce.barriers.trans (by simp)), ?_, ?_⟩
  · intro b' t'
    rw [hconsume.producers, hproduce.producers, producers_addNewBarrier]
  · intro b' t'
    rw [hconsume.consumers, hproduce.consumers, consumers_addNewBarrier]

def EdgeAt (s : BarrierInfo) (b p c : ℕ) : Prop := p ∈ s.getBarrierProducers b ∧ c ∈ s.getBarrierConsumers b

def Edge (s : BarrierInfo) (p c : ℕ) : Prop := ∃ b, EdgeAt s b p c

def Ordered (s : BarrierInfo) : ℕ → ℕ → Prop := Relation.TransGen s.Edge

def Topological (s : BarrierInfo) : Prop := ∀ p c, s.Edge p c → p < c

variable {s s' : BarrierInfo} {p c : ℕ}

theorem Topological.lt_of_ordered (h : s.Topological) (hordered : s.Ordered p c) : p < c := by
  induction hordered with
  | single hedge => exact h _ _ hedge
  | tail _ hedge ih => exact Nat.lt_trans ih (h _ _ hedge)

theorem Ordered.mono (h : ∀ p c, s.Edge p c → s'.Ordered p c) (hordered : s.Ordered p c) : s'.Ordered p c :=
  Relation.TransGen.closed h p c hordered

theorem forall_edges {maps : BarrierInfo} {P : ℕ → ℕ → Prop} (h : ∀ b < maps.getNumOfBarrierOps,
    ∀ p ∈ (maps.getBarrierProducers b).toList, ∀ c ∈ (maps.getBarrierConsumers b).toList, P p c) :
    ∀ p c, maps.Edge p c → P p c := by
  rintro p c ⟨b, hp, hc⟩
  exact h b (lt_of_mem_row hp) p hp c hc

end

end BarrierInfo

end NpuCompiler.Barrier
