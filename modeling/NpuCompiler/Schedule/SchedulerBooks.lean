import NpuCompiler.Schedule.ScheduleComputeOps

namespace NpuCompiler.Schedule

open UndoLog (Tracks)

structure Ledger where
  bufferProducer : ℕ → Option ℕ
  bufferLastCycleUse : ℕ → Option ℕ
  opIdxEndCycleMap : ℕ → Option ℕ
  bufferProducerDeltas : UndoLog ℕ ℕ
  bufferLastCycleUseDeltas : UndoLog ℕ ℕ
  opIdxEndCycleMapDeltas : UndoLog ℕ ℕ
  readyDataOps : List ℕ
  spillBufferMap : ℕ → Option (List ℕ)
  aliveValues : List ℕ
  getUsedBuffers : ℕ → List ℕ
  readyDMAOps : List ℕ
  cycleEndHeap : List HeapEntry
  computeOpOrder : List (QueueType × List ℕ)
  inDegreeTable : ℕ → Option ℕ
  scheduledLoopRegionInd : List ℕ

def SchedulerState.ledger (s : SchedulerState) : Ledger where
  bufferProducer := s.bufferProducer
  bufferLastCycleUse := s.bufferLastCycleUse
  opIdxEndCycleMap := s.opIdxEndCycleMap
  bufferProducerDeltas := s.bufferProducerDeltas
  bufferLastCycleUseDeltas := s.bufferLastCycleUseDeltas
  opIdxEndCycleMapDeltas := s.opIdxEndCycleMapDeltas
  readyDataOps := s.readyDataOps
  spillBufferMap := s.spillBufferMap
  aliveValues := s.scan.handler.aliveValues
  getUsedBuffers := s.getUsedBuffers
  readyDMAOps := s.readyDMAOps
  cycleEndHeap := s.cycleEndHeap
  computeOpOrder := s.computeOpOrder
  inDegreeTable := s.inDegreeTable
  scheduledLoopRegionInd := s.scheduledLoopRegionInd

namespace Ledger

variable (l : Ledger)

def Scheduled (opIdx : ℕ) : Prop := l.opIdxEndCycleMap opIdx ≠ none

def Produced (buffer : ℕ) : Prop := l.bufferProducer buffer ≠ none

end Ledger

def Precedes (f : FeasibleMemoryScheduler) : ℕ → ℕ → Prop :=
  Relation.ReflTransGen (fun dep opIdx => dep ∈ f.getOpDeps opIdx)

structure Books (f : FeasibleMemoryScheduler) (l : Ledger) : Prop where
  deps_scheduled : ∀ opIdx, l.Scheduled opIdx → ∀ dep ∈ f.getOpDeps opIdx, l.Scheduled dep
  outputs_produced : ∀ opIdx, l.Scheduled opIdx → ∀ buffer ∈ f.getOutputBuffers opIdx, l.Produced buffer
  producer_scheduled : ∀ buffer opIdx, l.bufferProducer buffer = some opIdx → l.Scheduled opIdx
  ready_deps : ∀ opIdx ∈ l.readyDataOps, ∀ dep ∈ f.getOpDeps opIdx, l.Scheduled dep
  spilled_scheduled : ∀ opIdx, l.spillBufferMap opIdx ≠ none → l.Scheduled opIdx
  /-- A buffer is written by the operation that uses it or by one before it. -/
  written : ∀ opIdx, ∀ buffer ∈ l.getUsedBuffers opIdx, ∃ writer, Precedes f writer opIdx ∧
    buffer ∈ f.getOutputBuffers writer

structure Consistent (f : FeasibleMemoryScheduler) (s : SchedulerState) : Prop where
  books : Books f s.ledger
  alive_produced : ∀ buffer ∈ s.scan.handler.aliveValues, s.ledger.Produced buffer

structure Untouched (entry l : Ledger) : Prop where
  readyDMAOps : l.readyDMAOps = entry.readyDMAOps
  cycleEndHeap : l.cycleEndHeap = entry.cycleEndHeap
  computeOpOrder : l.computeOpOrder = entry.computeOpOrder
  inDegreeTable : l.inDegreeTable = entry.inDegreeTable
  getUsedBuffers : l.getUsedBuffers = entry.getUsedBuffers
  scheduledLoopRegionInd : l.scheduledLoopRegionInd = entry.scheduledLoopRegionInd

structure Tracked (entry l : Ledger) : Prop where
  producers : Tracks entry.bufferProducer l.bufferProducer l.bufferProducerDeltas
  lastUses : Tracks entry.bufferLastCycleUse l.bufferLastCycleUse l.bufferLastCycleUseDeltas
  ends : Tracks entry.opIdxEndCycleMap l.opIdxEndCycleMap l.opIdxEndCycleMapDeltas

/-- The state between `entry` and the end of the compute operations: the operations of `done` are scheduled, and the
buffers of `pending` may be alive before their producers are. -/
structure Underway (f : FeasibleMemoryScheduler) (entry : Ledger) (done pending : Set ℕ) (l : Ledger) : Prop where
  untouched : Untouched entry l
  tracked : Tracked entry l
  books : Books f l
  scheduled : ∀ opIdx ∈ done, l.Scheduled opIdx
  alive : ∀ buffer ∈ l.aliveValues, l.Produced buffer ∨ buffer ∈ pending

section
variable {f : FeasibleMemoryScheduler} {entry : Ledger} {done pending : Set ℕ} {s : SchedulerState} {opIdx buffer : ℕ}

theorem Books.precedes_scheduled {l : Ledger} (h : Books f l) {writer : ℕ} (hw : Precedes f writer opIdx)
    (ho : l.Scheduled opIdx) : l.Scheduled writer := by
  induction hw using Relation.ReflTransGen.head_induction_on with
  | refl => exact ho
  | head hdep _ ih => exact h.deps_scheduled _ ih _ hdep

theorem Books.used_produced {l : Ledger} (h : Books f l) (ho : l.Scheduled opIdx)
    (hb : buffer ∈ l.getUsedBuffers opIdx) : l.Produced buffer := by
  obtain ⟨writer, hw, hout⟩ := h.written opIdx buffer hb
  exact h.outputs_produced writer (h.precedes_scheduled hw ho) buffer hout

theorem Underway.settle (h : Underway f entry done (pending ∪ {b | b ∈ s.getUsedBuffers opIdx}) s.ledger)
    (ho : s.ledger.Scheduled opIdx) : Underway f entry done pending s.ledger := by
  refine ⟨h.untouched, h.tracked, h.books, h.scheduled, ?_⟩
  intro buffer hbuffer
  cases h.alive buffer hbuffer with
  | inl hproduced => exact Or.inl hproduced
  | inr hp =>
    cases hp with
    | inl hp => exact Or.inr hp
    | inr hused => exact Or.inl (h.books.used_produced ho hused)

theorem Underway.settleBuffer {l : Ledger} (h : Underway f entry done (insert buffer pending) l)
    (hb : l.Produced buffer) : Underway f entry done pending l := by
  refine ⟨h.untouched, h.tracked, h.books, h.scheduled, ?_⟩
  intro b halive
  cases h.alive b halive with
  | inl hproduced => exact Or.inl hproduced
  | inr hp =>
    cases hp with
    | inl heq => exact Or.inl (heq ▸ hb)
    | inr hp => exact Or.inr hp

theorem Underway.mono {done' pending' : Set ℕ} {l : Ledger} (h : Underway f entry done pending l) (hd : done' ⊆ done)
    (hp : pending ⊆ pending') : Underway f entry done' pending' l :=
  ⟨h.untouched, h.tracked, h.books, fun opIdx ho => h.scheduled opIdx (hd ho),
    fun buffer hb => (h.alive buffer hb).imp id (fun hpending => hp hpending)⟩

theorem Underway.finish {l : Ledger} (h : Underway f entry done pending l) (ho : l.Scheduled opIdx) :
    Underway f entry (insert opIdx done) pending l := by
  refine ⟨h.untouched, h.tracked, h.books, ?_, h.alive⟩
  rintro op (rfl | hop)
  · exact ho
  · exact h.scheduled op hop

theorem Underway.markAsAlive (h : Underway f entry done pending s.ledger)
    (hb : s.ledger.Produced buffer ∨ buffer ∈ pending) :
    Underway f entry done pending (s.updateHandler (·.markAsAlive buffer)).ledger := by
  refine ⟨⟨h.1.1, h.1.2, h.1.3, h.1.4, h.1.5, h.1.6⟩, ⟨h.2.1, h.2.2, h.2.3⟩, ⟨h.3.1, h.3.2, h.3.3, h.3.4, h.3.5, h.3.6⟩,
    h.scheduled, ?_⟩
  intro b hmem
  have hcases : b = buffer ∨ b ∈ s.scan.handler.aliveValues := List.mem_insert_iff.mp hmem
  cases hcases with
  | inl heq => exact heq ▸ hb
  | inr hold => exact h.alive b hold

theorem Underway.eraseReadyData (h : Underway f entry done pending s.ledger) :
    Underway f entry done pending (s.eraseReadyData opIdx).ledger := by
  refine ⟨⟨h.1.1, h.1.2, h.1.3, h.1.4, h.1.5, h.1.6⟩, ⟨h.2.1, h.2.2, h.2.3⟩, ⟨h.3.1, h.3.2, h.3.3, ?_, h.3.5, h.3.6⟩,
    h.scheduled, h.alive⟩
  intro op hop
  exact h.books.ready_deps op (List.mem_of_mem_filter hop)

theorem Underway.eraseSpillBuffer (h : Underway f entry done pending s.ledger) :
    Underway f entry done pending (s.eraseSpillBuffer opIdx buffer).ledger := by
  refine ⟨⟨h.1.1, h.1.2, h.1.3, h.1.4, h.1.5, h.1.6⟩, ⟨h.2.1, h.2.2, h.2.3⟩, ⟨h.3.1, h.3.2, h.3.3, h.3.4, ?_, h.3.6⟩,
    h.scheduled, h.alive⟩
  intro op hop
  apply h.books.spilled_scheduled op
  intro hnone
  apply hop
  by_cases heq : op = opIdx
  · subst heq
    have hspill : s.spillBufferMap op = none := hnone
    simp [SchedulerState.ledger, SchedulerState.eraseSpillBuffer, hspill]
  · have hkeep : (s.eraseSpillBuffer opIdx buffer).ledger.spillBufferMap op = s.spillBufferMap op :=
      Function.update_of_ne heq _ _
    exact hkeep.trans hnone

structure Updated (opIdx : ℕ) (touched : List (ℕ × Bool)) (l l' : Ledger) : Prop where
  produced : ∀ buffer, l'.Produced buffer ↔ l.Produced buffer ∨ (buffer, true) ∈ touched
  producer : ∀ buffer writer, l'.bufferProducer buffer = some writer →
    l.bufferProducer buffer = some writer ∨ writer = opIdx
  tracked : ∀ entry, Tracked entry l → Tracked entry l'
  rest : l' = { l with
    bufferProducer := l'.bufferProducer
    bufferProducerDeltas := l'.bufferProducerDeltas
    bufferLastCycleUse := l'.bufferLastCycleUse
    bufferLastCycleUseDeltas := l'.bufferLastCycleUseDeltas }

theorem updated_nil : Updated opIdx [] s.ledger s.ledger :=
  ⟨fun _ => by simp, fun _ _ h => Or.inl h, fun _ h => h, rfl⟩

theorem Updated.trans {touched touched' : List (ℕ × Bool)} {l l' l'' : Ledger} (h : Updated opIdx touched l l')
    (h' : Updated opIdx touched' l' l'') : Updated opIdx (touched ++ touched') l l'' := by
  constructor
  · intro b
    rw [h'.produced, h.produced, List.mem_append, or_assoc]
  · intro b writer hb
    cases h'.producer b writer hb with
    | inl hb => exact h.producer b writer hb
    | inr heq => exact Or.inr heq
  · intro entry ht
    exact h'.tracked entry (h.tracked entry ht)
  · rw [h'.rest, h.rest]

theorem updated_lastUse (opIdx opCycleEnd buffer : ℕ) (s : SchedulerState) :
    Updated opIdx [(buffer, false)] s.ledger
      (s.updateBufferCycleUseAndProducer opIdx opCycleEnd buffer false).ledger := by
  unfold SchedulerState.updateBufferCycleUseAndProducer
  cases huse : s.bufferLastCycleUse buffer with
  | some cycleEnd =>
    simp only [Bool.false_eq_true, if_false, huse]
    exact ⟨fun _ => by simp [SchedulerState.ledger, Ledger.Produced], fun _ _ h => Or.inl h,
      fun _ h => ⟨h.producers, (h.lastUses.recordOriginal huse).update UndoLog.covers_recordOriginal, h.ends⟩, rfl⟩
  | none =>
    simp only [Bool.false_eq_true, if_false, huse]
    exact ⟨fun _ => by simp [SchedulerState.ledger, Ledger.Produced], fun _ _ h => Or.inl h,
      fun _ h => ⟨h.producers, h.lastUses.insertNew huse, h.ends⟩, rfl⟩

theorem updated_producer (opIdx buffer : ℕ) (s : SchedulerState) :
    Updated opIdx [(buffer, true)] s.ledger
      { s with
        bufferProducer := Function.update s.bufferProducer buffer (some opIdx)
        bufferProducerDeltas := s.bufferProducerDeltas.assign s.bufferProducer 0 buffer }.ledger := by
  constructor
  · intro b
    by_cases hb : b = buffer
    · simp [SchedulerState.ledger, Ledger.Produced, hb]
    · simp [SchedulerState.ledger, Ledger.Produced, hb]
  · intro b writer hwriter
    by_cases hb : b = buffer
    · subst hb
      have hself : Function.update s.bufferProducer b (some opIdx) b = some writer := hwriter
      rw [Function.update_self] at hself
      exact Or.inr (Option.some.inj hself).symm
    · have hother : Function.update s.bufferProducer buffer (some opIdx) b = some writer := hwriter
      rw [Function.update_of_ne hb] at hother
      exact Or.inl hother
  · intro entry h
    exact ⟨h.producers.assign, h.lastUses, h.ends⟩
  · rfl

theorem updated_buffer (opCycleEnd : ℕ) (isNewProducer : Bool) :
    Updated opIdx [(buffer, isNewProducer)] s.ledger
      (s.updateBufferCycleUseAndProducer opIdx opCycleEnd buffer isNewProducer).ledger := by
  cases isNewProducer with
  | false => exact updated_lastUse opIdx opCycleEnd buffer s
  | true =>
    have h := (updated_producer opIdx buffer s).trans (updated_lastUse opIdx opCycleEnd buffer _)
    refine ⟨fun b => (h.produced b).trans (by simp), h.producer, h.tracked, h.rest⟩

theorem updated_foldl (opCycleEnd : ℕ) (buffers : List (ℕ × Bool)) : Updated opIdx buffers s.ledger
    (buffers.foldl (fun s b => s.updateBufferCycleUseAndProducer opIdx opCycleEnd b.1 b.2) s).ledger := by
  induction buffers generalizing s with
  | nil => exact updated_nil
  | cons b rest ih => exact (updated_buffer opCycleEnd b.2).trans ih

theorem insert_cases (s : SchedulerState) (opIdx endCycle : ℕ) :
    s.opIdxEndCycleMap opIdx = none ∧ s.insertInOpIdxCycleEndMap opIdx endCycle = { s with
      opIdxEndCycleMap := Function.update s.opIdxEndCycleMap opIdx (some endCycle)
      opIdxEndCycleMapDeltas := s.opIdxEndCycleMapDeltas.recordNew opIdx } ∨
    (∃ cycleEnd, s.opIdxEndCycleMap opIdx = some cycleEnd ∧ s.insertInOpIdxCycleEndMap opIdx endCycle = { s with
      opIdxEndCycleMap := Function.update s.opIdxEndCycleMap opIdx (some endCycle)
      opIdxEndCycleMapDeltas := s.opIdxEndCycleMapDeltas.recordOriginal opIdx cycleEnd }) ∨
    s.opIdxEndCycleMap opIdx ≠ none ∧ s.insertInOpIdxCycleEndMap opIdx endCycle = s := by
  unfold SchedulerState.insertInOpIdxCycleEndMap
  cases s.opIdxEndCycleMap opIdx with
  | none => exact Or.inl ⟨rfl, rfl⟩
  | some cycleEnd =>
    by_cases hlater : cycleEnd < endCycle
    · exact Or.inr (Or.inl ⟨cycleEnd, rfl, if_pos hlater⟩)
    · exact Or.inr (Or.inr ⟨by simp, if_neg hlater⟩)

structure Ended (opIdx : ℕ) (l l' : Ledger) : Prop where
  scheduled : ∀ op, l'.Scheduled op ↔ l.Scheduled op ∨ op = opIdx
  tracked : ∀ entry, Tracked entry l → Tracked entry l'
  rest : l' = { l with
    opIdxEndCycleMap := l'.opIdxEndCycleMap
    opIdxEndCycleMapDeltas := l'.opIdxEndCycleMapDeltas }

theorem ended_insert (s : SchedulerState) (opIdx endCycle : ℕ) :
    Ended opIdx s.ledger (s.insertInOpIdxCycleEndMap opIdx endCycle).ledger := by
  have hupdate (op : ℕ) :
      Function.update s.opIdxEndCycleMap opIdx (some endCycle) op ≠ none ↔ s.ledger.Scheduled op ∨ op = opIdx := by
    by_cases hop : op = opIdx <;> simp [SchedulerState.ledger, Ledger.Scheduled, hop]
  obtain ⟨hnone, heq⟩ | ⟨cycleEnd, hsome, heq⟩ | ⟨hsome, heq⟩ := insert_cases s opIdx endCycle
  · rw [heq]
    exact ⟨hupdate, fun _ h => ⟨h.producers, h.lastUses, h.ends.insertNew hnone⟩, rfl⟩
  · rw [heq]
    exact ⟨hupdate, fun _ h => ⟨h.producers, h.lastUses,
      (h.ends.recordOriginal hsome).update UndoLog.covers_recordOriginal⟩, rfl⟩
  · rw [heq]
    refine ⟨fun op => ⟨Or.inl, ?_⟩, fun _ h => h, rfl⟩
    rintro (hop | rfl)
    · exact hop
    · exact hsome

structure Pushed (f : FeasibleMemoryScheduler) (elem : HeapEntry) (l l' : Ledger) : Prop where
  scheduled : ∀ op, l'.Scheduled op ↔ l.Scheduled op ∨ op = elem.op_
  produced : ∀ b, l'.Produced b ↔ l.Produced b ∨ (b, true) ∈ SchedulerState.buffersOf f elem
  producer : ∀ b writer, l'.bufferProducer b = some writer → l.bufferProducer b = some writer ∨ writer = elem.op_
  tracked : ∀ entry, Tracked entry l → Tracked entry l'
  rest : l' = { l with
    bufferProducer := l'.bufferProducer
    bufferProducerDeltas := l'.bufferProducerDeltas
    bufferLastCycleUse := l'.bufferLastCycleUse
    bufferLastCycleUseDeltas := l'.bufferLastCycleUseDeltas
    opIdxEndCycleMap := l'.opIdxEndCycleMap
    opIdxEndCycleMapDeltas := l'.opIdxEndCycleMapDeltas }

theorem Pushed.of_updated {elem : HeapEntry} {l l' l'' : Ledger}
    (hu : Updated elem.op_ (SchedulerState.buffersOf f elem) l l') (he : Ended elem.op_ l' l'') :
    Pushed f elem l l'' := by
  constructor
  · intro op
    rw [he.scheduled, hu.rest]
    rfl
  · intro b
    rw [← hu.produced, he.rest]
    rfl
  · intro b writer hb
    rw [he.rest] at hb
    exact hu.producer b writer hb
  · intro entry ht
    exact he.tracked entry (hu.tracked entry ht)
  · rw [he.rest, hu.rest]

theorem pushed (elem : HeapEntry) (s : SchedulerState) :
    Pushed f elem s.ledger (s.pushToCycleBeginHeap f elem).ledger := by
  let s₀ := { s with cycleBeginHeap := OrderedSet.insert HeapEntry.cycleBeginOrder elem s.cycleBeginHeap }
  have hu : Updated elem.op_ (SchedulerState.buffersOf f elem) s₀.ledger _ := updated_foldl elem.cycleEnd_ _
  exact Pushed.of_updated hu (ended_insert _ elem.op_ elem.cycleEnd_)

theorem Books.push {elem : HeapEntry} {l l' : Ledger} (h : Books f l) (hp : Pushed f elem l l')
    (hdeps : ∀ dep ∈ f.getOpDeps elem.op_, l.Scheduled dep)
    (houtputs : ∀ b ∈ f.getOutputBuffers elem.op_, l.Produced b ∨ (b, true) ∈ SchedulerState.buffersOf f elem) :
    Books f l' := by
  constructor
  · intro op hop dep hdep
    rw [hp.scheduled] at hop ⊢
    cases hop with
    | inl hop => exact Or.inl (h.deps_scheduled op hop dep hdep)
    | inr heq => exact Or.inl (hdeps dep (heq ▸ hdep))
  · intro op hop b hb
    rw [hp.scheduled] at hop
    rw [hp.produced]
    cases hop with
    | inl hop => exact Or.inl (h.outputs_produced op hop b hb)
    | inr heq => exact houtputs b (heq ▸ hb)
  · intro b writer hb
    rw [hp.scheduled]
    exact (hp.producer b writer hb).imp_left (h.producer_scheduled b writer)
  · intro op hop dep hdep
    rw [hp.rest] at hop
    exact (hp.scheduled dep).mpr (Or.inl (h.ready_deps op hop dep hdep))
  · intro op hop
    rw [hp.rest] at hop
    exact (hp.scheduled op).mpr (Or.inl (h.spilled_scheduled op hop))
  · rw [hp.rest]
    exact h.written

theorem Underway.push {elem : HeapEntry} {l l' : Ledger} (h : Underway f entry done pending l) (hp : Pushed f elem l l')
    (hdeps : ∀ dep ∈ f.getOpDeps elem.op_, l.Scheduled dep)
    (houtputs : ∀ b ∈ f.getOutputBuffers elem.op_, l.Produced b ∨ (b, true) ∈ SchedulerState.buffersOf f elem) :
    Underway f entry (insert elem.op_ done) pending l' := by
  refine ⟨?_, hp.tracked entry h.tracked, h.books.push hp hdeps houtputs, ?_, ?_⟩
  · rw [hp.rest]
    exact ⟨h.1.1, h.1.2, h.1.3, h.1.4, h.1.5, h.1.6⟩
  · rintro op (rfl | hop)
    · exact (hp.scheduled _).mpr (Or.inr rfl)
    · exact (hp.scheduled op).mpr (Or.inl (h.scheduled op hop))
  · intro b hb
    rw [hp.rest] at hb
    exact (h.alive b hb).imp_left (fun hproduced => (hp.produced b).mpr (Or.inl hproduced))

end

end NpuCompiler.Schedule
