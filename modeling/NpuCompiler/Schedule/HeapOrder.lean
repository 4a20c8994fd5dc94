import Mathlib.Data.Prod.Lex
import NpuCompiler.Library.OrderedSet
import NpuCompiler.Schedule.PrefetchDataOps

namespace NpuCompiler.Schedule

/-- A value of one block: an argument or a result of an operation, which is named by its position. -/
inductive BlockValue
  | blockArgument (argNumber : ℕ)
  | opResult (definingOp resultNumber : ℕ)
  deriving DecidableEq

namespace ValueOrderCmp

def compare : BlockValue → BlockValue → Bool
  | .opResult lhs lhsResult, .opResult rhs rhsResult => if lhs = rhs then lhsResult < rhsResult else lhs < rhs
  | .blockArgument _, .opResult _ _ => true
  | .opResult _ _, .blockArgument _ => false
  | .blockArgument lhs, .blockArgument rhs => lhs < rhs

def position : BlockValue → ℕ ×ₗ ℕ ×ₗ ℕ
  | .blockArgument argNumber => toLex (0, toLex (argNumber, 0))
  | .opResult definingOp resultNumber => toLex (1, toLex (definingOp, resultNumber))

theorem position_injective : Function.Injective position := by
  intro a b h
  cases a <;> cases b <;> simp_all [position]

theorem compare_iff {a b : BlockValue} : compare a b ↔ position a < position b := by
  cases a with
  | blockArgument m => cases b <;> simp [compare, position, Prod.Lex.toLex_lt_toLex]
  | opResult lhs lhsResult =>
    cases b with
    | blockArgument n => simp [compare, position, Prod.Lex.toLex_lt_toLex]
    | opResult rhs rhsResult =>
      by_cases h : lhs = rhs <;> simp [compare, position, Prod.Lex.toLex_lt_toLex, h]

theorem compare_trans {a b c : BlockValue} (hab : compare a b) (hbc : compare b c) : compare a c := by
  rw [compare_iff] at *
  exact hab.trans hbc

theorem compare_asymm {a b : BlockValue} (hab : compare a b) : ¬ compare b a := by
  rw [compare_iff] at *
  exact hab.asymm

theorem compare_total {a b : BlockValue} (hab : a ≠ b) : compare a b ∨ compare b a := by
  rw [compare_iff, compare_iff]
  exact lt_or_gt_of_ne (fun h => hab (position_injective h))

end ValueOrderCmp

structure HeapElement where
  op_ : ℕ
  cycleBegin_ : ℕ
  cycleEnd_ : ℕ
  opType_ : EOpType
  spillBuffer_ : Option BlockValue
  deriving DecidableEq

namespace HeapElement

def isOriginalOp (e : HeapElement) : Bool :=
  e.opType_ = .originalOp || e.opType_ = .originalPrefetchedOp || e.opType_ = .loopOp

def isPrefetched (e : HeapElement) : Bool := e.opType_ = .originalPrefetchedOp

def isSpillWriteOp (e : HeapElement) : Bool :=
  e.opType_ = .implicitSpillWriteOp || e.opType_ = .implicitSpillWriteFragOp

def isSpillReadOp (e : HeapElement) : Bool := e.opType_ = .implicitSpillReadOp

def isSpillOp (e : HeapElement) : Bool := e.isSpillWriteOp || e.isSpillReadOp

def Pushed (e : HeapElement) : Prop :=
  e.isOriginalOp ∧ e.spillBuffer_ = none ∨ e.isSpillOp ∧ e.spillBuffer_ ≠ none

def SameAs (a b : HeapElement) : Prop := a.op_ = b.op_ ∧ a.opType_ = b.opType_ ∧ a.spillBuffer_ = b.spillBuffer_

end HeapElement

def compareHeapOrderWhenCycleMatch (a b : HeapElement) : Bool :=
  if a.isPrefetched ∧ ¬ b.isPrefetched then true
  else if ¬ a.isPrefetched ∧ b.isPrefetched then false
  else
    match a.spillBuffer_, b.spillBuffer_ with
    | some aBuffer, some bBuffer => if aBuffer ≠ bBuffer then ValueOrderCmp.compare aBuffer bBuffer else a.op_ < b.op_
    | _, _ => a.op_ < b.op_

def cycleMinHeapOrdering (cycle : HeapElement → ℕ) (a b : HeapElement) : Bool :=
  if cycle a ≠ cycle b then cycle a < cycle b else compareHeapOrderWhenCycleMatch a b

def cycleBeginMinHeapOrdering : HeapElement → HeapElement → Bool := cycleMinHeapOrdering HeapElement.cycleBegin_

def cycleEndMinHeapOrdering : HeapElement → HeapElement → Bool := cycleMinHeapOrdering HeapElement.cycleEnd_

open OrderedSet

/-- The ordering is a strict weak one that only identifies what is the same, so the heap keeps every element. -/
structure LosesNone (less : HeapElement → HeapElement → Bool) (S : Set HeapElement) : Prop where
  strictWeak : StrictWeakOn less S
  same_of_incomparable : ∀ a ∈ S, ∀ b ∈ S, Incomparable less a b → a.SameAs b
  keeps : ∀ calls, Along HeapElement.SameAs S [] calls →
    (calls.foldl (OrderedSet.apply less) []).Perm (calls.foldl intended [])

def Tied (cycle : HeapElement → ℕ) (a b : HeapElement) : Prop := cycle a = cycle b ∧ a.isPrefetched = b.isPrefetched

structure OrderConsistent (cycle : HeapElement → ℕ) (S : Set HeapElement) : Prop where
  /-- Of two tied elements of one operation both are spills, of different buffers, or they are the same. -/
  apart : ∀ a ∈ S, ∀ b ∈ S, Tied cycle a b → a.op_ = b.op_ →
    (a.spillBuffer_ = none ∨ b.spillBuffer_ = none ∨ a.spillBuffer_ = b.spillBuffer_) →
      a.opType_ = b.opType_ ∧ a.spillBuffer_ = b.spillBuffer_
  /-- The buffers of two tied spills are in the order of their operations if an original operation lies between. -/
  between : ∀ a ∈ S, ∀ b ∈ S, ∀ c ∈ S, Tied cycle a b → Tied cycle b c → a.op_ < b.op_ → b.op_ < c.op_ →
    b.spillBuffer_ = none → ∀ x y, a.spillBuffer_ = some x → c.spillBuffer_ = some y → ¬ ValueOrderCmp.compare y x

section
variable {cycle : HeapElement → ℕ} {S : Set HeapElement} {a b c : HeapElement}

def tieLess (a b : HeapElement) : Bool :=
  match a.spillBuffer_, b.spillBuffer_ with
  | some aBuffer, some bBuffer => if aBuffer ≠ bBuffer then ValueOrderCmp.compare aBuffer bBuffer else a.op_ < b.op_
  | _, _ => a.op_ < b.op_

theorem less_iff : cycleMinHeapOrdering cycle a b ↔
    cycle a < cycle b ∨ cycle a = cycle b ∧ (a.isPrefetched ∧ ¬ b.isPrefetched) ∨ Tied cycle a b ∧ tieLess a b := by
  unfold cycleMinHeapOrdering compareHeapOrderWhenCycleMatch tieLess Tied
  by_cases hc : cycle a = cycle b
  · cases ha : a.isPrefetched <;> cases hb : b.isPrefetched <;> simp [hc]
  · simp [hc]

theorem tieLess_some {x y : BlockValue} (ha : a.spillBuffer_ = some x) (hb : b.spillBuffer_ = some y) :
    tieLess a b ↔ ValueOrderCmp.compare x y ∨ x = y ∧ a.op_ < b.op_ := by
  unfold tieLess
  rw [ha, hb]
  by_cases hxy : x = y
  · subst hxy
    have hself : ¬ ValueOrderCmp.compare x x := fun h => ValueOrderCmp.compare_asymm h h
    simp [hself]
  · simp [hxy]

theorem tieLess_left (ha : a.spillBuffer_ = none) : tieLess a b ↔ a.op_ < b.op_ := by
  unfold tieLess
  simp [ha]

theorem tieLess_right (hb : b.spillBuffer_ = none) : tieLess a b ↔ a.op_ < b.op_ := by
  unfold tieLess
  cases a.spillBuffer_ <;> simp [hb]

theorem Tied.trans (hab : Tied cycle a b) (hbc : Tied cycle b c) : Tied cycle a c :=
  ⟨hab.1.trans hbc.1, hab.2.trans hbc.2⟩

theorem Tied.symm (hab : Tied cycle a b) : Tied cycle b a := ⟨hab.1.symm, hab.2.symm⟩

theorem tied_of_incomparable (h : Incomparable (cycleMinHeapOrdering cycle) a b) : Tied cycle a b := by
  obtain ⟨hab, hba⟩ := h
  rw [less_iff] at hab hba
  push Not at hab hba
  have hc : cycle a = cycle b := le_antisymm hba.1 hab.1
  refine ⟨hc, ?_⟩
  have h1 := hab.2.1 hc
  have h2 := hba.2.1 hc.symm
  rw [Bool.eq_iff_iff]
  exact ⟨h1, h2⟩

theorem less_of_tied (h : Tied cycle a b) : cycleMinHeapOrdering cycle a b ↔ tieLess a b := by
  rw [less_iff]
  simp [h, h.1, h.2]

theorem incomparable_iff : Incomparable (cycleMinHeapOrdering cycle) a b ↔
    Tied cycle a b ∧ a.op_ = b.op_ ∧ (a.spillBuffer_ = none ∨ b.spillBuffer_ = none ∨ a.spillBuffer_ = b.spillBuffer_) := by
  have hop : ¬ a.op_ < b.op_ ∧ ¬ b.op_ < a.op_ ↔ a.op_ = b.op_ := by omega
  constructor
  · intro h
    have htied := tied_of_incomparable h
    obtain ⟨hab, hba⟩ := h
    rw [less_of_tied htied] at hab
    rw [less_of_tied htied.symm] at hba
    refine ⟨htied, ?_⟩
    cases ha : a.spillBuffer_ with
    | none =>
      rw [tieLess_left ha] at hab
      rw [tieLess_right ha] at hba
      simpa using hop.mp ⟨hab, hba⟩
    | some x =>
      cases hb : b.spillBuffer_ with
      | none =>
        rw [tieLess_right hb] at hab
        rw [tieLess_left hb] at hba
        simpa using hop.mp ⟨hab, hba⟩
      | some y =>
        rw [tieLess_some ha hb] at hab
        rw [tieLess_some hb ha] at hba
        have hxy : x = y := by
          by_contra hne
          exact (ValueOrderCmp.compare_total hne).elim (fun h => hab (.inl h)) (fun h => hba (.inl h))
        subst hxy
        simp only [true_and] at hab hba
        exact ⟨hop.mp ⟨fun h => hab (.inr h), fun h => hba (.inr h)⟩, by simp⟩
  · rintro ⟨htied, heq, hbuf⟩
    have hless : ¬ tieLess a b ∧ ¬ tieLess b a := by
      rcases hbuf with ha | hb | hab
      · rw [tieLess_left ha, tieLess_right ha, hop]
        exact heq
      · rw [tieLess_right hb, tieLess_left hb, hop]
        exact heq
      · unfold tieLess
        rw [hab]
        cases b.spillBuffer_ <;> simp [heq]
    unfold Incomparable
    rwa [less_of_tied htied, less_of_tied htied.symm]

section
variable (h : OrderConsistent cycle S)
include h

theorem OrderConsistent.tieLess_trans (ha : a ∈ S) (hb : b ∈ S) (hc : c ∈ S)
    (htab : Tied cycle a b) (htbc : Tied cycle b c) (hab : tieLess a b) (hbc : tieLess b c) : tieLess a c := by
  cases hx : a.spillBuffer_ with
  | none =>
    rw [tieLess_left hx] at hab ⊢
    cases hy : b.spillBuffer_ with
    | none =>
      rw [tieLess_left hy] at hbc
      exact hab.trans hbc
    | some y =>
      cases hz : c.spillBuffer_ with
      | none =>
        rw [tieLess_right hz] at hbc
        exact hab.trans hbc
      | some z =>
        rcases (tieLess_some hy hz).mp hbc with hyz | ⟨-, hop⟩
        · -- the buffers are ordered, so `c` is not the operation before `a`
          by_contra hnot
          rcases Nat.lt_or_ge c.op_ a.op_ with hlt | hge
          · exact h.between c hc a ha b hb (htab.trans htbc).symm htab hlt hab hx z y hz hy hyz
          · have hsame := h.apart a ha c hc (htab.trans htbc) (by omega) (.inl hx)
            simp [hx, hz] at hsame
        · exact hab.trans hop
  | some x =>
    cases hy : b.spillBuffer_ with
    | none =>
      rw [tieLess_right hy] at hab
      rw [tieLess_left hy] at hbc
      cases hz : c.spillBuffer_ with
      | none =>
        rw [tieLess_right hz]
        exact hab.trans hbc
      | some z =>
        rw [tieLess_some hx hz]
        by_cases hxz : x = z
        · exact .inr ⟨hxz, hab.trans hbc⟩
        · have hnot := h.between a ha b hb c hc htab htbc hab hbc hy x z hx hz
          exact .inl ((ValueOrderCmp.compare_total hxz).resolve_right hnot)
    | some y =>
      cases hz : c.spillBuffer_ with
      | none =>
        rw [tieLess_right hz] at hbc ⊢
        rcases (tieLess_some hx hy).mp hab with hxy | ⟨-, hop⟩
        · by_contra hnot
          rcases Nat.lt_or_ge c.op_ a.op_ with hlt | hge
          · exact h.between b hb c hc a ha htbc (htab.trans htbc).symm hbc hlt hz y x hy hx hxy
          · have hsame := h.apart a ha c hc (htab.trans htbc) (by omega) (.inr (.inl hz))
            simp [hx, hz] at hsame
        · exact hop.trans hbc
      | some z =>
        rw [tieLess_some hx hz]
        rcases (tieLess_some hx hy).mp hab with hxy | ⟨rfl, hop⟩
        · rcases (tieLess_some hy hz).mp hbc with hyz | ⟨rfl, -⟩
          · exact .inl (ValueOrderCmp.compare_trans hxy hyz)
          · exact .inl hxy
        · rcases (tieLess_some hy hz).mp hbc with hyz | ⟨rfl, hop'⟩
          · exact .inl hyz
          · exact .inr ⟨rfl, hop.trans hop'⟩

theorem OrderConsistent.less_trans (ha : a ∈ S) (hb : b ∈ S) (hc : c ∈ S)
    (hab : cycleMinHeapOrdering cycle a b) (hbc : cycleMinHeapOrdering cycle b c) :
    cycleMinHeapOrdering cycle a c := by
  rw [less_iff] at hab hbc ⊢
  rcases hab with hab | ⟨hab, hpre⟩ | ⟨htab, hab⟩
  · have hle : cycle b ≤ cycle c := by
      rcases hbc with hbc | ⟨hbc, -⟩ | ⟨htbc, -⟩
      · exact hbc.le
      · exact hbc.le
      · exact htbc.1.le
    exact .inl (hab.trans_le hle)
  · rcases hbc with hbc | ⟨hbc, hpre'⟩ | ⟨htbc, -⟩
    · exact .inl (hab.trans_lt hbc)
    · exact absurd hpre'.1 hpre.2
    · exact .inr (.inl ⟨hab.trans htbc.1, hpre.1, htbc.2 ▸ hpre.2⟩)
  · rcases hbc with hbc | ⟨hbc, hpre⟩ | ⟨htbc, hbc⟩
    · exact .inl (htab.1.trans_lt hbc)
    · exact .inr (.inl ⟨htab.1.trans hbc, htab.2 ▸ hpre.1, hpre.2⟩)
    · exact .inr (.inr ⟨htab.trans htbc, h.tieLess_trans ha hb hc htab htbc hab hbc⟩)

theorem OrderConsistent.same_of_incomparable (ha : a ∈ S) (hb : b ∈ S)
    (hab : Incomparable (cycleMinHeapOrdering cycle) a b) : a.SameAs b := by
  obtain ⟨htied, hop, hbuf⟩ := incomparable_iff.mp hab
  obtain ⟨htype, hbuf'⟩ := h.apart a ha b hb htied hop hbuf
  exact ⟨hop, htype, hbuf'⟩

theorem OrderConsistent.strictWeakOn : StrictWeakOn (cycleMinHeapOrdering cycle) S := by
  refine ⟨?_, fun a ha b hb c hc hab hbc => h.less_trans ha hb hc hab hbc, ?_⟩
  · intro a _
    have hself : Incomparable (cycleMinHeapOrdering cycle) a a := incomparable_iff.mpr ⟨⟨rfl, rfl⟩, rfl, .inr (.inr rfl)⟩
    exact hself.1
  · intro a ha b hb c hc hab hbc
    have hsame := h.same_of_incomparable ha hb hab
    have hsame' := h.same_of_incomparable hb hc hbc
    apply incomparable_iff.mpr
    exact ⟨(tied_of_incomparable hab).trans (tied_of_incomparable hbc), hsame.1.trans hsame'.1,
      .inr (.inr (hsame.2.2.trans hsame'.2.2))⟩

theorem OrderConsistent.losesNone : LosesNone (cycleMinHeapOrdering cycle) S := by
  have hsame : ∀ a ∈ S, ∀ b ∈ S, Incomparable (cycleMinHeapOrdering cycle) a b → a.SameAs b :=
    fun a ha b hb hab => h.same_of_incomparable ha hb hab
  refine ⟨h.strictWeakOn, hsame, ?_⟩
  intro calls hcalls
  exact (holds_nil.run h.strictWeakOn hsame hcalls).perm

end

theorem LosesNone.orderConsistent (h : LosesNone (cycleMinHeapOrdering cycle) S) : OrderConsistent cycle S := by
  constructor
  · intro a ha b hb htied hop hbuf
    exact (h.same_of_incomparable a ha b hb (incomparable_iff.mpr ⟨htied, hop, hbuf⟩)).2
  · intro a ha b hb c hc htab htbc hab hbc hy x z hx hz hzx
    -- the three elements would precede one another in a circle
    have h1 : cycleMinHeapOrdering cycle a b := by
      rwa [less_of_tied htab, tieLess_right hy]
    have h2 : cycleMinHeapOrdering cycle b c := by
      rwa [less_of_tied htbc, tieLess_left hy]
    have h3 : cycleMinHeapOrdering cycle c a := by
      rw [less_of_tied (htab.trans htbc).symm, tieLess_some hz hx]
      exact .inl hzx
    have hac := h.strictWeak.trans a ha b hb c hc h1 h2
    exact h.strictWeak.irrefl a ha (h.strictWeak.trans a ha c hc a ha hac h3)

end

/-- Each heap keeps its elements if and only if the indices and buffers of tied elements agree in order. -/
theorem heaps_loseNone_iff {S : Set HeapElement} :
    (LosesNone cycleBeginMinHeapOrdering S ↔ OrderConsistent HeapElement.cycleBegin_ S) ∧
      (LosesNone cycleEndMinHeapOrdering S ↔ OrderConsistent HeapElement.cycleEnd_ S) :=
  ⟨⟨LosesNone.orderConsistent, OrderConsistent.losesNone⟩, ⟨LosesNone.orderConsistent, OrderConsistent.losesNone⟩⟩

/-- Operation 5 is spilled with the first buffer, operation 1 with the second, and operation 3 is an original one. -/
def crossedSpills : List HeapElement :=
  [⟨5, 0, 10, .implicitSpillWriteOp, some (.opResult 0 0)⟩, ⟨1, 0, 10, .implicitSpillWriteOp, some (.opResult 1 0)⟩,
    ⟨3, 0, 10, .originalOp, none⟩]

/-- The three elements precede one another in a circle, in both heaps. -/
theorem crossedSpills_not_ordered :
    (∀ e ∈ crossedSpills, e.Pushed) ∧ ¬ LosesNone cycleBeginMinHeapOrdering {e | e ∈ crossedSpills} ∧
      ¬ LosesNone cycleEndMinHeapOrdering {e | e ∈ crossedSpills} := by
  refine ⟨by unfold HeapElement.Pushed; decide, ?_, ?_⟩
  · intro h
    have hbad := h.strictWeak.trans crossedSpills[0] (by decide) crossedSpills[1] (by decide) crossedSpills[2] (by decide)
      (by decide) (by decide)
    exact absurd hbad (by decide)
  · intro h
    have hbad := h.strictWeak.trans crossedSpills[0] (by decide) crossedSpills[1] (by decide) crossedSpills[2] (by decide)
      (by decide) (by decide)
    exact absurd hbad (by decide)

end NpuCompiler.Schedule
