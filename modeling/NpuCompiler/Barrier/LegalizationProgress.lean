import Mathlib.Data.Fintype.EquivFin
import Mathlib.Order.WellFounded
import NpuCompiler.Barrier.LegalizationTables
import NpuCompiler.Barrier.SimulatorValidation

namespace NpuCompiler.Barrier.Simulator

open BarrierState Simulator List

namespace Simulator

variable (sim : Simulator)

def taskAt (task : ℕ × ℕ) : Option BarrierUser := (sim.queues.getD task.1 [])[task.2]?

/-- The first task is before the second one in its queue, or it produces a barrier that the second one waits for. -/
def Precedes (task task' : ℕ × ℕ) : Prop :=
  ∃ user user', sim.taskAt task = some user ∧ sim.taskAt task' = some user' ∧
    ((task.1 = task'.1 ∧ task.2 < task'.2) ∨ ∃ v ∈ user.producer, v ∈ user'.consumer)

def Acyclic : Prop := ∀ task, ¬ Relation.TransGen sim.Precedes task task

end Simulator

section
variable {sim : Simulator} {queues : List (List BarrierUser)} {v : ℕ}

theorem exists_of_slotsUsed {f : BarrierUser → List ℕ} (h : slotsUsed f queues v ≠ 0) :
    ∃ users ∈ queues, ∃ user ∈ users, v ∈ f user := by
  by_contra hnone
  apply h
  unfold slotsUsed
  apply sum_eq_zero
  intro slots hslots
  obtain ⟨users, husers, rfl⟩ := mem_map.mp hslots
  apply sum_eq_zero
  intro count hcount
  obtain ⟨user, huser, rfl⟩ := mem_map.mp hcount
  exact slotsIn_eq_zero (fun hv => hnone ⟨users, husers, user, huser, hv⟩)

def done (sim : Simulator) (queues : List (List BarrierUser)) (i : ℕ) : ℕ :=
  (sim.queues.getD i []).length - (queues.getD i []).length

theorem taskAt_of_suffix {i k : ℕ} {user : BarrierUser} (hsuffix : queues.getD i [] <:+ sim.queues.getD i [])
    (hk : (queues.getD i [])[k]? = some user) : sim.taskAt (i, done sim queues i + k) = some user := by
  rw [suffix_iff_eq_drop.mp hsuffix, getElem?_drop] at hk
  exact hk

theorem exists_ready {n : ℕ} (hacyclic : sim.Acyclic) (hsuffix : ∀ i, queues.getD i [] <:+ sim.queues.getD i [])
    (husers : ∀ users ∈ queues, ∀ user ∈ users, ∀ v, v ∈ user.consumer ∨ v ∈ user.producer → v < n)
    (hleft : ∃ users ∈ queues, users ≠ []) :
    ∃ (i : ℕ) (user : BarrierUser) (users : List BarrierUser), queues[i]? = some (user :: users) ∧ Ready n queues user := by
  by_contra hnone
  -- the queues with tasks, in the order of their first tasks
  have hhead : ∀ i : Fin queues.length, queues[i] ≠ [] → ∃ j : Fin queues.length, queues[j] ≠ [] ∧
      Relation.TransGen sim.Precedes (j.val, done sim queues j) (i.val, done sim queues i) := by
    intro i hi
    obtain ⟨user, users, hcons⟩ := exists_cons_of_ne_nil hi
    have hqueue : queues[i.val]? = some (user :: users) := List.getElem?_eq_some_iff.mpr ⟨i.isLt, hcons⟩
    have hget : queues.getD i.val [] = user :: users := by rw [getD_eq_getElem?_getD, hqueue]; rfl
    have hmem : user :: users ∈ queues := mem_of_getElem? hqueue
    have hnotReady : ¬ Ready n queues user := fun hready => hnone ⟨i.val, user, users, hqueue, hready⟩
    have hwaits : ∃ v ∈ user.consumer, slotsUsed BarrierUser.producer queues v ≠ 0 := by
      by_contra hfree
      apply hnotReady
      constructor
      · intro v hv
        refine ⟨husers _ hmem user mem_cons_self v (.inl hv), ?_⟩
        by_contra hused
        exact hfree ⟨v, hv, hused⟩
      · intro v hv
        exact husers _ hmem user mem_cons_self v (.inr hv)
    obtain ⟨v, hv, hused⟩ := hwaits
    obtain ⟨users', husers', user', huser', hv'⟩ := exists_of_slotsUsed hused
    obtain ⟨j, hj, hgetj⟩ := getElem_of_mem husers'
    obtain ⟨k, hk, hgetk⟩ := getElem_of_mem huser'
    have hgetD : queues.getD j [] = users' := by rw [getD_eq_getElem _ _ hj, hgetj]
    have htask : sim.taskAt (i.val, done sim queues i) = some user := by
      apply taskAt_of_suffix (k := 0) (hsuffix i)
      rw [hget]
      rfl
    have htask' : sim.taskAt (j, done sim queues j + k) = some user' := by
      apply taskAt_of_suffix (hsuffix j)
      rw [hgetD, getElem?_eq_getElem hk, hgetk]
    have hlast : sim.Precedes (j, done sim queues j + k) (i.val, done sim queues i) :=
      ⟨user', user, htask', htask, .inr ⟨v, hv', hv⟩⟩
    refine ⟨⟨j, hj⟩, ?_, ?_⟩
    · intro hnil
      have hempty : users' = [] := hgetj.symm.trans hnil
      rw [hempty] at huser'
      exact not_mem_nil huser'
    · cases k with
      | zero => exact .single hlast
      | succ k =>
        have hfirst : ∃ first, sim.taskAt (j, done sim queues j) = some first := by
          refine ⟨users'[0], ?_⟩
          apply taskAt_of_suffix (k := 0) (hsuffix j)
          rw [hgetD, getElem?_eq_getElem (Nat.zero_lt_of_lt hk)]
        obtain ⟨first, hfirst⟩ := hfirst
        exact .tail (.single ⟨first, user', hfirst, htask', .inl ⟨rfl, Nat.lt_add_of_pos_right (Nat.succ_pos k)⟩⟩) hlast
  let before : Fin queues.length → Fin queues.length → Prop := fun j i =>
    Relation.TransGen sim.Precedes (j.val, done sim queues j) (i.val, done sim queues i)
  have htrans : IsTrans (Fin queues.length) before := ⟨fun _ _ _ h h' => Relation.TransGen.trans h h'⟩
  have hirrefl : Std.Irrefl before := ⟨fun _ => hacyclic _⟩
  have hwellFounded : WellFounded before := Finite.wellFounded_of_trans_of_irrefl before
  obtain ⟨users, husersMem, hne⟩ := hleft
  obtain ⟨i, hi, hget⟩ := getElem_of_mem husersMem
  obtain ⟨first, hfirst, hmin⟩ := hwellFounded.has_min {i : Fin queues.length | queues[i] ≠ []} ⟨⟨i, hi⟩, by
    intro hnil
    exact hne (hget.symm.trans hnil)⟩
  obtain ⟨j, hj, hbefore⟩ := hhead first hfirst
  exact hmin j hj hbefore

end

end NpuCompiler.Barrier.Simulator
