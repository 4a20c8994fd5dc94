import Mathlib.Data.List.Induction
import Mathlib.Data.List.GetD
import Mathlib.Data.Nat.ModEq

namespace NpuCompiler

open List

structure RingBuffer (α : Type) where
  storage : List α
  putInd : ℕ
  getInd : ℕ
  size : ℕ

namespace RingBuffer

variable {α : Type}

def capacity (b : RingBuffer α) : ℕ := b.storage.length

def next (b : RingBuffer α) (i : ℕ) : ℕ := if i + 1 ≥ b.storage.length then 0 else i + 1

def push (b : RingBuffer α) (val : α) : RingBuffer α :=
  { b with storage := b.storage.set (b.next b.putInd) val, putInd := b.next b.putInd, size := b.size + 1 }

def pop (b : RingBuffer α) : RingBuffer α := { b with getInd := b.next b.getInd, size := b.size - 1 }

def isEmpty (b : RingBuffer α) : Bool := b.size = 0

section
variable [Inhabited α]

def front (b : RingBuffer α) : α := b.storage.getD b.getInd default

def reset (capacity : ℕ) : RingBuffer α := ⟨List.replicate capacity default, capacity, 0, 0⟩

def toList (b : RingBuffer α) : List α :=
  (List.range b.size).map (fun i => b.storage.getD ((b.getInd + i) % b.storage.length) default)

end

structure WellFormed (b : RingBuffer α) : Prop where
  size_le : b.size ≤ b.storage.length
  getInd_lt : 0 < b.storage.length → b.getInd < b.storage.length
  put : 0 < b.storage.length → b.next b.putInd = (b.getInd + b.size) % b.storage.length

section
variable {b : RingBuffer α} {val : α}

@[simp] theorem capacity_push : (b.push val).capacity = b.capacity := length_set

theorem next_eq {i : ℕ} (h : i < b.storage.length) : b.next i = (i + 1) % b.storage.length := by
  unfold next
  split_ifs with hend
  · have heq : i + 1 = b.storage.length := Nat.le_antisymm h hend
    rw [heq, Nat.mod_self]
  · rw [Nat.mod_eq_of_lt (Nat.lt_of_not_le hend)]

theorem push_wellFormed (h : b.WellFormed) (hsize : b.size < b.capacity) : (b.push val).WellFormed := by
  have hpos : 0 < b.storage.length := Nat.lt_of_le_of_lt (Nat.zero_le _) hsize
  have hlength : (b.push val).storage.length = b.storage.length := length_set
  refine ⟨?_, fun _ => ?_, fun _ => ?_⟩
  · rw [hlength]
    exact hsize
  · rw [hlength]
    exact h.getInd_lt hpos
  · have hput := h.put hpos
    have hlt : b.next b.putInd < (b.push val).storage.length := by
      rw [hlength, hput]
      exact Nat.mod_lt _ hpos
    change (b.push val).next (b.next b.putInd) = _
    rw [next_eq hlt, hlength, hput, Nat.mod_add_mod]
    rfl

theorem pop_wellFormed (h : b.WellFormed) (hsize : 0 < b.size) : b.pop.WellFormed := by
  have hpos : 0 < b.storage.length := Nat.lt_of_lt_of_le hsize h.size_le
  have hget := h.getInd_lt hpos
  have hnext := next_eq hget
  refine ⟨Nat.le_trans (Nat.sub_le _ _) h.size_le, fun _ => ?_, fun _ => ?_⟩
  · change b.next b.getInd < b.storage.length
    rw [hnext]
    exact Nat.mod_lt _ hpos
  · change b.next b.putInd = (b.next b.getInd + (b.size - 1)) % b.storage.length
    rw [h.put hpos, hnext, Nat.mod_add_mod]
    congr 1
    omega

variable [Inhabited α]

theorem length_toList : b.toList.length = b.size := by
  unfold toList
  rw [length_map, length_range]

theorem isEmpty_iff : b.isEmpty = true ↔ b.toList = [] := by
  unfold isEmpty
  rw [decide_eq_true_eq, ← length_eq_zero_iff, length_toList]

theorem reset_wellFormed {n : ℕ} : (reset n : RingBuffer α).WellFormed := by
  have hlength : (reset n : RingBuffer α).storage.length = n := length_replicate
  refine ⟨Nat.zero_le _, fun h => h, fun _ => ?_⟩
  unfold next
  rw [if_pos]
  · exact (Nat.zero_mod _).symm
  · rw [hlength]
    exact Nat.le_succ n

theorem toList_push (h : b.WellFormed) (hsize : b.size < b.capacity) : (b.push val).toList = b.toList ++ [val] := by
  have hpos : 0 < b.storage.length := Nat.lt_of_le_of_lt (Nat.zero_le _) hsize
  have hput := h.put hpos
  have hget := h.getInd_lt hpos
  have hsize' : b.size < b.storage.length := hsize
  have hlt : b.next b.putInd < b.storage.length := by
    rw [hput]
    exact Nat.mod_lt _ hpos
  unfold toList push
  dsimp only
  rw [range_succ, map_append, length_set]
  congr 1
  · apply map_congr_left
    intro i hi
    have hi : i < b.size := mem_range.mp hi
    have hne : b.next b.putInd ≠ (b.getInd + i) % b.storage.length := by
      rw [hput]
      intro heq
      have hmod : b.size % b.storage.length = i % b.storage.length := Nat.ModEq.add_left_cancel' b.getInd heq
      rw [Nat.mod_eq_of_lt hsize', Nat.mod_eq_of_lt (Nat.lt_trans hi hsize')] at hmod
      exact absurd hmod (Nat.ne_of_gt hi)
    rw [getD_eq_getElem?_getD, getElem?_set_ne hne, ← getD_eq_getElem?_getD]
  · rw [map_singleton, ← hput, getD_eq_getElem?_getD, getElem?_set_self hlt]
    rfl

theorem toList_pop (h : b.WellFormed) (hsize : 0 < b.size) : b.toList = b.front :: b.pop.toList := by
  have hpos : 0 < b.storage.length := Nat.lt_of_lt_of_le hsize h.size_le
  have hget := h.getInd_lt hpos
  obtain ⟨n, hn⟩ := Nat.exists_eq_succ_of_ne_zero (Nat.ne_of_gt hsize)
  unfold toList pop front
  dsimp only
  rw [hn, range_succ_eq_map, map_cons, map_map, Nat.add_zero, Nat.mod_eq_of_lt hget, Nat.succ_sub_one]
  congr 1
  apply map_congr_left
  intro i _
  rw [Function.comp_apply, next_eq hget, Nat.mod_add_mod, Nat.succ_eq_add_one, Nat.add_right_comm, Nat.add_assoc]

theorem foldl_push {vals : List α} {n : ℕ} (h : vals.length ≤ n) :
    (vals.foldl push (reset n)).WellFormed ∧ (vals.foldl push (reset n)).capacity = n ∧
      (vals.foldl push (reset n)).toList = vals := by
  induction vals using List.reverseRecOn with
  | nil => exact ⟨reset_wellFormed, length_replicate, rfl⟩
  | append_singleton vals val ih =>
    rw [length_append, length_singleton] at h
    obtain ⟨hwellFormed, hcapacity, hlist⟩ := ih (Nat.le_of_succ_le h)
    have hroom : (vals.foldl push (reset n)).size < (vals.foldl push (reset n)).capacity := by
      rw [hcapacity, ← length_toList, hlist]
      exact h
    rw [foldl_append, foldl_cons, foldl_nil]
    refine ⟨push_wellFormed hwellFormed hroom, ?_, ?_⟩
    · rw [capacity_push]
      exact hcapacity
    · rw [toList_push hwellFormed hroom, hlist]

end

end RingBuffer

end NpuCompiler
