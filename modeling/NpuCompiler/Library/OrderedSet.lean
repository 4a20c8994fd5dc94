import Mathlib.Data.List.Pairwise
import Mathlib.Data.Set.Basic

namespace NpuCompiler.OrderedSet

open List

variable {α : Type*} (lt : α → α → Bool)

/-- A set kept in the order of `lt`: an element is dropped when the search ends at one it does not differ from. -/
def insert (x : α) : List α → List α
  | [] => [x]
  | y :: elems => if lt y x then y :: insert x elems else if lt x y then x :: y :: elems else y :: elems

def erase (x : α) : List α → List α
  | [] => []
  | y :: elems => if lt y x then y :: erase x elems else if lt x y then y :: elems else elems

def Incomparable (a b : α) : Prop := ¬ lt a b ∧ ¬ lt b a

structure StrictWeakOn (S : Set α) : Prop where
  irrefl : ∀ a ∈ S, ¬ lt a a
  trans : ∀ a ∈ S, ∀ b ∈ S, ∀ c ∈ S, lt a b → lt b c → lt a c
  incomparable_trans : ∀ a ∈ S, ∀ b ∈ S, ∀ c ∈ S, Incomparable lt a b → Incomparable lt b c → Incomparable lt a c

structure Holds (S : Set α) (elems contents : List α) : Prop where
  sorted : elems.Pairwise (fun a b => lt a b)
  perm : elems.Perm contents
  mem : ∀ x ∈ contents, x ∈ S

variable {lt} {S : Set α} {elems contents : List α} {x : α}

theorem holds_nil : Holds lt S [] [] := ⟨List.Pairwise.nil, List.Perm.refl _, by simp⟩

theorem perm_insert (hne : ∀ y ∈ elems, ¬ Incomparable lt x y) : (insert lt x elems).Perm (x :: elems) := by
  induction elems with
  | nil => exact List.Perm.refl _
  | cons y elems ih =>
    rw [forall_mem_cons] at hne
    unfold insert
    split_ifs with hyx hxy
    · exact ((ih hne.2).cons y).trans (List.Perm.swap x y elems)
    · exact List.Perm.refl _
    · exact absurd ⟨hxy, hyx⟩ hne.1

theorem pairwise_insert (h : StrictWeakOn lt S) (hS : ∀ y ∈ elems, y ∈ S) (hx : x ∈ S)
    (hsorted : elems.Pairwise (fun a b => lt a b)) (hne : ∀ y ∈ elems, ¬ Incomparable lt x y) :
    (insert lt x elems).Pairwise (fun a b => lt a b) := by
  induction elems with
  | nil => exact pairwise_singleton _ _
  | cons y elems ih =>
    rw [forall_mem_cons] at hne hS
    obtain ⟨hy, htail⟩ := pairwise_cons.mp hsorted
    unfold insert
    split_ifs with hyx hxy
    · refine pairwise_cons.mpr ⟨?_, ih hS.2 htail hne.2⟩
      intro z hz
      rcases mem_cons.mp ((perm_insert hne.2).mem_iff.mp hz) with rfl | hz
      · exact hyx
      · exact hy z hz
    · refine pairwise_cons.mpr ⟨?_, hsorted⟩
      intro z hz
      rcases mem_cons.mp hz with rfl | hz
      · exact hxy
      · exact h.trans x hx y hS.1 z (hS.2 z hz) hxy (hy z hz)
    · exact hsorted

theorem erase_sublist : (erase lt x elems).Sublist elems := by
  induction elems with
  | nil => exact List.Sublist.slnil
  | cons y elems ih =>
    unfold erase
    split_ifs with hyx hxy
    · exact ih.cons_cons y
    · exact List.Sublist.refl _
    · exact sublist_cons_self y elems

theorem erase_middle (h : StrictWeakOn lt S) {before after : List α} (hx : x ∈ S) (hbefore : ∀ y ∈ before, lt y x) :
    erase lt x (before ++ x :: after) = before ++ after := by
  induction before with
  | nil => simp [erase, h.irrefl x hx]
  | cons y before ih =>
    rw [forall_mem_cons] at hbefore
    simp [erase, hbefore.1, ih hbefore.2]

theorem Holds.insert (h : StrictWeakOn lt S) (hh : Holds lt S elems contents) (hx : x ∈ S)
    (hne : ∀ y ∈ contents, ¬ Incomparable lt x y) : Holds lt S (insert lt x elems) (x :: contents) := by
  have hne' : ∀ y ∈ elems, ¬ Incomparable lt x y := fun y hy => hne y (hh.perm.mem_iff.mp hy)
  have hS : ∀ y ∈ elems, y ∈ S := fun y hy => hh.mem y (hh.perm.mem_iff.mp hy)
  refine ⟨pairwise_insert h hS hx hh.sorted hne', (perm_insert hne').trans (hh.perm.cons x), ?_⟩
  exact forall_mem_cons.mpr ⟨hx, hh.mem⟩

theorem Holds.erase [DecidableEq α] (h : StrictWeakOn lt S) (hh : Holds lt S elems contents) (hx : x ∈ contents) :
    Holds lt S (erase lt x elems) (contents.erase x) := by
  refine ⟨hh.sorted.sublist erase_sublist, ?_, fun y hy => hh.mem y (mem_of_mem_erase hy)⟩
  obtain ⟨before, after, hsplit⟩ := append_of_mem (hh.perm.mem_iff.mpr hx)
  have hsorted := hh.sorted
  rw [hsplit] at hsorted
  have hbefore : ∀ y ∈ before, lt y x := fun y hy => (pairwise_append.mp hsorted).2.2 y hy x (by simp)
  rw [hsplit, erase_middle h (hh.mem x hx) hbefore]
  have hperm : (x :: (before ++ after)).Perm (x :: contents.erase x) := by
    calc (x :: (before ++ after)).Perm (before ++ x :: after) := perm_middle.symm
      _ = elems := hsplit.symm
      List.Perm _ contents := hh.perm
      List.Perm _ (x :: contents.erase x) := perm_cons_erase hx
  exact hperm.cons_inv

inductive Call (α : Type*)
  | insert (x : α)
  | erase (x : α)

def apply (lt : α → α → Bool) (elems : List α) : Call α → List α
  | .insert x => insert lt x elems
  | .erase x => erase lt x elems

section
variable [DecidableEq α]

def intended (contents : List α) : Call α → List α
  | .insert x => x :: contents
  | .erase x => contents.erase x

/-- An element is inserted only while nothing that is `same` as it is there, and erased only while it is there. -/
def Proper (same : α → α → Prop) (S : Set α) (contents : List α) : Call α → Prop
  | .insert x => x ∈ S ∧ ∀ y ∈ contents, ¬ same x y
  | .erase x => x ∈ contents

inductive Along (same : α → α → Prop) (S : Set α) : List α → List (Call α) → Prop
  | nil (contents : List α) : Along same S contents []
  | cons {contents : List α} {call : Call α} {calls : List (Call α)} (hcall : Proper same S contents call)
      (hcalls : Along same S (intended contents call) calls) : Along same S contents (call :: calls)

theorem Holds.apply {same : α → α → Prop} (h : StrictWeakOn lt S)
    (hsame : ∀ a ∈ S, ∀ b ∈ S, Incomparable lt a b → same a b) (hh : Holds lt S elems contents) {call : Call α}
    (hcall : Proper same S contents call) : Holds lt S (apply lt elems call) (intended contents call) := by
  cases call with
  | insert x =>
    apply hh.insert h hcall.1
    exact fun y hy hinc => hcall.2 y hy (hsame x hcall.1 y (hh.mem y hy) hinc)
  | erase x => exact hh.erase h hcall

theorem Holds.run {same : α → α → Prop} (h : StrictWeakOn lt S)
    (hsame : ∀ a ∈ S, ∀ b ∈ S, Incomparable lt a b → same a b) (hh : Holds lt S elems contents) {calls : List (Call α)}
    (hcalls : Along same S contents calls) :
    Holds lt S (calls.foldl (OrderedSet.apply lt) elems) (calls.foldl intended contents) := by
  induction hcalls generalizing elems with
  | nil => exact hh
  | cons hcall _ ih => exact ih (hh.apply h hsame hcall)

end

end NpuCompiler.OrderedSet
