import NpuCompiler.Library.SmallSet

namespace NpuCompiler

open List SmallSet

def row {n : ℕ} (rows : List (SmallSet ℕ n)) (i : ℕ) : SmallSet ℕ n := rows.getD i ∅

/-- A relation between two kinds of indices that is stored twice: as a set for each index on the left, and as a set for
each index on the right. -/
structure LinkMap (n : ℕ) where
  left : List (SmallSet ℕ n)
  right : List (SmallSet ℕ n)
  deriving DecidableEq

section
variable {n : ℕ} {rows : List (SmallSet ℕ n)} {i j : ℕ}

theorem row_modify (f : SmallSet ℕ n → SmallSet ℕ n) :
    row (rows.modify i f) j = if i = j ∧ j < rows.length then f (row rows j) else row rows j := by
  unfold row
  rw [getD_eq_getElem?_getD, getD_eq_getElem?_getD, getElem?_modify]
  by_cases hj : j < rows.length
  · rw [getElem?_eq_getElem hj]
    by_cases hij : i = j
    · simp [hij, hj]
    · simp [hij]
  · rw [if_neg (fun h => hj h.2), getElem?_eq_none (Nat.le_of_not_lt hj)]
    rfl

theorem row_out (h : rows.length ≤ i) : row rows i = ∅ := by
  unfold row
  rw [getD_eq_getElem?_getD, getElem?_eq_none h]
  rfl

theorem lt_of_mem_row {a : ℕ} (h : a ∈ row rows i) : i < rows.length := by
  by_contra hout
  rw [row_out (Nat.le_of_not_lt hout)] at h
  exact not_mem_empty h

theorem row_append_empty : row (rows ++ [∅]) i = row rows i := by
  by_cases hi : i < rows.length
  · unfold row
    rw [getD_eq_getElem?_getD, getD_eq_getElem?_getD, getElem?_append_left hi]
  · rw [row_out (Nat.le_of_not_lt hi)]
    by_cases hlast : i = rows.length
    · subst hlast
      unfold row
      rw [getD_eq_getElem?_getD, getElem?_concat_length]
      rfl
    · apply row_out
      rw [length_append, length_singleton]
      omega

end

namespace LinkMap

variable {n : ℕ}

def swap (m : LinkMap n) : LinkMap n := ⟨m.right, m.left⟩

def link (m : LinkMap n) (l r : ℕ) : LinkMap n :=
  ⟨m.left.modify l (·.insert r), m.right.modify r (·.insert l)⟩

def unlink (m : LinkMap n) (l r : ℕ) : LinkMap n :=
  ⟨m.left.modify l (·.erase r), m.right.modify r (·.erase l)⟩

def setRight (m : LinkMap n) (r : ℕ) (ls : SmallSet ℕ n) : LinkMap n :=
  let cleared := (row m.right r).toList.foldl (fun left l => left.modify l (·.erase r)) m.left
  ⟨ls.toList.foldl (fun left l => left.modify l (·.insert r)) cleared, m.right.modify r (fun _ => ls)⟩

def clearLeft (m : LinkMap n) (l : ℕ) : LinkMap n :=
  ⟨m.left.modify l (fun _ => ∅), (row m.left l).toList.foldl (fun right r => right.modify r (·.erase l)) m.right⟩

def addLeft (m : LinkMap n) : LinkMap n := { m with left := m.left ++ [∅] }

def addRight (m : LinkMap n) : LinkMap n := { m with right := m.right ++ [∅] }

def Inverse (m : LinkMap n) : Prop := ∀ l r, r ∈ row m.left l ↔ l ∈ row m.right r

section
variable {m : LinkMap n} {l r : ℕ}

@[simp] theorem length_link_left : (m.link l r).left.length = m.left.length := by simp [link]

@[simp] theorem length_link_right : (m.link l r).right.length = m.right.length := by simp [link]

@[simp] theorem length_unlink_left : (m.unlink l r).left.length = m.left.length := by simp [unlink]

@[simp] theorem length_unlink_right : (m.unlink l r).right.length = m.right.length := by simp [unlink]

theorem length_foldl_modify {rows : List (SmallSet ℕ n)} (f : SmallSet ℕ n → SmallSet ℕ n) (is : List ℕ) :
    (is.foldl (fun rows i => rows.modify i f) rows).length = rows.length := by
  induction is generalizing rows with
  | nil => rfl
  | cons i is ih => rw [foldl_cons, ih, length_modify]

@[simp] theorem length_setRight_left (ls : SmallSet ℕ n) : (m.setRight r ls).left.length = m.left.length := by
  unfold setRight
  rw [length_foldl_modify, length_foldl_modify]

@[simp] theorem length_setRight_right (ls : SmallSet ℕ n) : (m.setRight r ls).right.length = m.right.length := by
  simp [setRight]

@[simp] theorem length_clearLeft_left : (m.clearLeft l).left.length = m.left.length := by simp [clearLeft]

@[simp] theorem length_clearLeft_right : (m.clearLeft l).right.length = m.right.length := length_foldl_modify _ _

theorem Inverse.lt_left (h : Inverse m) (hl : l ∈ row m.right r) : l < m.left.length := lt_of_mem_row ((h l r).mpr hl)

theorem Inverse.lt_right (h : Inverse m) (hr : r ∈ row m.left l) : r < m.right.length := lt_of_mem_row ((h l r).mp hr)

theorem mem_link_left (hl : l < m.left.length) {l' r' : ℕ} :
    r' ∈ row (m.link l r).left l' ↔ (l' = l ∧ r' = r) ∨ r' ∈ row m.left l' := by
  unfold link
  rw [row_modify]
  by_cases heq : l = l'
  · subst heq
    rw [if_pos ⟨rfl, hl⟩, mem_insert]
    simp
  · rw [if_neg (fun h => heq h.1)]
    simp [Ne.symm heq]

theorem mem_link_right (hr : r < m.right.length) {l' r' : ℕ} :
    l' ∈ row (m.link l r).right r' ↔ (l' = l ∧ r' = r) ∨ l' ∈ row m.right r' := by
  have h := @mem_link_left n m.swap r l hr r' l'
  rw [and_comm] at h
  exact h

theorem Inverse.link (h : Inverse m) (hl : l < m.left.length) (hr : r < m.right.length) : Inverse (m.link l r) := by
  intro l' r'
  rw [mem_link_left hl, mem_link_right hr, h l' r']

theorem mem_unlink_left {l' r' : ℕ} : r' ∈ row (m.unlink l r).left l' ↔ ¬ (l' = l ∧ r' = r) ∧ r' ∈ row m.left l' := by
  unfold unlink
  rw [row_modify]
  by_cases heq : l = l'
  · subst heq
    by_cases hl : l < m.left.length
    · rw [if_pos ⟨rfl, hl⟩, mem_erase]
      simp
    · rw [if_neg (fun h => hl h.2), row_out (Nat.le_of_not_lt hl)]
      simp
  · rw [if_neg (fun h => heq h.1)]
    simp [Ne.symm heq]

theorem mem_unlink_right {l' r' : ℕ} :
    l' ∈ row (m.unlink l r).right r' ↔ ¬ (l' = l ∧ r' = r) ∧ l' ∈ row m.right r' := by
  have h := @mem_unlink_left n m.swap r l r' l'
  rw [and_comm (a := r' = r)] at h
  exact h

theorem Inverse.unlink (h : Inverse m) : Inverse (m.unlink l r) := by
  intro l' r'
  rw [mem_unlink_left, mem_unlink_right, h l' r']

theorem mem_foldl_erase {rows : List (SmallSet ℕ n)} {is : List ℕ} {a i b : ℕ} :
    b ∈ row (is.foldl (fun rows i => rows.modify i (·.erase a)) rows) i ↔ ¬ (i ∈ is ∧ b = a) ∧ b ∈ row rows i := by
  induction is generalizing rows with
  | nil => simp
  | cons j is ih =>
    rw [foldl_cons, ih, row_modify]
    by_cases hij : j = i
    · subst hij
      by_cases hj : j < rows.length
      · rw [if_pos ⟨rfl, hj⟩, mem_erase]
        simp only [mem_cons, true_or, true_and]
        tauto
      · rw [if_neg (fun h => hj h.2), row_out (Nat.le_of_not_lt hj)]
        simp
    · rw [if_neg (fun h => hij h.1)]
      simp [Ne.symm hij]

theorem mem_foldl_insert {rows : List (SmallSet ℕ n)} {is : List ℕ} {a i b : ℕ} (his : ∀ j ∈ is, j < rows.length) :
    b ∈ row (is.foldl (fun rows i => rows.modify i (·.insert a)) rows) i ↔ (i ∈ is ∧ b = a) ∨ b ∈ row rows i := by
  induction is generalizing rows with
  | nil => simp
  | cons j is ih =>
    obtain ⟨hj, his⟩ := forall_mem_cons.mp his
    rw [foldl_cons, ih (by simpa using his), row_modify]
    by_cases hij : j = i
    · subst hij
      rw [if_pos ⟨rfl, hj⟩, mem_insert]
      simp only [mem_cons, true_or, true_and]
      tauto
    · rw [if_neg (fun h => hij h.1)]
      simp [Ne.symm hij]

theorem mem_setRight_left (h : Inverse m) {ls : SmallSet ℕ n} (hls : ∀ l ∈ ls.toList, l < m.left.length) {l' r' : ℕ} :
    r' ∈ row (m.setRight r ls).left l' ↔ if r' = r then l' ∈ ls else r' ∈ row m.left l' := by
  unfold setRight
  rw [mem_foldl_insert (by simpa [length_foldl_modify] using hls), mem_foldl_erase, ← mem_iff,
    ← mem_iff]
  by_cases hr : r' = r
  · subst hr
    rw [if_pos rfl, h l' r']
    simp
  · rw [if_neg hr]
    simp [hr]

theorem mem_setRight_right (hr : r < m.right.length) {ls : SmallSet ℕ n} {l' r' : ℕ} :
    l' ∈ row (m.setRight r ls).right r' ↔ if r' = r then l' ∈ ls else l' ∈ row m.right r' := by
  unfold setRight
  rw [row_modify]
  by_cases heq : r' = r
  · subst heq
    rw [if_pos ⟨rfl, hr⟩, if_pos rfl]
  · rw [if_neg (fun h => heq h.1.symm), if_neg heq]

theorem Inverse.setRight (h : Inverse m) (hr : r < m.right.length) {ls : SmallSet ℕ n}
    (hls : ∀ l ∈ ls.toList, l < m.left.length) : Inverse (m.setRight r ls) := by
  intro l' r'
  rw [mem_setRight_left h hls, mem_setRight_right hr]
  by_cases heq : r' = r
  · rw [if_pos heq, if_pos heq]
  · rw [if_neg heq, if_neg heq, h l' r']

theorem mem_clearLeft_left {l' r' : ℕ} : r' ∈ row (m.clearLeft l).left l' ↔ l' ≠ l ∧ r' ∈ row m.left l' := by
  unfold clearLeft
  rw [row_modify]
  by_cases heq : l = l'
  · subst heq
    by_cases hl : l < m.left.length
    · rw [if_pos ⟨rfl, hl⟩]
      simp
    · rw [if_neg (fun h => hl h.2), row_out (Nat.le_of_not_lt hl)]
      simp
  · rw [if_neg (fun h => heq h.1)]
    simp [Ne.symm heq]

theorem mem_clearLeft_right (h : Inverse m) {l' r' : ℕ} :
    l' ∈ row (m.clearLeft l).right r' ↔ l' ≠ l ∧ l' ∈ row m.right r' := by
  unfold clearLeft
  rw [mem_foldl_erase, ← mem_iff]
  by_cases heq : l' = l
  · subst heq
    rw [h l' r']
    simp
  · simp [heq]

theorem Inverse.clearLeft (h : Inverse m) : Inverse (m.clearLeft l) := by
  intro l' r'
  rw [mem_clearLeft_left, mem_clearLeft_right h, h l' r']

theorem Inverse.addLeft (h : Inverse m) : Inverse m.addLeft := by
  intro l' r'
  change r' ∈ row (m.left ++ [∅]) l' ↔ _
  rw [row_append_empty]
  exact h l' r'

theorem Inverse.addRight (h : Inverse m) : Inverse m.addRight := by
  intro l' r'
  change _ ↔ l' ∈ row (m.right ++ [∅]) r'
  rw [row_append_empty]
  exact h l' r'

end

end LinkMap

end NpuCompiler
