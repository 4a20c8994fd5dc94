import Mathlib.Data.List.Nodup
import Mathlib.Tactic.Ring
import NpuCompiler.Library.FoldRules

namespace NpuCompiler.ByteCopies

open List

variable {α : Type}

def memcpy (dst : List α) (dstPos : ℕ) (src : List α) (srcPos n : ℕ) : Option (List α) :=
  if dstPos + n ≤ dst.length ∧ srcPos + n ≤ src.length then
    some (dst.take dstPos ++ (src.drop srcPos).take n ++ dst.drop (dstPos + n))
  else none

def copyAll (n : ℕ) (src dst : List α) (copies : List (ℕ × ℕ)) : Option (List α) :=
  copies.foldlM (fun dst copy => memcpy dst copy.1 src copy.2 n) dst

def written (n : ℕ) (copies : List (ℕ × ℕ)) : List ℕ := copies.flatMap fun copy => (List.range n).map (copy.1 + ·)

variable {dst dst' src : List α} {dstPos srcPos n : ℕ} {copies : List (ℕ × ℕ)}

theorem memcpy_spec (hdst : dstPos + n ≤ dst.length) (hsrc : srcPos + n ≤ src.length) :
    ∃ dst', memcpy dst dstPos src srcPos n = some dst' ∧ dst'.length = dst.length ∧
      (∀ j < n, dst'[dstPos + j]? = src[srcPos + j]?) ∧ ∀ i, i < dstPos ∨ dstPos + n ≤ i → dst'[i]? = dst[i]? := by
  have hhead : (dst.take dstPos).length = dstPos := length_take_of_le (by omega)
  have hpart : ((src.drop srcPos).take n).length = n := by
    rw [length_take, length_drop]
    omega
  refine ⟨dst.take dstPos ++ (src.drop srcPos).take n ++ dst.drop (dstPos + n), if_pos ⟨hdst, hsrc⟩, ?_, ?_, ?_⟩
  · rw [length_append, length_append, hhead, hpart, length_drop]
    omega
  · intro j hj
    rw [append_assoc, getElem?_append_right (by omega), hhead, Nat.add_sub_cancel_left,
      getElem?_append_left (by omega), getElem?_take_of_lt hj, getElem?_drop]
  · intro i hi
    cases hi with
    | inl hlow =>
      rw [append_assoc, getElem?_append_left (by omega), getElem?_take_of_lt hlow]
    | inr hhigh =>
      rw [getElem?_append_right (by rw [length_append, hhead, hpart]; exact hhigh), length_append, hhead, hpart,
        getElem?_drop]
      congr 1
      omega

theorem copyAll_spec (hbounds : ∀ copy ∈ copies, copy.1 + n ≤ dst.length ∧ copy.2 + n ≤ src.length) (honce : (written n copies).Nodup) :
    ∃ dst', copyAll n src dst copies = some dst' ∧ dst'.length = dst.length ∧
      (∀ copy ∈ copies, ∀ j < n, dst'[copy.1 + j]? = src[copy.2 + j]?) ∧
      ∀ i ∉ written n copies, dst'[i]? = dst[i]? := by
  induction copies generalizing dst with
  | nil => exact ⟨dst, rfl, rfl, fun copy hcopy => absurd hcopy not_mem_nil, fun i _ => rfl⟩
  | cons copy copies ih =>
    obtain ⟨⟨hdst, hsrc⟩, hrest⟩ := forall_mem_cons.mp hbounds
    obtain ⟨next, hcopy, hlen, hpart, hframe⟩ := memcpy_spec hdst hsrc
    have hwritten : written n (copy :: copies) = (List.range n).map (copy.1 + ·) ++ written n copies := flatMap_cons
    rw [hwritten] at honce
    obtain ⟨-, honce', hdisjoint⟩ := nodup_append.mp honce
    rw [← hlen] at hrest
    obtain ⟨dst', hrun, hlen', hparts, hframe'⟩ := ih hrest honce'
    have hkept : ∀ j < n, copy.1 + j ∉ written n copies := by
      intro j hj hmem
      exact hdisjoint _ (mem_map.mpr ⟨j, mem_range.mpr hj, rfl⟩) _ hmem rfl
    refine ⟨dst', ?_, hlen'.trans hlen, ?_, ?_⟩
    · unfold copyAll
      rw [foldlM_cons, hcopy]
      exact hrun
    · intro copy' hcopy' j hj
      cases mem_cons.mp hcopy' with
      | inl heq =>
        subst heq
        rw [hframe' _ (hkept j hj), hpart j hj]
      | inr hmem => exact hparts copy' hmem j hj
    · intro i hi
      rw [hwritten, mem_append, not_or] at hi
      rw [hframe' i hi.2, hframe i]
      by_contra hinside
      push Not at hinside
      exact hi.1 (mem_map.mpr ⟨i - copy.1, mem_range.mpr (by omega), by omega⟩)

section
variable {e : ℕ} {r : ℤ} {rows : List (ℤ × ℤ)}

def elementsOf (r : ℤ) (rows : List (ℤ × ℤ)) : List (ℤ × ℤ) :=
  rows.flatMap fun row => (List.range r.toNat).map fun (j : ℕ) => (row.1 + j, row.2 + j)

def inBytes (e : ℕ) (rows : List (ℤ × ℤ)) : List (ℕ × ℕ) :=
  rows.map fun row : ℤ × ℤ => ((row.1 * (e : ℤ)).toNat, (row.2 * (e : ℤ)).toNat)

theorem mem_elementsOf {p : ℤ × ℤ} : p ∈ elementsOf r rows ↔ ∃ row ∈ rows, ∃ j : ℕ, (j : ℤ) < r ∧ p = (row.1 + j, row.2 + j) := by
  unfold elementsOf
  rw [mem_flatMap]
  constructor
  · rintro ⟨row, hrow, hp⟩
    obtain ⟨j, hj, rfl⟩ := mem_map.mp hp
    exact ⟨row, hrow, j, by have := mem_range.mp hj; omega, rfl⟩
  · rintro ⟨row, hrow, j, hj, rfl⟩
    exact ⟨row, hrow, mem_map.mpr ⟨j, mem_range.mpr (by omega), rfl⟩⟩

theorem elementsOf_one : elementsOf 1 rows = rows := by
  unfold elementsOf
  have hone : (1 : ℤ).toNat = 1 := rfl
  simp [hone]

theorem toNat_mul_add {x : ℤ} (hx : 0 ≤ x) (j : ℕ) : ((x + j) * (e : ℤ)).toNat = (x * (e : ℤ)).toNat + j * e := by
  obtain ⟨n, rfl⟩ := Int.eq_ofNat_of_zero_le hx
  rw [← Nat.cast_add, ← Nat.cast_mul, ← Nat.cast_mul, Int.toNat_natCast, Int.toNat_natCast, Nat.add_mul]

theorem written_inBytes (hnonneg : ∀ row ∈ rows, 0 ≤ row.1) : written (r.toNat * e) (inBytes e rows) =
    (elementsOf r rows).flatMap fun p : ℤ × ℤ => (List.range e).map ((p.1 * (e : ℤ)).toNat + ·) := by
  unfold written inBytes elementsOf
  rw [flatMap_map, flatMap_assoc]
  apply flatMap_congr
  intro row hrow
  rw [← range_chunks, map_flatMap, flatMap_map]
  apply flatMap_congr
  intro j _
  rw [map_map]
  apply map_congr_left
  intro t _
  rw [Function.comp_apply, toNat_mul_add (hnonneg row hrow), Nat.add_assoc]

theorem elementByte_ne {t t' : ℕ} {x x' : ℤ} (hx : 0 ≤ x) (hx' : 0 ≤ x') (hne : x ≠ x') (ht : t < e) (ht' : t' < e) :
    (x * (e : ℤ)).toNat + t ≠ (x' * (e : ℤ)).toNat + t' := by
  obtain ⟨n, rfl⟩ := Int.eq_ofNat_of_zero_le hx
  obtain ⟨m, rfl⟩ := Int.eq_ofNat_of_zero_le hx'
  intro h
  rw [← Nat.cast_mul, ← Nat.cast_mul, Int.toNat_natCast, Int.toNat_natCast] at h
  have hdiv := congrArg (· / e) h
  rw [Nat.mul_comm, Nat.mul_add_div (by omega), Nat.mul_comm, Nat.mul_add_div (by omega), Nat.div_eq_of_lt ht,
    Nat.div_eq_of_lt ht'] at hdiv
  apply hne
  omega

theorem nodup_elementBytes {elements : List (ℤ × ℤ)} (hnonneg : ∀ p ∈ elements, 0 ≤ p.1) (hnodup : (elements.map Prod.fst).Nodup) :
    (elements.flatMap fun p : ℤ × ℤ => (List.range e).map ((p.1 * (e : ℤ)).toNat + ·)).Nodup := by
  apply nodup_flatMap.mpr
  constructor
  · intro p _
    apply nodup_range.map
    intro j j' h
    exact Nat.add_left_cancel h
  · apply (pairwise_map.mp hnodup).imp_of_mem
    intro p q hp hq hne
    simp only [Function.onFun, disjoint_left, mem_map, mem_range, not_exists, not_and]
    rintro _ ⟨j, hj, rfl⟩ j' hj' heq
    exact elementByte_ne (hnonneg p hp) (hnonneg q hq) hne hj hj' heq.symm

theorem copyRows_spec (hr : 0 < r) (hdst : ∀ p ∈ elementsOf r rows, 0 ≤ p.1 ∧ (p.1 + 1) * (e : ℤ) ≤ dst.length)
    (hsrc : ∀ p ∈ elementsOf r rows, 0 ≤ p.2 ∧ (p.2 + 1) * (e : ℤ) ≤ src.length) (hnodup : ((elementsOf r rows).map Prod.fst).Nodup)
    (hperm : copies.Perm (inBytes e rows)) :
    ∃ dst', copyAll (r.toNat * e) src dst copies = some dst' ∧ dst'.length = dst.length ∧
      (∀ p ∈ elementsOf r rows, ∀ t < e, dst'[(p.1 * (e : ℤ)).toNat + t]? = src[(p.2 * (e : ℤ)).toNat + t]?) ∧
      ∀ i : ℕ, (∀ p ∈ elementsOf r rows, ∀ t < e, i ≠ (p.1 * (e : ℤ)).toNat + t) → dst'[i]? = dst[i]? := by
  have hfirst : ∀ row ∈ rows, 0 ≤ row.1 ∧ 0 ≤ row.2 := by
    intro row hrow
    have hmem : (row.1 + ((0 : ℕ) : ℤ), row.2 + ((0 : ℕ) : ℤ)) ∈ elementsOf r rows := mem_elementsOf.mpr ⟨row, hrow, 0, by simpa using hr, rfl⟩
    have h1 := (hdst _ hmem).1
    have h2 := (hsrc _ hmem).1
    simp only [Nat.cast_zero, Int.add_zero] at h1 h2
    exact ⟨h1, h2⟩
  obtain ⟨m, hm⟩ : ∃ m : ℕ, r = m + 1 := ⟨(r - 1).toNat, by omega⟩
  have hlast {x : ℤ} {size : ℕ} (hx : 0 ≤ x) (hend : (x + m + 1) * (e : ℤ) ≤ size) : (x * (e : ℤ)).toNat + r.toNat * e ≤ size := by
    have hsum := @toNat_mul_add e x hx r.toNat
    rw [← hsum]
    have : (x + (r.toNat : ℤ)) * (e : ℤ) = (x + m + 1) * e := by
      rw [hm]
      have : ((m + 1 : ℤ)).toNat = m + 1 := by omega
      rw [this]
      push_cast
      ring
    rw [this]
    omega
  have hbounds : ∀ copy ∈ copies, copy.1 + r.toNat * e ≤ dst.length ∧ copy.2 + r.toNat * e ≤ src.length := by
    intro copy hcopy
    obtain ⟨row, hrow, rfl⟩ := mem_map.mp (hperm.mem_iff.mp hcopy)
    have hmem : (row.1 + (m : ℤ), row.2 + (m : ℤ)) ∈ elementsOf r rows := mem_elementsOf.mpr ⟨row, hrow, m, by omega, rfl⟩
    exact ⟨hlast (hfirst row hrow).1 (hdst _ hmem).2, hlast (hfirst row hrow).2 (hsrc _ hmem).2⟩
  have hwritten : (written (r.toNat * e) copies).Perm ((elementsOf r rows).flatMap fun p : ℤ × ℤ => (List.range e).map ((p.1 * (e : ℤ)).toNat + ·)) := by
    rw [← written_inBytes (fun row hrow => (hfirst row hrow).1)]
    exact hperm.flatMap_right _
  have honce : (written (r.toNat * e) copies).Nodup :=
    hwritten.nodup_iff.mpr (nodup_elementBytes (fun p hp => (hdst p hp).1) hnodup)
  obtain ⟨dst', hrun, hlen, hparts, hframe⟩ := copyAll_spec hbounds honce
  refine ⟨dst', hrun, hlen, ?_, ?_⟩
  · intro p hp t ht
    obtain ⟨row, hrow, j, hj, rfl⟩ := mem_elementsOf.mp hp
    have hcopy : ((row.1 * (e : ℤ)).toNat, (row.2 * (e : ℤ)).toNat) ∈ copies := hperm.mem_iff.mpr (mem_map.mpr ⟨row, hrow, rfl⟩)
    have hin : j * e + t < r.toNat * e := by
      have := Nat.mul_le_mul_right e (show j + 1 ≤ r.toNat by omega)
      rw [Nat.succ_mul] at this
      omega
    have hpart := hparts _ hcopy _ hin
    dsimp only at hpart ⊢
    rwa [toNat_mul_add (hfirst row hrow).1, toNat_mul_add (hfirst row hrow).2, Nat.add_assoc, Nat.add_assoc]
  · intro i hi
    apply hframe
    intro hmem
    obtain ⟨p, hp, hmem⟩ := mem_flatMap.mp (hwritten.mem_iff.mp hmem)
    obtain ⟨t, ht, rfl⟩ := mem_map.mp hmem
    exact hi p hp t (mem_range.mp ht) rfl

end

end NpuCompiler.ByteCopies
