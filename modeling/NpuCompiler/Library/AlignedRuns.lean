import Mathlib.Algebra.BigOperators.Group.List.Basic
import Mathlib.Tactic.Linarith
import Mathlib.Tactic.Ring

namespace NpuCompiler.AlignedRuns

open List

def padding (a x : ℤ) : ℤ := -x % a

def alignUp (a x : ℤ) : ℤ := x + padding a x

def endOf (a : ℤ) : ℤ → List ℤ → ℤ
  | start, [] => start
  | start, size :: sizes => endOf a (alignUp a start + size) sizes

def Placed (a : ℤ) : ℤ → List ℤ → ℤ → Prop
  | start, [], stop => start = stop
  | start, size :: sizes, stop => ∃ position, start ≤ position ∧ a ∣ position ∧ Placed a (position + size) sizes stop

variable {a b start stop x y : ℤ} {sizes others : List ℤ}

theorem padding_nonneg (ha : 0 < a) : 0 ≤ padding a x := Int.emod_nonneg _ ha.ne'

theorem dvd_alignUp : a ∣ alignUp a x := by
  have h := Int.dvd_self_sub_emod (m := a) (x := -x)
  have he : alignUp a x = -(-x - -x % a) := by
    unfold alignUp padding
    ring
  rw [he]
  exact Int.dvd_neg.mpr h

theorem le_alignUp (ha : 0 < a) : x ≤ alignUp a x := by
  have := padding_nonneg (x := x) ha
  unfold alignUp
  omega

theorem padding_lt (ha : 0 < a) : padding a x < a := Int.emod_lt_of_pos _ ha

theorem alignUp_le (ha : 0 < a) (hd : a ∣ y) (hle : x ≤ y) : alignUp a x ≤ y := by
  by_contra hlt
  have hsub : a ∣ alignUp a x - y := Int.dvd_sub dvd_alignUp hd
  have hbound := Int.le_of_dvd (by omega) hsub
  have := padding_lt (x := x) ha
  unfold alignUp at hlt hbound
  omega

theorem padding_add_of_dvd (hd : a ∣ y) : padding a (y + x) = padding a x := by
  obtain ⟨k, rfl⟩ := hd
  unfold padding
  rw [show -(a * k + x) = -x + a * -k by ring, Int.add_mul_emod_self_left]

theorem alignUp_add_of_dvd (hd : a ∣ y) : alignUp a (y + x) = y + alignUp a x := by
  unfold alignUp
  rw [padding_add_of_dvd hd, add_assoc]

theorem padding_of_dvd (hd : a ∣ x) : padding a x = 0 := Int.emod_eq_zero_of_dvd (Int.dvd_neg.mpr hd)

theorem alignUp_of_dvd (hd : a ∣ x) : alignUp a x = x := by
  rw [alignUp, padding_of_dvd hd, add_zero]

theorem alignUp_mono (ha : 0 < a) (h : x ≤ y) : alignUp a x ≤ alignUp a y := by
  exact alignUp_le ha dvd_alignUp (h.trans (le_alignUp ha))

theorem endOf_add_padding (hne : sizes ≠ []) :
    endOf a start sizes + padding a (sizes.getLast hne) = alignUp a start + (sizes.map (alignUp a)).sum := by
  induction sizes generalizing start with
  | nil => exact absurd rfl hne
  | cons size sizes ih =>
    cases sizes with
    | nil =>
      simp only [endOf, getLast_singleton, map_cons, map_nil, sum_cons, sum_nil, alignUp]
      ring
    | cons next sizes =>
      rw [endOf, getLast_cons (cons_ne_nil _ _), ih (cons_ne_nil _ _), alignUp_add_of_dvd dvd_alignUp]
      simp only [map_cons, sum_cons, add_assoc]

theorem placed_endOf (ha : 0 < a) : Placed a start sizes (endOf a start sizes) := by
  induction sizes generalizing start with
  | nil => rfl
  | cons size sizes ih => exact ⟨alignUp a start, le_alignUp ha, dvd_alignUp, ih⟩

theorem endOf_mono (ha : 0 < a) (h : x ≤ y) : endOf a x sizes ≤ endOf a y sizes := by
  induction sizes generalizing x y with
  | nil => exact h
  | cons size sizes ih =>
    apply ih
    have := alignUp_mono ha h
    omega

theorem endOf_le_of_placed (ha : 0 < a) (h : Placed a start sizes stop) : endOf a start sizes ≤ stop := by
  induction sizes generalizing start with
  | nil => exact le_of_eq h
  | cons size sizes ih =>
    obtain ⟨position, hle, hd, hrest⟩ := h
    apply le_trans _ (ih hrest)
    apply endOf_mono ha
    have := alignUp_le ha hd hle
    omega

theorem endOf_le_endOf_iff (hperm : others.Perm sizes) (hne : sizes ≠ []) (hne' : others ≠ []) :
    endOf a start sizes ≤ endOf a start others ↔ padding a (others.getLast hne') ≤ padding a (sizes.getLast hne) := by
  have hs := @endOf_add_padding a start sizes hne
  have ho := @endOf_add_padding a start others hne'
  rw [(hperm.map (alignUp a)).sum_eq] at ho
  constructor <;> intro h <;> omega

section
variable {ι : Type*} {size : ι → ℤ} {items order : List ι} {i : ι}

theorem exists_perm_getLast (hi : i ∈ items) : ∃ order, ∃ hne : order ≠ [], order.Perm items ∧ order.getLast hne = i := by
  obtain ⟨before, after, rfl⟩ := append_of_mem hi
  refine ⟨before ++ (after ++ [i]), by simp, ?_, by simp⟩
  apply List.Perm.append_left
  exact perm_append_comm

theorem ne_nil_of_perm (hperm : order.Perm items) (hne : items ≠ []) : order ≠ [] :=
  fun he => hne (nil_perm.mp (he ▸ hperm))

theorem endOf_map_le_iff (hperm : order.Perm items) (hne : items ≠ []) (hne' : order ≠ []) :
    endOf a start (items.map size) ≤ endOf a start (order.map size) ↔
      padding a (size (order.getLast hne')) ≤ padding a (size (items.getLast hne)) := by
  have hiff := @endOf_le_endOf_iff a start _ _ (hperm.map size) (by simpa using hne) (by simpa using hne')
  rwa [getLast_map, getLast_map] at hiff

theorem isLeast_endOf_iff (ha : 0 < a) (hne : items ≠ []) :
    IsLeast {stop | ∃ order : List ι, order.Perm items ∧ Placed a start (order.map size) stop}
        (endOf a start (items.map size)) ↔
      ∀ i ∈ items, padding a (size i) ≤ padding a (size (items.getLast hne)) := by
  constructor
  · rintro ⟨_, hleast⟩ i hi
    obtain ⟨order, hne', hperm, hlast⟩ := exists_perm_getLast hi
    rw [← hlast]
    exact (endOf_map_le_iff hperm hne hne').mp (hleast ⟨order, hperm, placed_endOf ha⟩)
  · intro h
    refine ⟨⟨items, List.Perm.refl _, placed_endOf ha⟩, ?_⟩
    rintro stop ⟨order, hperm, hplaced⟩
    have hne' := ne_nil_of_perm hperm hne
    apply le_trans _ (endOf_le_of_placed ha hplaced)
    apply (endOf_map_le_iff hperm hne hne').mpr
    exact h _ (hperm.mem_iff.mp (getLast_mem hne'))

theorem endOf_le_of_padding_last (hperm : order.Perm items) (hne : items ≠ [])
    (h : ∀ i ∈ items, padding a (size (items.getLast hne)) ≤ padding a (size i)) :
    endOf a start (order.map size) ≤ endOf a start (items.map size) := by
  have hne' := ne_nil_of_perm hperm hne
  apply (endOf_map_le_iff hperm.symm hne' hne).mpr
  exact h _ (hperm.mem_iff.mp (getLast_mem hne'))

theorem padding_alignUp (ha : 0 < a) (hb : 0 < b) (hd : b ∣ a) : padding a (alignUp b x) = b * (padding a x / b) := by
  have hfine : padding b x = padding a x % b := (Int.emod_emod_of_dvd _ hd).symm
  have hsplit := Int.emod_add_mul_ediv (padding a x) b
  have hquot := Int.emod_add_mul_ediv (-x) a
  have hmod := Int.emod_nonneg (padding a x) hb.ne'
  have hlow := mul_nonneg hb.le (Int.ediv_nonneg (padding_nonneg (x := x) ha) hb.le)
  have hhigh := padding_lt (x := x) ha
  have hx : -alignUp b x = b * (padding a x / b) + a * (-x / a) := by
    unfold alignUp
    rw [hfine]
    unfold padding at hsplit ⊢
    linarith
  rw [padding, hx, Int.add_mul_emod_self_left, Int.emod_eq_of_lt hlow (by omega)]

theorem padding_alignUp_mono (ha : 0 < a) (hb : 0 < b) (hd : b ∣ a ∨ a ∣ b) (h : padding a x ≤ padding a y) :
    padding a (alignUp b x) ≤ padding a (alignUp b y) := by
  rcases hd with hd | hd
  · rw [padding_alignUp ha hb hd, padding_alignUp ha hb hd]
    exact mul_le_mul_of_nonneg_left (Int.ediv_le_ediv hb h) hb.le
  · rw [padding_of_dvd (hd.trans dvd_alignUp), padding_of_dvd (hd.trans dvd_alignUp)]

end

end NpuCompiler.AlignedRuns
