import Mathlib.Algebra.Order.BigOperators.GroupWithZero.List
import Mathlib.Data.List.GetD
import Mathlib.Order.OrderIsoNat
import Mathlib.Tactic.Linarith
import Mathlib.Tactic.Ring

namespace NpuCompiler.MixedRadix

open List

def entry (v : List ℤ) (i : ℕ) : ℤ := v.getD i 0

def encode : List ℤ → List ℤ → ℤ
  | _ :: dims, y :: c => y * dims.prod + encode dims c
  | _, _ => 0

def decode : List ℤ → ℤ → List ℤ
  | [], _ => []
  | d :: dims, x => x / dims.prod % d :: decode dims x

def weight (dims : List ℤ) (i : ℕ) : ℤ := (dims.drop (i + 1)).prod

def InBox (dims c : List ℤ) : Prop := List.Forall₂ (fun d y => 0 ≤ y ∧ y < d) dims c

def shift (c offset : List ℤ) : List ℤ := List.zipWith (· + ·) c offset

/-- The box at `offset` of sizes `shape` is not empty and lies inside `dims`. -/
inductive Fits : List ℤ → List ℤ → List ℤ → Prop
  | nil : Fits [] [] []
  | cons {d o s : ℤ} {dims offset shape : List ℤ} (ho : 0 ≤ o) (hs : 0 < s) (hd : o + s ≤ d)
      (h : Fits dims offset shape) : Fits (d :: dims) (o :: offset) (s :: shape)

def slot (dims offset shape : List ℤ) (k : ℤ) : ℤ := encode dims (shift (decode shape k) offset)

def Selected (dims offset shape : List ℤ) (x : ℤ) : Prop :=
  ∀ i < dims.length, entry offset i ≤ entry (decode dims x) i ∧
    entry (decode dims x) i < entry offset i + entry shape i

variable {dims c offset shape v w : List ℤ} {d x y k l q : ℤ} {i j : ℕ}

@[simp] theorem entry_nil : entry [] i = 0 := rfl

@[simp] theorem entry_cons_zero : entry (d :: v) 0 = d := rfl

@[simp] theorem entry_cons_succ : entry (d :: v) (i + 1) = entry v i := rfl

theorem entry_of_lt (h : i < v.length) : entry v i = v[i] := by
  exact getD_eq_getElem v 0 h

theorem entry_of_le (h : v.length ≤ i) : entry v i = 0 := by
  exact getD_eq_default v 0 h

theorem ext_entry (hl : v.length = w.length) (h : ∀ i < v.length, entry v i = entry w i) : v = w := by
  apply ext_getElem hl
  intro i hv hw
  rw [← entry_of_lt hv, ← entry_of_lt hw]
  exact h i hv

theorem forall_lt_four {p : ℕ → Prop} : (∀ d < 4, p d) ↔ p 0 ∧ p 1 ∧ p 2 ∧ p 3 := by
  constructor
  · intro h
    exact ⟨h 0 (by omega), h 1 (by omega), h 2 (by omega), h 3 (by omega)⟩
  · rintro ⟨h0, h1, h2, h3⟩ d hd
    match d, hd with
    | 0, _ => exact h0
    | 1, _ => exact h1
    | 2, _ => exact h2
    | 3, _ => exact h3

theorem forall_lt_five {p : ℕ → Prop} : (∀ d < 5, p d) ↔ p 0 ∧ p 1 ∧ p 2 ∧ p 3 ∧ p 4 := by
  constructor
  · intro h
    exact ⟨h 0 (by omega), h 1 (by omega), h 2 (by omega), h 3 (by omega), h 4 (by omega)⟩
  · rintro ⟨h0, h1, h2, h3, h4⟩ d hd
    by_cases he : d = 4
    · exact he ▸ h4
    · exact forall_lt_four.mpr ⟨h0, h1, h2, h3⟩ d (by omega)

theorem length_eq_five {l : List ℤ} (h : l.length = 5) : ∃ a b c d e, l = [a, b, c, d, e] := by
  match l, h with
  | [a, b, c, d, e], _ => exact ⟨a, b, c, d, e, rfl⟩

theorem range_map_entry (v : List ℤ) : (List.range v.length).map (entry v) = v := by
  apply ext_entry (by simp)
  intro i hi
  have hn : i < v.length := by simpa using hi
  rw [entry_of_lt hi]
  simp

theorem entry_mem (h : i < v.length) : entry v i ∈ v := by
  rw [entry_of_lt h]
  exact getElem_mem h

theorem entry_shift (h : c.length = offset.length) : entry (shift c offset) i = entry c i + entry offset i := by
  induction c generalizing offset i with
  | nil =>
    cases offset with
    | nil => rfl
    | cons o offset => simp at h
  | cons y c ih =>
    cases offset with
    | nil => simp at h
    | cons o offset =>
      cases i with
      | zero => rfl
      | succ i => exact ih (by simpa using h)

@[simp] theorem length_shift (h : c.length = offset.length) : (shift c offset).length = c.length := by
  simp [shift, h]

theorem entry_set (y : ℤ) (h : j < v.length) : entry (v.set j y) i = if i = j then y else entry v i := by
  unfold entry
  by_cases hi : i = j
  · subst hi
    simp [h]
  · have hj : j ≠ i := fun he => hi he.symm
    rw [if_neg hi]
    simp [hj]

@[simp] theorem length_decode : (decode dims x).length = dims.length := by
  induction dims with
  | nil => rfl
  | cons d dims ih => simp [decode, ih]

theorem entry_decode (h : i < dims.length) : entry (decode dims x) i = x / weight dims i % entry dims i := by
  induction dims generalizing i with
  | nil => simp at h
  | cons d dims ih =>
    cases i with
    | zero => simp [decode, weight]
    | succ i =>
      have hi : i < dims.length := by simpa using h
      simpa [decode, weight] using ih hi

theorem prod_pos (h : ∀ d ∈ dims, 0 < d) : 0 < dims.prod := List.prod_pos h

theorem prod_drop (h : i < dims.length) : (dims.drop i).prod = weight dims i * entry dims i := by
  rw [drop_eq_getElem_cons h, prod_cons, entry_of_lt h, mul_comm]
  rfl

theorem drop_pos (h : ∀ d ∈ dims, 0 < d) : 0 < (dims.drop i).prod := by
  exact prod_pos fun d hd => h d (mem_of_mem_drop hd)

theorem prod_drop_le (h : ∀ d ∈ dims, 0 < d) (hij : i ≤ j) : (dims.drop j).prod ≤ (dims.drop i).prod := by
  induction j, hij using Nat.le_induction with
  | base => exact le_refl _
  | succ j hij ih =>
    apply le_trans _ ih
    by_cases hj : j < dims.length
    · rw [prod_drop hj]
      have hw : 0 < weight dims j := drop_pos h
      have hd : 0 < entry dims j := h _ (entry_mem hj)
      change weight dims j ≤ _
      nlinarith
    · rw [drop_eq_nil_of_le (by omega), drop_eq_nil_of_le (by omega)]

theorem weight_inj (h : ∀ d ∈ dims, 0 < d) (hi : i < dims.length) (hj : j < dims.length) (h2i : 2 ≤ entry dims i)
    (h2j : 2 ≤ entry dims j) (hw : weight dims i = weight dims j) : i = j := by
  have hstep : ∀ {a b : ℕ}, b < dims.length → 2 ≤ entry dims b → weight dims a = weight dims b → ¬a < b := by
    intro a b hb h2 he hab
    have hle : (dims.drop b).prod ≤ weight dims a := prod_drop_le h hab
    have hp : 0 < weight dims b := drop_pos h
    rw [prod_drop hb, he] at hle
    nlinarith
  apply Nat.le_antisymm
  · exact Nat.le_of_not_lt (hstep hi h2i hw.symm)
  · exact Nat.le_of_not_lt (hstep hj h2j hw)

theorem InBox.length (h : InBox dims c) : c.length = dims.length := (List.Forall₂.length_eq h).symm

theorem inBox_iff : InBox dims c ↔
    c.length = dims.length ∧ ∀ i < dims.length, 0 ≤ entry c i ∧ entry c i < entry dims i := by
  unfold InBox
  rw [forall₂_iff_get]
  constructor
  · rintro ⟨hl, h⟩
    refine ⟨hl.symm, fun i hi => ?_⟩
    have hc : i < c.length := hl ▸ hi
    rw [entry_of_lt hi, entry_of_lt hc]
    exact h i hi hc
  · rintro ⟨hl, h⟩
    refine ⟨hl.symm, fun i hi hc => ?_⟩
    have hb := h i hi
    rw [entry_of_lt hi, entry_of_lt hc] at hb
    exact hb

theorem encode_bounds (h : InBox dims c) : 0 ≤ encode dims c ∧ encode dims c < dims.prod := by
  induction h with
  | nil => simp [encode]
  | @cons d y dims c hy hb ih =>
    simp only [encode, prod_cons]
    have hp : 0 ≤ y * dims.prod := mul_nonneg hy.1 (by linarith)
    have hu : (y + 1) * dims.prod ≤ d * dims.prod := mul_le_mul_of_nonneg_right (by linarith [hy.2]) (by linarith)
    constructor
    · linarith
    · linarith

theorem decode_add_mul (h : ∀ d ∈ dims, 0 < d) : decode dims (q * dims.prod + x) = decode dims x := by
  induction dims generalizing q with
  | nil => rfl
  | cons d dims ih =>
    have ht : ∀ d ∈ dims, 0 < d := fun e he => h e (mem_cons_of_mem _ he)
    have hp := prod_pos ht
    have he : q * (d * dims.prod) + x = (q * d) * dims.prod + x := by ring
    simp only [decode, prod_cons, he, ih ht]
    rw [add_comm, Int.add_mul_ediv_right _ _ hp.ne', Int.add_mul_emod_self_right]

theorem InBox.pos (h : InBox dims c) : ∀ d ∈ dims, 0 < d := by
  induction h with
  | nil => simp
  | @cons d y dims c hy hb ih =>
    intro e he
    cases mem_cons.mp he with
    | inl he => subst he; linarith [hy.1, hy.2]
    | inr he => exact ih e he

theorem decode_encode (h : InBox dims c) : decode dims (encode dims c) = c := by
  induction h with
  | nil => rfl
  | @cons d y dims c hy hb ih =>
    have hpos := InBox.pos hb
    have hp := prod_pos hpos
    have he := encode_bounds hb
    have hq : (y * dims.prod + encode dims c) / dims.prod = y := by
      rw [add_comm, Int.add_mul_ediv_right _ _ hp.ne', Int.ediv_eq_zero_of_lt he.1 he.2, zero_add]
    simp only [encode, decode, hq, decode_add_mul hpos, ih, Int.emod_eq_of_lt hy.1 hy.2]

theorem decode_emod (h : ∀ d ∈ dims, 0 < d) : decode dims (x % dims.prod) = decode dims x := by
  have he : x / dims.prod * dims.prod + x % dims.prod = x := Int.ediv_mul_add_emod x dims.prod
  conv_rhs => rw [← he]
  exact (decode_add_mul h).symm

theorem encode_decode (h : ∀ d ∈ dims, 0 < d) (h0 : 0 ≤ x) (hx : x < dims.prod) : encode dims (decode dims x) = x := by
  induction dims generalizing x with
  | nil =>
    simp only [prod_nil] at hx
    have hz : x = 0 := by linarith
    simp [encode, hz]
  | cons d dims ih =>
    have ht : ∀ d ∈ dims, 0 < d := fun e he => h e (mem_cons_of_mem _ he)
    have hp := prod_pos ht
    rw [prod_cons] at hx
    have hq : x / dims.prod % d = x / dims.prod :=
      Int.emod_eq_of_lt (Int.ediv_nonneg h0 hp.le) (Int.ediv_lt_of_lt_mul hp hx)
    have hr := ih ht (Int.emod_nonneg x hp.ne') (Int.emod_lt_of_pos x hp)
    rw [decode_emod ht] at hr
    simp only [decode, encode, hq, hr]
    exact Int.ediv_mul_add_emod x dims.prod

theorem inBox_decode (h : ∀ d ∈ dims, 0 < d) : InBox dims (decode dims x) := by
  induction dims with
  | nil => exact List.Forall₂.nil
  | cons d dims ih =>
    have hd := h d mem_cons_self
    apply List.Forall₂.cons
    · exact ⟨Int.emod_nonneg _ hd.ne', Int.emod_lt_of_pos _ hd⟩
    · exact ih fun e he => h e (mem_cons_of_mem _ he)

theorem Fits.length_offset (h : Fits dims offset shape) : offset.length = dims.length := by
  induction h with
  | nil => rfl
  | cons ho hs hd h ih => simp [ih]

theorem Fits.length_shape (h : Fits dims offset shape) : shape.length = dims.length := by
  induction h with
  | nil => rfl
  | cons ho hs hd h ih => simp [ih]

theorem fits_iff : Fits dims offset shape ↔ offset.length = dims.length ∧ shape.length = dims.length ∧
    ∀ i < dims.length, 0 ≤ entry offset i ∧ 0 < entry shape i ∧ entry offset i + entry shape i ≤ entry dims i := by
  constructor
  · intro h
    refine ⟨h.length_offset, h.length_shape, ?_⟩
    induction h with
    | nil => simp
    | cons ho hs hd h ih =>
      intro i hi
      cases i with
      | zero => exact ⟨ho, hs, hd⟩
      | succ i => exact ih i (by simpa using hi)
  · rintro ⟨ho, hs, h⟩
    induction dims generalizing offset shape with
    | nil =>
      rw [length_eq_zero_iff.mp ho, length_eq_zero_iff.mp hs]
      exact Fits.nil
    | cons d dims ih =>
      cases offset with
      | nil => simp at ho
      | cons o offset =>
        cases shape with
        | nil => simp at hs
        | cons s shape =>
          have h0 := h 0 (by simp)
          apply Fits.cons h0.1 h0.2.1 h0.2.2
          apply ih (by simpa using ho) (by simpa using hs)
          intro i hi
          exact h (i + 1) (by simpa using hi)

theorem Fits.shape_pos (h : Fits dims offset shape) : ∀ s ∈ shape, 0 < s := by
  induction h with
  | nil => simp
  | cons ho hs hd h ih =>
    intro e he
    cases mem_cons.mp he with
    | inl he => exact he ▸ hs
    | inr he => exact ih e he

theorem Fits.dims_pos (h : Fits dims offset shape) : ∀ d ∈ dims, 0 < d := by
  induction h with
  | nil => simp
  | cons ho hs hd h ih =>
    intro e he
    cases mem_cons.mp he with
    | inl he => subst he; linarith
    | inr he => exact ih e he

theorem Fits.inBox_shift (h : Fits dims offset shape) (hc : InBox shape c) : InBox dims (shift c offset) := by
  induction h generalizing c with
  | nil =>
    cases hc
    exact List.Forall₂.nil
  | cons ho hs hd h ih =>
    cases hc with
    | cons hy hc =>
      apply List.Forall₂.cons
      · exact ⟨by linarith [hy.1], by linarith [hy.2]⟩
      · exact ih hc

theorem Fits.slot_bounds (h : Fits dims offset shape) : 0 ≤ slot dims offset shape k ∧ slot dims offset shape k < dims.prod := by
  exact encode_bounds (h.inBox_shift (inBox_decode h.shape_pos))

theorem Fits.trans {offset' shape' : List ℤ} (h : Fits dims offset shape) (h' : Fits shape offset' shape') :
    Fits dims (shift offset' offset) shape' := by
  have hs := h.length_shape
  have ho' := h'.length_offset
  have hl : offset'.length = offset.length := ho'.trans (hs.trans h.length_offset.symm)
  apply fits_iff.mpr
  refine ⟨by rw [length_shift hl, ho', hs], h'.length_shape.trans hs, fun i hi => ?_⟩
  have h1 := (fits_iff.mp h).2.2 i hi
  have h2 := (fits_iff.mp h').2.2 i (hs ▸ hi)
  rw [entry_shift hl]
  omega

theorem Fits.slot_slot {offset' shape' : List ℤ} (h : Fits dims offset shape) (h' : Fits shape offset' shape') :
    slot dims offset shape (slot shape offset' shape' k) = slot dims (shift offset' offset) shape' k := by
  have hin : InBox shape (shift (decode shape' k) offset') := h'.inBox_shift (inBox_decode h'.shape_pos)
  have hl : (decode shape' k).length = offset'.length := by
    rw [length_decode, h'.length_shape, h'.length_offset]
  have hl' : offset'.length = offset.length := by
    rw [h'.length_offset, h.length_shape, h.length_offset]
  unfold slot
  rw [decode_encode hin]
  congr 1
  apply ext_entry
  · rw [length_shift (by rw [length_shift hl, hl, hl']), length_shift hl, length_shift (by rw [length_shift hl', hl])]
  · intro i _
    rw [entry_shift (by rw [length_shift hl, hl, hl']), entry_shift hl, entry_shift (by rw [length_shift hl', hl]),
      entry_shift hl', add_assoc]

theorem Fits.slot_lt (h : Fits dims offset shape) (h0 : 0 ≤ k) (hkl : k < l) (hl : l < shape.prod) :
    slot dims offset shape k < slot dims offset shape l := by
  induction h generalizing k l with
  | nil =>
    simp only [prod_nil] at hl
    linarith
  | @cons d o s dims offset shape ho hs hd h ih =>
    have hp := prod_pos h.shape_pos
    have hd' := prod_pos h.dims_pos
    rw [prod_cons] at hl
    have hk := h.slot_bounds (k := k)
    have hl' := h.slot_bounds (k := l)
    -- the leading coordinates of the two positions
    have hqk : k / shape.prod % s = k / shape.prod :=
      Int.emod_eq_of_lt (Int.ediv_nonneg h0 hp.le) (Int.ediv_lt_of_lt_mul hp (by linarith))
    have hql : l / shape.prod % s = l / shape.prod :=
      Int.emod_eq_of_lt (Int.ediv_nonneg (by linarith) hp.le) (Int.ediv_lt_of_lt_mul hp hl)
    have hle : k / shape.prod ≤ l / shape.prod := Int.ediv_le_ediv hp hkl.le
    have hslot : ∀ x, slot (d :: dims) (o :: offset) (s :: shape) x =
        (x / shape.prod % s + o) * dims.prod + slot dims offset shape x := fun x => rfl
    rw [hslot, hslot, hqk, hql]
    by_cases hq : k / shape.prod = l / shape.prod
    · have hr : k % shape.prod < l % shape.prod := by
        have h1 := Int.ediv_mul_add_emod k shape.prod
        have h2 := Int.ediv_mul_add_emod l shape.prod
        rw [hq] at h1
        linarith
      have hlt := ih (Int.emod_nonneg k hp.ne') hr (Int.emod_lt_of_pos l hp)
      have hmod : ∀ x, slot dims offset shape (x % shape.prod) = slot dims offset shape x := by
        intro x
        unfold slot
        rw [decode_emod h.shape_pos]
      rw [hmod, hmod] at hlt
      rw [hq]
      linarith
    · have hlt : k / shape.prod + 1 ≤ l / shape.prod := by omega
      have hm : (k / shape.prod + 1 + o) * dims.prod ≤ (l / shape.prod + o) * dims.prod :=
        mul_le_mul_of_nonneg_right (by linarith) hd'.le
      linarith

theorem Fits.slot_selected (h : Fits dims offset shape) : Selected dims offset shape (slot dims offset shape k) := by
  intro i hi
  have hb := inBox_decode (x := k) h.shape_pos
  have hbi := (inBox_iff.mp hb).2 i (h.length_shape ▸ hi)
  have hlen : (decode shape k).length = offset.length := by rw [length_decode, h.length_shape, h.length_offset]
  unfold slot
  rw [decode_encode (h.inBox_shift hb), entry_shift hlen]
  constructor
  · linarith [hbi.1]
  · linarith [hbi.2]

theorem Fits.exists_slot (h : Fits dims offset shape) (h0 : 0 ≤ x) (hx : x < dims.prod)
    (hsel : Selected dims offset shape x) : ∃ k, 0 ≤ k ∧ k < shape.prod ∧ slot dims offset shape k = x := by
  have hneg : ∃ c, InBox shape c ∧ shift c offset = decode dims x := by
    refine ⟨List.zipWith (· - ·) (decode dims x) offset, ?_, ?_⟩
    · apply inBox_iff.mpr
      have hl : (List.zipWith (fun y o => y - o) (decode dims x) offset).length = shape.length := by
        simp [h.length_offset, h.length_shape]
      refine ⟨hl, fun i hi => ?_⟩
      have hd : i < dims.length := h.length_shape ▸ hi
      have hs := hsel i hd
      have ho : i < offset.length := h.length_offset ▸ hd
      have hx : i < (decode dims x).length := by rw [length_decode]; exact hd
      rw [entry_of_lt (hl ▸ hi), getElem_zipWith]
      rw [entry_of_lt hx, entry_of_lt ho] at hs
      constructor
      · linarith [hs.1]
      · linarith [hs.2]
    · apply ext_getElem
      · simp [shift, h.length_offset]
      · intro i hi hj
        simp [shift]
  obtain ⟨c, hc, he⟩ := hneg
  have hb := encode_bounds hc
  refine ⟨encode shape c, hb.1, hb.2, ?_⟩
  unfold slot
  rw [decode_encode hc, he, encode_decode h.dims_pos h0 hx]

theorem encode_injective {c' : List ℤ} (h : InBox dims c) (h' : InBox dims c') (he : encode dims c = encode dims c') :
    c = c' := by
  rw [← decode_encode h, ← decode_encode h', he]

def encodePairs : List (ℤ × ℤ) → ℤ
  | [] => 0
  | p :: l => p.2 * (l.map Prod.fst).prod + encodePairs l

theorem encode_eq_encodePairs (h : c.length = dims.length) : encode dims c = encodePairs (dims.zip c) := by
  induction dims generalizing c with
  | nil => simp [encode, encodePairs]
  | cons d dims ih =>
    cases c with
    | nil => simp at h
    | cons y c =>
      have hl : c.length = dims.length := by simpa using h
      rw [zip_cons_cons, encodePairs, encode, ih hl, map_fst_zip (by omega)]

theorem prod_filter_ne_one (l : List (ℤ × ℤ)) :
    ((l.filter fun p => p.1 ≠ 1).map Prod.fst).prod = (l.map Prod.fst).prod := by
  induction l with
  | nil => rfl
  | cons p l ih =>
    by_cases h : p.1 = 1
    · rw [filter_cons_of_neg (by simpa using h), ih, map_cons, prod_cons, h, one_mul]
    · rw [filter_cons_of_pos (by simpa using h), map_cons, map_cons, prod_cons, prod_cons, ih]

theorem encodePairs_filter {l : List (ℤ × ℤ)} (h : ∀ p ∈ l, p.1 = 1 → p.2 = 0) :
    encodePairs (l.filter fun p => p.1 ≠ 1) = encodePairs l := by
  induction l with
  | nil => rfl
  | cons p l ih =>
    have ht := ih fun q hq => h q (mem_cons_of_mem _ hq)
    by_cases hp : p.1 = 1
    · rw [filter_cons_of_neg (by simpa using hp), ht, encodePairs, h p mem_cons_self hp, zero_mul, zero_add]
    · rw [filter_cons_of_pos (by simpa using hp), encodePairs, encodePairs, ht, prod_filter_ne_one]

theorem encode_unit (h : i < dims.length) : encode dims ((List.replicate dims.length 0).set i 1) = weight dims i := by
  induction dims generalizing i with
  | nil => simp at h
  | cons d dims ih =>
    have hz : ∀ dims : List ℤ, encode dims (List.replicate dims.length 0) = 0 := by
      intro dims
      induction dims with
      | nil => rfl
      | cons d dims ih => simp [replicate_succ, encode, ih]
    cases i with
    | zero => simp [replicate_succ, encode, weight, hz]
    | succ i =>
      have hi : i < dims.length := by simpa using h
      rw [length_cons, replicate_succ, set_cons_succ, encode, ih hi, zero_mul, zero_add]
      simp [weight]

variable {dims' offset' shape' : List ℤ}

theorem Fits.slot_eq (h : Fits dims offset shape) (h' : Fits dims' offset' shape') (hp : dims.prod = dims'.prod)
    (hsel : ∀ x, 0 ≤ x → x < dims.prod → (Selected dims offset shape x ↔ Selected dims' offset' shape' x)) :
    shape.prod = shape'.prod ∧
      ∀ k, 0 ≤ k → k < shape.prod → slot dims offset shape k = slot dims' offset' shape' k := by
  obtain ⟨n, hn⟩ := Int.eq_ofNat_of_zero_le (prod_pos h.shape_pos).le
  obtain ⟨m, hm⟩ := Int.eq_ofNat_of_zero_le (prod_pos h'.shape_pos).le
  let f : Fin n → ℤ := fun k => slot dims offset shape k.val
  let g : Fin m → ℤ := fun k => slot dims' offset' shape' k.val
  have hf : StrictMono f := fun a b hab =>
    h.slot_lt (by positivity) (Int.ofNat_lt.mpr hab) (by rw [hn]; exact Int.ofNat_lt.mpr b.isLt)
  have hg : StrictMono g := fun a b hab =>
    h'.slot_lt (by positivity) (Int.ofNat_lt.mpr hab) (by rw [hm]; exact Int.ofNat_lt.mpr b.isLt)
  have hsub : Set.range f ⊆ Set.range g := by
    rintro _ ⟨a, rfl⟩
    have hb := h.slot_bounds (k := a.val)
    have hs := (hsel _ hb.1 hb.2).mp h.slot_selected
    obtain ⟨k, h0, hk, he⟩ := h'.exists_slot hb.1 (hp ▸ hb.2) hs
    obtain ⟨j, rfl⟩ := Int.eq_ofNat_of_zero_le h0
    exact ⟨⟨j, by rw [hm] at hk; exact Int.ofNat_lt.mp hk⟩, he⟩
  have hsup : Set.range g ⊆ Set.range f := by
    rintro _ ⟨a, rfl⟩
    have hb := h'.slot_bounds (k := a.val)
    have hs := (hsel _ hb.1 (hp ▸ hb.2)).mpr h'.slot_selected
    obtain ⟨k, h0, hk, he⟩ := h.exists_slot hb.1 (hp ▸ hb.2) hs
    obtain ⟨j, rfl⟩ := Int.eq_ofNat_of_zero_le h0
    exact ⟨⟨j, by rw [hn] at hk; exact Int.ofNat_lt.mp hk⟩, he⟩
  have hr : Set.range f = Set.range g := Set.Subset.antisymm hsub hsup
  have hnm : n = m := by
    have hcf := Set.card_range_of_injective hf.injective
    have hcg := Set.card_range_of_injective hg.injective
    simp only [Fintype.card_fin] at hcf hcg
    rw [← hcf, ← hcg]
    exact Fintype.card_congr (Equiv.setCongr hr)
  subst hnm
  have hfg : f = g := (StrictMono.range_inj hf hg).mp hr
  refine ⟨by rw [hn, hm], fun k h0 hk => ?_⟩
  obtain ⟨j, rfl⟩ := Int.eq_ofNat_of_zero_le h0
  rw [hn] at hk
  exact congrFun hfg ⟨j, Int.ofNat_lt.mp hk⟩

theorem Fits.selected_of_slot_eq (h : Fits dims offset shape) (h' : Fits dims' offset' shape')
    (heq : ∀ k, 0 ≤ k → k < shape.prod → slot dims offset shape k = slot dims' offset' shape' k)
    (h0 : 0 ≤ x) (hx : x < dims.prod) (hs : Selected dims offset shape x) : Selected dims' offset' shape' x := by
  obtain ⟨k, hk0, hk1, rfl⟩ := h.exists_slot h0 hx hs
  rw [heq k hk0 hk1]
  exact h'.slot_selected

end NpuCompiler.MixedRadix

namespace NpuCompiler.MixedRadix

variable {d x n p : ℤ}

theorem ediv_add_one_of_dvd (hp : 0 < p) (h : p ∣ x + 1) : (x + 1) / p = x / p + 1 := by
  obtain ⟨k, hk⟩ := h
  have hx : x = (p - 1) + p * (k - 1) := by linarith
  rw [hk, hx, Int.mul_ediv_cancel_left _ hp.ne', Int.add_mul_ediv_left _ _ hp.ne',
    Int.ediv_eq_zero_of_lt (by omega) (by omega)]
  omega

theorem ediv_add_one_of_not_dvd (hp : 0 < p) (h : ¬p ∣ x + 1) : (x + 1) / p = x / p := by
  have hlow := Int.emod_nonneg x hp.ne'
  have hhigh := Int.emod_lt_of_pos x hp
  have hsplit := Int.emod_add_mul_ediv x p
  have hne : x % p + 1 ≠ p := by
    intro he
    apply h
    refine ⟨x / p + 1, ?_⟩
    linarith
  have hx : x + 1 = (x % p + 1) + p * (x / p) := by linarith
  rw [hx, Int.add_mul_ediv_left _ _ hp.ne', Int.ediv_eq_zero_of_lt (by omega) (by omega), zero_add]

theorem emod_add_one_of_lt (hd : 0 < d) (h : x % d < d - 1) : (x + 1) % d = x % d + 1 ∧ ¬d ∣ x + 1 := by
  have hlow := Int.emod_nonneg x hd.ne'
  have hmod : (x + 1) % d = x % d + 1 := by
    rw [← Int.emod_add_emod, Int.emod_eq_of_lt (by omega) (by omega)]
  refine ⟨hmod, fun hdvd => ?_⟩
  rw [Int.emod_eq_zero_of_dvd hdvd] at hmod
  omega

theorem dvd_add_one_of_not_lt (hd : 0 < d) (h : ¬x % d < d - 1) : d ∣ x + 1 := by
  have hhigh := Int.emod_lt_of_pos x hd
  have hlast : x % d = d - 1 := by omega
  apply Int.dvd_of_emod_eq_zero
  rw [← Int.emod_add_emod, hlast, sub_add_cancel, Int.emod_self]

theorem mul_dvd_iff (hp : 0 < p) (h : p ∣ x) : d * p ∣ x ↔ d ∣ x / p := by
  obtain ⟨k, rfl⟩ := h
  rw [Int.mul_ediv_cancel_left _ hp.ne', mul_comm d p]
  exact Int.mul_dvd_mul_iff_left hp.ne'

theorem ediv_add (hp : 0 < p) : (x + n) / p = x / p + (x % p + n) / p := by
  have hx : x + n = (x % p + n) + p * (x / p) := by linarith [Int.emod_add_mul_ediv x p]
  rw [hx, Int.add_mul_ediv_left _ _ hp.ne', add_comm]

theorem emod_mul_ediv (hd : 0 < d) (hp : 0 < p) : x % (d * p) / p = x / p % d := by
  have hdp := mul_pos hd hp
  have hlow := Int.emod_nonneg x hdp.ne'
  have hhigh := Int.emod_lt_of_pos x hdp
  have hx : x = x % (d * p) + p * (d * (x / (d * p))) := by linarith [Int.emod_add_mul_ediv x (d * p)]
  have hdiv : x / p = x % (d * p) / p + d * (x / (d * p)) := by
    conv_lhs => rw [hx, Int.add_mul_ediv_left _ _ hp.ne']
  rw [hdiv, Int.add_mul_emod_self_left, Int.emod_eq_of_lt (Int.ediv_nonneg hlow hp.le)]
  exact Int.ediv_lt_of_lt_mul hp hhigh

end NpuCompiler.MixedRadix
