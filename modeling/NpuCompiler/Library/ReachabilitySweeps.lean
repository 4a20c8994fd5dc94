import Mathlib.Order.WellFoundedSet

namespace NpuCompiler.Sweeps

open List

def inherit {T : Type*} (G M : T → T → Prop) (t : T) : T → T → Prop := fun i j => M i j ∨ i = t ∧ ∃ c, G t c ∧ M c j

def sweep {T : Type*} (G M : T → T → Prop) (l : List T) : T → T → Prop := l.foldl (inherit G) M

section
variable {T : Type*} {G M : T → T → Prop} {l : List T} {i j t : T}

theorem sweep_append {l' : List T} : sweep G M (l ++ l') = sweep G (sweep G M l) l' := foldl_append

theorem sweep_of_mem (h : M i j) : sweep G M l i j := by
  induction l generalizing M with
  | nil => exact h
  | cons t l ih =>
    apply ih
    exact .inl h

theorem sweep_of_notMem (h : i ∉ l) : sweep G M l i j ↔ M i j := by
  induction l generalizing M with
  | nil => exact Iff.rfl
  | cons t l ih =>
    rw [mem_cons, not_or] at h
    apply (ih h.2).trans
    constructor
    · exact fun hrow => hrow.resolve_right (fun heq => h.1 heq.1)
    · exact fun hrow => .inl hrow

theorem sweep_iff {r : T → T → Prop} (hl : l.Pairwise r) (hr : ∀ a b, r a b → ¬ r b a) (ht : t ∈ l) :
    sweep G M l t j ↔ M t j ∨ ∃ c, G t c ∧ ((c ∈ l ∧ r c t ∧ sweep G M l c j) ∨ ¬ (c ∈ l ∧ r c t) ∧ M c j) := by
  obtain ⟨done, rest, rfl⟩ := append_of_mem ht
  rw [pairwise_append, pairwise_cons] at hl
  obtain ⟨-, ⟨hrest, -⟩, hdone⟩ := hl
  have hself : ¬ r t t := fun h => hr t t h h
  have htRest : t ∉ rest := fun h => hself (hrest t h)
  have htDone : t ∉ done := fun h => hself (hdone t h t mem_cons_self)
  have hearlier (c : T) : c ∈ done ++ t :: rest ∧ r c t ↔ c ∈ done := by
    constructor
    · rintro ⟨hmem, hct⟩
      rcases mem_append.mp hmem with hc | hc
      · exact hc
      · rcases mem_cons.mp hc with rfl | hc
        · exact absurd hct hself
        · exact absurd hct (hr t c (hrest c hc))
    · exact fun hc => ⟨mem_append_left _ hc, hdone c hc t mem_cons_self⟩
  have hlater (c : T) (hc : c ∈ done) : sweep G M (done ++ t :: rest) c j ↔ sweep G M done c j := by
    rw [sweep_append]
    apply sweep_of_notMem
    intro hmem
    have hct := hdone c hc
    rcases mem_cons.mp hmem with rfl | hmem
    · exact hself (hct c mem_cons_self)
    · exact hr c c (hct c (mem_cons_of_mem _ hmem)) (hct c (mem_cons_of_mem _ hmem))
  have hrow : sweep G M (done ++ t :: rest) t j ↔ M t j ∨ ∃ c, G t c ∧ sweep G M done c j := by
    rw [sweep_append]
    apply (sweep_of_notMem (M := inherit G (sweep G M done) t) htRest).trans
    unfold inherit
    rw [sweep_of_notMem htDone]
    simp only [true_and]
  rw [hrow]
  apply or_congr_right
  apply exists_congr
  intro c
  apply and_congr_right
  intro _
  rw [← and_assoc, hearlier]
  by_cases hc : c ∈ done
  · rw [hlater c hc]
    simp only [hc, true_and, not_true_eq_false, false_and, or_false]
  · rw [sweep_of_notMem hc]
    simp only [hc, false_and, not_false_eq_true, true_and, false_or]

theorem inherit_inherit : inherit G (inherit G M t) t = inherit G M t := by
  funext i j
  apply propext
  constructor
  · rintro (h | ⟨rfl, c, hc, hrow | ⟨rfl, hrow⟩⟩)
    · exact h
    · exact .inr ⟨rfl, c, hc, hrow⟩
    · exact .inr ⟨rfl, hrow⟩
  · exact fun h => .inl h

theorem sweep_dedup [PartialOrder T] [DecidableEq T] (hl : l.Pairwise (· ≤ ·)) : sweep G M l.dedup = sweep G M l := by
  induction l generalizing M with
  | nil => rfl
  | cons t l ih =>
    obtain ⟨hle, hl'⟩ := pairwise_cons.mp hl
    by_cases ht : t ∈ l
    · rw [dedup_cons_of_mem ht, ih hl']
      -- the repeated task comes next, and its row does not change again
      cases l with
      | nil => exact absurd ht not_mem_nil
      | cons u l =>
        have hut : u = t := by
          apply le_antisymm _ (hle u mem_cons_self)
          rcases mem_cons.mp ht with rfl | ht
          · exact le_refl _
          · exact (pairwise_cons.mp hl').1 t ht
        subst hut
        change sweep G (inherit G M u) l = sweep G (inherit G (inherit G M u) u) l
        rw [inherit_inherit]
    · rw [dedup_cons_of_notMem ht]
      exact ih hl'

end

section
variable {T : Type*} [LinearOrder T] (E G : T → T → Prop)

/-- What one sweep against the order finds: a path that rises and then takes an edge, or one step back and an edge. The
edges `G` are those that a path can go on from. -/
inductive Down : T → T → Prop
  | edge {i j : T} : E i j → Down i j
  | forward {i c j : T} : G i c → i < c → Down c j → Down i j
  | back {i c j : T} : G i c → c < i → E c j → Down i j

/-- Found after the rows with a step back are taken again in the order. -/
inductive Repaired : T → T → Prop
  | down {i j : T} : Down E G i j → Repaired i j
  | back {i c j : T} : G i c → c < i → Repaired c j → Repaired i j

/-- Found after one more sweep against the order. -/
inductive Found : T → T → Prop
  | repaired {i j : T} : Repaired E G i j → Found i j
  | forward {i c j : T} : G i c → i < c → Found c j → Found i j

variable {E G} {l : List T} {i j : T}

theorem sweep_down (hl : l.Pairwise (· > ·)) (hcover : ∀ i c, G i c → i ∈ l ∧ c ∈ l) : sweep G E l i j ↔ Down E G i j := by
  have hrow {t j : T} (ht : t ∈ l) := @sweep_iff T G E l j t (· > ·) hl (fun _ _ => lt_asymm) ht
  constructor
  · by_cases hi : i ∈ l
    · refine Set.WellFoundedOn.induction (Set.Finite.wellFoundedOn (r := (· > ·)) l.finite_toSet) hi
        (P := fun i => ∀ j, sweep G E l i j → Down E G i j) ?_ j
      intro t ht ih j hsweep
      rcases (hrow ht).mp hsweep with hedge | ⟨c, hc, ⟨hmem, hgt, hsweep⟩ | ⟨hnot, hedge⟩⟩
      · exact .edge hedge
      · exact .forward hc hgt (ih c hmem hgt j hsweep)
      · rcases lt_trichotomy c t with hlt | rfl | hgt
        · exact .back hc hlt hedge
        · exact .edge hedge
        · exact absurd ⟨(hcover t c hc).2, hgt⟩ hnot
    · intro hsweep
      exact .edge ((sweep_of_notMem hi).mp hsweep)
  · intro hdown
    induction hdown with
    | edge hedge => exact sweep_of_mem hedge
    | @forward i c j hc hlt _ ih =>
      obtain ⟨hi, hmem⟩ := hcover i c hc
      exact (hrow hi).mpr (.inr ⟨c, hc, .inl ⟨hmem, hlt, ih⟩⟩)
    | @back i c j hc hlt hedge =>
      obtain ⟨hi, -⟩ := hcover i c hc
      exact (hrow hi).mpr (.inr ⟨c, hc, .inr ⟨fun h => lt_asymm hlt h.2, hedge⟩⟩)

theorem sweep_repaired (hl : l.Pairwise (· < ·)) (hcover : ∀ i c, G i c → c < i → i ∈ l) :
    sweep G (Down E G) l i j ↔ Repaired E G i j := by
  have hrow {t j : T} (ht : t ∈ l) := @sweep_iff T G (Down E G) l j t (· < ·) hl (fun _ _ => lt_asymm) ht
  constructor
  · by_cases hi : i ∈ l
    · refine Set.WellFoundedOn.induction (Set.Finite.wellFoundedOn (r := (· < ·)) l.finite_toSet) hi
        (P := fun i => ∀ j, sweep G (Down E G) l i j → Repaired E G i j) ?_ j
      intro t ht ih j hsweep
      rcases (hrow ht).mp hsweep with hdown | ⟨c, hc, ⟨hmem, hlt, hsweep⟩ | ⟨-, hdown⟩⟩
      · exact .down hdown
      · exact .back hc hlt (ih c hmem hlt j hsweep)
      · rcases lt_trichotomy c t with hlt | rfl | hgt
        · exact .back hc hlt (.down hdown)
        · exact .down hdown
        · exact .down (.forward hc hgt hdown)
    · intro hsweep
      exact .down ((sweep_of_notMem hi).mp hsweep)
  · intro hrepaired
    induction hrepaired with
    | down hdown => exact sweep_of_mem hdown
    | @back i c j hc hlt _ ih =>
      apply (hrow (hcover i c hc hlt)).mpr
      refine .inr ⟨c, hc, ?_⟩
      by_cases hmem : c ∈ l
      · exact .inl ⟨hmem, hlt, ih⟩
      · exact .inr ⟨fun h => hmem h.1, (sweep_of_notMem hmem).mp ih⟩

theorem repaired_of_found (hup : ∀ i c, G i c → i < c → i ∉ l → c ∉ l)
    (hback : ∀ i a d c, i ∉ l → G i a → i < d → G d c → ¬ c < d) (hi : i ∉ l) (h : Found E G i j) : Repaired E G i j := by
  induction h with
  | repaired h => exact h
  | @forward i c j hc hlt _ ih =>
    cases ih (hup i c hc hlt hi) with
    | down hdown => exact .down (.forward hc hlt hdown)
    | back hd hdc _ => exact absurd hdc (hback i c c _ hi hc hlt hd)

theorem sweep_found (hl : l.Pairwise (· > ·)) (hup : ∀ i c, G i c → i < c → i ∉ l → c ∉ l)
    (hback : ∀ i a d c, i ∉ l → G i a → i < d → G d c → ¬ c < d) : sweep G (Repaired E G) l i j ↔ Found E G i j := by
  have hrow {t j : T} (ht : t ∈ l) := @sweep_iff T G (Repaired E G) l j t (· > ·) hl (fun _ _ => lt_asymm) ht
  constructor
  · by_cases hi : i ∈ l
    · refine Set.WellFoundedOn.induction (Set.Finite.wellFoundedOn (r := (· > ·)) l.finite_toSet) hi
        (P := fun i => ∀ j, sweep G (Repaired E G) l i j → Found E G i j) ?_ j
      intro t ht ih j hsweep
      rcases (hrow ht).mp hsweep with hrepaired | ⟨c, hc, ⟨hmem, hgt, hsweep⟩ | ⟨-, hrepaired⟩⟩
      · exact .repaired hrepaired
      · exact .forward hc hgt (ih c hmem hgt j hsweep)
      · rcases lt_trichotomy c t with hlt | rfl | hgt
        · exact .repaired (.back hc hlt hrepaired)
        · exact .repaired hrepaired
        · exact .forward hc hgt (.repaired hrepaired)
    · intro hsweep
      exact .repaired ((sweep_of_notMem hi).mp hsweep)
  · intro hfound
    induction hfound with
    | repaired h => exact sweep_of_mem h
    | @forward i c j hc hlt hfound ih =>
      by_cases hi : i ∈ l
      · apply (hrow hi).mpr
        refine .inr ⟨c, hc, ?_⟩
        by_cases hmem : c ∈ l
        · exact .inl ⟨hmem, hlt, ih⟩
        · exact .inr ⟨fun h => hmem h.1, (sweep_of_notMem hmem).mp ih⟩
      · apply sweep_of_mem
        exact repaired_of_found hup hback hi (.forward hc hlt hfound)

theorem Down.transGen (hsub : ∀ i c, G i c → E i c) (h : Down E G i j) : Relation.TransGen E i j := by
  induction h with
  | edge hedge => exact .single hedge
  | forward hc _ _ ih => exact .head (hsub _ _ hc) ih
  | back hc _ hedge => exact .head (hsub _ _ hc) (.single hedge)

theorem Found.transGen (hsub : ∀ i c, G i c → E i c) (h : Found E G i j) : Relation.TransGen E i j := by
  induction h with
  | repaired h =>
    induction h with
    | down h => exact h.transGen hsub
    | back hc _ _ ih => exact .head (hsub _ _ hc) ih
  | forward hc _ _ ih => exact .head (hsub _ _ hc) ih

end

end NpuCompiler.Sweeps
