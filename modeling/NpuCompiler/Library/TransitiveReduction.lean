import Mathlib.Data.Set.Card

namespace NpuCompiler.TransitiveReduction

open Relation

variable {α : Type*} {r : α → α → Prop}

def Acyclic (r : α → α → Prop) : Prop := ∀ x, ¬ TransGen r x x

theorem Acyclic.swap (h : Acyclic r) : Acyclic (Function.swap r) :=
  fun x hx => h x (transGen_swap.mp hx)

theorem Acyclic.wellFounded_swap (h : Acyclic r) (hfin : {y | ∃ x, r x y}.Finite) :
    WellFounded (Function.swap r) := by
  have hsub (x : α) : {y | TransGen r x y} ⊆ {y | ∃ x, r x y} := by
    intro y hy
    obtain ⟨z, -, hz⟩ := TransGen.tail'_iff.mp hy
    exact ⟨z, hz⟩
  apply Subrelation.wf _ (measure (fun x => {y | TransGen r x y}.ncard)).wf
  intro y x hr
  apply Set.ncard_lt_ncard _ (hfin.subset (hsub x))
  refine ⟨fun z hz => TransGen.head hr hz, ?_⟩
  intro hback
  exact h y (hback (TransGen.single hr))

theorem Acyclic.wellFounded (h : Acyclic r) (hfin : {x | ∃ y, r x y}.Finite) : WellFounded r :=
  h.swap.wellFounded_swap hfin

def Reduced (r closure : α → α → Prop) (x y : α) : Prop := r x y ∧ ∀ z, r x z → ¬ closure z y

theorem Reduced.mono {closure : α → α → Prop} {x y : α} (h : TransGen (Reduced r closure) x y) :
    TransGen r x y := TransGen.mono (fun _ _ h => h.1) _ _ h

theorem transGen_reduced {closure : α → α → Prop} (hdown : WellFounded (Function.swap r)) (hup : WellFounded r)
    (hsound : ∀ x y, closure x y → TransGen r x y) (x y : α) (h : TransGen r x y) :
    TransGen (Reduced r closure) x y := by
  induction x using hdown.induction generalizing y with
  | _ x ih =>
    have edge : ∀ y, r x y → TransGen (Reduced r closure) x y := by
      intro y
      induction y using hup.transGen.induction with
      | _ y ihy =>
        intro hxy
        by_cases hkept : ∃ z, r x z ∧ closure z y
        · -- the edge is dropped because of `x → z`, and `z` lies before `y`
          obtain ⟨z, hxz, hzy⟩ := hkept
          have hpath := hsound z y hzy
          exact (ihy z hpath hxz).trans (ih z hxz y hpath)
        · exact TransGen.single ⟨hxy, fun z hxz hzy => hkept ⟨z, hxz, hzy⟩⟩
    obtain ⟨z, hxz, hzy⟩ := TransGen.head'_iff.mp h
    rcases reflTransGen_iff_eq_or_transGen.mp hzy with rfl | hzy
    · exact edge y hxz
    · exact (edge z hxz).trans (ih z hxz y hzy)

theorem Reduced.minimal {closure : α → α → Prop} (hcomplete : ∀ w x y, r w x → TransGen r x y → closure x y)
    {x y : α} (h : Reduced r closure x y) :
    ¬ TransGen (fun a b => Reduced r closure a b ∧ ¬ (a = x ∧ b = y)) x y := by
  intro hpath
  obtain ⟨z, ⟨hxz, hne⟩, hzy⟩ := TransGen.head'_iff.mp hpath
  rcases reflTransGen_iff_eq_or_transGen.mp hzy with rfl | hzy
  · exact hne ⟨rfl, rfl⟩
  · have hzy' : TransGen r z y := TransGen.mono (fun _ _ h => h.1.1) _ _ hzy
    exact h.2 z hxz.1 (hcomplete x z y hxz.1 hzy')

end NpuCompiler.TransitiveReduction

namespace NpuCompiler.AddedEdges

open Relation TransitiveReduction

variable {α : Type*} {r : α → α → Prop} {p x y : α} {C : α → Prop}

def WithEdges (r : α → α → Prop) (p : α) (C : α → Prop) (x y : α) : Prop := r x y ∨ x = p ∧ C y

theorem transGen_split (h : TransGen (WithEdges r p C) x y) :
    TransGen r x y ∨ ∃ c, C c ∧ ReflTransGen (WithEdges r p C) x p ∧ ReflTransGen r c y := by
  induction h with
  | single hxy =>
    rcases hxy with hxy | ⟨rfl, hc⟩
    · exact .inl (.single hxy)
    · exact .inr ⟨_, hc, .refl, .refl⟩
  | tail hxy hyz ih =>
    rcases hyz with hyz | ⟨rfl, hc⟩
    · rcases ih with ih | ⟨c, hc, hxp, hcy⟩
      · exact .inl (ih.tail hyz)
      · exact .inr ⟨c, hc, hxp, hcy.tail hyz⟩
    · exact .inr ⟨_, hc, hxy.to_reflTransGen, .refl⟩

theorem reaches_source (hback : ∀ c, C c → ¬ ReflTransGen r c p) (h : ReflTransGen (WithEdges r p C) x p) : ReflTransGen r x p := by
  rcases reflTransGen_iff_eq_or_transGen.mp h with rfl | h
  · exact .refl
  · rcases transGen_split h with h | ⟨c, hc, -, hcp⟩
    · exact h.to_reflTransGen
    · exact absurd hcp (hback c hc)

theorem acyclic_withEdges : Acyclic (WithEdges r p C) ↔ Acyclic r ∧ ∀ c, C c → ¬ ReflTransGen r c p := by
  constructor
  · intro hacyclic
    constructor
    · intro x hx
      exact hacyclic x (TransGen.mono (fun _ _ => .inl) _ _ hx)
    · intro c hc hcp
      exact hacyclic p (.head' (.inr ⟨rfl, hc⟩) (ReflTransGen.mono (fun _ _ => .inl) _ _ hcp))
  · rintro ⟨hacyclic, hback⟩ x hx
    rcases transGen_split hx with hx | ⟨c, hc, hxp, hcx⟩
    · exact hacyclic x hx
    · exact hback c hc (hcx.trans (reaches_source hback hxp))

/-- A path with an edge that `r₀` has not. -/
def Through (r₀ r : α → α → Prop) (x y : α) : Prop := ∃ a b, ReflTransGen r x a ∧ (r a b ∧ ¬ r₀ a b) ∧ ReflTransGen r b y

theorem Through.reflTransGen {r₀ : α → α → Prop} (h : Through r₀ r x y) : ReflTransGen r x y := by
  obtain ⟨a, b, hxa, ⟨hab, -⟩, hby⟩ := h
  exact hxa.trans (.head hab hby)

theorem reflTransGen_or_through (r₀ : α → α → Prop) (h : ReflTransGen r x y) : ReflTransGen r₀ x y ∨ Through r₀ r x y := by
  induction h with
  | refl => exact .inl .refl
  | @tail y z hxy hyz ih =>
    rcases ih with ih | ⟨a, b, hxa, hab, hby⟩
    · by_cases hold : r₀ y z
      · exact .inl (ih.tail hold)
      · exact .inr ⟨y, z, hxy, ⟨hyz, hold⟩, .refl⟩
    · exact .inr ⟨a, b, hxa, hab, hby.tail hyz⟩

end NpuCompiler.AddedEdges

namespace NpuCompiler.RedundantLinks

open Relation

def Step {T B : Type*} (own : T → B → Prop) (next : B → T → Prop) (x y : T) : Prop := ∃ b, own x b ∧ next b y

def Redundant {T B : Type*} (own : T → B → Prop) (next : B → T → Prop) (x : T) (b : B) : Prop :=
  ∃ y, TransGen (Step own next) x y ∧ own y b

section
variable {T B : Type*} {own own' : T → B → Prop} {next : B → T → Prop} {rank : T → ℕ}

section
variable (hrank : ∀ x y, Step own next x y → rank x < rank y)
include hrank

theorem rank_lt {x y : T} (h : TransGen (Step own next) x y) :
    rank x < rank y := by
  induction h with
  | single hstep => exact hrank _ _ hstep
  | tail _ hstep ih => exact Nat.lt_trans ih (hrank _ _ hstep)

theorem transGen_of_gap {x y : T} {n : ℕ}
    (hsteps : ∀ a c, Step own next a c → rank c - rank a < n → TransGen (Step own' next) a c)
    (hpath : TransGen (Step own next) x y) (hgap : rank y - rank x < n) : TransGen (Step own' next) x y := by
  induction hpath with
  | single hstep => exact hsteps _ _ hstep hgap
  | @tail z y hpath hstep ih =>
    have hxz := rank_lt hrank hpath
    have hzy := hrank _ _ hstep
    apply TransGen.trans
    · apply ih
      omega
    · apply hsteps _ _ hstep
      omega

theorem transGen_of_step (hkeep : ∀ x b, own x b → own' x b ∨ Redundant own next x b) {x y : T} (h : Step own next x y) :
    TransGen (Step own' next) x y := by
  -- by the distance of the ranks: the path that makes the link redundant has shorter steps only
  suffices hgap : ∀ n a c, Step own next a c → rank c - rank a < n → TransGen (Step own' next) a c by
    exact hgap (rank y - rank x + 1) x y h (Nat.lt_succ_self _)
  intro n
  induction n with
  | zero => exact fun a c _ hlt => absurd hlt (Nat.not_lt_zero _)
  | succ n ih =>
    intro a c hstep hlt
    obtain ⟨b, hown, hnext⟩ := hstep
    cases hkeep a b hown with
    | inl hkept => exact .single ⟨b, hkept, hnext⟩
    | inr hredundant =>
      obtain ⟨z, hpath, hz⟩ := hredundant
      have hlast : Step own next z c := ⟨b, hz, hnext⟩
      have haz := rank_lt hrank hpath
      have hzc := hrank _ _ hlast
      apply TransGen.trans
      · apply transGen_of_gap hrank ih hpath
        omega
      · apply ih _ _ hlast
        omega

theorem not_redundant_of_only {x : T} {b : B}
    (honly : ∀ y, own y b → y = x) : ¬ Redundant own next x b := by
  rintro ⟨y, hpath, hy⟩
  have hlt := rank_lt hrank hpath
  rw [honly y hy] at hlt
  exact Nat.lt_irrefl _ hlt

end

end

end NpuCompiler.RedundantLinks
