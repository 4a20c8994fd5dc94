import Mathlib.Data.List.Basic
import Mathlib.Data.List.Pairwise

/-!
Lists of parts that split a region: every point of the region lies in exactly one part.
-/

namespace NpuCompiler.Partition

open List

variable {α ι κ : Type}

structure Splits (region : α → Prop) (part : ι → α → Prop) (l : List ι) : Prop where
  inside : ∀ i ∈ l, ∀ x, part i x → region x
  covers : ∀ x, region x → ∃ i ∈ l, part i x
  disjoint : l.Pairwise fun i j => ∀ x, part i x → ¬part j x

variable {region region' : α → Prop} {part : ι → α → Prop} {l l' : List ι}

theorem Splits.empty (h : ∀ x, ¬region x) : Splits region part [] where
  inside := by simp
  covers := fun x hx => absurd hx (h x)
  disjoint := List.Pairwise.nil

theorem Splits.single {i : ι} (h : ∀ x, region x ↔ part i x) : Splits region part [i] where
  inside := by
    intro j hj x hx
    rw [mem_singleton.mp hj] at hx
    exact (h x).mpr hx
  covers := fun x hx => ⟨i, mem_singleton_self i, (h x).mp hx⟩
  disjoint := pairwise_singleton _ _

theorem Splits.congr (h : Splits region part l) (he : ∀ x, region' x ↔ region x) : Splits region' part l where
  inside := fun i hi x hx => (he x).mpr (h.inside i hi x hx)
  covers := fun x hx => h.covers x ((he x).mp hx)
  disjoint := h.disjoint

theorem Splits.congr_part {part' : ι → α → Prop} (h : Splits region part l)
    (he : ∀ i ∈ l, ∀ x, part i x ↔ part' i x) : Splits region part' l where
  inside := fun i hi x hx => h.inside i hi x ((he i hi x).mpr hx)
  covers := by
    intro x hx
    obtain ⟨i, hi, hp⟩ := h.covers x hx
    exact ⟨i, hi, (he i hi x).mp hp⟩
  disjoint := by
    apply h.disjoint.imp_of_mem
    intro i j hi hj hd x hx hx'
    exact hd x ((he i hi x).mpr hx) ((he j hj x).mpr hx')

theorem Splits.comap {β : Type} (f : β → α) (h : Splits region part l) :
    Splits (fun x => region (f x)) (fun i x => part i (f x)) l where
  inside := fun i hi x hx => h.inside i hi (f x) hx
  covers := fun x hx => h.covers (f x) hx
  disjoint := h.disjoint.imp fun hd x => hd (f x)

theorem Splits.map {g : κ → ι} {l : List κ} (h : Splits region (fun i => part (g i)) l) :
    Splits region part (l.map g) where
  inside := by
    intro j hj x hx
    obtain ⟨i, hi, rfl⟩ := mem_map.mp hj
    exact h.inside i hi x hx
  covers := by
    intro x hx
    obtain ⟨i, hi, hp⟩ := h.covers x hx
    exact ⟨g i, mem_map_of_mem hi, hp⟩
  disjoint := pairwise_map.mpr h.disjoint

theorem Splits.append (h : Splits region part l) (h' : Splits region' part l') (hd : ∀ x, region x → ¬region' x) :
    Splits (fun x => region x ∨ region' x) part (l ++ l') where
  inside := by
    intro i hi x hx
    cases mem_append.mp hi with
    | inl hi => exact Or.inl (h.inside i hi x hx)
    | inr hi => exact Or.inr (h'.inside i hi x hx)
  covers := by
    intro x hx
    cases hx with
    | inl hx =>
      obtain ⟨i, hi, hp⟩ := h.covers x hx
      exact ⟨i, mem_append_left _ hi, hp⟩
    | inr hx =>
      obtain ⟨i, hi, hp⟩ := h'.covers x hx
      exact ⟨i, mem_append_right _ hi, hp⟩
  disjoint := by
    apply pairwise_append.mpr
    refine ⟨h.disjoint, h'.disjoint, fun i hi j hj x hx hx' => ?_⟩
    exact hd x (h.inside i hi x hx) (h'.inside j hj x hx')

theorem Splits.flatMap {part' : κ → α → Prop} {f : ι → List κ} (h : Splits region part l)
    (hf : ∀ i ∈ l, Splits (part i) part' (f i)) : Splits region part' (l.flatMap f) where
  inside := by
    intro j hj x hx
    obtain ⟨i, hi, hji⟩ := mem_flatMap.mp hj
    exact h.inside i hi x ((hf i hi).inside j hji x hx)
  covers := by
    intro x hx
    obtain ⟨i, hi, hp⟩ := h.covers x hx
    obtain ⟨j, hj, hp'⟩ := (hf i hi).covers x hp
    exact ⟨j, mem_flatMap.mpr ⟨i, hi, hj⟩, hp'⟩
  disjoint := by
    apply pairwise_flatMap.mpr
    refine ⟨fun i hi => (hf i hi).disjoint, ?_⟩
    apply h.disjoint.imp_of_mem
    intro i i' hi hi' hd j hj j' hj' x hx hx'
    exact hd x ((hf i hi).inside j hj x hx) ((hf i' hi').inside j' hj' x hx')

end NpuCompiler.Partition
