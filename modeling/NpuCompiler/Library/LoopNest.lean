import NpuCompiler.Library.FoldRules
import Mathlib.Data.List.Chain
import Mathlib.Tactic.Ring

namespace NpuCompiler.LoopNest

open List

/-- The offsets that nested loops visit, in their order; a loop has its number of iterations and its step. -/
def offsets : List (ℤ × ℤ) → List ℤ
  | [] => [0]
  | loop :: inner => (List.range loop.1.toNat).flatMap fun (i : ℕ) => (offsets inner).map (i * loop.2 + ·)

def collapse : List (ℤ × ℤ) → List (ℤ × ℤ)
  | [] => []
  | loop :: inner =>
    match collapse inner with
    | [] => [loop]
    | next :: rest => if next.1 * next.2 = loop.2 then (loop.1 * next.1, next.2) :: rest else loop :: next :: rest

/-- The inner loop does not end where the next iteration of the outer one starts. -/
abbrev Breaks (outer inner : ℤ × ℤ) : Prop := inner.1 * inner.2 ≠ outer.2

def CouldMerge (nest : List (ℤ × ℤ)) : Prop :=
  ∃ before outer inner after loop, nest = before ++ outer :: inner :: after ∧ (after = [] → loop.2 = 1) ∧
    offsets [loop] = offsets [outer, inner]

/-- Neighbouring loops of one iteration and the same step, which is not that of the next outer loop and not what the next inner
loop spans. -/
def UnitRun (nest : List (ℤ × ℤ)) : Prop :=
  ∃ before outer run inner after step, nest = before ++ outer :: (run ++ inner :: after) ∧ run ≠ [] ∧
    (∀ loop ∈ run, loop = (1, step)) ∧ outer.2 ≠ step ∧ inner.1 * inner.2 ≠ step

section
variable {n m s : ℤ} {loop : ℤ × ℤ} {inner inner' nest : List (ℤ × ℤ)}

theorem offsets_cons : offsets (loop :: inner) =
    (List.range loop.1.toNat).flatMap fun (i : ℕ) => (offsets inner).map (i * loop.2 + ·) := rfl

theorem offsets_congr (h : offsets inner = offsets inner') : offsets (loop :: inner) = offsets (loop :: inner') := by
  rw [offsets_cons, offsets_cons, h]

theorem offsets_unit : offsets ((1, s) :: inner) = offsets inner := by
  rw [offsets_cons]
  change (List.range 1).flatMap _ = _
  simp [range_succ]

theorem offsets_merge (hn : 0 ≤ n) (hm : 0 ≤ m) : offsets ((n, m * s) :: (m, s) :: inner) = offsets ((n * m, s) :: inner) := by
  rw [offsets_cons, offsets_cons, offsets_cons]
  dsimp only
  rw [Int.toNat_mul hn hm, ← range_chunks, flatMap_assoc]
  apply flatMap_congr
  intro i _
  rw [map_flatMap, flatMap_map]
  apply flatMap_congr
  intro j _
  rw [map_map]
  apply map_congr_left
  intro x _
  rw [Function.comp_apply, Nat.cast_add, Nat.cast_mul, Int.toNat_of_nonneg hm]
  ring

theorem offsets_collapse (hnonneg : ∀ loop ∈ nest, 0 ≤ loop.1) :
    offsets (collapse nest) = offsets nest ∧ ∀ loop ∈ collapse nest, 0 ≤ loop.1 := by
  induction nest with
  | nil => exact ⟨rfl, hnonneg⟩
  | cons loop inner ih =>
    obtain ⟨hloop, hinner⟩ := forall_mem_cons.mp hnonneg
    obtain ⟨hoffsets, hsizes⟩ := ih hinner
    unfold collapse
    cases hcollapse : collapse inner with
    | nil =>
      rw [hcollapse] at hoffsets
      exact ⟨offsets_congr hoffsets, by simpa using hloop⟩
    | cons next rest =>
      rw [hcollapse] at hoffsets hsizes
      obtain ⟨hnext, hrest⟩ := forall_mem_cons.mp hsizes
      dsimp only
      split_ifs with hcompact
      · constructor
        · rw [← offsets_merge hloop hnext, hcompact]
          exact offsets_congr hoffsets
        · exact forall_mem_cons.mpr ⟨Int.mul_nonneg hloop hnext, hrest⟩
      · exact ⟨offsets_congr hoffsets, forall_mem_cons.mpr ⟨hloop, hsizes⟩⟩

end

section
variable {loop next : ℤ × ℤ} {inner nest rest : List (ℤ × ℤ)}

theorem collapse_of_cons (h : collapse inner = next :: rest) : collapse (loop :: inner) =
    if next.1 * next.2 = loop.2 then (loop.1 * next.1, next.2) :: rest else loop :: next :: rest := by
  change (match collapse inner with
    | [] => [loop]
    | next :: rest => if next.1 * next.2 = loop.2 then (loop.1 * next.1, next.2) :: rest else loop :: next :: rest) = _
  rw [h]

theorem collapse_pos (hpos : ∀ loop ∈ nest, 0 < loop.1) : ∀ loop ∈ collapse nest, 0 < loop.1 := by
  induction nest with
  | nil => exact hpos
  | cons loop inner ih =>
    obtain ⟨hloop, hinner⟩ := forall_mem_cons.mp hpos
    have hsizes := ih hinner
    unfold collapse
    cases hcollapse : collapse inner with
    | nil => simpa using hloop
    | cons next rest =>
      rw [hcollapse] at hsizes
      obtain ⟨hnext, hrest⟩ := forall_mem_cons.mp hsizes
      dsimp only
      split_ifs
      · exact forall_mem_cons.mpr ⟨Int.mul_pos hloop hnext, hrest⟩
      · exact forall_mem_cons.mpr ⟨hloop, hsizes⟩

theorem collapse_cons : ∃ next rest, collapse (loop :: inner) = next :: rest ∧ next.1 * next.2 = loop.1 * loop.2 := by
  unfold collapse
  cases collapse inner with
  | nil => exact ⟨loop, [], rfl, rfl⟩
  | cons next rest =>
    dsimp only
    split_ifs with hcompact
    · exact ⟨_, rest, rfl, by rw [← hcompact, mul_assoc]⟩
    · exact ⟨loop, next :: rest, rfl, rfl⟩

theorem collapse_chain : (collapse nest).IsChain Breaks := by
  induction nest with
  | nil => exact isChain_nil
  | cons loop inner ih =>
    unfold collapse
    cases hcollapse : collapse inner with
    | nil => exact isChain_singleton _
    | cons next rest =>
      rw [hcollapse] at ih
      dsimp only
      split_ifs with hcompact
      · cases rest with
        | nil => exact isChain_singleton _
        | cons last rest =>
          rw [isChain_cons_cons] at ih ⊢
          exact ih
      · exact isChain_cons_cons.mpr ⟨hcompact, ih⟩

end

section
variable {n m s t : ℤ} {loop outer inner : ℤ × ℤ} {nest : List (ℤ × ℤ)}

theorem offsets_singleton : offsets [loop] = (List.range loop.1.toNat).map fun (i : ℕ) => i * loop.2 := by
  rw [offsets_cons]
  change (List.range loop.1.toNat).flatMap (fun (i : ℕ) => [i * loop.2 + 0]) = _
  rw [← map_eq_flatMap]
  simp only [Int.add_zero]

theorem offsets_pair : offsets [outer, inner] =
    (List.range outer.1.toNat).flatMap fun (i : ℕ) => (List.range inner.1.toNat).map fun (j : ℕ) => i * outer.2 + j * inner.2 := by
  rw [offsets_cons]
  apply flatMap_congr
  intro i _
  rw [offsets_singleton, map_map]
  rfl

theorem merge_compact (houter : 1 < outer.1) (hinner : 1 < inner.1) (h : offsets [loop] = offsets [outer, inner]) :
    inner.1 * inner.2 = outer.2 := by
  obtain ⟨n, hn⟩ : ∃ n : ℕ, outer.1.toNat = n + 2 := ⟨outer.1.toNat - 2, by omega⟩
  obtain ⟨m, hm⟩ : ∃ m : ℕ, inner.1.toNat = m + 2 := ⟨inner.1.toNat - 2, by omega⟩
  rw [offsets_singleton, offsets_pair, hn, hm] at h
  -- the second offset is the inner step, the first one of the next row the outer step
  have hrows : (List.range (n + 2)).flatMap (fun (i : ℕ) => (List.range (m + 2)).map fun (j : ℕ) => (i : ℤ) * outer.2 + j * inner.2) =
      ((List.range (m + 2)).map fun (j : ℕ) => (j : ℤ) * inner.2) ++ (((List.range (m + 2)).map fun (j : ℕ) => outer.2 + j * inner.2) ++
        (List.range n).flatMap fun (i : ℕ) => (List.range (m + 2)).map fun (j : ℕ) => ((i + 2 : ℕ) : ℤ) * outer.2 + j * inner.2) := by
    rw [range_succ_eq_map (n := n + 1), flatMap_cons, flatMap_map, range_succ_eq_map (n := n), flatMap_cons,
      flatMap_map]
    simp [add_assoc]
  rw [hrows] at h
  have hlength := congrArg List.length h
  simp only [length_append, length_map, length_range] at hlength
  have hget (k : ℕ) (hk : k < loop.1.toNat) := congrArg (fun l : List ℤ => l[k]?) h
  have hsecond := hget 1 (by omega)
  have hrow := hget (m + 2) (by omega)
  rw [getElem?_map, getElem?_range (by omega), getElem?_append_left (by simp), getElem?_map,
    getElem?_range (by omega)] at hsecond
  rw [getElem?_map, getElem?_range (by omega), getElem?_append_right (by simp), length_map, length_range,
    Nat.sub_self, getElem?_append_left (by simp), getElem?_map, getElem?_range (by omega)] at hrow
  simp only [Option.map_some, Option.some.injEq, Nat.cast_one, Int.one_mul, Nat.cast_zero, Int.zero_mul, Int.add_zero] at hsecond hrow
  rw [← hrow, hsecond, show inner.1 = ((m + 2 : ℕ) : ℤ) by omega]

theorem offsets_inner_unit : offsets [outer, (1, s)] = offsets [outer] := offsets_congr offsets_unit

theorem exists_merge_iff (houter : 0 < outer.1) (hinner : 0 < inner.1) :
    (∃ loop, offsets [loop] = offsets [outer, inner]) ↔ outer.1 = 1 ∨ inner.1 = 1 ∨ inner.1 * inner.2 = outer.2 := by
  constructor
  · rintro ⟨loop, hloop⟩
    by_cases hone : outer.1 = 1 ∨ inner.1 = 1
    · exact hone.imp_right Or.inl
    · push Not at hone
      exact Or.inr (Or.inr (merge_compact (by omega) (by omega) hloop))
  · obtain ⟨n, s⟩ := outer
    obtain ⟨m, t⟩ := inner
    rintro (rfl | rfl | hcompact)
    · exact ⟨(m, t), offsets_unit.symm⟩
    · exact ⟨(n, s), offsets_inner_unit.symm⟩
    · have hcompact : m * t = s := hcompact
      subst hcompact
      exact ⟨(n * m, t), (offsets_merge houter.le hinner.le).symm⟩

theorem couldMerge_iff (hpos : ∀ loop ∈ nest, 0 < loop.1) (hchain : nest.IsChain Breaks)
    (hlast : nest.getLast?.map Prod.snd = some 1) :
    CouldMerge nest ↔ ∃ before unit inner after, nest = before ++ unit :: inner :: after ∧ unit.1 = 1 := by
  constructor
  · rintro ⟨before, outer, inner, after, loop, rfl, hstep, hloop⟩
    have houter := hpos outer (by simp)
    have hinner := hpos inner (by simp)
    have hne : inner.1 * inner.2 ≠ outer.2 := (isChain_cons_cons.mp (isChain_append.mp hchain).2.1).1
    rcases (exists_merge_iff houter hinner).mp ⟨loop, hloop⟩ with hone | hone | hcompact
    · exact ⟨before, outer, inner, after, rfl, hone⟩
    · cases after with
      | cons next after => exact ⟨before ++ [outer], inner, next, after, by simp, hone⟩
      | nil =>
        -- the innermost run has one element, and the outer loop its step
        have hone' : inner.2 = 1 := by simpa using hlast
        have houter1 : outer.1 = 1 := by
          by_contra hmany
          have hsteps : offsets [loop] = offsets [outer] := by
            rw [hloop, show inner = (1, inner.2) from Prod.ext hone rfl, offsets_inner_unit]
          rw [offsets_singleton, offsets_singleton] at hsteps
          have hlength := congrArg List.length hsteps
          simp only [length_map, length_range] at hlength
          have hget := congrArg (fun l : List ℤ => l[1]?) hsteps
          rw [getElem?_map, getElem?_range (by omega), getElem?_map, getElem?_range (by omega)] at hget
          simp only [Option.map_some, Option.some.injEq, Nat.cast_one, Int.one_mul, hstep rfl] at hget
          rw [hone, hone', ← hget] at hne
          exact hne rfl
        exact ⟨before, outer, inner, [], rfl, houter1⟩
    · exact absurd hcompact hne
  · rintro ⟨before, unit, inner, after, rfl, hone⟩
    refine ⟨before, unit, inner, after, inner, rfl, ?_, ?_⟩
    · rintro rfl
      simpa using hlast
    · rw [show unit = (1, unit.2) from Prod.ext hone rfl, offsets_unit]

end

section
variable {loop outer : ℤ × ℤ} {inner nest rest : List (ℤ × ℤ)}

/-- The nest starts with loops of one iteration and the same step, which is not what the next loop spans. -/
def StartsWithUnits (nest : List (ℤ × ℤ)) : Prop :=
  ∃ run inner after step, nest = run ++ inner :: after ∧ run ≠ [] ∧ (∀ loop ∈ run, loop = (1, step)) ∧ inner.1 * inner.2 ≠ step

theorem eq_one_of_mul_eq_one {a b : ℤ} (ha : 0 < a) (hb : 0 < b) (h : a * b = 1) : a = 1 ∧ b = 1 := by
  constructor
  · exact Int.eq_one_of_mul_eq_one_right ha.le h
  · exact Int.eq_one_of_mul_eq_one_left hb.le h

theorem StartsWithUnits.head (h : StartsWithUnits (loop :: inner)) : loop.1 = 1 := by
  obtain ⟨run, last, after, step, hnest, hrun, hunits, -⟩ := h
  cases run with
  | nil => exact absurd rfl hrun
  | cons unit run =>
    injection hnest with hhead
    rw [hhead, hunits unit mem_cons_self]

theorem startsWithUnits_cons {first : ℤ × ℤ} : StartsWithUnits (loop :: first :: inner) ↔
    loop.1 = 1 ∧ (first.1 * first.2 ≠ loop.2 ∨ StartsWithUnits (first :: inner)) := by
  constructor
  · intro h
    refine ⟨h.head, ?_⟩
    obtain ⟨run, last, after, step, hnest, hrun, hunits, hspan⟩ := h
    cases run with
    | nil => exact absurd rfl hrun
    | cons unit run =>
      injection hnest with hhead htail
      have hloop : loop = (1, step) := hhead.trans (hunits unit mem_cons_self)
      cases run with
      | nil =>
        injection htail with hfirst
        left
        rwa [hfirst, hloop]
      | cons unit' run =>
        right
        refine ⟨unit' :: run, last, after, step, htail, by simp, ?_, hspan⟩
        intro loop' hmem
        exact hunits loop' (mem_cons_of_mem _ hmem)
  · rintro ⟨hone, hrest⟩
    by_cases hspan : first.1 * first.2 = loop.2
    · have hunits := hrest.resolve_left (not_not_intro hspan)
      have hfirst := hunits.head
      obtain ⟨run, last, after, step, hnest, hrun, hunits, hspan'⟩ := hunits
      have hstep : loop.2 = step := by
        cases run with
        | nil => exact absurd rfl hrun
        | cons unit run =>
          injection hnest with hhead
          rw [← hspan, hfirst, Int.one_mul, hhead, hunits unit mem_cons_self]
      refine ⟨loop :: run, last, after, step, by rw [hnest]; rfl, by simp, ?_, hspan'⟩
      exact forall_mem_cons.mpr ⟨Prod.ext hone hstep, hunits⟩
    · refine ⟨[loop], first, inner, loop.2, rfl, by simp, ?_, hspan⟩
      intro unit hunit
      rw [mem_singleton.mp hunit]
      exact Prod.ext hone rfl

theorem unitRun_cons : UnitRun (loop :: inner) ↔ UnitRun inner ∨ StartsWithUnits inner ∧ ∃ first rest, inner = first :: rest ∧ loop.2 ≠ first.2 := by
  constructor
  · rintro ⟨before, outer, run, last, after, step, hnest, hrun, hunits, houter, hspan⟩
    cases before with
    | nil =>
      injection hnest with hhead htail
      right
      cases run with
      | nil => exact absurd rfl hrun
      | cons unit run =>
        refine ⟨⟨unit :: run, last, after, step, htail, hrun, hunits, hspan⟩, unit, run ++ last :: after, htail, ?_⟩
        rw [hhead, hunits unit mem_cons_self]
        exact houter
    | cons head before =>
      injection hnest with hhead htail
      left
      exact ⟨before, outer, run, last, after, step, htail, hrun, hunits, houter, hspan⟩
  · rintro (⟨before, outer, run, last, after, step, rfl, hrest⟩ | ⟨⟨run, last, after, step, rfl, hrun, hunits, hspan⟩, first, rest, hinner, hstep⟩)
    · exact ⟨loop :: before, outer, run, last, after, step, rfl, hrest⟩
    · refine ⟨[], loop, run, last, after, step, rfl, hrun, hunits, ?_, hspan⟩
      cases run with
      | nil => exact absurd rfl hrun
      | cons unit run =>
        injection hinner with hfirst
        rwa [← hfirst, hunits unit mem_cons_self] at hstep

theorem startsWithUnits_nil : ¬ StartsWithUnits [] := by
  rintro ⟨run, last, after, step, hnest, -⟩
  exact absurd hnest (by simp)

theorem startsWithUnits_singleton : ¬ StartsWithUnits [loop] := by
  rintro ⟨run, last, after, step, hnest, hrun, -⟩
  cases run with
  | nil => exact hrun rfl
  | cons unit run => exact absurd hnest (by simp)

theorem collapse_unit_head (hpos : ∀ loop ∈ nest, 0 < loop.1) :
    (∃ next rest, collapse nest = next :: rest ∧ rest ≠ [] ∧ next.1 = 1) ↔ StartsWithUnits nest := by
  induction nest with
  | nil =>
    apply iff_of_false _ startsWithUnits_nil
    rintro ⟨next, rest, h, -⟩
    exact absurd h (cons_ne_nil _ _).symm
  | cons loop inner ih =>
    obtain ⟨hloop, hinner⟩ := forall_mem_cons.mp hpos
    cases inner with
    | nil =>
      apply iff_of_false _ startsWithUnits_singleton
      rintro ⟨next, rest, h, hrest, -⟩
      injection h with _ htail
      exact hrest htail.symm
    | cons first inner =>
      obtain ⟨next, rest, hcollapse, hspan⟩ := @collapse_cons first inner
      have hnext := collapse_pos hinner next (hcollapse ▸ mem_cons_self)
      rw [startsWithUnits_cons, ← ih hinner, ← hspan, collapse_of_cons hcollapse, hcollapse]
      split_ifs with hcompact
      · constructor
        · rintro ⟨next', rest', h, hrest, hone⟩
          injection h with hhead htail
          subst hhead htail
          obtain ⟨hone, hone'⟩ := eq_one_of_mul_eq_one hloop hnext hone
          exact ⟨hone, Or.inr ⟨next, rest, rfl, hrest, hone'⟩⟩
        · rintro ⟨hone, hrest⟩
          obtain ⟨next', rest', h, hrest, hone'⟩ := hrest.resolve_left (not_not_intro hcompact)
          injection h with hhead htail
          subst hhead htail
          exact ⟨_, _, rfl, hrest, by rw [hone, hone', Int.one_mul]⟩
      · constructor
        · rintro ⟨next', rest', h, hrest, hone⟩
          injection h with hhead htail
          subst hhead htail
          exact ⟨hone, Or.inl hcompact⟩
        · rintro ⟨hone, -⟩
          exact ⟨_, _, rfl, cons_ne_nil _ _, hone⟩

def UnitInside (nest : List (ℤ × ℤ)) : Prop :=
  ∃ before outer unit inner after, nest = before ++ outer :: unit :: inner :: after ∧ unit.1 = 1

theorem unitInside_cons : UnitInside (loop :: rest) ↔ UnitInside rest ∨ ∃ unit after, rest = unit :: after ∧ after ≠ [] ∧ unit.1 = 1 := by
  constructor
  · rintro ⟨before, outer, unit, inner, after, hnest, hone⟩
    cases before with
    | nil =>
      injection hnest with hhead htail
      exact Or.inr ⟨unit, inner :: after, htail, cons_ne_nil _ _, hone⟩
    | cons head before =>
      injection hnest with hhead htail
      exact Or.inl ⟨before, outer, unit, inner, after, htail, hone⟩
  · rintro (⟨before, outer, unit, inner, after, rfl, hone⟩ | ⟨unit, after, rfl, hafter, hone⟩)
    · exact ⟨loop :: before, outer, unit, inner, after, rfl, hone⟩
    · cases after with
      | nil => exact absurd rfl hafter
      | cons inner after => exact ⟨[], loop, unit, inner, after, rfl, hone⟩

theorem not_unitInside_singleton : ¬ UnitInside [loop] := by
  rintro ⟨before, outer, unit, inner, after, h, -⟩
  have hlength := congrArg List.length h
  simp only [length_append, length_cons, length_nil] at hlength
  omega

theorem not_unitRun_singleton : ¬ UnitRun [loop] := by
  rintro ⟨before, outer, run, inner, after, step, h, -⟩
  have hlength := congrArg List.length h
  simp only [length_append, length_cons, length_nil] at hlength
  omega

theorem collapse_unitInside (hpos : ∀ loop ∈ nest, 0 < loop.1) (hnest : nest ≠ []) : UnitInside (collapse nest) ↔ UnitRun nest := by
  induction nest with
  | nil => exact absurd rfl hnest
  | cons loop inner ih =>
    obtain ⟨hloop, hinner⟩ := forall_mem_cons.mp hpos
    cases inner with
    | nil => exact iff_of_false not_unitInside_singleton not_unitRun_singleton
    | cons first inner =>
      obtain ⟨next, rest, hcollapse, hspan⟩ := @collapse_cons first inner
      have hhead := collapse_unit_head hinner
      rw [unitRun_cons, ← ih hinner (cons_ne_nil _ _), collapse_of_cons hcollapse, hcollapse]
      rw [hcollapse] at hhead
      -- the steps of a first run of units are what it spans
      have hstep : StartsWithUnits (first :: inner) → first.2 = next.1 * next.2 := by
        intro hunits
        rw [hspan, hunits.head, Int.one_mul]
      split_ifs with hcompact
      · rw [unitInside_cons, unitInside_cons]
        constructor
        · exact Or.inl
        · rintro (h | ⟨hunits, first', rest', h, hne⟩)
          · exact h
          · injection h with hfirst
            subst hfirst
            exact absurd ((hstep hunits).trans hcompact).symm hne
      · rw [@unitInside_cons loop]
        apply or_congr_right
        rw [← hhead]
        constructor
        · rintro ⟨unit, after, h, hafter, hone⟩
          have hunits := hhead.mp ⟨unit, after, h, hafter, hone⟩
          refine ⟨⟨unit, after, h, hafter, hone⟩, first, inner, rfl, ?_⟩
          rw [hstep hunits]
          exact Ne.symm hcompact
        · rintro ⟨h, -⟩
          exact h

theorem exists_unit_iff : (∃ before unit inner after, nest = before ++ unit :: inner :: after ∧ unit.1 = 1) ↔
    ∃ unit ∈ nest.dropLast, unit.1 = 1 := by
  constructor
  · rintro ⟨before, unit, inner, after, rfl, hone⟩
    refine ⟨unit, ?_, hone⟩
    rw [dropLast_append_of_ne_nil (cons_ne_nil _ _), dropLast_cons_of_ne_nil (cons_ne_nil _ _)]
    simp
  · rintro ⟨unit, hunit, hone⟩
    have hnonempty : nest ≠ [] := by
      rintro rfl
      exact not_mem_nil hunit
    obtain ⟨before, after, hsplit⟩ := append_of_mem hunit
    have hnest : nest = before ++ unit :: (after ++ [nest.getLast hnonempty]) := by
      conv_lhs => rw [← dropLast_append_getLast hnonempty, hsplit]
      simp
    cases after with
    | nil => exact ⟨before, unit, _, [], hnest, hone⟩
    | cons inner after => exact ⟨before, unit, inner, _, hnest, hone⟩

theorem unitInside_cons_iff : UnitInside (loop :: rest) ↔ ∃ unit ∈ rest.dropLast, unit.1 = 1 := by
  rw [← exists_unit_iff]
  constructor
  · rintro ⟨before, outer, unit, inner, after, hnest, hone⟩
    cases before with
    | nil =>
      injection hnest with hhead htail
      exact ⟨[], unit, inner, after, htail, hone⟩
    | cons head before =>
      injection hnest with hhead htail
      exact ⟨before ++ [outer], unit, inner, after, by simp [htail], hone⟩
  · rintro ⟨before, unit, inner, after, rfl, hone⟩
    rcases eq_nil_or_concat' before with rfl | ⟨start, outer, rfl⟩
    · exact ⟨[], loop, unit, inner, after, rfl, hone⟩
    · exact ⟨loop :: start, outer, unit, inner, after, by simp, hone⟩

end

section
variable {last : ℤ × ℤ} {nest init : List (ℤ × ℤ)}

def trimUnit : List (ℤ × ℤ) → List (ℤ × ℤ)
  | outer :: next :: rest => if outer.1 = 1 then next :: rest else outer :: next :: rest
  | nest => nest

theorem trimUnit_cons_cons {outer next : ℤ × ℤ} {rest : List (ℤ × ℤ)} :
    trimUnit (outer :: next :: rest) = if outer.1 = 1 then next :: rest else outer :: next :: rest := rfl

theorem trimUnit_cases : trimUnit nest = nest ∨ ∃ outer, nest = outer :: trimUnit nest ∧ outer.1 = 1 ∧ trimUnit nest ≠ [] := by
  match nest with
  | [] => exact Or.inl rfl
  | [_] => exact Or.inl rfl
  | outer :: next :: rest =>
    rw [trimUnit_cons_cons]
    split_ifs with hone
    · exact Or.inr ⟨outer, rfl, hone, cons_ne_nil _ _⟩
    · exact Or.inl rfl

theorem offsets_trimUnit : offsets (trimUnit nest) = offsets nest := by
  rcases @trimUnit_cases nest with heq | ⟨outer, heq, hone, -⟩
  · rw [heq]
  · have hunit : offsets (outer :: trimUnit nest) = offsets (trimUnit nest) := by
      rw [show outer = (1, outer.2) from Prod.ext hone rfl, offsets_unit]
    rw [← hunit, ← heq]

theorem trimUnit_append : ∃ init', trimUnit (init ++ [last]) = init' ++ [last] ∧ init' <:+ init := by
  rcases @trimUnit_cases (init ++ [last]) with heq | ⟨outer, heq, -, hne⟩
  · exact ⟨init, heq, suffix_refl _⟩
  · cases init with
    | nil =>
      injection heq with _ htail
      exact absurd htail.symm hne
    | cons first init =>
      injection heq with _ htail
      exact ⟨init, htail.symm, suffix_cons _ _⟩

theorem unitInside_iff_trimUnit : UnitInside nest ↔ ∃ unit ∈ (trimUnit nest).dropLast, unit.1 = 1 := by
  match nest with
  | [] =>
    apply iff_of_false
    · rintro ⟨before, outer, unit, inner, after, h, -⟩
      exact absurd h (by simp)
    · rintro ⟨unit, hunit, -⟩
      exact not_mem_nil hunit
  | [loop] =>
    apply iff_of_false not_unitInside_singleton
    rintro ⟨unit, hunit, -⟩
    exact not_mem_nil hunit
  | outer :: next :: rest =>
    rw [unitInside_cons_iff, trimUnit_cons_cons]
    split_ifs with hone
    · rfl
    · rw [dropLast_cons_of_ne_nil (cons_ne_nil _ _)]
      simp only [mem_cons, exists_eq_or_imp, hone, false_or]

end

end NpuCompiler.LoopNest
