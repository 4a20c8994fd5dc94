import Mathlib.Data.Finset.Sort
import Mathlib.Data.Set.Finite.Lattice
import Mathlib.Tactic.IntervalCases
import NpuCompiler.Library.TransitiveReduction

namespace NpuCompiler.Deps

/-- `_depsMap`: at index `i` the operations that operation `i` depends on. -/
abbrev DepsMap := List (Finset ℕ)

def DepsMap.at (depsMap : DepsMap) (i : ℕ) : Finset ℕ := depsMap.getD i ∅

/-- The unspecified order in which loops over a `DenseSet` run, one loop for each owner and inner owner. -/
structure Visits where
  order : ℕ → Option ℕ → Finset ℕ → List ℕ
  mem_order : ∀ i c s x, x ∈ order i c s ↔ x ∈ s

namespace DepsMapClosure

def simplifiedOptimizationOpCountThreshold : ℕ := 10000

def addSecondOrder (visits : Visits) (depsMap depsMapClosure : DepsMap) (i : ℕ) : Finset ℕ :=
  (visits.order i none (depsMapClosure.at i)).foldl (fun curDeps curDepInd => curDeps ∪ depsMap.at curDepInd)
    (depsMapClosure.at i)

def computePartialClosureWithDenseSet (visits : Visits) (depsMap : DepsMap) : DepsMap :=
  (List.range (depsMap.length - 1)).foldl
    (fun depsMapClosure i => depsMapClosure.set i (addSecondOrder visits depsMap depsMapClosure i)) depsMap

def setBits (size : ℕ) (bits : Finset ℕ) : List ℕ := (List.range size).filter (· ∈ bits)

def closeRow (depsMapClosure : DepsMap) (i : ℕ) : Finset ℕ :=
  (setBits depsMapClosure.length (depsMapClosure.at i)).foldl
    -- `refDeps` is the closure under construction, so its row `i` is `curDeps` itself
    (fun curDeps curDepInd => curDeps ∪ DepsMap.at (depsMapClosure.set i curDeps) curDepInd)
    (depsMapClosure.at i)

def computeFullClosureWithBitVector (depsMap : DepsMap) : DepsMap :=
  (List.range (depsMap.length - 1)).foldl
    (fun depsMapClosure i => depsMapClosure.set i (closeRow depsMapClosure i)) depsMap

def computeTransitiveClosure (visits : Visits) (depsMap : DepsMap) : DepsMap :=
  if depsMap.length > simplifiedOptimizationOpCountThreshold then
    computePartialClosureWithDenseSet visits depsMap
  else computeFullClosureWithBitVector depsMap

def hasDependency (depsMapClosure : DepsMap) (ind depInd : ℕ) : Bool := depInd ∈ depsMapClosure.at ind

end DepsMapClosure

open DepsMapClosure

structure AsyncDepsInfo where
  depsMap : DepsMap
  consumerMap : DepsMap
  execOpCount : ℕ

namespace AsyncDepsInfo

def addConsumers (visits : Visits) (depsMap consumerMap : DepsMap) (idx : ℕ) : DepsMap :=
  (visits.order idx none (depsMap.at idx)).foldl
    (fun consumerMap bit => consumerMap.set bit (insert idx (DepsMap.at consumerMap bit))) consumerMap

def buildConsMap (visits : Visits) (depsMap consumerMap : DepsMap) : DepsMap :=
  let resized := consumerMap.take depsMap.length ++ List.replicate (depsMap.length - consumerMap.length) ∅
  (List.range depsMap.length).foldl (addConsumers visits depsMap) resized

def reduceDeps (visits : Visits) (depsMapClosure : DepsMap) (depInd : ℕ) (curDeps : Finset ℕ) : Finset ℕ :=
  if curDeps.card ≤ 1 then curDeps
  else
    (visits.order depInd none curDeps).foldl (fun curDeps curDepInd =>
      (visits.order depInd (some curDepInd) curDeps).foldl (fun curDeps dep =>
        if hasDependency depsMapClosure curDepInd dep then curDeps.erase dep else curDeps) curDeps) curDeps

def reduceDepsMap (visits : Visits) (depsMapClosure depsMap : DepsMap) : DepsMap :=
  (List.range depsMap.length).reverse.foldl
    (fun depsMap depInd => depsMap.set depInd (reduceDeps visits depsMapClosure depInd (depsMap.at depInd))) depsMap

def optimizeDepsMap (closureVisits visits consVisits : Visits) (info : AsyncDepsInfo) : AsyncDepsInfo :=
  let depsMapClosure := computeTransitiveClosure closureVisits info.depsMap
  let depsMap := reduceDepsMap visits depsMapClosure info.depsMap
  { info with
    depsMap := depsMap
    consumerMap := if info.consumerMap ≠ [] then buildConsMap consVisits depsMap [] else info.consumerMap }

end AsyncDepsInfo

end NpuCompiler.Deps

namespace NpuCompiler.Deps

open Relation TransitiveReduction DepsMapClosure AsyncDepsInfo

def DependsOn (depsMap : DepsMap) (i j : ℕ) : Prop := j ∈ depsMap.at i

theorem at_of_length_le {depsMap : DepsMap} {i : ℕ} (h : depsMap.length ≤ i) : depsMap.at i = ∅ := by
  simp [DepsMap.at, List.getD_eq_getElem?_getD, h]

theorem DependsOn.lt_length {depsMap : DepsMap} {i j : ℕ} (h : DependsOn depsMap i j) : i < depsMap.length := by
  by_contra hge
  unfold DependsOn at h
  rw [at_of_length_le (not_lt.mp hge)] at h
  simp at h

theorem at_set_self {depsMap : DepsMap} {i : ℕ} (s : Finset ℕ) (h : i < depsMap.length) :
    DepsMap.at (depsMap.set i s) i = s := by
  simp [DepsMap.at, List.getD_eq_getElem?_getD, h]

theorem at_set_of_ne {depsMap : DepsMap} {i j : ℕ} (s : Finset ℕ) (h : i ≠ j) :
    DepsMap.at (depsMap.set i s) j = depsMap.at j := by
  simp [DepsMap.at, List.getD_eq_getElem?_getD, h]

theorem at_set_subset (depsMap : DepsMap) (i j : ℕ) (s : Finset ℕ) :
    DepsMap.at (depsMap.set i s) j ⊆ s ∪ depsMap.at j := by
  by_cases h : i = j
  · subst h
    by_cases hi : i < depsMap.length
    · rw [at_set_self s hi]
      exact Finset.subset_union_left
    · rw [List.set_eq_of_length_le (not_lt.mp hi)]
      exact Finset.subset_union_right
  · rw [at_set_of_ne s h]
    exact Finset.subset_union_right

section
variable {g : Finset ℕ → ℕ → Finset ℕ}

theorem subset_foldl (h : ∀ s d, s ⊆ g s d) (l : List ℕ) (s : Finset ℕ) : s ⊆ l.foldl g s := by
  induction l generalizing s with
  | nil => exact subset_refl s
  | cons d l ih => exact (h s d).trans (ih (g s d))

theorem subset_foldl_of_mem (h : ∀ s d, s ⊆ g s d) {d : ℕ} {added : Finset ℕ} (hd : ∀ s, added ⊆ g s d)
    {l : List ℕ} (hmem : d ∈ l) (s : Finset ℕ) : added ⊆ l.foldl g s := by
  induction l generalizing s with
  | nil => simp at hmem
  | cons d' l ih =>
    by_cases he : d = d'
    · subst he
      exact (hd s).trans (subset_foldl h l (g s d))
    · exact ih ((List.mem_cons.mp hmem).resolve_left he) (g s d')

theorem mem_foldl_subset {added : ℕ → Finset ℕ} (h : ∀ s d, g s d ⊆ s ∪ added d) {l : List ℕ} {s : Finset ℕ}
    {x : ℕ} (hx : x ∈ l.foldl g s) : x ∈ s ∨ ∃ d ∈ l, x ∈ added d := by
  induction l generalizing s with
  | nil => exact .inl hx
  | cons d l ih =>
    obtain hs | ⟨d', hd', hx'⟩ := ih hx
    · have := h s d hs
      rw [Finset.mem_union] at this
      exact this.imp_right (fun hd => ⟨d, by simp, hd⟩)
    · exact .inr ⟨d', by simp [hd'], hx'⟩

end

def Sound (depsMap depsMapClosure : DepsMap) : Prop :=
  ∀ i j, j ∈ depsMapClosure.at i → TransGen (DependsOn depsMap) i j

theorem Sound.set {depsMap depsMapClosure : DepsMap} (h : Sound depsMap depsMapClosure) {i : ℕ} {row : Finset ℕ}
    (hrow : ∀ j ∈ row, TransGen (DependsOn depsMap) i j) : Sound depsMap (depsMapClosure.set i row) := by
  intro i' j hj
  by_cases he : i = i'
  · subst he
    have := at_set_subset depsMapClosure i i row hj
    rw [Finset.mem_union] at this
    rcases this with hr | hc
    · exact hrow j hr
    · exact h i j hc
  · rw [at_set_of_ne row he] at hj
    exact h i' j hj

theorem sound_self (depsMap : DepsMap) : Sound depsMap depsMap := fun _ _ h => TransGen.single h

theorem addSecondOrder_sound {visits : Visits} {depsMap depsMapClosure : DepsMap}
    (h : Sound depsMap depsMapClosure) (i : ℕ) :
    ∀ j ∈ addSecondOrder visits depsMap depsMapClosure i, TransGen (DependsOn depsMap) i j := by
  intro j hj
  obtain hi | ⟨d, hd, hdj⟩ := mem_foldl_subset (fun s d => subset_refl (s ∪ depsMap.at d)) hj
  · exact h i j hi
  · exact (h i d ((visits.mem_order i none _ d).mp hd)).tail hdj

theorem closeRow_sound {depsMap depsMapClosure : DepsMap} (h : Sound depsMap depsMapClosure) (i : ℕ) :
    ∀ j ∈ closeRow depsMapClosure i, TransGen (DependsOn depsMap) i j := by
  intro j hj
  have hstep (s : Finset ℕ) (d : ℕ) : s ∪ DepsMap.at (depsMapClosure.set i s) d ⊆ s ∪ depsMapClosure.at d :=
    Finset.union_subset Finset.subset_union_left (at_set_subset depsMapClosure i d s)
  obtain hi | ⟨d, hd, hdj⟩ := mem_foldl_subset hstep hj
  · exact h i j hi
  · have hid : d ∈ depsMapClosure.at i := by simpa using (List.mem_filter.mp hd).2
    exact (h i d hid).trans (h d j hdj)

theorem computeTransitiveClosure_sound (visits : Visits) (depsMap : DepsMap) :
    Sound depsMap (computeTransitiveClosure visits depsMap) := by
  have hfold {row : DepsMap → ℕ → Finset ℕ}
      (hrow : ∀ c, Sound depsMap c → ∀ i, ∀ j ∈ row c i, TransGen (DependsOn depsMap) i j) (l : List ℕ) (c : DepsMap)
      (hc : Sound depsMap c) : Sound depsMap (l.foldl (fun c i => c.set i (row c i)) c) := by
    induction l generalizing c with
    | nil => exact hc
    | cons i l ih =>
      apply ih
      exact hc.set (hrow c hc i)
  unfold computeTransitiveClosure
  split_ifs
  · exact hfold (fun c hc => addSecondOrder_sound hc) _ depsMap (sound_self depsMap)
  · exact hfold (fun c hc => closeRow_sound hc) _ depsMap (sound_self depsMap)

structure ClosedBelow (depsMap depsMapClosure : DepsMap) (k : ℕ) : Prop where
  length_eq : depsMapClosure.length = depsMap.length
  direct : ∀ i, depsMap.at i ⊆ depsMapClosure.at i
  complete : ∀ i < k, ∀ j, TransGen (DependsOn depsMap) i j → j ∈ depsMapClosure.at i

theorem ClosedBelow.closeRow {depsMap depsMapClosure : DepsMap} {k : ℕ}
    (h : ClosedBelow depsMap depsMapClosure k) (horder : ∀ i j, DependsOn depsMap i j → j < i)
    (hk : k < depsMap.length) :
    ClosedBelow depsMap (depsMapClosure.set k (closeRow depsMapClosure k)) (k + 1) := by
  have hk' : k < depsMapClosure.length := h.length_eq ▸ hk
  have hgrow (s : Finset ℕ) (d : ℕ) : s ⊆ s ∪ DepsMap.at (depsMapClosure.set k s) d := Finset.subset_union_left
  have hold : depsMapClosure.at k ⊆ DepsMapClosure.closeRow depsMapClosure k := subset_foldl hgrow _ _
  refine ⟨by rw [List.length_set, h.length_eq], ?_, ?_⟩
  · intro i
    by_cases he : k = i
    · subst he
      rw [at_set_self _ hk']
      exact (h.direct k).trans hold
    · rw [at_set_of_ne _ he]
      exact h.direct i
  · intro i hi j hj
    by_cases he : k = i
    · subst he
      rw [at_set_self _ hk']
      obtain ⟨d, hkd, hdj⟩ := TransGen.head'_iff.mp hj
      have hdk : d < k := horder k d hkd
      have hd : d ∈ depsMapClosure.at k := h.direct k hkd
      rcases reflTransGen_iff_eq_or_transGen.mp hdj with rfl | hdj
      · exact hold hd
      · have hadd (s : Finset ℕ) : depsMapClosure.at d ⊆ s ∪ DepsMap.at (depsMapClosure.set k s) d := by
          rw [at_set_of_ne s hdk.ne']
          exact Finset.subset_union_right
        have hbit : d ∈ setBits depsMapClosure.length (depsMapClosure.at k) := by
          apply List.mem_filter.mpr
          exact ⟨List.mem_range.mpr (hdk.trans hk'), by simpa using hd⟩
        exact subset_foldl_of_mem hgrow hadd hbit _ (h.complete d hdk j hdj)
    · rw [at_set_of_ne _ he]
      exact h.complete i (by omega) j hj

theorem computeFullClosure_complete {depsMap : DepsMap} (horder : ∀ i j, DependsOn depsMap i j → j < i)
    {w i j : ℕ} (hw : DependsOn depsMap w i) (hij : TransGen (DependsOn depsMap) i j) :
    j ∈ (computeFullClosureWithBitVector depsMap).at i := by
  have hsweep : ∀ k ≤ depsMap.length - 1, ClosedBelow depsMap
      ((List.range k).foldl (fun c i => c.set i (closeRow c i)) depsMap) k := by
    intro k
    induction k with
    | zero => exact fun _ => ⟨rfl, fun i => subset_refl _, by simp⟩
    | succ k ih =>
      intro hk
      rw [List.range_succ, List.foldl_concat]
      exact (ih (by omega)).closeRow horder (by omega)
  apply (hsweep (depsMap.length - 1) (le_refl _)).complete i _ j hij
  have := horder w i hw
  have := hw.lt_length
  omega

theorem mem_foldl_erase {drop : ℕ → Bool} {l : List ℕ} {s : Finset ℕ} {x : ℕ} :
    x ∈ l.foldl (fun s dep => if drop dep then s.erase dep else s) s ↔ x ∈ s ∧ (x ∈ l → drop x = false) := by
  induction l generalizing s with
  | nil => simp
  | cons d l ih =>
    rw [List.foldl_cons, ih]
    by_cases hd : drop d
    · rw [if_pos hd, Finset.mem_erase, List.mem_cons]
      grind
    · rw [if_neg hd, List.mem_cons]
      grind

theorem mem_reduceDeps {visits : Visits} {depsMapClosure : DepsMap} {i : ℕ} {s : Finset ℕ}
    (hirrefl : ∀ z ∈ s, z ∉ depsMapClosure.at z) {x : ℕ} :
    x ∈ reduceDeps visits depsMapClosure i s ↔ x ∈ s ∧ ∀ z ∈ s, x ∉ depsMapClosure.at z := by
  unfold reduceDeps
  split_ifs with hcard
  · constructor
    · intro hx
      refine ⟨hx, ?_⟩
      intro z hz
      obtain rfl : z = x := Finset.card_le_one.mp hcard z hz x hx
      exact hirrefl z hx
    · exact fun h => h.1
  · have hinner (cur : Finset ℕ) (z : ℕ) :
        x ∈ (visits.order i (some z) cur).foldl
          (fun cur dep => if hasDependency depsMapClosure z dep then cur.erase dep else cur) cur ↔
          x ∈ cur ∧ x ∉ depsMapClosure.at z := by
      rw [mem_foldl_erase, visits.mem_order]
      simp only [hasDependency, decide_eq_false_iff_not]
      tauto
    have houter (l : List ℕ) (cur : Finset ℕ) :
        x ∈ l.foldl (fun cur z => (visits.order i (some z) cur).foldl
          (fun cur dep => if hasDependency depsMapClosure z dep then cur.erase dep else cur) cur) cur ↔
          x ∈ cur ∧ ∀ z ∈ l, x ∉ depsMapClosure.at z := by
      induction l generalizing cur with
      | nil => simp
      | cons z l ih =>
        rw [List.foldl_cons, ih, hinner, List.forall_mem_cons]
        tauto
    rw [houter]
    simp only [visits.mem_order]

theorem foldl_set_rows (row : ℕ → Finset ℕ → Finset ℕ) (hrow : ∀ i, row i ∅ = ∅) {l : List ℕ} (hl : l.Nodup)
    (depsMap : DepsMap) (i : ℕ) :
    DepsMap.at (l.foldl (fun m d => m.set d (row d (DepsMap.at m d))) depsMap) i =
      if i ∈ l then row i (depsMap.at i) else depsMap.at i := by
  induction l generalizing depsMap with
  | nil => rfl
  | cons d l ih =>
    obtain ⟨hd, hl⟩ := List.nodup_cons.mp hl
    rw [List.foldl_cons, ih hl]
    by_cases he : d = i
    · subst he
      rw [if_neg hd, if_pos (by simp)]
      by_cases hlt : d < depsMap.length
      · exact at_set_self _ hlt
      · have hempty : depsMap.at d = ∅ := at_of_length_le (not_lt.mp hlt)
        rw [List.set_eq_of_length_le (not_lt.mp hlt), hempty, hrow]
    · rw [at_set_of_ne _ he]
      simp [Ne.symm he]

theorem reduceDepsMap_at (visits : Visits) (depsMapClosure depsMap : DepsMap) (i : ℕ) :
    (reduceDepsMap visits depsMapClosure depsMap).at i = reduceDeps visits depsMapClosure i (depsMap.at i) := by
  have hempty (i : ℕ) : reduceDeps visits depsMapClosure i ∅ = ∅ := by simp [reduceDeps]
  unfold reduceDepsMap
  rw [foldl_set_rows (reduceDeps visits depsMapClosure) hempty (List.nodup_reverse.mpr List.nodup_range)]
  split_ifs with hi
  · rfl
  · have hge : depsMap.length ≤ i := by simpa using hi
    rw [at_of_length_le hge, hempty]

theorem dependsOn_optimizeDepsMap (closureVisits visits consVisits : Visits) {info : AsyncDepsInfo}
    (hacyclic : Acyclic (DependsOn info.depsMap)) (i j : ℕ) :
    DependsOn (info.optimizeDepsMap closureVisits visits consVisits).depsMap i j ↔
      Reduced (DependsOn info.depsMap)
        (fun z x => x ∈ (computeTransitiveClosure closureVisits info.depsMap).at z) i j := by
  have hsound := computeTransitiveClosure_sound closureVisits info.depsMap
  unfold DependsOn optimizeDepsMap
  rw [reduceDepsMap_at, mem_reduceDeps (fun z _ hz => hacyclic z (hsound z z hz))]
  rfl

/-- Optimising keeps what every operation transitively waits for, and with the full closure and ordered
indices leaves no dependency that the others imply. -/
theorem optimizeDepsMap_preserves_order (closureVisits visits consVisits : Visits) {info : AsyncDepsInfo}
    (hrange : ∀ i j, DependsOn info.depsMap i j → j < info.depsMap.length)
    (hacyclic : Acyclic (DependsOn info.depsMap)) :
    (∀ i j, TransGen (DependsOn (info.optimizeDepsMap closureVisits visits consVisits).depsMap) i j ↔
      TransGen (DependsOn info.depsMap) i j) ∧
    ((∀ i j, DependsOn info.depsMap i j → j < i) →
      info.depsMap.length ≤ simplifiedOptimizationOpCountThreshold →
      ∀ i j, DependsOn (info.optimizeDepsMap closureVisits visits consVisits).depsMap i j →
        ¬ TransGen (fun a b => DependsOn (info.optimizeDepsMap closureVisits visits consVisits).depsMap a b ∧
          ¬ (a = i ∧ b = j)) i j) := by
  have hedges : DependsOn (info.optimizeDepsMap closureVisits visits consVisits).depsMap = _ :=
    funext fun i => funext fun j => propext (dependsOn_optimizeDepsMap closureVisits visits consVisits hacyclic i j)
  rw [hedges]
  constructor
  · intro i j
    refine ⟨Reduced.mono, ?_⟩
    apply transGen_reduced
    · apply hacyclic.wellFounded_swap
      apply (Set.finite_lt_nat info.depsMap.length).subset
      rintro j ⟨i, hij⟩
      exact hrange i j hij
    · apply hacyclic.wellFounded
      apply (Set.finite_lt_nat info.depsMap.length).subset
      rintro i ⟨j, hij⟩
      exact hij.lt_length
    · exact computeTransitiveClosure_sound closureVisits info.depsMap
  · intro horder hsmall i j hij
    apply Reduced.minimal _ hij
    intro w x y hwx hxy
    rw [computeTransitiveClosure, if_neg (not_lt.mpr hsmall)]
    exact computeFullClosure_complete horder hwx hxy

def ascending : Visits where
  order _ _ s := s.sort (· ≤ ·)
  mem_order _ _ _ _ := Finset.mem_sort (· ≤ ·)

def threeOps : AsyncDepsInfo := ⟨[∅, {0}, {0, 1}], [], 3⟩

theorem optimizeDepsMap_preserves_order_three :
    (∀ i j, TransGen (DependsOn (threeOps.optimizeDepsMap ascending ascending ascending).depsMap) i j ↔
      TransGen (DependsOn threeOps.depsMap) i j) ∧
    ((∀ i j, DependsOn threeOps.depsMap i j → j < i) →
      threeOps.depsMap.length ≤ simplifiedOptimizationOpCountThreshold →
      ∀ i j, DependsOn (threeOps.optimizeDepsMap ascending ascending ascending).depsMap i j →
        ¬ TransGen (fun a b =>
          DependsOn (threeOps.optimizeDepsMap ascending ascending ascending).depsMap a b ∧ ¬ (a = i ∧ b = j)) i j) := by
  have hlt : ∀ i j, DependsOn threeOps.depsMap i j → j < i := by
    intro i j h
    have hi : i < 3 := h.lt_length
    unfold DependsOn DepsMap.at threeOps at h
    interval_cases i <;> simp at h <;> omega
  apply optimizeDepsMap_preserves_order
  · intro i j h
    have hi : i < 3 := h.lt_length
    exact (hlt i j h).trans hi
  · intro i h
    have hdesc : ∀ j, TransGen (DependsOn threeOps.depsMap) i j → j < i := by
      intro j hj
      induction hj with
      | single h => exact hlt _ _ h
      | tail _ h ih => exact (hlt _ _ h).trans ih
    exact lt_irrefl i (hdesc i h)

end NpuCompiler.Deps
