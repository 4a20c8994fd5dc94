import NpuCompiler.Control.DisjointIntervalSet
import NpuCompiler.Deps.ConsumerMap

namespace NpuCompiler.Control

open Deps Relation List

section
variable {α : Type} {edge ordered : α → α → Prop} {a b c : α}

theorem ordered_of_path (htrans : ∀ a b c, ordered a b → ordered b c → ordered a c)
    (hpair : ∀ a b c, edge a b → edge b c → ordered a c)
    (htriple : ∀ a b c d, edge a b → edge b c → edge c d → ordered a d) (hab : edge a b) (hbc : TransGen edge b c) :
    ordered a c := by
  have hboth : (∀ a, edge a b → ordered a c) ∧ ∀ a a', edge a a' → edge a' b → ordered a c := by
    clear hab
    induction hbc using TransGen.head_induction_on with
    | single hbc => exact ⟨fun a hab => hpair a _ _ hab hbc, fun a a' haa hab => htriple a a' _ _ haa hab hbc⟩
    | head hbb _ ih =>
      obtain ⟨htwo, hthree⟩ := ih
      refine ⟨fun a hab => hthree a _ hab hbb, fun a a' haa hab => ?_⟩
      exact htrans a _ c (hpair a a' _ haa hab) (htwo _ hbb)
  exact hboth.1 a hab

end

structure ScheduledCycles where
  getAsyncExecuteCycleBegin : ℕ → ℕ
  getAsyncExecuteCycleEnd : ℕ → ℕ
  modifiedOps : List ℕ

namespace ScheduledCycles

variable (cycles : ScheduledCycles)

def overlap (edge : ControlEdge) : Bool :=
  cycles.getAsyncExecuteCycleBegin edge.sink < cycles.getAsyncExecuteCycleEnd edge.source ∧
    cycles.getAsyncExecuteCycleEnd edge.sink > cycles.getAsyncExecuteCycleBegin edge.source

def isOptimized (edge : ControlEdge) : Bool :=
  edge.source ∉ cycles.modifiedOps ∧ edge.sink ∉ cycles.modifiedOps ∧ cycles.overlap edge

def addControlEdge (state : DepsInfo × ControlEdgeSet) (edge : ControlEdge) : DepsInfo × ControlEdgeSet :=
  if edge.source = edge.sink then state
  else if cycles.isOptimized edge then (state.1, state.2 ++ [edge])
  else (state.1.addDependency edge.source edge.sink, state.2)

def optimizedSources (optimizedEdges : ControlEdgeSet) (sink : ℕ) : List ℕ :=
  (optimizedEdges.filter (fun edge => edge.sink = sink)).map ControlEdge.source

def optimizedSinks (optimizedEdges : ControlEdgeSet) (source : ℕ) : List ℕ :=
  (optimizedEdges.filter (fun edge => edge.source = source)).map ControlEdge.sink

def addOptimizedEdges (optimizedEdges : ControlEdgeSet) (info : DepsInfo) (edge : ControlEdge) : DepsInfo :=
  if edge.source = edge.sink then info
  else
    let info := (optimizedSources optimizedEdges edge.source).foldl (fun info src => info.addDependency src edge.sink) info
    (optimizedSinks optimizedEdges edge.sink).foldl (fun info dst => info.addDependency edge.source dst) info

def updateControlEdgesInDepsInfo (info : DepsInfo) (controlEdges : ControlEdgeSet) : DepsInfo :=
  let (info, optimizedEdges) := controlEdges.foldl cycles.addControlEdge (info, [])
  if optimizedEdges.isEmpty then info else controlEdges.foldl (addOptimizedEdges optimizedEdges) info

def Edge (controlEdges : ControlEdgeSet) (a b : ℕ) : Prop := ⟨a, b⟩ ∈ controlEdges ∧ a ≠ b

def Optimized (controlEdges : ControlEdgeSet) (a b : ℕ) : Prop := Edge controlEdges a b ∧ cycles.isOptimized ⟨a, b⟩

def Direct (controlEdges : ControlEdgeSet) (a b : ℕ) : Prop := Edge controlEdges a b ∧ ¬ cycles.isOptimized ⟨a, b⟩

def Around (controlEdges : ControlEdgeSet) (a c : ℕ) : Prop :=
  ∃ b, (cycles.Optimized controlEdges a b ∧ Edge controlEdges b c) ∨ (Edge controlEdges a b ∧ cycles.Optimized controlEdges b c)

end ScheduledCycles

def DependsOn (info : DepsInfo) (a b : ℕ) : Prop := a ∈ info.depsMap.at b

namespace ScheduledCycles

section
variable {cycles : ScheduledCycles} {info : DepsInfo} {controlEdges optimizedEdges : ControlEdgeSet} {a b : ℕ}

structure Adds (info info' : DepsInfo) (added : ℕ → ℕ → Prop) : Prop where
  length : info'.depsMap.length = info.depsMap.length
  dependsOn : ∀ a b, DependsOn info' a b ↔ DependsOn info a b ∨ added a b

theorem adds_refl : Adds info info (fun _ _ => False) := ⟨rfl, fun _ _ => (or_false _).to_iff.symm⟩

theorem Adds.trans {info' info'' : DepsInfo} {added added' : ℕ → ℕ → Prop} (h : Adds info info' added)
    (h' : Adds info' info'' added') : Adds info info'' (fun a b => added a b ∨ added' a b) :=
  ⟨h'.length.trans h.length, fun a b => by rw [h'.dependsOn, h.dependsOn, or_assoc]⟩

theorem Adds.congr {info' : DepsInfo} {added added' : ℕ → ℕ → Prop} (h : Adds info info' added)
    (hiff : ∀ a b, added a b ↔ added' a b) : Adds info info' added' :=
  ⟨h.length, fun a b => by rw [h.dependsOn, hiff]⟩

theorem addDependency_adds (hb : b < info.depsMap.length) :
    Adds info (info.addDependency a b) (fun a' b' => b' = b ∧ a' = a) :=
  ⟨length_set .., fun _ _ => mem_set_insert hb⟩

theorem addDependencies_adds {deps : List ℕ} {source sink : ℕ → ℕ} (h : ∀ i ∈ deps, sink i < info.depsMap.length) :
    Adds info (deps.foldl (fun info i => info.addDependency (source i) (sink i)) info)
      (fun a b => ∃ i ∈ deps, b = sink i ∧ a = source i) := by
  induction deps generalizing info with
  | nil => exact adds_refl.congr (by simp)
  | cons i deps ih =>
    obtain ⟨hi, h⟩ := forall_mem_cons.mp h
    have hfirst := @addDependency_adds info (source i) (sink i) hi
    rw [← hfirst.length] at h
    exact (hfirst.trans (ih h)).congr (by simp)

def InRange (info : DepsInfo) (controlEdges : ControlEdgeSet) : Prop :=
  ∀ edge ∈ controlEdges, edge.source < info.depsMap.length ∧ edge.sink < info.depsMap.length

theorem edge_cons {edge : ControlEdge} : Edge (edge :: controlEdges) a b ↔ Edge [edge] a b ∨ Edge controlEdges a b := by
  unfold Edge
  rw [mem_cons, mem_singleton, or_and_right]

theorem edge_single {edge : ControlEdge} : Edge [edge] a b ↔ a = edge.source ∧ b = edge.sink ∧ edge.source ≠ edge.sink := by
  unfold Edge
  rw [mem_singleton]
  constructor
  · rintro ⟨rfl, hne⟩
    exact ⟨rfl, rfl, hne⟩
  · rintro ⟨rfl, rfl, hne⟩
    exact ⟨rfl, hne⟩

theorem addControlEdge_adds {edge : ControlEdge} (h : edge.sink < info.depsMap.length) :
    Adds info (cycles.addControlEdge (info, optimizedEdges) edge).1 (cycles.Direct [edge]) ∧
      ∀ a b, ⟨a, b⟩ ∈ (cycles.addControlEdge (info, optimizedEdges) edge).2 ↔
        ⟨a, b⟩ ∈ optimizedEdges ∨ cycles.Optimized [edge] a b := by
  unfold addControlEdge Direct Optimized
  simp only [edge_single]
  split_ifs with hself hoptimized
  · constructor
    · exact adds_refl.congr (by simp [hself])
    · simp [hself]
  · constructor
    · apply adds_refl.congr
      intro a b
      constructor
      · exact False.elim
      · rintro ⟨⟨rfl, rfl, -⟩, hdirect⟩
        exact hdirect hoptimized
    · intro a b
      rw [mem_append, mem_singleton]
      apply or_congr_right
      constructor
      · rintro rfl
        exact ⟨⟨rfl, rfl, hself⟩, hoptimized⟩
      · rintro ⟨⟨rfl, rfl, -⟩, -⟩
        rfl
  · constructor
    · apply (addDependency_adds h).congr
      intro a b
      constructor
      · rintro ⟨rfl, rfl⟩
        exact ⟨⟨rfl, rfl, hself⟩, hoptimized⟩
      · rintro ⟨⟨rfl, rfl, -⟩, -⟩
        exact ⟨rfl, rfl⟩
    · intro a b
      constructor
      · exact .inl
      · rintro (hmem | ⟨⟨rfl, rfl, -⟩, hskip⟩)
        · exact hmem
        · exact absurd hskip hoptimized

theorem addControlEdges_adds (h : InRange info controlEdges) :
    Adds info (controlEdges.foldl cycles.addControlEdge (info, optimizedEdges)).1 (cycles.Direct controlEdges) ∧
      ∀ a b, ⟨a, b⟩ ∈ (controlEdges.foldl cycles.addControlEdge (info, optimizedEdges)).2 ↔
        ⟨a, b⟩ ∈ optimizedEdges ∨ cycles.Optimized controlEdges a b := by
  induction controlEdges generalizing info optimizedEdges with
  | nil => exact ⟨adds_refl.congr (by simp [Direct, Edge]), by simp [Optimized, Edge]⟩
  | cons edge controlEdges ih =>
    obtain ⟨hedge, h⟩ := forall_mem_cons.mp h
    obtain ⟨hfirst, hskipped⟩ := @addControlEdge_adds cycles info optimizedEdges edge hedge.2
    have hrange : InRange (cycles.addControlEdge (info, optimizedEdges) edge).1 controlEdges := by
      unfold InRange
      rw [hfirst.length]
      exact h
    obtain ⟨hrest, hskippedRest⟩ := @ih _ (cycles.addControlEdge (info, optimizedEdges) edge).2 hrange
    rw [foldl_cons]
    refine ⟨(hfirst.trans hrest).congr (fun a b => ?_), fun a b => (hskippedRest a b).trans ?_⟩
    · unfold Direct
      rw [@edge_cons controlEdges, or_and_right]
    · rw [hskipped, or_assoc]
      unfold Optimized
      rw [@edge_cons controlEdges, or_and_right]

def AroundEdge (optimizedEdges controlEdges : ControlEdgeSet) (a c : ℕ) : Prop :=
  ∃ b, (⟨a, b⟩ ∈ optimizedEdges ∧ Edge controlEdges b c) ∨ (Edge controlEdges a b ∧ ⟨b, c⟩ ∈ optimizedEdges)

theorem mem_optimizedSources : a ∈ optimizedSources optimizedEdges b ↔ ⟨a, b⟩ ∈ optimizedEdges := by
  unfold optimizedSources
  simp only [mem_map, mem_filter, decide_eq_true_eq]
  constructor
  · rintro ⟨edge, ⟨hmem, rfl⟩, rfl⟩
    exact hmem
  · exact fun hmem => ⟨⟨a, b⟩, ⟨hmem, rfl⟩, rfl⟩

theorem mem_optimizedSinks : b ∈ optimizedSinks optimizedEdges a ↔ ⟨a, b⟩ ∈ optimizedEdges := by
  unfold optimizedSinks
  simp only [mem_map, mem_filter, decide_eq_true_eq]
  constructor
  · rintro ⟨edge, ⟨hmem, rfl⟩, rfl⟩
    exact hmem
  · exact fun hmem => ⟨⟨a, b⟩, ⟨hmem, rfl⟩, rfl⟩

theorem addOptimizedEdges_adds {edge : ControlEdge} (h : InRange info optimizedEdges) (hedge : edge.sink < info.depsMap.length) :
    Adds info (addOptimizedEdges optimizedEdges info edge) (AroundEdge optimizedEdges [edge]) := by
  unfold addOptimizedEdges AroundEdge
  simp only [edge_single]
  split_ifs with hself
  · exact adds_refl.congr (by simp [hself])
  · have hsources := @addDependencies_adds info (optimizedSources optimizedEdges edge.source) id (fun _ => edge.sink)
      (fun _ _ => hedge)
    have hsinks := @addDependencies_adds ((optimizedSources optimizedEdges edge.source).foldl
      (fun info src => info.addDependency src edge.sink) info) (optimizedSinks optimizedEdges edge.sink)
      (fun _ => edge.source) id (by
        intro sink hsink
        exact Nat.lt_of_lt_of_eq (h _ (mem_optimizedSinks.mp hsink)).2 hsources.length.symm)
    apply (hsources.trans hsinks).congr
    intro a c
    constructor
    · rintro (⟨source, hsource, rfl, rfl⟩ | ⟨sink, hsink, rfl, rfl⟩)
      · exact ⟨edge.source, .inl ⟨mem_optimizedSources.mp hsource, rfl, rfl, hself⟩⟩
      · exact ⟨edge.sink, .inr ⟨⟨rfl, rfl, hself⟩, mem_optimizedSinks.mp hsink⟩⟩
    · rintro ⟨b, ⟨hmem, rfl, rfl, -⟩ | ⟨⟨rfl, rfl, -⟩, hmem⟩⟩
      · exact .inl ⟨a, mem_optimizedSources.mpr hmem, rfl, rfl⟩
      · exact .inr ⟨c, mem_optimizedSinks.mpr hmem, rfl, rfl⟩

theorem addAllOptimizedEdges_adds (h : InRange info optimizedEdges) (hedges : InRange info controlEdges) :
    Adds info (controlEdges.foldl (addOptimizedEdges optimizedEdges) info) (AroundEdge optimizedEdges controlEdges) := by
  induction controlEdges generalizing info with
  | nil => exact adds_refl.congr (by simp [AroundEdge, Edge])
  | cons edge controlEdges ih =>
    obtain ⟨hedge, hedges⟩ := forall_mem_cons.mp hedges
    have hfirst := addOptimizedEdges_adds h hedge.2
    have hrest := @ih (addOptimizedEdges optimizedEdges info edge)
      (by unfold InRange; rw [hfirst.length]; exact h) (by unfold InRange; rw [hfirst.length]; exact hedges)
    rw [foldl_cons]
    apply (hfirst.trans hrest).congr
    intro a c
    unfold AroundEdge
    rw [← exists_or]
    apply exists_congr
    intro b
    rw [@edge_cons controlEdges b c, @edge_cons controlEdges a b]
    tauto

theorem updateControlEdgesInDepsInfo_adds (h : InRange info controlEdges) :
    Adds info (cycles.updateControlEdgesInDepsInfo info controlEdges)
      (fun a b => cycles.Direct controlEdges a b ∨ cycles.Around controlEdges a b) := by
  obtain ⟨hdirect, hskipped⟩ := @addControlEdges_adds cycles info controlEdges [] h
  simp only [not_mem_nil, false_or] at hskipped
  unfold updateControlEdgesInDepsInfo
  dsimp only
  have haround : ∀ a c, AroundEdge (controlEdges.foldl cycles.addControlEdge (info, [])).2 controlEdges a c ↔
      cycles.Around controlEdges a c := by
    intro a c
    unfold AroundEdge Around
    simp only [hskipped]
  split_ifs with hempty
  · have hnone := List.isEmpty_iff.mp hempty
    apply hdirect.congr
    intro a c
    rw [← haround, hnone]
    simp [AroundEdge]
  · have hrange : InRange (controlEdges.foldl cycles.addControlEdge (info, [])).1 controlEdges := by
      unfold InRange
      rw [hdirect.length]
      exact h
    have hrangeOptimized : InRange (controlEdges.foldl cycles.addControlEdge (info, [])).1
        (controlEdges.foldl cycles.addControlEdge (info, [])).2 := by
      intro edge hedge
      exact hrange edge ((hskipped edge.source edge.sink).mp hedge).1.1
    apply (hdirect.trans (addAllOptimizedEdges_adds hrangeOptimized hrange)).congr
    intro a c
    rw [haround]

def Before (info : DepsInfo) : ℕ → ℕ → Prop := TransGen (DependsOn info)

structure KeepsConflicts (cycles : ScheduledCycles) (controlEdges : ControlEdgeSet) (info : DepsInfo) : Prop where
  path : ∀ a b c, Edge controlEdges a b → TransGen (Edge controlEdges) b c → Before info a c
  edge : ∀ a b, Edge controlEdges a b → cycles.overlap ⟨a, b⟩ = false → Before info a b

/-- Whenever the first and the third of three consecutive edges are left out, their ends are ordered by the dependencies
there were, by an edge that is not left out or by two edges of which one is. -/
def Bridged (cycles : ScheduledCycles) (controlEdges : ControlEdgeSet) (info : DepsInfo) : Prop :=
  ∀ a b c d, cycles.Optimized controlEdges a b → Edge controlEdges b c → cycles.Optimized controlEdges c d →
    TransGen (fun a b => DependsOn info a b ∨ cycles.Direct controlEdges a b ∨ cycles.Around controlEdges a b) a d

/-- Conflicts stay ordered exactly when every three consecutive edges with the outer ones left out are bridged. -/
theorem updateControlEdgesInDepsInfo_keepsConflicts_iff (h : InRange info controlEdges) :
    KeepsConflicts cycles controlEdges (cycles.updateControlEdgesInDepsInfo info controlEdges) ↔
      Bridged cycles controlEdges info := by
  have hadds := @updateControlEdgesInDepsInfo_adds cycles info controlEdges h
  have hbefore : Before (cycles.updateControlEdgesInDepsInfo info controlEdges) =
      TransGen (fun a b => DependsOn info a b ∨ cycles.Direct controlEdges a b ∨ cycles.Around controlEdges a b) := by
    unfold Before
    congr 1
    funext a b
    exact propext (hadds.dependsOn a b)
  constructor
  · intro hkeeps a b c d hab hbc hcd
    rw [← hbefore]
    exact hkeeps.path a b d hab.1 (TransGen.single hbc |>.tail hcd.1)
  · intro hbridged
    have hdirect : ∀ a b, cycles.Direct controlEdges a b →
        Before (cycles.updateControlEdgesInDepsInfo info controlEdges) a b := by
      intro a b hedge
      exact .single ((hadds.dependsOn a b).mpr (.inr (.inl hedge)))
    have hsplit : ∀ a b, Edge controlEdges a b → cycles.Optimized controlEdges a b ∨ cycles.Direct controlEdges a b := by
      intro a b hedge
      by_cases hskip : cycles.isOptimized ⟨a, b⟩
      · exact .inl ⟨hedge, hskip⟩
      · exact .inr ⟨hedge, hskip⟩
    have hpair : ∀ a b c, Edge controlEdges a b → Edge controlEdges b c →
        Before (cycles.updateControlEdgesInDepsInfo info controlEdges) a c := by
      intro a b c hab hbc
      have haround : cycles.Around controlEdges a c → Before (cycles.updateControlEdgesInDepsInfo info controlEdges) a c :=
        fun haround => .single ((hadds.dependsOn a c).mpr (.inr (.inr haround)))
      rcases hsplit a b hab with hskip | hab'
      · exact haround ⟨b, .inl ⟨hskip, hbc⟩⟩
      · rcases hsplit b c hbc with hskip | hbc'
        · exact haround ⟨b, .inr ⟨hab, hskip⟩⟩
        · exact (hdirect a b hab').trans (hdirect b c hbc')
    constructor
    · intro a b c hab hbc
      apply ordered_of_path (fun _ _ _ => TransGen.trans) hpair _ hab hbc
      intro a b c d hab hbc hcd
      rcases hsplit a b hab with hskip | hab'
      · rcases hsplit c d hcd with hskip' | hcd'
        · have hbridge := hbridged a b c d hskip hbc hskip'
          rw [← hbefore] at hbridge
          exact hbridge
        · exact (hpair a b c hab hbc).trans (hdirect c d hcd')
      · exact (hdirect a b hab').trans (hpair b c d hbc hcd)
    · intro a b hedge hdisjoint
      apply hdirect a b
      refine ⟨hedge, ?_⟩
      unfold isOptimized
      simp [hdisjoint]

def inARow : ScheduledCycles := ⟨fun op => 10 * op, fun op => 10 * op + 10, []⟩

def noDeps (ops : ℕ) : DepsInfo := DepsInfo.build (List.replicate ops [])

theorem updateControlEdgesInDepsInfo_keepsConflicts_iff_inARow :
    KeepsConflicts inARow [⟨0, 1⟩, ⟨1, 2⟩] (inARow.updateControlEdgesInDepsInfo (noDeps 3) [⟨0, 1⟩, ⟨1, 2⟩]) ↔
      Bridged inARow [⟨0, 1⟩, ⟨1, 2⟩] (noDeps 3) :=
  updateControlEdgesInDepsInfo_keepsConflicts_iff (by unfold InRange; decide)

def twoOverlaps : ScheduledCycles :=
  ⟨fun op => [0, 5, 12, 15].getD op 0, fun op => [10, 12, 20, 25].getD op 0, []⟩

/-- The path `0 → 1 → 2 → 3` leads to dependencies of `2` on `0` and `1` and of `3` on `1`, but not of `3` on `0`. -/
theorem updateControlEdgesInDepsInfo_twoOverlaps : ¬ KeepsConflicts twoOverlaps [⟨0, 1⟩, ⟨1, 2⟩, ⟨2, 3⟩]
      (twoOverlaps.updateControlEdgesInDepsInfo (noDeps 4) [⟨0, 1⟩, ⟨1, 2⟩, ⟨2, 3⟩]) := by
  intro h
  have hedges : Edge [⟨0, 1⟩, ⟨1, 2⟩, ⟨2, 3⟩] 0 1 ∧ Edge [⟨0, 1⟩, ⟨1, 2⟩, ⟨2, 3⟩] 1 2 ∧ Edge [⟨0, 1⟩, ⟨1, 2⟩, ⟨2, 3⟩] 2 3 := by
    unfold Edge
    decide
  have hordered := h.path 0 1 3 hedges.1 (.head hedges.2.1 (.single hedges.2.2))
  have hthird : ∀ a, DependsOn (twoOverlaps.updateControlEdgesInDepsInfo (noDeps 4) [⟨0, 1⟩, ⟨1, 2⟩, ⟨2, 3⟩]) a 3 → a = 1 := by
    intro a ha
    change a ∈ ({1} : Finset ℕ) at ha
    exact Finset.mem_singleton.mp ha
  have hfirst : ∀ a, ¬ DependsOn (twoOverlaps.updateControlEdgesInDepsInfo (noDeps 4) [⟨0, 1⟩, ⟨1, 2⟩, ⟨2, 3⟩]) a 1 := by
    intro a ha
    change a ∈ (∅ : Finset ℕ) at ha
    exact Finset.notMem_empty a ha
  cases hordered with
  | single hdep => exact absurd (hthird 0 hdep) (by decide)
  | tail hpath hdep =>
    rw [hthird _ hdep] at hpath
    cases hpath with
    | single hdep => exact hfirst 0 hdep
    | tail _ hdep => exact hfirst _ hdep

end

end ScheduledCycles

end NpuCompiler.Control
