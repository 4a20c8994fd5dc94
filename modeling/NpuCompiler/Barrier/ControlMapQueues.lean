import NpuCompiler.Barrier.ControlMap
import NpuCompiler.Barrier.TemporaryRemoval

namespace NpuCompiler.Barrier.FifoBarrierInfo

open BarrierInfo GraphSplit Sweeps List

section
variable (config : OptimizeConfig) (s : FifoBarrierInfo)

def countRemoved (state : BarrierInfo × ℕ) (dep : ℕ × ℕ × ℕ) : BarrierInfo × ℕ :=
  let (barrierIdx, parentTaskIdx, childTaskIdx) := dep
  (removeBarrierDependency state.1 dep,
    if hasBarrierDependency state.1 parentTaskIdx childTaskIdx = some barrierIdx then state.2 + 2 else state.2)

def removedDepsCount : ℕ := (s.fifoDependencies.foldl countRemoved (s.maps, 0)).2

def buildTaskControlMap (blockIdx : ℕ) (considerTaskFifoDependency ignoreOutOfBlockDependencies : Bool) :
    Except String ((TaskControlMap × ℕ) × FifoBarrierInfo) :=
  (config.split.getControlGraphBlockTaskRange s.maps blockIdx true true).bind (fun (blockStartInd, blockEndInd) =>
    if blockStartInd > blockEndInd then
      .error s!"Invalid range of tasks for building task control map [{blockStartInd}, {blockEndInd}]"
    else if considerTaskFifoDependency then
      (s.createBarrierDependenciesImpliedByFIFO config (buildTaskQueueTypeMap config s.maps.getNumOfTasks) blockIdx none).bind
        (fun linked =>
          (config.split.buildTaskControlMap linked.maps blockIdx ignoreOutOfBlockDependencies).bind (fun taskControlMap =>
            linked.removeBarrierDependenciesImpliedByFIFO.bind (fun removed =>
              let newDeps := 2 * (linked.fifoDependencies.length - s.fifoDependencies.length)
              if newDeps ≠ linked.removedDepsCount then .error "Temporary barriers have not been correctly removed"
              else .ok (taskControlMap, removed))))
    else
      (config.split.buildTaskControlMap s.maps blockIdx ignoreOutOfBlockDependencies).bind (fun taskControlMap =>
        .ok (taskControlMap, s)))

end

structure Linked (orig : BarrierInfo) (s : FifoBarrierInfo) : Prop where
  consistent : s.maps.Consistent
  tasks : s.maps.getNumOfTasks = orig.getNumOfTasks
  ops : s.numOfBarrierOps = orig.getNumOfBarrierOps
  length : s.maps.getNumOfBarrierOps = s.numOfBarrierOps + s.fifoDependencies.length
  indices : s.fifoDependencies.map Prod.fst = (List.range s.fifoDependencies.length).map (s.numOfBarrierOps + ·)
  producers : ∀ b x, x ∈ s.maps.getBarrierProducers b ↔ x ∈ orig.getBarrierProducers b ∨ ∃ c, (b, x, c) ∈ s.fifoDependencies
  consumers : ∀ b x, x ∈ s.maps.getBarrierConsumers b ↔ x ∈ orig.getBarrierConsumers b ∨ ∃ p, (b, p, x) ∈ s.fifoDependencies
  single : ∀ t p c, (t, p, c) ∈ s.fifoDependencies → ∀ b, s.maps.EdgeAt b p c → b = t

section
variable {orig : BarrierInfo} {s : FifoBarrierInfo} {p c t b : ℕ}

theorem Linked.le (h : Linked orig s) (hdep : (t, p, c) ∈ s.fifoDependencies) : orig.getNumOfBarrierOps ≤ t := by
  have hmem : t ∈ s.fifoDependencies.map Prod.fst := mem_map.mpr ⟨_, hdep, rfl⟩
  rw [h.indices, mem_map] at hmem
  obtain ⟨i, -, rfl⟩ := hmem
  rw [h.ops]
  exact Nat.le_add_right _ _

theorem Linked.unique (h : Linked orig s) {p' c' : ℕ} (hdep : (t, p, c) ∈ s.fifoDependencies)
    (hdep' : (t, p', c') ∈ s.fifoDependencies) : p = p' ∧ c = c' := by
  have heq := inj_on_of_nodup_map (nodup_of_indices h.indices) hdep hdep' rfl
  exact Prod.mk.inj (Prod.mk.inj heq).2

theorem Linked.temporary (h : Linked orig s) (horig : orig.Consistent) : Temporary s := by
  have hproducer (t p c x : ℕ) (hdep : (t, p, c) ∈ s.fifoDependencies) (hx : x ∈ orig.getBarrierProducers t) : False :=
    Nat.not_lt.mpr (h.le hdep) (horig.producer_lt hx).1
  have hconsumer (t p c x : ℕ) (hdep : (t, p, c) ∈ s.fifoDependencies) (hx : x ∈ orig.getBarrierConsumers t) : False :=
    Nat.not_lt.mpr (h.le hdep) (horig.consumer_lt hx).1
  refine ⟨h.consistent, h.length, h.indices, ?_, ?_, ?_, fun t p c hdep _ => h.single t p c hdep⟩
  · intro t p c hdep x hx
    obtain ⟨c', hdep'⟩ := ((h.producers t x).mp hx).resolve_left (hproducer t p c x hdep)
    exact (h.unique hdep' hdep).1
  · intro t p c hdep x hx
    obtain ⟨p', hdep'⟩ := ((h.consumers t x).mp hx).resolve_left (hconsumer t p c x hdep)
    exact (h.unique hdep' hdep).2
  · intro t p c hdep
    exact iff_of_true ((h.producers t p).mpr (.inr ⟨c, hdep⟩)) ((h.consumers t c).mpr (.inr ⟨p, hdep⟩))

theorem Linked.of_empty (horig : orig.Consistent) : Linked orig ⟨orig, orig.getNumOfBarrierOps, []⟩ :=
  ⟨horig, rfl, rfl, rfl, rfl, by simp, by simp, by simp⟩

theorem Linked.addTemporary (h : Linked orig s) (hp : p < s.maps.getNumOfTasks) (hc : c < s.maps.getNumOfTasks)
    (hnone : hasBarrierDependency s.maps p c = none) :
    Linked orig (s.addTemporaryBarrierDependence p c) ∧ ∀ x y, (s.addTemporaryBarrierDependence p c).maps.Edge x y ↔
      s.maps.Edge x y ∨ x = p ∧ y = c := by
  have hedge := addTemporary_withEdge h.consistent hp hc
  have hdeps : (s.addTemporaryBarrierDependence p c).fifoDependencies = s.fifoDependencies ++ [(s.maps.getNumOfBarrierOps, p, c)] := rfl
  have hops : (s.addTemporaryBarrierDependence p c).numOfBarrierOps = s.numOfBarrierOps := rfl
  change WithEdge s.maps (s.addTemporaryBarrierDependence p c).maps p c at hedge
  have hmem (t x y : ℕ) : (t, x, y) ∈ (s.addTemporaryBarrierDependence p c).fifoDependencies ↔
      (t, x, y) ∈ s.fifoDependencies ∨ t = s.maps.getNumOfBarrierOps ∧ x = p ∧ y = c := by
    rw [hdeps, mem_append, mem_singleton, Prod.mk.injEq, Prod.mk.injEq]
  refine ⟨⟨hedge.consistent, hedge.tasks.trans h.tasks, hops.trans h.ops, ?_, ?_, ?_, ?_, ?_⟩, ?_⟩
  · rw [hedge.barriers, hops, hdeps, length_append, length_singleton, h.length, Nat.add_assoc]
  · rw [hdeps, hops, length_append, length_singleton, range_succ, map_append, map_append, h.indices, h.length]
    rfl
  · intro b x
    rw [hedge.producers, h.producers]
    simp only [hmem, exists_or]
    constructor
    · rintro (⟨hb, hx⟩ | hold | hold)
      · exact .inr (.inr ⟨c, hb, hx, rfl⟩)
      · exact .inl hold
      · exact .inr (.inl hold)
    · rintro (hold | hold | ⟨y, hb, hx, -⟩)
      · exact .inr (.inl hold)
      · exact .inr (.inr hold)
      · exact .inl ⟨hb, hx⟩
  · intro b x
    rw [hedge.consumers, h.consumers]
    simp only [hmem, exists_or]
    constructor
    · rintro (⟨hb, hx⟩ | hold | hold)
      · exact .inr (.inr ⟨p, hb, rfl, hx⟩)
      · exact .inl hold
      · exact .inr (.inl hold)
    · rintro (hold | hold | ⟨y, hb, -, hx⟩)
      · exact .inr (.inl hold)
      · exact .inr (.inr hold)
      · exact .inl ⟨hb, hx⟩
  · intro t x y hdep b hb
    rcases (hedge.edgeAt h.consistent).mp hb with ⟨hbNew, hx, hy⟩ | hold
    · rcases (hmem t x y).mp hdep with hdep | ⟨ht, -, -⟩
      · -- the older dependency would have been found
        have hat : s.maps.EdgeAt t p c :=
          ⟨hx ▸ (h.producers t x).mpr (.inr ⟨y, hdep⟩), hy ▸ (h.consumers t y).mpr (.inr ⟨x, hdep⟩)⟩
        exact absurd hat (hasBarrierDependency_none h.consistent hnone t)
      · exact hbNew.trans ht.symm
    · rcases (hmem t x y).mp hdep with hdep | ⟨-, rfl, rfl⟩
      · exact h.single t x y hdep b hold
      · exact absurd hold (hasBarrierDependency_none h.consistent hnone b)
  · intro x y
    constructor
    · rintro ⟨b, hb⟩
      rcases (hedge.edgeAt h.consistent).mp hb with ⟨-, hx, hy⟩ | hold
      · exact .inr ⟨hx, hy⟩
      · exact .inl ⟨b, hold⟩
    · rintro (⟨b, hb⟩ | ⟨rfl, rfl⟩)
      · exact ⟨b, (hedge.edgeAt h.consistent).mpr (.inr hb)⟩
      · exact ⟨_, (hedge.edgeAt h.consistent).mpr (.inl ⟨rfl, rfl, rfl⟩)⟩

theorem Linked.addFifoDependency (h : Linked orig s) (hp : p < s.maps.getNumOfTasks) (hc : c < s.maps.getNumOfTasks) :
    Linked orig (s.addFifoDependency p c) ∧ ∀ x y, (s.addFifoDependency p c).maps.Edge x y ↔
      s.maps.Edge x y ∨ x = p ∧ y = c := by
  unfold FifoBarrierInfo.addFifoDependency
  cases hdependency : hasBarrierDependency s.maps p c with
  | none => exact h.addTemporary hp hc hdependency
  | some b =>
    refine ⟨h, ?_⟩
    intro x y
    rw [or_iff_left_of_imp]
    rintro ⟨rfl, rfl⟩
    unfold hasBarrierDependency at hdependency
    refine ⟨b, h.consistent.update_iff.mp (mem_of_find?_eq_some hdependency), ?_⟩
    have hfound := find?_some hdependency
    exact h.consistent.wait_iff.mp (of_decide_eq_true hfound)

end

section
variable {config : OptimizeConfig} {orig : BarrierInfo} {s : FifoBarrierInfo} {lo hi : ℕ}

def linkedPairs (hi prevIndex : ℕ) : List ℕ → List (ℕ × ℕ)
  | [] => []
  | currIndex :: fifoTasks => if currIndex ≤ hi then (prevIndex, currIndex) :: linkedPairs hi currIndex fifoTasks else []

theorem linkFifoTasks_linked {prevIndex : ℕ} {fifoTasks : List ℕ} (h : Linked orig s)
    (htasks : ∀ t ∈ prevIndex :: fifoTasks, t < orig.getNumOfTasks) :
    Linked orig (linkFifoTasks hi s prevIndex fifoTasks) ∧ ∀ x y, (linkFifoTasks hi s prevIndex fifoTasks).maps.Edge x y ↔
      s.maps.Edge x y ∨ (x, y) ∈ linkedPairs hi prevIndex fifoTasks := by
  induction fifoTasks generalizing s prevIndex with
  | nil => exact ⟨h, by simp [linkFifoTasks, linkedPairs]⟩
  | cons currIndex fifoTasks ih =>
    unfold linkFifoTasks linkedPairs
    by_cases hcurr : currIndex ≤ hi
    · rw [if_pos hcurr, if_pos hcurr]
      obtain ⟨hprev, htasks'⟩ := forall_mem_cons.mp htasks
      have hcurr' := htasks' currIndex mem_cons_self
      obtain ⟨hstep, hedge⟩ := @Linked.addFifoDependency orig s prevIndex currIndex h (by rwa [h.tasks]) (by rwa [h.tasks])
      obtain ⟨hlinked, hedges⟩ := ih hstep htasks'
      refine ⟨hlinked, ?_⟩
      intro x y
      rw [hedges, hedge, mem_cons, Prod.mk.injEq, or_assoc]
    · rw [if_neg hcurr, if_neg hcurr]
      exact ⟨h, by simp⟩

theorem mem_linkedPairs {prevIndex : ℕ} {fifoTasks : List ℕ} (hsorted : (prevIndex :: fifoTasks).Pairwise (· < ·)) {x y : ℕ} :
    (x, y) ∈ linkedPairs hi prevIndex fifoTasks ↔ x ∈ prevIndex :: fifoTasks ∧ y ∈ fifoTasks ∧ x < y ∧ y ≤ hi ∧
      ∀ z ∈ fifoTasks, x < z → y ≤ z := by
  induction fifoTasks generalizing prevIndex with
  | nil => simp [linkedPairs]
  | cons currIndex fifoTasks ih =>
    obtain ⟨hlt, hsorted'⟩ := pairwise_cons.mp hsorted
    obtain ⟨hlt', -⟩ := pairwise_cons.mp hsorted'
    have hprevCurr := hlt currIndex mem_cons_self
    unfold linkedPairs
    by_cases hcurr : currIndex ≤ hi
    · rw [if_pos hcurr, mem_cons, Prod.mk.injEq, ih hsorted']
      constructor
      · rintro (⟨rfl, rfl⟩ | ⟨hx, hy, hxy, hyhi, hnext⟩)
        · refine ⟨mem_cons_self, mem_cons_self, hprevCurr, hcurr, ?_⟩
          intro z hz _
          rcases mem_cons.mp hz with rfl | hz
          · exact Nat.le_refl _
          · exact Nat.le_of_lt (hlt' z hz)
        · refine ⟨mem_cons_of_mem _ hx, mem_cons_of_mem _ hy, hxy, hyhi, ?_⟩
          intro z hz hxz
          rcases mem_cons.mp hz with rfl | hz
          · rcases mem_cons.mp hx with rfl | hx
            · exact absurd hxz (Nat.lt_irrefl _)
            · exact absurd hxz (Nat.lt_asymm (hlt' x hx))
          · exact hnext z hz hxz
      · rintro ⟨hx, hy, hxy, hyhi, hnext⟩
        rcases mem_cons.mp hx with rfl | hx
        · rcases mem_cons.mp hy with rfl | hy
          · exact .inl ⟨rfl, rfl⟩
          · have hle := hnext currIndex mem_cons_self hprevCurr
            exact absurd (hlt' y hy) (Nat.not_lt.mpr hle)
        · refine .inr ⟨hx, ?_, hxy, hyhi, fun z hz => hnext z (mem_cons_of_mem _ hz)⟩
          rcases mem_cons.mp hy with rfl | hy
          · rcases mem_cons.mp hx with rfl | hx
            · exact absurd hxy (Nat.lt_irrefl _)
            · exact absurd hxy (Nat.lt_asymm (hlt' x hx))
          · exact hy
    · rw [if_neg hcurr]
      constructor
      · exact fun hmem => absurd hmem not_mem_nil
      · rintro ⟨-, hy, -, hyhi, -⟩
        rcases mem_cons.mp hy with rfl | hy
        · exact absurd hyhi hcurr
        · exact absurd (Nat.le_trans (Nat.le_of_lt (hlt' y hy)) hyhi) hcurr

def NextInQueue (config : OptimizeConfig) (lo hi : ℕ) (queueType : TaskQueueType) (x y : ℕ) : Prop :=
  lo ≤ x ∧ x < y ∧ y ≤ hi ∧ config.getTaskQueueType x = queueType ∧ config.getTaskQueueType y = queueType ∧
    ∀ z, x < z → z < y → config.getTaskQueueType z ≠ queueType

theorem linkQueue_linked (h : Linked orig s) (hhi : hi < orig.getNumOfTasks) (queueType : TaskQueueType) :
    let s' := linkQueue none lo hi s
      (queueType, (List.range orig.getNumOfTasks).filter (fun taskInd => config.getTaskQueueType taskInd = queueType))
    Linked orig s' ∧ ∀ x y, s'.maps.Edge x y ↔ s.maps.Edge x y ∨ NextInQueue config lo hi queueType x y := by
  have hmem (t : ℕ) : t ∈ (List.range orig.getNumOfTasks).filter (fun taskInd => config.getTaskQueueType taskInd = queueType) ↔
      t < orig.getNumOfTasks ∧ config.getTaskQueueType t = queueType := by
    rw [mem_filter, mem_range, decide_eq_true_eq]
  have hsorted : ((List.range orig.getNumOfTasks).filter
      (fun taskInd => config.getTaskQueueType taskInd = queueType)).Pairwise (· < ·) := pairwise_lt_range.filter _
  generalize (List.range orig.getNumOfTasks).filter _ = fifoTasks at hmem hsorted
  have hends {x y : ℕ} (hnext : NextInQueue config lo hi queueType x y) : x ∈ fifoTasks ∧ y ∈ fifoTasks := by
    obtain ⟨-, hxy, hy, hxType, hyType, -⟩ := hnext
    rw [hmem, hmem]
    exact ⟨⟨by omega, hxType⟩, by omega, hyType⟩
  unfold linkQueue
  dsimp only [Option.any_none]
  rw [if_neg Bool.false_ne_true]
  by_cases hlength : fifoTasks.length < 2
  · rw [if_pos hlength]
    refine ⟨h, ?_⟩
    intro x y
    rw [or_iff_left]
    intro hnext
    obtain ⟨hx, hy⟩ := hends hnext
    have hne := Nat.ne_of_lt hnext.2.1
    rcases fifoTasks with _ | ⟨a, _ | ⟨b, rest⟩⟩
    · exact not_mem_nil hx
    · exact hne ((mem_singleton.mp hx).trans (mem_singleton.mp hy).symm)
    · exact absurd hlength (Nat.not_lt.mpr (Nat.le_add_left 2 _))
  · rw [if_neg hlength]
    cases hfind : fifoTasks.find? (fun taskInd => lo ≤ taskInd && taskInd < hi) with
    | none =>
      refine ⟨h, ?_⟩
      intro x y
      rw [or_iff_left]
      intro hnext
      apply find?_eq_none.mp hfind x (hends hnext).1
      rw [Bool.and_eq_true, decide_eq_true_eq, decide_eq_true_eq]
      exact ⟨hnext.1, Nat.lt_of_lt_of_le hnext.2.1 hnext.2.2.1⟩
    | some prevIndex =>
      have hprev := find?_some hfind
      rw [Bool.and_eq_true, decide_eq_true_eq, decide_eq_true_eq] at hprev
      have hprevMem := mem_of_find?_eq_some hfind
      have hrest (t : ℕ) : t ∈ fifoTasks.filter (prevIndex < ·) ↔ t ∈ fifoTasks ∧ prevIndex < t := by
        rw [mem_filter, decide_eq_true_eq]
      have hsorted' : (prevIndex :: fifoTasks.filter (prevIndex < ·)).Pairwise (· < ·) := by
        rw [pairwise_cons]
        exact ⟨fun t ht => ((hrest t).mp ht).2, hsorted.filter _⟩
      obtain ⟨hlinked, hedges⟩ := @linkFifoTasks_linked orig s hi prevIndex (fifoTasks.filter (prevIndex < ·)) h (by
        rw [forall_mem_cons]
        exact ⟨((hmem _).mp hprevMem).1, fun t ht => ((hmem t).mp ((hrest t).mp ht).1).1⟩)
      refine ⟨hlinked, ?_⟩
      intro x y
      rw [hedges, mem_linkedPairs hsorted']
      apply or_congr_right
      constructor
      · rintro ⟨hx, hy, hxy, hyhi, hnext⟩
        have hxPrev : prevIndex ≤ x := by
          rcases mem_cons.mp hx with rfl | hx
          · exact Nat.le_refl _
          · exact Nat.le_of_lt ((hrest x).mp hx).2
        have hxMem : x ∈ fifoTasks := by
          rcases mem_cons.mp hx with rfl | hx
          · exact hprevMem
          · exact ((hrest x).mp hx).1
        have hyMem := ((hrest y).mp hy).1
        refine ⟨Nat.le_trans hprev.1 hxPrev, hxy, hyhi, ((hmem x).mp hxMem).2, ((hmem y).mp hyMem).2, ?_⟩
        intro z hxz hzy hz
        have hzMem : z ∈ fifoTasks := (hmem z).mpr ⟨by omega, hz⟩
        have := hnext z ((hrest z).mpr ⟨hzMem, by omega⟩) hxz
        omega
      · intro hnext
        obtain ⟨hxMem, hyMem⟩ := hends hnext
        obtain ⟨hlo, hxy, hyhi, -, -, hbetween⟩ := hnext
        -- the first task found is not behind `x`
        have hxPrev : prevIndex ≤ x := by
          by_contra hlt
          rw [find?_eq_some_iff_append] at hfind
          obtain ⟨-, before, after, heq, hbefore⟩ := hfind
          rw [heq, pairwise_append, pairwise_cons] at hsorted
          rw [heq, mem_append, mem_cons] at hxMem
          rcases hxMem with hx | rfl | hx
          · have := hbefore x hx
            simp only [hlo, decide_true, Bool.true_and, Bool.not_eq_true', decide_eq_false_iff_not] at this
            omega
          · exact hlt (Nat.le_refl _)
          · exact hlt (Nat.le_of_lt (hsorted.2.1.1 x hx))
        refine ⟨?_, (hrest y).mpr ⟨hyMem, by omega⟩, hxy, hyhi, ?_⟩
        · rw [mem_cons, hrest]
          by_cases heq : x = prevIndex
          · exact .inl heq
          · exact .inr ⟨hxMem, by omega⟩
        · intro z hz hxz
          by_contra hzy
          exact hbetween z hxz (Nat.lt_of_not_le hzy) ((hmem z).mp ((hrest z).mp hz).1).2

theorem linkQueues_linked (h : Linked orig s) (hhi : hi < orig.getNumOfTasks) (queueTypes : List TaskQueueType) :
    let s' := (queueTypes.map (fun queueType => (queueType, (List.range orig.getNumOfTasks).filter (fun taskInd =>
      config.getTaskQueueType taskInd = queueType)))).foldl (linkQueue none lo hi) s
    Linked orig s' ∧ ∀ x y, s'.maps.Edge x y ↔ s.maps.Edge x y ∨ ∃ q ∈ queueTypes, NextInQueue config lo hi q x y := by
  induction queueTypes generalizing s with
  | nil => exact ⟨h, by simp⟩
  | cons queueType queueTypes ih =>
    rw [map_cons, foldl_cons]
    obtain ⟨hstep, hedge⟩ := @linkQueue_linked config orig s lo hi h hhi queueType
    obtain ⟨hlinked, hedges⟩ := ih hstep
    refine ⟨hlinked, ?_⟩
    intro x y
    rw [hedges, hedge, or_assoc]
    simp only [mem_cons, exists_eq_or_imp]

theorem removedDepsCount_eq (h : Linked orig s) (horig : orig.Consistent) : s.removedDepsCount = 2 * s.fifoDependencies.length := by
  have htemporary := h.temporary horig
  suffices hrun : ∀ (todo done : List (ℕ × ℕ × ℕ)) (maps : BarrierInfo) (n : ℕ), s.fifoDependencies = done ++ todo →
      Cleared s.maps (done.map Prod.fst) maps → n = 2 * done.length →
      (todo.foldl countRemoved (maps, n)).2 = 2 * s.fifoDependencies.length by
    exact hrun s.fifoDependencies [] s.maps 0 rfl ⟨h.consistent, rfl, rfl, by simp, by simp⟩ rfl
  intro todo
  induction todo with
  | nil =>
    intro done maps n heq _ hn
    rw [heq, append_nil]
    exact hn
  | cons dep todo ih =>
    intro done maps n heq hcleared hn
    obtain ⟨t, p, c⟩ := dep
    have hdep : (t, p, c) ∈ s.fifoDependencies := heq ▸ mem_append_right _ mem_cons_self
    have hnodup := nodup_of_indices h.indices
    rw [heq, map_append, nodup_append] at hnodup
    have ht : t ∉ done.map Prod.fst := by
      intro hmem
      exact hnodup.2.2 t hmem t mem_cons_self rfl
    have hproducer := (h.producers t p).mpr (.inr ⟨c, hdep⟩)
    have hconsumer := (h.consumers t c).mpr (.inr ⟨p, hdep⟩)
    have hfound : hasBarrierDependency maps p c = some t := by
      apply hasBarrierDependency_some hcleared.consistent
      · exact ⟨(hcleared.producers t p).mpr ⟨ht, hproducer⟩, (hcleared.consumers t c).mpr ⟨ht, hconsumer⟩⟩
      · intro b hb
        exact h.single t p c hdep b ⟨((hcleared.producers b p).mp hb.1).2, ((hcleared.consumers b c).mp hb.2).2⟩
    rw [foldl_cons]
    apply ih (done ++ [(t, p, c)])
    · rw [heq, append_assoc]
      rfl
    · rw [map_append]
      exact hcleared.step htemporary ht hdep
    · change (if hasBarrierDependency maps p c = some t then n + 2 else n) = _
      rw [if_pos hfound, hn, length_append, length_singleton]
      omega

end

section
variable {config : OptimizeConfig} {maps : BarrierInfo} {lo hi k : ℕ} {considerTaskFifoDependency ignoreOutOfBlockDependencies : Bool}

def ofMaps (maps : BarrierInfo) : FifoBarrierInfo := ⟨maps, maps.getNumOfBarrierOps, []⟩

structure SameMaps (maps maps' : BarrierInfo) : Prop where
  tasks : maps'.getNumOfTasks = maps.getNumOfTasks
  barriers : maps'.getNumOfBarrierOps = maps.getNumOfBarrierOps
  producers : ∀ b x, x ∈ maps'.getBarrierProducers b ↔ x ∈ maps.getBarrierProducers b
  consumers : ∀ b x, x ∈ maps'.getBarrierConsumers b ↔ x ∈ maps.getBarrierConsumers b
  updateBarriers : ∀ t b, b ∈ maps'.getUpdateBarriers t ↔ b ∈ maps.getUpdateBarriers t
  waitBarriers : ∀ t b, b ∈ maps'.getWaitBarriers t ↔ b ∈ maps.getWaitBarriers t

def QueueEdge (config : OptimizeConfig) (x y : ℕ) : Prop :=
  x < y ∧ config.getTaskQueueType x = config.getTaskQueueType y ∧ config.getTaskQueueType x ∈ config.taskQueueTypes

def Reachable (config : OptimizeConfig) (maps : BarrierInfo) (lo hi : ℕ) (considerTaskFifoDependency : Bool) : ℕ → ℕ → Prop :=
  Relation.TransGen (fun x y => inRange lo hi x = true ∧ inRange lo hi y = true ∧
    (maps.Edge x y ∨ considerTaskFifoDependency = true ∧ QueueEdge config x y))

structure ControlMapExact (config : OptimizeConfig) (maps : BarrierInfo) (lo hi : ℕ) (considerTaskFifoDependency : Bool)
    (taskControlMap : TaskControlMap) (s' : FifoBarrierInfo) : Prop where
  exact : ∀ i j, inRange lo hi i = true → inRange lo hi j = true →
    ((taskControlMap.getD (i - lo) []).getD (j - lo) false = true ↔ Reachable config maps lo hi considerTaskFifoDependency i j)
  unchanged : SameMaps maps s'.maps
  temporary : s'.fifoDependencies = []

/-- A dependency that the loops see: that of a barrier, or that of two neighbours in a queue, both between the sync
tasks of the block. -/
def SeenEdge (config : OptimizeConfig) (maps : BarrierInfo) (k lo hi : ℕ) (considerTaskFifoDependency : Bool) (x y : ℕ) : Prop :=
  inRange lo hi x = true ∧ inRange lo hi y = true ∧ (maps.Edge x y ∨ considerTaskFifoDependency = true ∧
    ∃ first last, config.split.getControlGraphBlockTaskRange maps k false false = .ok (first, last) ∧
      ∃ q ∈ config.taskQueueTypes, NextInQueue config first last q x y)

def SeenOnward (config : OptimizeConfig) (maps : BarrierInfo) (k lo hi : ℕ) (considerTaskFifoDependency : Bool) (x y : ℕ) : Prop :=
  SeenEdge config maps k lo hi considerTaskFifoDependency x y ∧ ¬ (x = hi ∧ x ∈ config.split.syncTasksIds)

theorem createBarrierDependenciesImpliedByFIFO_linked (h : maps.Consistent) (hsplit : config.split.WellFormed maps.getNumOfTasks)
    (hpos : 0 < maps.getNumOfTasks) (hqueues : config.taskQueueTypes ≠ []) {first last : ℕ}
    (hrange : config.split.getControlGraphBlockTaskRange maps k false false = .ok (first, last)) :
    ∃ linked, (ofMaps maps).createBarrierDependenciesImpliedByFIFO config (buildTaskQueueTypeMap config maps.getNumOfTasks) k none =
        .ok linked ∧ Linked maps linked ∧ ∀ x y, linked.maps.Edge x y ↔
          maps.Edge x y ∨ ∃ q ∈ config.taskQueueTypes, NextInQueue config first last q x y := by
  have hmap : buildTaskQueueTypeMap config maps.getNumOfTasks ≠ [] := fun hnil => hqueues (map_eq_nil_iff.mp hnil)
  have hrange' : config.split.getControlGraphBlockTaskRange (ofMaps maps).maps k false false = .ok (first, last) := hrange
  have hlinks := @linkQueues_linked config maps (ofMaps maps) first last (.of_empty h) (inner_lt hsplit hpos hrange)
    config.taskQueueTypes
  unfold createBarrierDependenciesImpliedByFIFO
  rw [if_neg hmap, hrange']
  exact ⟨_, rfl, hlinks⟩

theorem inner_le {first last : ℕ} (hrange : config.split.getControlGraphBlockTaskRange maps k true true = .ok (lo, hi))
    (hinner : config.split.getControlGraphBlockTaskRange maps k false false = .ok (first, last)) : last ≤ hi := by
  unfold getControlGraphBlockTaskRange at hrange hinner
  by_cases hk : k ≥ config.split.getControlGraphBlockCount
  · rw [if_pos hk] at hrange
    cases hrange
  · rw [if_neg hk] at hrange hinner
    simp only [Bool.false_eq_true, if_true, if_false, Except.ok.injEq, Prod.mk.injEq] at hrange hinner
    rw [← hrange.2, ← hinner.2]
    by_cases hlast : k = config.split.getControlGraphBlockCount - 1
    · rw [if_pos hlast, if_pos hlast]
    · rw [if_neg hlast, if_neg hlast]
      exact Nat.sub_le _ _

theorem Restored.sameMaps {linked s' : FifoBarrierInfo} (h : Restored linked s') (hlinked : Linked maps linked)
    (hmaps : maps.Consistent) : SameMaps maps s'.maps := by
  have hproducers (b x : ℕ) : x ∈ s'.maps.getBarrierProducers b ↔ x ∈ maps.getBarrierProducers b := by
    rw [h.producers, hlinked.producers, hlinked.ops]
    constructor
    · rintro ⟨hlt, hx | ⟨c, hdep⟩⟩
      · exact hx
      · exact absurd (hlinked.le hdep) (Nat.not_le.mpr hlt)
    · exact fun hx => ⟨(hmaps.producer_lt hx).1, .inl hx⟩
  have hconsumers (b x : ℕ) : x ∈ s'.maps.getBarrierConsumers b ↔ x ∈ maps.getBarrierConsumers b := by
    rw [h.consumers, hlinked.consumers, hlinked.ops]
    constructor
    · rintro ⟨hlt, hx | ⟨p, hdep⟩⟩
      · exact hx
      · exact absurd (hlinked.le hdep) (Nat.not_le.mpr hlt)
    · exact fun hx => ⟨(hmaps.consumer_lt hx).1, .inl hx⟩
  refine ⟨h.tasks.trans hlinked.tasks, h.barriers.trans hlinked.ops, hproducers, hconsumers, ?_, ?_⟩
  · intro t b
    rw [h.consistent.update_iff, hproducers, hmaps.update_iff]
  · intro t b
    rw [h.consistent.wait_iff, hconsumers, hmaps.wait_iff]

theorem block_lt_count (hrange : config.split.getControlGraphBlockTaskRange maps k true true = .ok (lo, hi)) :
    k < config.split.getControlGraphBlockCount := by
  by_contra hout
  unfold getControlGraphBlockTaskRange at hrange
  rw [if_pos (Nat.le_of_not_lt hout)] at hrange
  cases hrange

theorem Linked.blockRange {linked : FifoBarrierInfo} (h : Linked maps linked) (hk : BlockRange config.split maps k lo hi) :
    BlockRange config.split linked.maps k lo hi := by
  have htasks := h.tasks
  refine ⟨?_, hk.le, ?_, hk.first, ?_⟩
  · have hsame : config.split.getControlGraphBlockTaskRange linked.maps k true true =
        config.split.getControlGraphBlockTaskRange maps k true true := by
      unfold getControlGraphBlockTaskRange
      rw [htasks]
    rw [hsame]
    exact hk.range
  · rw [htasks]
    exact hk.lt
  · rw [htasks]
    exact hk.last

theorem closed_linked {linked : FifoBarrierInfo} {first last : ℕ} (hlast : last ≤ hi)
    (hedges : ∀ x y, linked.maps.Edge x y ↔ maps.Edge x y ∨ ∃ q ∈ config.taskQueueTypes, NextInQueue config first last q x y)
    (hclosed : Closed config.split maps lo hi ignoreOutOfBlockDependencies) :
    Closed config.split linked.maps lo hi ignoreOutOfBlockDependencies := by
  apply hclosed.imp_right
  intro hclosed t c ht hskip hedge
  rcases (hedges t c).mp hedge with hedge | ⟨q, -, hnext⟩
  · exact hclosed t c ht hskip hedge
  · rw [inRange_iff] at ht ⊢
    obtain ⟨-, htc, hc, -⟩ := hnext
    omega

theorem buildTaskControlMap_seen (h : maps.Consistent) (hsplit : config.split.WellFormed maps.getNumOfTasks)
    (hpos : 0 < maps.getNumOfTasks) (hqueues : considerTaskFifoDependency = true → config.taskQueueTypes ≠ [])
    (hk : BlockRange config.split maps k lo hi) (hclosed : Closed config.split maps lo hi ignoreOutOfBlockDependencies) :
    ∃ m s', (ofMaps maps).buildTaskControlMap config k considerTaskFifoDependency ignoreOutOfBlockDependencies =
        .ok ((m, lo), s') ∧ SameMaps maps s'.maps ∧ s'.fifoDependencies = [] ∧
      RowBit lo hi m = Found (SeenEdge config maps k lo hi considerTaskFifoDependency)
        (SeenOnward config maps k lo hi considerTaskFifoDependency) := by
  have hrange : config.split.getControlGraphBlockTaskRange (ofMaps maps).maps k true true = .ok (lo, hi) := hk.range
  cases hconsider : considerTaskFifoDependency with
  | false =>
    obtain ⟨m, hm, hbits⟩ := buildTaskControlMap_found h hsplit hpos hk hclosed
    have hedge : SeenEdge config maps k lo hi false = BlockEdge maps lo hi := by
      funext x y
      unfold SeenEdge BlockEdge
      simp only [Bool.false_eq_true, false_and, or_false]
    refine ⟨m, ofMaps maps, ?_, ⟨rfl, rfl, fun _ _ => Iff.rfl, fun _ _ => Iff.rfl, fun _ _ => Iff.rfl, fun _ _ => Iff.rfl⟩, rfl, ?_⟩
    · unfold buildTaskControlMap
      rw [hrange]
      change (if lo > hi then _ else Except.bind (config.split.buildTaskControlMap maps k ignoreOutOfBlockDependencies) _) = _
      rw [if_neg (Nat.not_lt.mpr hk.le), hm]
      rfl
    · unfold SeenOnward
      rw [hbits, hedge]
      rfl
  | true =>
    obtain ⟨first, last, hinner⟩ := @exists_range config.split maps k (block_lt_count hk.range) false false
    obtain ⟨linked, hcreate, hlinked, hedges⟩ := createBarrierDependenciesImpliedByFIFO_linked h hsplit hpos (hqueues hconsider) hinner
    have hlast := inner_le hk.range hinner
    have hedge : BlockEdge linked.maps lo hi = SeenEdge config maps k lo hi true := by
      funext x y
      apply propext
      unfold BlockEdge SeenEdge
      rw [hedges]
      apply and_congr_right
      intro _
      apply and_congr_right
      intro _
      apply or_congr_right
      constructor
      · exact fun hnext => ⟨rfl, first, last, hinner, hnext⟩
      · rintro ⟨-, first', last', hinner', hnext⟩
        rw [hinner, Except.ok.injEq, Prod.mk.injEq] at hinner'
        rw [hinner'.1, hinner'.2]
        exact hnext
    have hk' := hlinked.blockRange hk
    have hclosed' := closed_linked hlast hedges hclosed
    obtain ⟨m, hm, hbits⟩ := buildTaskControlMap_found hlinked.consistent (hlinked.tasks.symm ▸ hsplit)
      (hlinked.tasks.symm ▸ hpos) hk' hclosed'
    obtain ⟨s', hremove, hrestored⟩ := removeBarrierDependenciesImpliedByFIFO_restored (hlinked.temporary h)
    refine ⟨m, s', ?_, hrestored.sameMaps hlinked h, hrestored.dependencies, ?_⟩
    · unfold buildTaskControlMap
      rw [hrange]
      change (if lo > hi then _ else Except.bind ((ofMaps maps).createBarrierDependenciesImpliedByFIFO config
        (buildTaskQueueTypeMap config maps.getNumOfTasks) k none) _) = _
      rw [if_neg (Nat.not_lt.mpr hk.le), hcreate]
      change Except.bind (config.split.buildTaskControlMap linked.maps k ignoreOutOfBlockDependencies) _ = _
      rw [hm]
      change Except.bind linked.removeBarrierDependenciesImpliedByFIFO _ = _
      rw [hremove]
      change (if 2 * (linked.fifoDependencies.length - 0) ≠ linked.removedDepsCount then _ else _) = _
      rw [removedDepsCount_eq hlinked h, Nat.sub_zero, if_neg (not_not.mpr rfl)]
    · unfold SeenOnward
      rw [hbits, ← hedge]
      rfl

theorem SeenEdge.reachable {x y : ℕ} (h : SeenEdge config maps k lo hi considerTaskFifoDependency x y) :
    Reachable config maps lo hi considerTaskFifoDependency x y := by
  obtain ⟨hx, hy, hedge | ⟨hconsider, first, last, -, q, hq, hnext⟩⟩ := h
  · exact .single ⟨hx, hy, .inl hedge⟩
  · obtain ⟨-, hlt, -, hxType, hyType, -⟩ := hnext
    exact .single ⟨hx, hy, .inr ⟨hconsider, hlt, hxType.trans hyType.symm, hxType ▸ hq⟩⟩

/-- The map is exact when the loops find a path to every reachable task. -/
theorem buildTaskControlMap_exact_iff (h : maps.Consistent) (hsplit : config.split.WellFormed maps.getNumOfTasks)
    (hpos : 0 < maps.getNumOfTasks) (hqueues : considerTaskFifoDependency = true → config.taskQueueTypes ≠ [])
    (hk : BlockRange config.split maps k lo hi) (hclosed : Closed config.split maps lo hi ignoreOutOfBlockDependencies) :
    ∃ m s', (ofMaps maps).buildTaskControlMap config k considerTaskFifoDependency ignoreOutOfBlockDependencies =
        .ok ((m, lo), s') ∧
      (ControlMapExact config maps lo hi considerTaskFifoDependency m s' ↔
        ∀ i j, Reachable config maps lo hi considerTaskFifoDependency i j →
          Found (SeenEdge config maps k lo hi considerTaskFifoDependency)
            (SeenOnward config maps k lo hi considerTaskFifoDependency) i j) := by
  obtain ⟨m, s', hbuild, hsame, hdeps, hbits⟩ := buildTaskControlMap_seen h hsplit hpos hqueues hk hclosed
  refine ⟨m, s', hbuild, ?_⟩
  have hbit (i j : ℕ) : RowBit lo hi m i j ↔ Found (SeenEdge config maps k lo hi considerTaskFifoDependency)
      (SeenOnward config maps k lo hi considerTaskFifoDependency) i j := by rw [hbits]
  constructor
  · rintro ⟨hexact, -, -⟩ i j hreach
    have hiIn : inRange lo hi i = true := by
      obtain ⟨c, hc, -⟩ := Relation.TransGen.head'_iff.mp hreach
      exact hc.1
    have hjIn : inRange lo hi j = true := by
      obtain ⟨c, -, hc⟩ := Relation.TransGen.tail'_iff.mp hreach
      exact hc.2.1
    exact (hbit i j).mp ⟨hiIn, hjIn, (hexact i j hiIn hjIn).mpr hreach⟩
  · intro hfound
    refine ⟨?_, hsame, hdeps⟩
    intro i j hiIn hjIn
    constructor
    · intro hset
      have hpath := ((hbit i j).mp ⟨hiIn, hjIn, hset⟩).transGen (fun _ _ honward => honward.1)
      exact Relation.TransGen.closed (fun _ _ hseen => hseen.reachable) _ _ hpath
    · exact fun hreach => ((hbit i j).mpr (hfound i j hreach)).2.2

def chained (maps : BarrierInfo) (edges : List (ℕ × ℕ)) : BarrierInfo :=
  edges.foldl (fun maps edge =>
    (maps.addNewBarrier.addProducer maps.getNumOfBarrierOps edge.1).addConsumer maps.getNumOfBarrierOps edge.2) maps

theorem consistent_chained (h : maps.Consistent) {edges : List (ℕ × ℕ)}
    (hedges : ∀ edge ∈ edges, edge.1 < maps.getNumOfTasks ∧ edge.2 < maps.getNumOfTasks) :
    (chained maps edges).Consistent ∧ (chained maps edges).getNumOfTasks = maps.getNumOfTasks := by
  unfold chained
  induction edges generalizing maps with
  | nil => exact ⟨h, rfl⟩
  | cons edge edges ih =>
    obtain ⟨hedge, hedges⟩ := forall_mem_cons.mp hedges
    have hnew := addTemporary_withEdge h hedge.1 hedge.2
    obtain ⟨hconsistent, htasks⟩ := ih hnew.consistent (hnew.tasks.symm ▸ hedges)
    exact ⟨hconsistent, htasks.trans hnew.tasks⟩

def zigzag : BarrierInfo :=
  chained BarrierInfo.empty.addNewTaskOp.addNewTaskOp.addNewTaskOp.addNewTaskOp.addNewTaskOp.addNewTaskOp
    [(3, 1), (1, 2), (2, 0), (0, 4), (4, 5)]

def zigzagConfig : OptimizeConfig where
  split := ⟨[], []⟩
  taskOp := fun _ => ⟨1, .dmaNN⟩
  getTaskQueueType := fun taskInd => ⟨.dmaNN, taskInd⟩
  taskQueueTypes := [⟨.dmaNN, 0⟩]
  taskQueueTypes_nodup := by decide
  barrierMaxVariantSum := 64

theorem zigzag_consistent : zigzag.Consistent :=
  (consistent_chained BarrierInfo.consistent_empty.addNewTaskOp.addNewTaskOp.addNewTaskOp.addNewTaskOp.addNewTaskOp.addNewTaskOp
    (by decide)).1

def zigzagRank (taskInd : ℕ) : ℕ := [3, 1, 2, 0, 4, 5].getD taskInd 6

theorem zigzag_acyclic (t : ℕ) : ¬ zigzag.Ordered t t := by
  have hrank : ∀ p c, zigzag.Edge p c → zigzagRank p < zigzagRank c := BarrierInfo.forall_edges (by decide)
  have hlt : ∀ p c, zigzag.Ordered p c → zigzagRank p < zigzagRank c := by
    intro p c hordered
    induction hordered with
    | single hedge => exact hrank _ _ hedge
    | tail _ hedge ih => exact Nat.lt_trans ih (hrank _ _ hedge)
  exact fun hordered => Nat.lt_irrefl _ (hlt t t hordered)

theorem zigzag_blockRange : BlockRange zigzagConfig.split zigzag 0 0 5 :=
  ⟨by decide, by decide, by decide, by decide, by decide⟩

theorem zigzag_closed : Closed zigzagConfig.split zigzag 0 5 false :=
  .inr (fun t c _ _ hedge => (BarrierInfo.forall_edges (P := fun _ c => inRange 0 5 c = true) (by decide)) t c hedge)

/-- The bit of the tasks 3 and 5 is missing. -/
theorem buildTaskControlMap_misses : ¬ ∀ (config : OptimizeConfig) (maps : BarrierInfo) (k lo hi : ℕ) (fifo ignore : Bool),
    maps.Consistent → (∀ t, ¬ maps.Ordered t t) → config.split.WellFormed maps.getNumOfTasks → 0 < maps.getNumOfTasks →
      BlockRange config.split maps k lo hi → ∀ m s', (ofMaps maps).buildTaskControlMap config k fifo ignore = .ok ((m, lo), s') →
        ControlMapExact config maps lo hi fifo m s' := by
  intro hclaim
  obtain ⟨m, s', hbuild, -⟩ := @buildTaskControlMap_seen zigzagConfig zigzag 0 5 0 false false zigzag_consistent
    ⟨by decide, by decide, by decide, by decide⟩ (by decide) (by decide) zigzag_blockRange zigzag_closed
  have hexact := (hclaim zigzagConfig zigzag 0 0 5 false false zigzag_consistent zigzag_acyclic
    ⟨by decide, by decide, by decide, by decide⟩ (by decide) zigzag_blockRange m s' hbuild).exact 3 5 (by decide) (by decide)
  have hbit : ((ofMaps zigzag).buildTaskControlMap zigzagConfig 0 false false).toOption.map
      (fun result => (result.1.1.getD 3 []).getD 5 false) = some false := by decide
  rw [hbuild] at hbit
  have hmissing : (m.getD 3 []).getD 5 false = false := Option.some.inj hbit
  have hedge (b p c : ℕ) (hp : p ∈ zigzag.getBarrierProducers b) (hc : c ∈ zigzag.getBarrierConsumers b)
      (hpIn : inRange 0 5 p = true) (hcIn : inRange 0 5 c = true) : Reachable zigzagConfig zigzag 0 5 false p c :=
    .single ⟨hpIn, hcIn, .inl ⟨b, hp, hc⟩⟩
  have hreach : Reachable zigzagConfig zigzag 0 5 false 3 5 := by
    apply Relation.TransGen.trans (hedge 0 3 1 (by decide) (by decide) (by decide) (by decide))
    apply Relation.TransGen.trans (hedge 1 1 2 (by decide) (by decide) (by decide) (by decide))
    apply Relation.TransGen.trans (hedge 2 2 0 (by decide) (by decide) (by decide) (by decide))
    apply Relation.TransGen.trans (hedge 3 0 4 (by decide) (by decide) (by decide) (by decide))
    exact hedge 4 4 5 (by decide) (by decide) (by decide) (by decide)
  have hset := hexact.mpr hreach
  rw [hmissing] at hset
  cases hset

/-- Task 2 comes before task 0, and the tasks 0, 1 and 2, 3 are in a queue each. -/
def valley : BarrierInfo :=
  chained BarrierInfo.empty.addNewTaskOp.addNewTaskOp.addNewTaskOp.addNewTaskOp [(2, 0), (1, 3)]

def valleyConfig : OptimizeConfig where
  split := ⟨[], []⟩
  taskOp := fun _ => ⟨1, .dmaNN⟩
  getTaskQueueType := fun taskInd => ⟨.dmaNN, taskInd / 2 + 1⟩
  taskQueueTypes := [⟨.dmaNN, 1⟩, ⟨.dmaNN, 2⟩]
  taskQueueTypes_nodup := by decide
  barrierMaxVariantSum := 64

theorem valley_consistent : valley.Consistent :=
  (consistent_chained BarrierInfo.consistent_empty.addNewTaskOp.addNewTaskOp.addNewTaskOp.addNewTaskOp (by decide)).1

def valleySteps : List (ℕ × ℕ) := [(2, 0), (0, 1), (1, 3), (2, 3)]

theorem valley_seen {x y : ℕ} (h : (x, y) ∈ valleySteps) :
    SeenEdge valleyConfig valley 0 0 3 true x y := by
  have hrange : valleyConfig.split.getControlGraphBlockTaskRange valley 0 false false = .ok (0, 3) := rfl
  have hnext (q : TaskQueueType) (hq : q ∈ valleyConfig.taskQueueTypes) (x : ℕ) (hx : x + 1 ≤ 3)
      (hxq : valleyConfig.getTaskQueueType x = q) (hyq : valleyConfig.getTaskQueueType (x + 1) = q) :
      SeenEdge valleyConfig valley 0 0 3 true x (x + 1) := by
    refine ⟨by simp [inRange]; omega, by simp [inRange]; omega, .inr ⟨rfl, 0, 3, hrange, q, hq, ?_⟩⟩
    exact ⟨Nat.zero_le x, Nat.lt_succ_self x, hx, hxq, hyq, fun z hxz hzy => absurd hzy (by omega)⟩
  simp only [valleySteps, mem_cons, Prod.mk.injEq, not_mem_nil, or_false] at h
  rcases h with ⟨rfl, rfl⟩ | ⟨rfl, rfl⟩ | ⟨rfl, rfl⟩ | ⟨rfl, rfl⟩
  · exact ⟨rfl, rfl, .inl ⟨0, by decide, by decide⟩⟩
  · exact hnext ⟨.dmaNN, 1⟩ (by decide) 0 (by decide) rfl rfl
  · exact ⟨rfl, rfl, .inl ⟨1, by decide, by decide⟩⟩
  · exact hnext ⟨.dmaNN, 2⟩ (by decide) 2 (by decide) rfl rfl

def valleyRank (taskInd : ℕ) : ℕ := [1, 2, 0, 3].getD taskInd 4

theorem valleyRank_lt {i j : ℕ} (h : Reachable valleyConfig valley 0 3 true i j) :
    i < 4 ∧ j < 4 ∧ valleyRank i < valleyRank j := by
  have hbarrier : ∀ p c, valley.Edge p c → valleyRank p < valleyRank c := BarrierInfo.forall_edges (by decide)
  have hqueue : ∀ y < 4, ∀ x < y, x / 2 = y / 2 → valleyRank x < valleyRank y := by decide
  have hstep {x y : ℕ} (hx : inRange 0 3 x = true) (hy : inRange 0 3 y = true)
      (h : valley.Edge x y ∨ true = true ∧ QueueEdge valleyConfig x y) : x < 4 ∧ y < 4 ∧ valleyRank x < valleyRank y := by
    have hx4 : x < 4 := by simpa [inRange, Nat.lt_succ_iff] using hx
    have hy4 : y < 4 := by simpa [inRange, Nat.lt_succ_iff] using hy
    rcases h with hedge | ⟨-, hlt, hsame, -⟩
    · exact ⟨hx4, hy4, hbarrier x y hedge⟩
    · have hid : (x : ℤ) / 2 + 1 = (y : ℤ) / 2 + 1 := congrArg TaskQueueType.id hsame
      exact ⟨hx4, hy4, hqueue y hy4 x hlt (by omega)⟩
  induction h with
  | single h => exact hstep h.1 h.2.1 h.2.2
  | tail _ h ih =>
    have hlast := hstep h.1 h.2.1 h.2.2
    exact ⟨ih.1, hlast.2.1, Nat.lt_trans ih.2.2 hlast.2.2⟩

theorem valley_found {i j : ℕ} (h : Reachable valleyConfig valley 0 3 true i j) :
    Found (SeenEdge valleyConfig valley 0 0 3 true) (SeenOnward valleyConfig valley 0 0 3 true) i j := by
  have honward {x y : ℕ} (h : (x, y) ∈ valleySteps) : SeenOnward valleyConfig valley 0 0 3 true x y :=
    ⟨valley_seen h, fun hsync => absurd hsync.2 not_mem_nil⟩
  have h01 : Down (SeenEdge valleyConfig valley 0 0 3 true) (SeenOnward valleyConfig valley 0 0 3 true) 0 1 :=
    .edge (valley_seen (by decide))
  have h03 : Down (SeenEdge valleyConfig valley 0 0 3 true) (SeenOnward valleyConfig valley 0 0 3 true) 0 3 :=
    .forward (honward (y := 1) (by decide)) (by decide) (.edge (valley_seen (by decide)))
  obtain ⟨hi, hj, hlt⟩ := valleyRank_lt h
  have hpairs : ∀ i < 4, ∀ j < 4, valleyRank j ≤ valleyRank i ∨
      (i, j) ∈ valleySteps ∨ i = 0 ∧ j = 3 ∨ i = 2 ∧ j = 1 := by decide
  rcases hpairs i hi j hj with hle | hedge | ⟨rfl, rfl⟩ | ⟨rfl, rfl⟩
  · exact absurd hlt (Nat.not_lt_of_le hle)
  · exact .repaired (.down (.edge (valley_seen hedge)))
  · exact .repaired (.down h03)
  · -- one step back from 2 to 0
    exact .repaired (.back (honward (y := 0) (by decide)) (by decide) (.down h01))

theorem buildTaskControlMap_exact_valley : ∃ m s', (ofMaps valley).buildTaskControlMap valleyConfig 0 true false =
    .ok ((m, 0), s') ∧ ControlMapExact valleyConfig valley 0 3 true m s' := by
  have hclosed : Closed valleyConfig.split valley 0 3 false :=
    .inr (fun t c _ _ hedge => (BarrierInfo.forall_edges (P := fun _ c => inRange 0 3 c = true) (by decide)) t c hedge)
  obtain ⟨m, s', hbuild, hiff⟩ := @buildTaskControlMap_exact_iff valleyConfig valley 0 3 0 true false valley_consistent
    ⟨by decide, by decide, by decide, by decide⟩ (by decide) (by decide) ⟨by decide, by decide, by decide, by decide, by decide⟩
    hclosed
  exact ⟨m, s', hbuild, hiff.mpr (fun i j => valley_found)⟩

end

end NpuCompiler.Barrier.FifoBarrierInfo
