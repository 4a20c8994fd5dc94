import NpuCompiler.Control.SweepRefinement

namespace NpuCompiler.Control.ControlEdgeGenerator

open IntervalMap DisjointIntervalSet Option

theorem foreachOverlap_mono {curr : ScheduledOpOneResource} {fuel fuel' : ℕ} (h : fuel ≤ fuel') {s : State}
    {qitr : IntervalIterator} {currRemBeg currRemEnd edgeCount : ℕ} {r : State × ℕ × ℕ × ℕ}
    (hr : foreachOverlap curr fuel s qitr currRemBeg currRemEnd edgeCount = some r) :
    foreachOverlap curr fuel' s qitr currRemBeg currRemEnd edgeCount = some r := by
  induction fuel generalizing fuel' s qitr currRemBeg currRemEnd edgeCount with
  | zero => exact absurd hr (by simp [foreachOverlap])
  | succ fuel ih =>
    obtain ⟨fuel', rfl⟩ := Nat.exists_eq_succ_of_ne_zero (by omega : fuel' ≠ 0)
    rw [foreachOverlap] at hr ⊢
    by_cases hend : isEnd qitr = true
    · rw [if_pos hend] at hr ⊢
      exact hr
    · rw [if_neg hend] at hr ⊢
      simp only [bind_eq_bind, bind_eq_some_iff] at hr ⊢
      obtain ⟨qbeg, hqbeg, qend, hqend, hr⟩ := hr
      refine ⟨qbeg, hqbeg, qend, hqend, ?_⟩
      by_cases hmeet : (!IntervalUtils.intersects qbeg qend currRemBeg currRemEnd) = true
      · rw [if_pos hmeet] at hr ⊢
        exact hr
      · rw [if_neg hmeet] at hr ⊢
        simp only [bind_eq_some_iff] at hr ⊢
        obtain ⟨pc, hpc, qitrNext, hnext, hr⟩ := hr
        exact ⟨pc, hpc, qitrNext, hnext, ih (by omega) hr⟩

theorem mergeLoop_mono {pc : ProdCons} {fuel fuel' : ℕ} (h : fuel ≤ fuel') {s : State} {qitr : IntervalIterator}
    {prevRightEnd : ℕ} {r : State × ℕ} (hr : mergeLoop pc fuel s qitr prevRightEnd = some r) :
    mergeLoop pc fuel' s qitr prevRightEnd = some r := by
  induction fuel generalizing fuel' s qitr prevRightEnd with
  | zero => exact absurd hr (by simp [mergeLoop])
  | succ fuel ih =>
    obtain ⟨fuel', rfl⟩ := Nat.exists_eq_succ_of_ne_zero (by omega : fuel' ≠ 0)
    rw [mergeLoop] at hr ⊢
    by_cases hend : isEnd qitr = true
    · rw [if_pos hend] at hr ⊢
      exact hr
    · rw [if_neg hend] at hr ⊢
      simp only [bind_eq_bind, bind_eq_some_iff] at hr ⊢
      obtain ⟨pc', hpc, qbeg, hqbeg, hr⟩ := hr
      refine ⟨pc', hpc, qbeg, hqbeg, ?_⟩
      by_cases habut : pc' = pc ∧ unitSucc prevRightEnd = qbeg
      · rw [if_pos habut] at hr ⊢
        simp only [bind_eq_some_iff] at hr ⊢
        obtain ⟨qend, hqend, qitrNext, hnext, hr⟩ := hr
        exact ⟨qend, hqend, qitrNext, hnext, ih (by omega) hr⟩
      · rw [if_neg habut] at hr ⊢
        exact hr

theorem mergeAbuttingIntervals_mono {curr : ScheduledOpOneResource} {fuel fuel' : ℕ} (h : fuel ≤ fuel') {s r : State}
    (hr : mergeAbuttingIntervals fuel s curr = some r) : mergeAbuttingIntervals fuel' s curr = some r := by
  unfold mergeAbuttingIntervals at hr ⊢
  by_cases hend : isEnd (query s.intervalTree curr.addressStart curr.addressEnd) = true
  · simp only [if_pos hend] at hr ⊢
    exact hr
  · simp only [if_neg hend, bind_eq_bind, bind_eq_some_iff] at hr ⊢
    obtain ⟨pc, hpc, hr⟩ := hr
    refine ⟨pc, hpc, ?_⟩
    by_cases hother : pc ≠ ProdCons.ofProducer curr
    · rw [if_pos hother] at hr ⊢
      exact hr
    · rw [if_neg hother] at hr ⊢
      simp only [bind_eq_some_iff] at hr ⊢
      obtain ⟨prevLeftEnd, hleft, startEnd, hstart, qitrNext, hnext, merged, hloop, hr⟩ := hr
      exact ⟨prevLeftEnd, hleft, startEnd, hstart, qitrNext, hnext, merged, mergeLoop_mono h hloop, hr⟩

theorem processNextInterval_mono {curr : ScheduledOpOneResource} {fuel fuel' : ℕ} (h : fuel ≤ fuel') {s : State}
    {r : State × ℕ} (hr : processNextInterval fuel s curr = some r) : processNextInterval fuel' s curr = some r := by
  unfold processNextInterval at hr ⊢
  simp only [bind_eq_bind, bind_eq_some_iff] at hr ⊢
  obtain ⟨swept, hsweep, hr⟩ := hr
  refine ⟨swept, foreachOverlap_mono h hsweep, ?_⟩
  by_cases hprod : curr.isProducer = true
  · rw [if_pos hprod] at hr ⊢
    simp only [bind_eq_some_iff] at hr ⊢
    obtain ⟨s', hmerge, hr⟩ := hr
    exact ⟨s', mergeAbuttingIntervals_mono h hmerge, hr⟩
  · rw [if_neg hprod] at hr ⊢
    exact hr

theorem generateControlEdges_mono {fuel fuel' : ℕ} (h : fuel ≤ fuel') {entries : List ScheduledOpOneResource}
    {s : State} {edgeCount : ℕ} {r : State × ℕ} (hr : generateControlEdges fuel entries s edgeCount = some r) :
    generateControlEdges fuel' entries s edgeCount = some r := by
  induction entries generalizing s edgeCount with
  | nil => exact hr
  | cons curr entries ih =>
    rw [generateControlEdges] at hr ⊢
    by_cases hempty : curr.addressStart > curr.addressEnd
    · rw [if_pos hempty] at hr ⊢
      exact ih hr
    · rw [if_neg hempty] at hr ⊢
      simp only [bind_eq_bind, bind_eq_some_iff] at hr ⊢
      obtain ⟨step, hstep, hr⟩ := hr
      exact ⟨step, processNextInterval_mono h hstep, ih hr⟩

theorem generateControlEdges_append (fuel : ℕ) (entries rest : List ScheduledOpOneResource) (s : State)
    (edgeCount : ℕ) :
    generateControlEdges fuel (entries ++ rest) s edgeCount =
      (generateControlEdges fuel entries s edgeCount).bind (fun r => generateControlEdges fuel rest r.1 r.2) := by
  induction entries generalizing s edgeCount with
  | nil => rfl
  | cons curr entries ih =>
    rw [List.cons_append, generateControlEdges, generateControlEdges]
    by_cases hempty : curr.addressStart > curr.addressEnd
    · rw [if_pos hempty, if_pos hempty]
      exact ih s edgeCount
    · rw [if_neg hempty, if_neg hempty]
      simp only [bind_eq_bind]
      rw [bind_assoc]
      congr 1
      funext step
      exact ih step.1 (edgeCount + step.2)

structure Stores (ps : List (Piece ProdCons)) (s : State) : Prop where
  tree : s.intervalTree = toTree ps
  ordered : Ordered ps
  bounded : ∀ p ∈ ps, p.hi < 2 ^ 64

theorem stores_init : Stores [] init := ⟨rfl, ordered_nil, by simp⟩

def Takes (curr : ScheduledOpOneResource) (ps : List (Piece ProdCons)) (x : ℕ) (v : ProdCons) : Prop :=
  (∃ u, At ps x u ∧ newProdCons curr u = v) ∨ ((∀ u, ¬ At ps x u) ∧ ProdCons.ofProducer curr = v)

section
variable {curr : ScheduledOpOneResource} {s : State}

theorem sweep_stores {l m r : List (Piece ProdCons)} (h : Stores (l ++ (m ++ r)) s)
    (hl : ∀ p ∈ l, p.hi < curr.addressStart) (hm : Meets curr.addressStart curr.addressEnd m)
    (hr : ∀ p ∈ r, curr.addressEnd < p.lo) (hend : curr.addressEnd < 2 ^ 64) :
    ∃ fuel swept remBeg remEnd count s', foreachOverlap curr fuel s
        (query s.intervalTree curr.addressStart curr.addressEnd) curr.addressStart curr.addressEnd 0 =
          some (swept, remBeg, remEnd, count) ∧
      (if remBeg ≤ remEnd then swept.insert remBeg remEnd (ProdCons.ofProducer curr) else swept) = s' ∧
      Stores (l ++ (overlay (newProdCons curr) (ProdCons.ofProducer curr) curr.addressEnd curr.addressStart m ++ r)) s' ∧
      s'.inserted = s.inserted ∧ s'.outputDependency = edgesOver curr m s.outputDependency := by
  have hm' : ∀ p ∈ m, p.hi < 2 ^ 64 := fun p hp => h.bounded p (by simp [hp])
  have hquery : query s.intervalTree curr.addressStart curr.addressEnd = ⟨firstKey (m ++ r), firstKey r⟩ := by
    rw [h.tree]
    exact query_toTree h.ordered hl hm hr
  obtain ⟨swept, remBeg, remEnd, count, hsweep, hdone, -⟩ :=
    @foreachOverlap_toTree curr curr.addressEnd r hr hend m l curr.addressStart (m.length + 1) 0 s (Nat.lt_succ_self _)
      h.tree h.ordered hl hm hm'
  obtain ⟨hord, hbound⟩ := @overlay_between _ (newProdCons curr) (ProdCons.ofProducer curr) _ _ m l r h.ordered hl hm hr
  refine ⟨m.length + 1, swept, remBeg, remEnd, count, _, ?_, hdone, ⟨rfl, hord, ?_⟩, rfl, rfl⟩
  · rw [hquery]
    exact hsweep
  · intro p hp
    rcases hbound p hp with hle | ⟨q, hq, hle⟩
    · exact hle.trans_lt hend
    · exact hle.trans_lt (h.bounded q hq)

theorem mergeAbuttingIntervals_stores {ps : List (Piece ProdCons)} (h : Stores ps s)
    (hbe : curr.addressStart ≤ curr.addressEnd) :
    ∃ fuel s' ps', mergeAbuttingIntervals fuel s curr = some s' ∧ Stores ps' s' ∧ s'.inserted = s.inserted ∧
      s'.outputDependency = s.outputDependency ∧ ∀ x v, At ps' x v ↔ At ps x v := by
  obtain ⟨l, m, r, rfl, hl, hm, hr⟩ := exists_split h.ordered hbe
  obtain ⟨ps', heq, hord, hat, hends⟩ := @mergeAbuttingIntervals_toTree curr l m r m.length s (Nat.lt_succ_self _) h.tree
    h.ordered hl hm hr (fun p hp => h.bounded p (by simp [hp]))
  refine ⟨m.length, _, ps', heq, ⟨rfl, hord, ?_⟩, rfl, rfl, hat⟩
  intro p hp
  obtain ⟨q, hq, hle⟩ := hends p hp
  exact hle.trans_lt (h.bounded q hq)

theorem processNextInterval_stores {ps : List (Piece ProdCons)} (h : Stores ps s)
    (hbe : curr.addressStart ≤ curr.addressEnd) (hend : curr.addressEnd < 2 ^ 64) :
    ∃ fuel s' count ps' m, processNextInterval fuel s curr = some (s', count) ∧ Stores ps' s' ∧
      s'.inserted = s.inserted ∧ s'.outputDependency = edgesOver curr m s.outputDependency ∧
      (∀ x v, At ps' x v ↔
        if curr.addressStart ≤ x ∧ x ≤ curr.addressEnd then Takes curr ps x v else At ps x v) ∧
      ∀ x u, curr.addressStart ≤ x → x ≤ curr.addressEnd → At ps x u → ∃ q ∈ m, q.val = u := by
  obtain ⟨l, m, r, rfl, hl, hm, hr⟩ := exists_split h.ordered hbe
  obtain ⟨fuel, swept, remBeg, remEnd, count, s', hsweep, hrem, hstores, hins, hout⟩ := sweep_stores h hl hm hr hend
  have hat := @at_overlay_between _ (newProdCons curr) (ProdCons.ofProducer curr) _ _ m l r hl hm hr
  have hmet : ∀ x u, curr.addressStart ≤ x → x ≤ curr.addressEnd → At (l ++ (m ++ r)) x u → ∃ q ∈ m, q.val = u := by
    rintro x u h1 h2 ⟨p, hp, hlo, hhi, rfl⟩
    rcases List.mem_append.mp hp with hp | hp
    · have := hl p hp
      omega
    rcases List.mem_append.mp hp with hp | hp
    · exact ⟨p, hp, rfl⟩
    · have := hr p hp
      omega
  by_cases hprod : curr.isProducer = true
  · obtain ⟨fuel', s'', ps', hmerge, hstores', hins', hout', hat'⟩ := mergeAbuttingIntervals_stores hstores hbe
    refine ⟨max fuel fuel', s'', count, ps', m, ?_, hstores', hins'.trans hins, hout'.trans hout, ?_, hmet⟩
    · unfold processNextInterval
      simp only [foreachOverlap_mono (le_max_left fuel fuel') hsweep, bind_eq_bind, bind_some, hrem,
        if_pos hprod, mergeAbuttingIntervals_mono (le_max_right fuel fuel') hmerge]
      rfl
    · intro x v
      rw [hat']
      exact hat x v
  · refine ⟨fuel, s', count, _, m, ?_, hstores, hins, hout, hat, hmet⟩
    unfold processNextInterval
    simp only [hsweep, bind_eq_bind, bind_some, hrem, if_neg hprod]
    rfl

end

end NpuCompiler.Control.ControlEdgeGenerator
