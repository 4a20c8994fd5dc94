import NpuCompiler.Control.AddressMachine

namespace NpuCompiler.Control.ControlEdgeGenerator

open IntervalMap DisjointIntervalSet Relation List

def Edge (output : ControlEdgeSet) (source sink : ℕ) : Prop := ⟨source, sink⟩ ∈ output

def Reaches (output : ControlEdgeSet) : ℕ → ℕ → Prop := ReflTransGen (Edge output)

theorem Reaches.mono {output output' : ControlEdgeSet} (h : output ⊆ output') {a b : ℕ} (hab : Reaches output a b) :
    Reaches output' a b := ReflTransGen.mono (fun _ _ hedge => h hedge) _ _ hab

theorem Reaches.of_edge {output : ControlEdgeSet} {a b : ℕ} (h : ⟨a, b⟩ ∈ output) : Reaches output a b :=
  ReflTransGen.single h

theorem Reaches.of_eq {output : ControlEdgeSet} {a b : ℕ} (h : a = b) : Reaches output a b := by
  rw [h]
  exact ReflTransGen.refl

theorem Reaches.transGen {output : ControlEdgeSet} {a b : ℕ} (h : Reaches output a b) (hne : a ≠ b) :
    TransGen (Edge output) a b := by
  rcases reflTransGen_iff_eq_or_transGen.mp h with heq | hpath
  · exact absurd heq.symm hne
  · exact hpath

theorem Reaches.exists_last {output : ControlEdgeSet} {a b : ℕ} (h : Reaches output a b) (hne : a ≠ b) :
    ∃ s, s ≠ b ∧ Reaches output a s ∧ ⟨s, b⟩ ∈ output := by
  induction h with
  | refl => exact absurd rfl hne
  | @tail s b hpath hedge ih =>
    by_cases hs : s = b
    · subst hs
      exact ih hne
    · exact ⟨s, hs, hpath, hedge⟩

section
variable {curr p c : ScheduledOpOneResource} {pc : ProdCons} {output : ControlEdgeSet}

theorem mem_sources {source sink : ℕ} (hsink : ∃ p ∈ pc.producers, p.op = sink) (hne : source ≠ sink)
    (h : ⟨source, sink⟩ ∈ output) : source ∈ sourcesOfCurrProducers pc output := by
  have keep : ∀ (l : ControlEdgeSet) (sources : List ℕ), source ∈ sources →
      source ∈ l.foldl (fun sources e => setInsert (fun a b => decide (a < b)) e.source sources) sources := by
    intro l
    induction l with
    | nil => exact fun _ hs => hs
    | cons e l ih => exact fun sources hs => ih _ (subset_setInsert hs)
  have collect : ∀ (l : ControlEdgeSet) (sources : List ℕ), ⟨source, sink⟩ ∈ l →
      source ∈ l.foldl (fun sources e => setInsert (fun a b => decide (a < b)) e.source sources) sources := by
    intro l
    induction l with
    | nil => exact fun _ hmem => absurd hmem not_mem_nil
    | cons e l ih =>
      intro sources hmem
      rcases mem_cons.mp hmem with rfl | hmem
      · rw [foldl_cons]
        apply keep
        obtain ⟨y, hy, h1, h2⟩ := @exists_mem_setInsert ℕ (fun a b => decide (a < b)) source sources (by simp)
        have heq : y = source := le_antisymm (by simpa using h1) (by simpa using h2)
        rwa [heq] at hy
      · exact ih _ hmem
  apply collect
  rw [mem_filter]
  refine ⟨h, ?_⟩
  simpa [hne] using hsink

theorem edge_of_consumer (hcons : curr.isProducer = false) (hp : p ∈ pc.producers)
    (hover : curr.canOverlap p = false) : ⟨p.op, curr.op⟩ ∈ newEdges curr pc output := by
  unfold newEdges
  rw [hcons, if_neg Bool.false_ne_true]
  apply mem_map.mpr
  exact ⟨p, mem_filter.mpr ⟨hp, by simp [hover]⟩, rfl⟩

theorem edge_of_coexisting {source : ℕ} (hprod : curr.isProducer = true) (hco : canProdCoexist curr pc = true)
    (hp : p ∈ pc.producers) (hne : source ≠ p.op) (h : ⟨source, p.op⟩ ∈ output) :
    ⟨source, curr.op⟩ ∈ newEdges curr pc output := by
  unfold newEdges
  rw [if_pos hprod, if_pos hco]
  apply mem_map.mpr
  exact ⟨source, mem_sources ⟨p, hp, rfl⟩ hne h, rfl⟩

theorem edge_of_producer (hprod : curr.isProducer = true) (hco : canProdCoexist curr pc = false)
    (hnone : pc.consumers.isEmpty = true) (hp : p ∈ pc.producers) : ⟨p.op, curr.op⟩ ∈ newEdges curr pc output := by
  unfold newEdges
  rw [if_pos hprod, hco, if_neg Bool.false_ne_true, if_pos hnone]
  exact mem_map.mpr ⟨p, hp, rfl⟩

theorem edge_of_reader (hprod : curr.isProducer = true) (hco : canProdCoexist curr pc = false)
    (hc : c ∈ pc.consumers) : ⟨c.op, curr.op⟩ ∈ newEdges curr pc output := by
  have hsome : ¬ pc.consumers.isEmpty = true := by
    rw [List.isEmpty_iff]
    exact ne_nil_of_mem hc
  unfold newEdges
  rw [if_pos hprod, hco, if_neg Bool.false_ne_true, if_neg hsome]
  exact mem_map.mpr ⟨c, hc, rfl⟩

theorem subset_edgesOver (m : List (Piece ProdCons)) : output ⊆ edgesOver curr m output := by
  induction m generalizing output with
  | nil => exact List.Subset.refl _
  | cons q m ih => exact List.Subset.trans (subset_append_left _ _) ih

theorem newEdges_subset_edgesOver {m : List (Piece ProdCons)} {q : Piece ProdCons} (hq : q ∈ m) :
    ∃ found, output ⊆ found ∧ newEdges curr q.val found ⊆ edgesOver curr m output := by
  induction m generalizing output with
  | nil => exact absurd hq not_mem_nil
  | cons q' m ih =>
    rcases mem_cons.mp hq with rfl | hq
    · exact ⟨output, List.Subset.refl _, List.Subset.trans (subset_append_right _ _) (subset_edgesOver m)⟩
    · obtain ⟨found, hfound, hedges⟩ := @ih (output ++ newEdges curr q'.val output) hq
      exact ⟨found, List.Subset.trans (subset_append_left _ _) hfound, hedges⟩

end

end NpuCompiler.Control.ControlEdgeGenerator

namespace NpuCompiler.Control.History

open IntervalMap DisjointIntervalSet ControlEdgeGenerator

structure Stored (h : History) (v : ProdCons) : Prop where
  producers : v.producers = h.producers
  consumers : v.consumers ⊆ h.consumers
  consumerOps : ∀ c ∈ h.consumers, ∃ c' ∈ v.consumers, c'.op = c.op

structure Sound (h : History) (output : ControlEdgeSet) : Prop where
  retired : ∀ a ∈ h.retired, ∀ p ∈ h.producers, Reaches output a.op p.op
  read : ∀ c ∈ h.consumers, ∀ p ∈ h.producers, c.canOverlap p = false → Reaches output p.op c.op
  consumer : ∀ c ∈ h.consumers, c.isProducer = false

theorem Sound.mono {h : History} {output output' : ControlEdgeSet} (hs : h.Sound output) (hsub : output ⊆ output') :
    h.Sound output' :=
  ⟨fun a ha p hp => (hs.retired a ha p hp).mono hsub, fun c hc p hp hover => (hs.read c hc p hp hover).mono hsub,
    hs.consumer⟩

section
variable {h : History} {v : ProdCons} {e : ScheduledOpOneResource} {output found output' : ControlEdgeSet}

theorem Stored.coexists (hv : h.Stored v) : canProdCoexist e v = h.coexists e := by
  unfold canProdCoexist History.coexists
  rw [hv.producers]

theorem Stored.consumers_isEmpty (hv : h.Stored v) : v.consumers.isEmpty = h.consumers.isEmpty := by
  cases hc : h.consumers with
  | nil =>
    have := hv.consumers
    rw [hc] at this
    rw [List.eq_nil_of_subset_nil this]
  | cons c cs =>
    obtain ⟨c', hc', -⟩ := hv.consumerOps c (by simp [hc])
    rw [List.isEmpty_cons, List.isEmpty_eq_false_iff]
    exact List.ne_nil_of_mem hc'

theorem stored_first : (access none e).Stored (ProdCons.ofProducer e) :=
  ⟨rfl, List.Subset.refl _, fun _ hc => absurd hc List.not_mem_nil⟩

theorem Stored.access (hv : h.Stored v) : (access (some h) e).Stored (newProdCons e v) := by
  unfold newProdCons
  rw [hv.coexists]
  by_cases hprod : e.isProducer = true
  · rw [if_pos hprod]
    by_cases hco : h.coexists e = true
    · rw [access_coexisting hprod hco, if_pos hco]
      refine ⟨?_, hv.consumers, hv.consumerOps⟩
      simp only [ProdCons.addProducer, hv.producers]
    · rw [access_sole hprod (by simpa using hco), if_neg hco]
      exact ⟨rfl, List.Subset.refl _, fun _ hc => absurd hc List.not_mem_nil⟩
  · rw [access_consumer (by simpa using hprod), if_neg hprod]
    refine ⟨hv.producers, ?_, ?_⟩
    · intro c hc
      apply List.mem_append.mpr
      rcases mem_of_mem_setInsert hc with rfl | hc
      · exact .inr (List.mem_singleton.mpr rfl)
      · exact .inl (hv.consumers hc)
    · intro c hc
      rcases List.mem_append.mp hc with hc | hc
      · obtain ⟨c', hc', hop⟩ := hv.consumerOps c hc
        exact ⟨c', subset_setInsert hc', hop⟩
      · obtain rfl := List.mem_singleton.mp hc
        obtain ⟨c', hc', h1, h2⟩ := @exists_mem_setInsert _ ScheduledOpOneResource.less c v.consumers c.less_irrefl
        exact ⟨c', hc', ScheduledOpOneResource.op_eq_of_equiv h1 h2⟩

theorem mem_all_access {a : ScheduledOpOneResource} (ha : a ∈ h.all ∨ a = e) : a ∈ (access (some h) e).all := by
  by_cases hprod : e.isProducer = true
  · by_cases hco : h.coexists e = true
    · rw [access_coexisting hprod hco, mem_all]
      simp only [List.mem_append, List.mem_filter, List.mem_singleton, decide_eq_true_eq]
      rcases ha with ha | rfl
      · rcases mem_all.mp ha with ha | ha | ha | ha
        · exact .inl (subset_setInsert ha)
        · exact .inr (.inl ha)
        · by_cases hown : a ∈ h.ownOp
          · exact .inr (.inr (.inr (.inl (.inr hown))))
          · exact .inr (.inr (.inl ⟨ha, hown⟩))
        · exact .inr (.inr (.inr (.inl (.inl ha))))
      · by_cases hin : a ∈ setInsert ScheduledOpOneResource.less a h.producers
        · exact .inl hin
        · exact .inr (.inr (.inr (.inr ⟨rfl, hin⟩)))
    · rw [access_sole hprod (by simpa using hco), mem_all]
      simp only [List.mem_filter, List.mem_singleton]
      rcases ha with ha | rfl
      · by_cases hf : h.follows e a = true
        · exact .inr (.inr (.inl ⟨ha, hf⟩))
        · exact .inr (.inr (.inr ⟨ha, by simpa using hf⟩))
      · exact .inl rfl
  · rw [access_consumer (by simpa using hprod), mem_all]
    simp only [List.mem_append, List.mem_singleton]
    rcases ha with ha | rfl
    · rcases mem_all.mp ha with ha | ha | ha | ha
      · exact .inl ha
      · exact .inr (.inl (.inl ha))
      · exact .inr (.inr (.inl ha))
      · exact .inr (.inr (.inr ha))
    · exact .inr (.inl (.inr rfl))

theorem reaches_of_follows (hv : h.Stored v) (hs : h.Sound output) (hfound : output ⊆ output')
    (hedges : newEdges e v found ⊆ output') (hprod : e.isProducer = true) (hco : h.coexists e = false)
    {a : ScheduledOpOneResource} (ha : h.follows e a = true) : Reaches output' a.op e.op := by
  have hco' : canProdCoexist e v = false := hv.coexists.trans hco
  have reader : ∀ c ∈ h.consumers, Reaches output' c.op e.op := by
    intro c hc
    obtain ⟨c', hc', hop⟩ := hv.consumerOps c hc
    rw [← hop]
    exact Reaches.of_edge (hedges (edge_of_reader hprod hco' hc'))
  have producer : ∀ p ∈ h.producers, h.followed e p = true → Reaches output' p.op e.op := by
    intro p hp hfol
    unfold followed at hfol
    rw [Bool.or_eq_true, Bool.or_eq_true, decide_eq_true_eq, List.any_eq_true] at hfol
    rcases hfol with (hnone | hop) | ⟨c, hc, hbehind⟩
    · rw [← hv.consumers_isEmpty] at hnone
      exact Reaches.of_edge (hedges (edge_of_producer hprod hco' hnone (by rwa [hv.producers])))
    · exact Reaches.of_eq hop
    · rw [Bool.or_eq_true, decide_eq_true_eq] at hbehind
      rcases hbehind with hop | hover
      · exact hop ▸ reader c hc
      · exact ((hs.read c hc p hp (by simpa using hover)).mono hfound).trans (reader c hc)
  unfold follows at ha
  rw [Bool.or_eq_true, decide_eq_true_eq, List.any_eq_true] at ha
  rcases ha with hc | ⟨p, hp, hp'⟩
  · exact reader a hc
  · rw [Bool.and_eq_true, Bool.or_eq_true, Bool.or_eq_true, decide_eq_true_eq, decide_eq_true_eq, decide_eq_true_eq] at hp'
    obtain ⟨hfol, (rfl | hret) | hop⟩ := hp'
    · exact producer p hp hfol
    · exact ((hs.retired a hret p hp).mono hfound).trans (producer p hp hfol)
    · rw [← hop]
      exact producer p hp hfol

theorem reaches_of_coexists (hv : h.Stored v) (hs : h.Sound output) (hfound : output ⊆ found)
    (hout : output ⊆ output') (hedges : newEdges e v found ⊆ output') (hprod : e.isProducer = true)
    (hco : h.coexists e = true) {a : ScheduledOpOneResource} (ha : a ∈ h.retired) (hown : a ∉ h.ownOp) :
    Reaches output' a.op e.op := by
  have hother : ∃ p ∈ h.producers, p.op ≠ a.op := by
    by_contra hno
    apply hown
    rw [mem_ownOp]
    refine ⟨ha, ?_⟩
    intro p hp
    by_contra hne
    exact hno ⟨p, hp, hne⟩
  obtain ⟨p, hp, hne⟩ := hother
  obtain ⟨source, hsource, hpath, hlast⟩ := (hs.retired a ha p hp).exists_last hne.symm
  have hedge : ⟨source, e.op⟩ ∈ newEdges e v found :=
    edge_of_coexisting hprod (hv.coexists.trans hco) (by rwa [hv.producers]) hsource (hfound hlast)
  exact (hpath.mono hout).tail (hedges hedge)

theorem reaches_of_tracked (hv : h.Stored v) (hs : h.Sound output) (hfound : output ⊆ found)
    (hout : output ⊆ output') (hedges : newEdges e v found ⊆ output') (ht : tracked (some h) e = true)
    {a : ScheduledOpOneResource} (ha : a ∈ h.all) (hprod : a.isProducer = true ∨ e.isProducer = true)
    (hover : a.canOverlap e = false) : Reaches output' a.op e.op := by
  have hmissed : a ∈ h.missed e → Reaches output' a.op e.op := by
    intro hm
    have hop := List.all_eq_true.mp ht a hm
    rw [hover, Bool.or_false, decide_eq_true_eq] at hop
    exact Reaches.of_eq hop
  have hover' : e.canOverlap a = false := (e.canOverlap_comm a).trans hover
  by_cases hcurr : e.isProducer = true
  · by_cases hco : h.coexists e = true
    · rcases mem_all.mp ha with ha | ha | ha | ha
      · have := List.all_eq_true.mp hco a ha
        rw [hover'] at this
        exact absurd this Bool.false_ne_true
      · apply hmissed
        simp [missed, hcurr, hco, ha]
      · by_cases hown : a ∈ h.ownOp
        · apply hmissed
          simp [missed, hcurr, hco, hown]
        · exact reaches_of_coexists hv hs hfound hout hedges hcurr hco ha hown
      · apply hmissed
        simp [missed, hcurr, hco, ha]
    · by_cases hf : h.follows e a = true
      · exact reaches_of_follows hv hs hout hedges hcurr (by simpa using hco) hf
      · apply hmissed
        simp [missed, hcurr, hco, ha, hf]
  · have hcons : e.isProducer = false := by simpa using hcurr
    have hprod' : a.isProducer = true := hprod.resolve_right hcurr
    have from_producer : ∀ p ∈ h.producers, e.canOverlap p = false → Reaches output' p.op e.op := by
      intro p hp hover
      exact Reaches.of_edge (hedges (edge_of_consumer hcons (by rwa [hv.producers]) hover))
    rcases mem_all.mp ha with ha | ha | ha | ha
    · exact from_producer a ha hover'
    · rw [hs.consumer a ha] at hprod'
      exact absurd hprod' Bool.false_ne_true
    · by_cases hmeet : ∃ p ∈ h.producers, e.canOverlap p = false
      · obtain ⟨p, hp, hpo⟩ := hmeet
        exact ((hs.retired a ha p hp).mono hout).trans (from_producer p hp hpo)
      · apply hmissed
        have hall : ∀ p ∈ h.producers, e.canOverlap p = true := by simpa using hmeet
        simp only [missed, hcons, Bool.false_eq_true, if_false]
        exact List.mem_append_left _ (List.mem_filter.mpr ⟨ha, by simpa [hprod'] using hall⟩)
    · by_cases hmeet : ∃ p ∈ h.producers, p.op = a.op ∧ e.canOverlap p = false
      · obtain ⟨p, hp, hop, hpo⟩ := hmeet
        rw [← hop]
        exact from_producer p hp hpo
      · apply hmissed
        have hall : ∀ p ∈ h.producers, p.op = a.op → e.canOverlap p = true := by simpa using hmeet
        simp only [missed, hcons, Bool.false_eq_true, if_false]
        exact List.mem_append_right _ (List.mem_filter.mpr ⟨ha, by simpa [hprod'] using hall⟩)

theorem sound_first : (access none e).Sound output :=
  ⟨fun _ ha => absurd ha List.not_mem_nil, fun _ hc => absurd hc List.not_mem_nil,
    fun _ hc => absurd hc List.not_mem_nil⟩

theorem Sound.access (hv : h.Stored v) (hs : h.Sound output) (hfound : output ⊆ found) (hout : output ⊆ output')
    (hedges : newEdges e v found ⊆ output') (ht : tracked (some h) e = true) :
    (access (some h) e).Sound output' := by
  have hold := hs.mono hout
  by_cases hcurr : e.isProducer = true
  · by_cases hco : h.coexists e = true
    · rw [access_coexisting hcurr hco]
      refine ⟨?_, ?_, hs.consumer⟩
      · intro a ha p hp
        obtain ⟨hret, hown⟩ := List.mem_filter.mp ha
        rcases mem_of_mem_setInsert hp with rfl | hp
        · exact reaches_of_coexists hv hs hfound hout hedges hcurr hco hret (by simpa using hown)
        · exact hold.retired a hret p hp
      · intro c hc p hp hover
        rcases mem_of_mem_setInsert hp with rfl | hp
        · have hm : c ∈ h.missed p := by simp [missed, hcurr, hco, show c ∈ h.consumers from hc]
          have hop := List.all_eq_true.mp ht c hm
          rw [hover, Bool.or_false, decide_eq_true_eq] at hop
          exact Reaches.of_eq hop.symm
        · exact hold.read c hc p hp hover
    · rw [access_sole hcurr (by simpa using hco)]
      refine ⟨?_, fun _ hc => absurd hc List.not_mem_nil, fun _ hc => absurd hc List.not_mem_nil⟩
      intro a ha p hp
      obtain rfl := List.mem_singleton.mp hp
      exact reaches_of_follows hv hs hout hedges hcurr (by simpa using hco) (List.mem_filter.mp ha).2
  · have hcons : e.isProducer = false := by simpa using hcurr
    rw [access_consumer hcons]
    refine ⟨hold.retired, ?_, ?_⟩
    · intro c hc p hp hover
      rcases List.mem_append.mp hc with hc | hc
      · exact hold.read c hc p hp hover
      · obtain rfl := List.mem_singleton.mp hc
        exact Reaches.of_edge (hedges (edge_of_consumer hcons (by rwa [hv.producers]) hover))
    · intro c hc
      rcases List.mem_append.mp hc with hc | hc
      · exact hs.consumer c hc
      · obtain rfl := List.mem_singleton.mp hc
        exact hcons

end

theorem mem_all_after {entries : List ScheduledOpOneResource} {a : ScheduledOpOneResource} {x : ℕ}
    (ha : a ∈ entries) (hx : a.covers x = true) : ∃ h, after entries x = some h ∧ a ∈ h.all := by
  induction entries using List.reverseRecOn with
  | nil => exact absurd ha List.not_mem_nil
  | append_singleton entries e ih =>
    by_cases hcov : e.covers x = true
    · rw [after_append_of_covers hcov]
      refine ⟨_, rfl, ?_⟩
      rcases List.mem_append.mp ha with ha | ha
      · obtain ⟨h, hafter, hall⟩ := ih ha
        rw [hafter]
        exact mem_all_access (.inl hall)
      · obtain rfl := List.mem_singleton.mp ha
        cases after entries x with
        | none => simp [access, all]
        | some h => exact mem_all_access (.inr rfl)
    · rw [after_append_of_not_covers (by simpa using hcov)]
      rcases List.mem_append.mp ha with ha | ha
      · exact ih ha
      · obtain rfl := List.mem_singleton.mp ha
        exact absurd hx hcov

end NpuCompiler.Control.History

namespace NpuCompiler.Control

def ScheduledOpOneResource.Conflicts (a b : ScheduledOpOneResource) : Prop :=
  a.op ≠ b.op ∧ max a.addressStart b.addressStart ≤ min a.addressEnd b.addressEnd ∧
    (a.isProducer = true ∨ b.isProducer = true) ∧ a.canOverlap b = false

namespace ControlEdgeGenerator

open IntervalMap DisjointIntervalSet History Relation

def Tracked (entries : List ScheduledOpOneResource) : Prop :=
  ∀ k (hk : k < entries.length) x, entries[k].covers x = true → tracked (after (entries.take k) x) entries[k] = true

structure Invariant (entries : List ScheduledOpOneResource) (ps : List (Piece ProdCons)) (s : State) : Prop where
  stores : Stores ps s
  untouched : ∀ x, after entries x = none → ∀ v, ¬ At ps x v
  stored : ∀ x h, after entries x = some h → ∃ v, At ps x v ∧ h.Stored v
  sound : ∀ x h, after entries x = some h → h.Sound s.outputDependency
  ordered : entries.Pairwise (fun a b => a.Conflicts b → TransGen (Edge s.outputDependency) a.op b.op)

theorem invariant_init : Invariant [] [] init :=
  ⟨stores_init, fun _ _ _ => not_at_nil _ _, fun _ _ h => absurd h (by simp [after]),
    fun _ _ h => absurd h (by simp [after]), List.Pairwise.nil⟩

theorem Tracked.prefix {entries : List ScheduledOpOneResource} {curr : ScheduledOpOneResource}
    (h : Tracked (entries ++ [curr])) : Tracked entries := by
  intro k hk x hx
  have hlt : k < (entries ++ [curr]).length := by
    rw [List.length_append]
    omega
  have := h k hlt x
  rw [List.getElem_append_left hk, List.take_append_of_le_length hk.le] at this
  exact this hx

theorem Tracked.last {entries : List ScheduledOpOneResource} {curr : ScheduledOpOneResource}
    (h : Tracked (entries ++ [curr])) {x : ℕ} (hx : curr.covers x = true) :
    tracked (after entries x) curr = true := by
  have := h entries.length (by simp) x
  rw [List.getElem_concat_length rfl, List.take_left] at this
  exact this hx

section
variable {entries : List ScheduledOpOneResource} {curr : ScheduledOpOneResource} {ps : List (Piece ProdCons)}
  {s : State}

theorem Invariant.skip (h : Invariant entries ps s) (hempty : curr.addressStart > curr.addressEnd) :
    Invariant (entries ++ [curr]) ps s := by
  have hcov : ∀ x, curr.covers x = false := fun x => decide_eq_false (by omega)
  refine ⟨h.stores, ?_, ?_, ?_, ?_⟩
  · intro x
    rw [after_append_of_not_covers (hcov x)]
    exact h.untouched x
  · intro x
    rw [after_append_of_not_covers (hcov x)]
    exact h.stored x
  · intro x
    rw [after_append_of_not_covers (hcov x)]
    exact h.sound x
  · apply List.pairwise_append.mpr
    refine ⟨h.ordered, List.pairwise_singleton _ _, ?_⟩
    intro a _ b hb hconf
    obtain rfl := List.mem_singleton.mp hb
    obtain ⟨-, hmeet, -⟩ := hconf
    omega

theorem Invariant.process (h : Invariant entries ps s) (ht : Tracked (entries ++ [curr]))
    (hbe : curr.addressStart ≤ curr.addressEnd) (hend : curr.addressEnd < 2 ^ 64) :
    ∃ fuel s' count ps', processNextInterval fuel s curr = some (s', count) ∧
      Invariant (entries ++ [curr]) ps' s' := by
  obtain ⟨fuel, s', count, ps', m, hstep, hstores, -, hout, hat, hmet⟩ := processNextInterval_stores h.stores hbe hend
  have hsub : s.outputDependency ⊆ s'.outputDependency := by
    rw [hout]
    exact subset_edgesOver m
  have edges {x : ℕ} {v : ProdCons} (h1 : curr.addressStart ≤ x) (h2 : x ≤ curr.addressEnd) (hv : At ps x v) :
      ∃ found, s.outputDependency ⊆ found ∧ newEdges curr v found ⊆ s'.outputDependency := by
    obtain ⟨q, hq, rfl⟩ := hmet x v h1 h2 hv
    rw [hout]
    exact newEdges_subset_edgesOver hq
  refine ⟨fuel, s', count, ps', hstep, hstores, ?_, ?_, ?_, ?_⟩
  · intro x hx v
    by_cases hcov : curr.covers x = true
    · rw [after_append_of_covers hcov] at hx
      exact absurd hx (Option.some_ne_none _)
    · rw [after_append_of_not_covers (by simpa using hcov)] at hx
      rw [hat, if_neg (by simpa [ScheduledOpOneResource.covers] using hcov)]
      exact h.untouched x hx v
  · intro x hist hx
    by_cases hcov : curr.covers x = true
    · have hin : curr.addressStart ≤ x ∧ x ≤ curr.addressEnd := of_decide_eq_true hcov
      rw [after_append_of_covers hcov, Option.some.injEq] at hx
      simp only [hat, if_pos hin]
      cases hprev : after entries x with
      | none =>
        rw [hprev] at hx
        exact ⟨_, .inr ⟨h.untouched x hprev, rfl⟩, hx ▸ stored_first⟩
      | some hist' =>
        rw [hprev] at hx
        obtain ⟨v, hv, hstored⟩ := h.stored x hist' hprev
        exact ⟨_, .inl ⟨v, hv, rfl⟩, hx ▸ hstored.access⟩
    · rw [after_append_of_not_covers (by simpa using hcov)] at hx
      have hout : ¬ (curr.addressStart ≤ x ∧ x ≤ curr.addressEnd) := by
        simpa [ScheduledOpOneResource.covers] using hcov
      simp only [hat, if_neg hout]
      exact h.stored x hist hx
  · intro x hist hx
    by_cases hcov : curr.covers x = true
    · have hin : curr.addressStart ≤ x ∧ x ≤ curr.addressEnd := of_decide_eq_true hcov
      rw [after_append_of_covers hcov, Option.some.injEq] at hx
      have hlast := ht.last hcov
      cases hprev : after entries x with
      | none =>
        rw [hprev] at hx
        exact hx ▸ sound_first
      | some hist' =>
        rw [hprev] at hx hlast
        obtain ⟨v, hv, hstored⟩ := h.stored x hist' hprev
        obtain ⟨found, hfound, hedges⟩ := edges hin.1 hin.2 hv
        exact hx ▸ (h.sound x hist' hprev).access hstored hfound hsub hedges hlast
    · rw [after_append_of_not_covers (by simpa using hcov)] at hx
      exact (h.sound x hist hx).mono hsub
  · apply List.pairwise_append.mpr
    refine ⟨?_, List.pairwise_singleton _ _, ?_⟩
    · apply h.ordered.imp
      intro a b hpath hconf
      exact TransGen.mono (fun _ _ hedge => hsub hedge) _ _ (hpath hconf)
    · intro a ha b hb hconf
      obtain rfl := List.mem_singleton.mp hb
      obtain ⟨hne, hmeet, hprod, hover⟩ := hconf
      -- an address that both ranges have
      have hxa : a.covers (max a.addressStart b.addressStart) = true := decide_eq_true (by omega)
      have hxb : b.covers (max a.addressStart b.addressStart) = true := decide_eq_true (by omega)
      obtain ⟨hist, hafter, hall⟩ := mem_all_after ha hxa
      have hlast := ht.last hxb
      rw [hafter] at hlast
      obtain ⟨v, hv, hstored⟩ := h.stored _ hist hafter
      obtain ⟨found, hfound, hedges⟩ := edges (by omega) (by omega) hv
      have hpath := reaches_of_tracked hstored (h.sound _ hist hafter) hfound hsub hedges hlast hall hprod hover
      exact hpath.transGen hne

theorem invariant_run (hend : ∀ e ∈ entries, e.addressEnd < 2 ^ 64) (ht : Tracked entries) :
    ∃ fuel s count ps, generateControlEdges fuel entries init 0 = some (s, count) ∧ Invariant entries ps s := by
  induction entries using List.reverseRecOn with
  | nil => exact ⟨0, init, 0, [], rfl, invariant_init⟩
  | append_singleton entries curr ih =>
    obtain ⟨fuel, s, count, ps, hrun, hinv⟩ := ih (fun e he => hend e (by simp [he])) ht.prefix
    by_cases hempty : curr.addressStart > curr.addressEnd
    · refine ⟨fuel, s, count, ps, ?_, hinv.skip hempty⟩
      rw [generateControlEdges_append, hrun, Option.bind_some, generateControlEdges, if_pos hempty]
      rfl
    · obtain ⟨fuel', s', count', ps', hstep, hinv'⟩ := hinv.process ht (not_lt.mp hempty) (hend curr (by simp))
      refine ⟨max fuel fuel', s', count + count', ps', ?_, hinv'⟩
      rw [generateControlEdges_append, generateControlEdges_mono (le_max_left fuel fuel') hrun, Option.bind_some,
        generateControlEdges, if_neg hempty, processNextInterval_mono (le_max_right fuel fuel') hstep]
      rfl

end

/-- Where no step misses an earlier access in conflict, an edge path orders every conflict. -/
theorem conflicts_ordered (entries : List ScheduledOpOneResource) (hend : ∀ e ∈ entries, e.addressEnd < 2 ^ 64)
    (ht : Tracked entries) :
    ∃ bound s count, (∀ fuel ≥ bound, generateControlEdges fuel entries init 0 = some (s, count)) ∧
      entries.Pairwise (fun a b => a.Conflicts b → TransGen (Edge s.outputDependency) a.op b.op) := by
  obtain ⟨fuel, s, count, ps, hrun, hinv⟩ := invariant_run hend ht
  exact ⟨fuel, s, count, fun fuel' hle => generateControlEdges_mono hle hrun, hinv.ordered⟩

/-- The accesses of an address have no views: they all conflict, and the owner is followed by every new producer. -/
structure Plain (x : ℕ) (h : History) : Prop where
  sole : ∃ p, h.producers = [p]
  remembered : h.forgotten = []
  plain : ∀ a ∈ h.all, a.resourceView = none ∧ a.covers x = true

section
variable {x : ℕ} {h : History} {e a : ScheduledOpOneResource}

theorem Plain.coexists (hplain : Plain x h) (hx : e.covers x = true) (hview : e.resourceView = none) : h.coexists e = false := by
  obtain ⟨p, hp⟩ := hplain.sole
  have hmem : p ∈ h.all := mem_all.mpr (.inl (by simp [hp]))
  unfold History.coexists
  rw [hp, List.all_cons, ScheduledOpOneResource.canOverlap_eq_false hx (hplain.plain p hmem).2 hview, Bool.false_and]

theorem Plain.follows (hplain : Plain x h) (ha : a ∈ h.all) : h.follows e a = true := by
  obtain ⟨p, hp⟩ := hplain.sole
  have hpMem : p ∈ h.all := mem_all.mpr (.inl (by simp [hp]))
  have hfollowed : h.followed e p = true := by
    unfold followed
    cases hconsumers : h.consumers with
    | nil => rfl
    | cons c rest =>
      have hc : c ∈ h.all := mem_all.mpr (.inr (.inl (by simp [hconsumers])))
      obtain ⟨hview, hx⟩ := hplain.plain c hc
      simp [ScheduledOpOneResource.canOverlap_eq_false hx (hplain.plain p hpMem).2 hview]
  unfold History.follows
  rcases mem_all.mp ha with ha | ha | ha | ha
  · obtain rfl : a = p := List.mem_singleton.mp (hp ▸ ha)
    simp [hp, hfollowed]
  · simp [ha]
  · simp [hp, hfollowed, ha]
  · exact absurd (hplain.remembered ▸ ha) List.not_mem_nil

theorem Plain.access (hplain : Plain x h) (hx : e.covers x = true) (hview : e.resourceView = none) :
    Plain x (access (some h) e) := by
  by_cases hprod : e.isProducer = true
  · rw [access_sole hprod (hplain.coexists hx hview)]
    refine ⟨⟨e, rfl⟩, ?_, ?_⟩
    · simpa using fun a ha => hplain.follows ha
    · intro a ha
      rcases mem_all.mp ha with ha | ha | ha | ha
      · exact List.mem_singleton.mp ha ▸ ⟨hview, hx⟩
      · exact absurd ha List.not_mem_nil
      · exact hplain.plain a (List.mem_filter.mp ha).1
      · exact hplain.plain a (List.mem_filter.mp ha).1
  · rw [access_consumer (by simpa using hprod)]
    refine ⟨hplain.sole, hplain.remembered, ?_⟩
    intro a ha
    simp only [mem_all, List.mem_append, List.mem_singleton] at ha
    rcases ha with ha | (ha | rfl) | ha | ha
    · exact hplain.plain a (mem_all.mpr (.inl ha))
    · exact hplain.plain a (mem_all.mpr (.inr (.inl ha)))
    · exact ⟨hview, hx⟩
    · exact hplain.plain a (mem_all.mpr (.inr (.inr (.inl ha))))
    · exact hplain.plain a (mem_all.mpr (.inr (.inr (.inr ha))))

theorem Plain.missed (hplain : Plain x h) (hx : e.covers x = true) (hview : e.resourceView = none) : h.missed e = [] := by
  obtain ⟨p, hp⟩ := hplain.sole
  have hmem : p ∈ h.all := mem_all.mpr (.inl (by simp [hp]))
  unfold History.missed
  by_cases hprod : e.isProducer = true
  · rw [if_pos hprod, hplain.coexists hx hview, if_neg Bool.false_ne_true]
    simpa using fun a ha => hplain.follows ha
  · rw [if_neg hprod]
    simp [hplain.remembered, hp, ScheduledOpOneResource.canOverlap_eq_false hx (hplain.plain p hmem).2 hview]

end

theorem plain_after {entries : List ScheduledOpOneResource} {x : ℕ} (hview : ∀ e ∈ entries, e.resourceView = none) :
    ∀ h, after entries x = some h → Plain x h := by
  induction entries using List.reverseRecOn with
  | nil => exact fun h hnone => nomatch hnone
  | append_singleton entries e ih =>
    have ih := ih (fun a ha => hview a (List.mem_append_left _ ha))
    have hlast := hview e (by simp)
    intro h hafter
    by_cases hx : e.covers x = true
    · rw [after_append_of_covers hx, Option.some.injEq] at hafter
      rw [← hafter]
      cases hbefore : after entries x with
      | none =>
        refine ⟨⟨e, rfl⟩, rfl, fun a ha => ?_⟩
        obtain rfl : a = e := List.mem_singleton.mp ha
        exact ⟨hlast, hx⟩
      | some h' => exact (ih h' hbefore).access hx hlast
    · rw [after_append_of_not_covers (by simpa using hx)] at hafter
      exact ih h hafter

/-- Without resource views no access is missed. -/
theorem tracked_of_noView {entries : List ScheduledOpOneResource} (hview : ∀ e ∈ entries, e.resourceView = none) :
    Tracked entries := by
  intro k hk x hx
  cases hafter : after (entries.take k) x with
  | none => rfl
  | some h =>
    have hplain := plain_after (fun e he => hview e (List.mem_of_mem_take he)) h hafter
    unfold tracked
    dsimp only
    rw [hplain.missed hx (hview _ (List.getElem_mem hk)), List.all_nil]

def twoViews : List ScheduledOpOneResource :=
  [⟨0, 0, 1, .producer, some ⟨0, [0], [1], [1]⟩⟩, ⟨1, 0, 1, .producer, some ⟨0, [1], [1], [1]⟩⟩,
    ⟨2, 0, 1, .consumer, some ⟨0, [0], [1], [1]⟩⟩, ⟨3, 0, 1, .consumer, some ⟨0, [1], [1], [1]⟩⟩,
    ⟨4, 0, 2, .producer, none⟩]

theorem tracked_twoViews : Tracked twoViews := by
  have hall : ∀ (k : Fin 5) (x : Fin 3), tracked (after (twoViews.take k) x) (twoViews.get k) = true := by decide
  intro k hk x hx
  have hbound : ∀ e ∈ twoViews, e.addressEnd < 3 := by decide
  have hlt := hbound twoViews[k] (List.getElem_mem hk)
  have hin : twoViews[k].addressStart ≤ x ∧ x ≤ twoViews[k].addressEnd := of_decide_eq_true hx
  exact hall ⟨k, hk⟩ ⟨x, by omega⟩

theorem conflicts_ordered_five :
    ∃ bound s count, (∀ fuel ≥ bound, generateControlEdges fuel twoViews init 0 = some (s, count)) ∧
      twoViews.Pairwise (fun a b => a.Conflicts b → TransGen (Edge s.outputDependency) a.op b.op) :=
  conflicts_ordered twoViews (by decide) tracked_twoViews

def readerBetween : List ScheduledOpOneResource :=
  [⟨0, 0, 100, .producer, some ⟨0, [0], [1], [1]⟩⟩, ⟨1, 0, 100, .consumer, none⟩,
    ⟨2, 0, 100, .producer, some ⟨0, [1], [1], [1]⟩⟩]

theorem conflict_unordered : ∃ s count, (∀ fuel ≥ 4, generateControlEdges fuel readerBetween init 0 = some (s, count)) ∧
      ¬ readerBetween.Pairwise (fun a b => a.Conflicts b → TransGen (Edge s.outputDependency) a.op b.op) := by
  have hrun : ∃ s count, generateControlEdges 4 readerBetween init 0 = some (s, count) ∧
      s.outputDependency = [⟨0, 1⟩] := ⟨_, _, rfl, by decide⟩
  obtain ⟨s, count, hrun, hedges⟩ := hrun
  refine ⟨s, count, fun fuel hle => generateControlEdges_mono hle hrun, ?_⟩
  intro hpair
  have hpath : TransGen (Edge s.outputDependency) 1 2 := by
    have hrest := (List.pairwise_cons.mp hpair).2
    apply (List.pairwise_cons.mp hrest).1 _ (List.mem_singleton.mpr rfl)
    exact ⟨by decide, by decide, .inr rfl, by decide⟩
  obtain ⟨sink, hedge, -⟩ := TransGen.head'_iff.mp hpath
  unfold Edge at hedge
  rw [hedges] at hedge
  simp at hedge

end ControlEdgeGenerator

end NpuCompiler.Control
