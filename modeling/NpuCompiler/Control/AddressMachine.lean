import Mathlib.Data.Finset.Insert
import NpuCompiler.Control.SweepStep

namespace NpuCompiler.Control

open List

def ScheduledOpOneResource.covers (e : ScheduledOpOneResource) (x : ℕ) : Bool :=
  decide (e.addressStart ≤ x ∧ x ≤ e.addressEnd)

structure Owner where
  producer : ScheduledOpOneResource
  consumers : Finset ScheduledOpOneResource
  deriving DecidableEq

namespace Owner

def access : Option Owner → ScheduledOpOneResource → Option Owner
  | none, e => some ⟨e, ∅⟩
  | some o, e => if e.isProducer then some ⟨e, ∅⟩ else some { o with consumers := insert e o.consumers }

def after (entries : List ScheduledOpOneResource) (x : ℕ) : Option Owner :=
  (entries.filter (·.covers x)).foldl access none

structure StoredAs (o : Owner) (v : ProdCons) : Prop where
  producers : v.producers = [o.producer]
  consumers : v.consumers.toFinset = o.consumers

section
variable {entries : List ScheduledOpOneResource} {e : ScheduledOpOneResource} {x : ℕ} {o : Owner}

theorem after_append_of_covers (h : e.covers x = true) : after (entries ++ [e]) x = access (after entries x) e := by
  unfold after
  simp only [filter_append, filter_cons, h, if_true, filter_nil, foldl_append]
  rfl

theorem after_append_of_not_covers (h : e.covers x = false) : after (entries ++ [e]) x = after entries x := by
  unfold after
  rw [filter_append, filter_cons_of_neg (by simp [h]), filter_nil, append_nil]

theorem after_induction {P : Option Owner → Prop} (h0 : P none)
    (hstep : ∀ e ∈ entries, e.covers x = true → ∀ o, P o → P (access o e)) : P (after entries x) := by
  induction entries using List.reverseRecOn with
  | nil => exact h0
  | append_singleton entries e ih =>
    have hprev := ih (fun e' he' => hstep e' (mem_append_left _ he'))
    by_cases hx : e.covers x = true
    · rw [after_append_of_covers hx]
      exact hstep e (by simp) hx _ hprev
    · rw [after_append_of_not_covers (by simpa using hx)]
      exact hprev

theorem producer_covers (h : after entries x = some o) : o.producer.covers x = true := by
  have hall : ∀ o ∈ after entries x, o.producer.covers x = true := by
    apply @after_induction entries x (fun o => ∀ o' ∈ o, o'.producer.covers x = true)
    · simp
    · intro e _ hx o ho
      cases o with
      | none => simpa [access] using hx
      | some o =>
        rw [access]
        by_cases hprod : e.isProducer = true
        · simpa [hprod] using hx
        · simpa [hprod] using ho
  exact hall o h

theorem consumers_mem (h : after entries x = some o) : ∀ c ∈ o.consumers, c ∈ entries ∧ c.isProducer = false := by
  have hall : ∀ o ∈ after entries x, ∀ c ∈ o.consumers, c ∈ entries ∧ c.isProducer = false := by
    apply @after_induction entries x (fun o => ∀ o' ∈ o, ∀ c ∈ o'.consumers, c ∈ entries ∧ c.isProducer = false)
    · simp
    · intro e he _ o ho
      cases o with
      | none => simp [access]
      | some o =>
        rw [access]
        by_cases hprod : e.isProducer = true
        · simp [hprod]
        · have hold : ∀ c ∈ o.consumers, c ∈ entries ∧ c.isProducer = false := ho o rfl
          simpa [hprod] using ⟨he, hold⟩
  exact hall o h

theorem after_eq_none_iff : after entries x = none ↔ ∀ e ∈ entries, e.covers x = false := by
  induction entries using List.reverseRecOn with
  | nil => simp [after]
  | append_singleton entries e ih =>
    by_cases hx : e.covers x = true
    · rw [after_append_of_covers hx]
      have hsome : access (after entries x) e ≠ none := by
        cases after entries x with
        | none => exact Option.some_ne_none _
        | some o' =>
          rw [access]
          split <;> exact Option.some_ne_none _
      constructor
      · intro h
        exact absurd h hsome
      · intro h
        rw [h e (by simp)] at hx
        exact absurd hx Bool.false_ne_true
    · rw [after_append_of_not_covers (by simpa using hx), ih]
      simpa [or_imp, forall_and] using fun _ => hx

end

end Owner

theorem setInsert_toFinset {α : Type} [DecidableEq α] {less : α → α → Bool} {a : α} {l : List α}
    (h : ∀ y ∈ l, less a y = false → less y a = false → y = a) : (setInsert less a l).toFinset = insert a l.toFinset := by
  induction l with
  | nil => rfl
  | cons y l ih =>
    rw [setInsert]
    by_cases h1 : less a y = true
    · rw [if_pos h1, toFinset_cons]
    · rw [if_neg h1]
      by_cases h2 : less y a = true
      · rw [if_pos h2, toFinset_cons, toFinset_cons, ih (fun z hz => h z (by simp [hz])), Finset.insert_comm]
      · rw [if_neg h2]
        obtain rfl := h y (by simp) (by simpa using h1) (by simpa using h2)
        rw [toFinset_cons, Finset.insert_idem]

namespace ScheduledOpOneResource

theorem eq_of_equiv {a b : ScheduledOpOneResource} (h1 : a.less b = false) (h2 : b.less a = false)
    (hrel : a.resRelation = b.resRelation) (hview : a.resourceView = b.resourceView) : b = a := by
  obtain ⟨op, abeg, aend, rel, view⟩ := a
  obtain ⟨op', abeg', aend', rel', view'⟩ := b
  obtain rfl : rel = rel' := hrel
  obtain rfl : view = view' := hview
  unfold less at h1 h2
  simp only [mk.injEq, and_true]
  grind

theorem canOverlap_eq_false {a b : ScheduledOpOneResource} {x : ℕ} (ha : a.covers x = true) (hb : b.covers x = true)
    (hview : a.resourceView = none) : a.canOverlap b = false := by
  unfold covers at ha hb
  rw [decide_eq_true_eq] at ha hb
  unfold canOverlap
  rw [if_neg (by omega)]
  by_cases hsame : a.addressStart = b.addressStart ∧ a.addressEnd = b.addressEnd
  · rw [if_pos hsame, hview]
  · rw [if_neg hsame]

end ScheduledOpOneResource

namespace ControlEdgeGenerator

open IntervalMap DisjointIntervalSet Owner

def Refines (entries : List ScheduledOpOneResource) (ps : List (Piece ProdCons)) : Prop :=
  ∀ x, match after entries x with
    | none => ∀ v, ¬ At ps x v
    | some o => ∃ v, At ps x v ∧ o.StoredAs v

section
variable {entries : List ScheduledOpOneResource} {curr : ScheduledOpOneResource} {x : ℕ} {o : Owner}

theorem newProdCons_storedAs {v : ProdCons} (h : o.StoredAs v) (ho : after entries x = some o)
    (hview : ∀ e ∈ entries, e.resourceView = none) (hcurr : curr.resourceView = none) (hx : curr.covers x = true) :
    ∃ o', access (some o) curr = some o' ∧ o'.StoredAs (newProdCons curr v) := by
  unfold newProdCons
  by_cases hprod : curr.isProducer = true
  · have hcoexist : canProdCoexist curr v = false := by
      unfold canProdCoexist
      rw [h.producers, all_cons, all_nil, Bool.and_true]
      exact ScheduledOpOneResource.canOverlap_eq_false hx (producer_covers ho) hcurr
    rw [access, if_pos hprod, if_pos hprod, hcoexist]
    exact ⟨_, rfl, ⟨rfl, rfl⟩⟩
  · rw [access, if_neg hprod, if_neg hprod]
    refine ⟨_, rfl, h.producers, ?_⟩
    have hmerge : ∀ y ∈ v.consumers, curr.less y = false → y.less curr = false → y = curr := by
      intro y hy h1 h2
      obtain ⟨hmem, hcons⟩ := consumers_mem ho y (by rw [← h.consumers]; simpa using hy)
      apply ScheduledOpOneResource.eq_of_equiv h1 h2
      · unfold ScheduledOpOneResource.isProducer at hprod hcons
        cases hc : curr.resRelation <;> cases hy' : y.resRelation <;> simp_all
      · rw [hcurr, hview y hmem]
    rw [ProdCons.addConsumer, setInsert_toFinset hmerge, h.consumers]

theorem refines_append {ps ps' : List (Piece ProdCons)} (h : Refines entries ps)
    (hview : ∀ e ∈ entries, e.resourceView = none) (hcurr : curr.resourceView = none)
    (hat : ∀ x v, At ps' x v ↔
      if curr.addressStart ≤ x ∧ x ≤ curr.addressEnd then Takes curr ps x v else At ps x v) :
    Refines (entries ++ [curr]) ps' := by
  intro x
  have hx := h x
  by_cases hcov : curr.addressStart ≤ x ∧ x ≤ curr.addressEnd
  · have hcovers : curr.covers x = true := decide_eq_true hcov
    simp only [hat, if_pos hcov]
    rw [after_append_of_covers hcovers]
    cases ho : after entries x with
    | none =>
      rw [ho] at hx
      exact ⟨ProdCons.ofProducer curr, .inr ⟨hx, rfl⟩, rfl, rfl⟩
    | some o =>
      rw [ho] at hx
      obtain ⟨v, hv, hstored⟩ := hx
      obtain ⟨o', ho', hstored'⟩ := newProdCons_storedAs hstored ho hview hcurr hcovers
      rw [ho']
      exact ⟨newProdCons curr v, .inl ⟨v, hv, rfl⟩, hstored'⟩
  · have hcovers : curr.covers x = false := decide_eq_false hcov
    simp only [hat, if_neg hcov]
    rw [after_append_of_not_covers hcovers]
    exact hx

section
variable {ps : List (Piece ProdCons)} (h : Refines entries ps)
include h

theorem refines_skip (hempty : curr.addressStart > curr.addressEnd) : Refines (entries ++ [curr]) ps := by
  intro x
  have hcovers : curr.covers x = false := decide_eq_false (by omega)
  rw [after_append_of_not_covers hcovers]
  exact h x

theorem Refines.touched (x : ℕ) :
    (∃ v, At ps x v) ↔ ∃ e ∈ entries, e.addressStart ≤ x ∧ x ≤ e.addressEnd := by
  have hx := h x
  cases ho : after entries x with
  | none =>
    rw [ho] at hx
    have hnone := after_eq_none_iff.mp ho
    constructor
    · rintro ⟨v, hv⟩
      exact absurd hv (hx v)
    · rintro ⟨e, he, hcov⟩
      exact absurd hcov (of_decide_eq_false (hnone e he))
  | some o =>
    rw [ho] at hx
    obtain ⟨v, hv, -⟩ := hx
    have hsome : ¬ ∀ e ∈ entries, e.covers x = false := by
      rw [← after_eq_none_iff, ho]
      exact Option.some_ne_none o
    constructor
    · intro _
      by_contra hno
      apply hsome
      intro e he
      apply decide_eq_false
      intro hcov
      exact hno ⟨e, he, hcov⟩
    · intro _
      exact ⟨v, hv⟩

theorem Refines.stored (hord : Ordered ps) {v : ProdCons}
    (hv : At ps x v) : ∃ o, after entries x = some o ∧ o.StoredAs v := by
  have hx := h x
  cases ho : after entries x with
  | none =>
    rw [ho] at hx
    exact absurd hv (hx v)
  | some o =>
    rw [ho] at hx
    obtain ⟨v', hv', hstored⟩ := hx
    rw [hord.at_unique hv hv']
    exact ⟨o, rfl, hstored⟩

end

theorem generateControlEdges_run (hview : ∀ e ∈ entries, e.resourceView = none)
    (hend : ∀ e ∈ entries, e.addressEnd < 2 ^ 64) :
    ∃ fuel s count ps, generateControlEdges fuel entries init 0 = some (s, count) ∧ s.inserted = true ∧
      Stores ps s ∧ Refines entries ps := by
  induction entries using List.reverseRecOn with
  | nil => exact ⟨0, init, 0, [], rfl, rfl, stores_init, fun x => not_at_nil x⟩
  | append_singleton entries curr ih =>
    obtain ⟨fuel, s, count, ps, hrun, hins, hstores, href⟩ := ih (fun e he => hview e (by simp [he]))
      (fun e he => hend e (by simp [he]))
    by_cases hempty : curr.addressStart > curr.addressEnd
    · refine ⟨fuel, s, count, ps, ?_, hins, hstores, refines_skip href hempty⟩
      rw [generateControlEdges_append, hrun, Option.bind_some, generateControlEdges, if_pos hempty]
      rfl
    · obtain ⟨fuel', s', count', ps', m, hstep, hstores', hins', -, hat, -⟩ :=
        processNextInterval_stores hstores (not_lt.mp hempty) (hend curr (by simp))
      refine ⟨max fuel fuel', s', count + count', ps', ?_, hins'.trans hins, hstores', ?_⟩
      · rw [generateControlEdges_append, generateControlEdges_mono (le_max_left fuel fuel') hrun, Option.bind_some,
          generateControlEdges, if_neg hempty, processNextInterval_mono (le_max_right fuel fuel') hstep]
        rfl
      · exact refines_append href (fun e he => hview e (by simp [he])) (hview curr (by simp)) hat

end

/-- After the entries of any sequence, each address has the owner that its own machine computes. -/
theorem generateControlEdges_refines (entries rest : List ScheduledOpOneResource)
    (hview : ∀ e ∈ entries, e.resourceView = none) (hend : ∀ e ∈ entries, e.addressEnd < 2 ^ 64) :
    ∃ bound s count ps, (∀ fuel ≥ bound, generateControlEdges fuel entries init 0 = some (s, count) ∧
        generateControlEdges fuel (entries ++ rest) init 0 = generateControlEdges fuel rest s count) ∧
      s.inserted = true ∧ s.intervalTree = toTree ps ∧ Ordered ps ∧
      (∀ x, (∃ v, At ps x v) ↔ ∃ e ∈ entries, e.addressStart ≤ x ∧ x ≤ e.addressEnd) ∧
      ∀ x v, At ps x v → ∃ o, after entries x = some o ∧ v.producers = [o.producer] ∧
        v.consumers.toFinset = o.consumers := by
  obtain ⟨fuel, s, count, ps, hrun, hins, hstores, href⟩ := generateControlEdges_run hview hend
  refine ⟨fuel, s, count, ps, ?_, hins, hstores.tree, hstores.ordered, href.touched, ?_⟩
  · intro fuel' hle
    have hrun' := generateControlEdges_mono hle hrun
    refine ⟨hrun', ?_⟩
    rw [generateControlEdges_append, hrun']
    rfl
  · intro x v hv
    obtain ⟨o, ho, hstored⟩ := href.stored hstores.ordered hv
    exact ⟨o, ho, hstored.producers, hstored.consumers⟩

def writeReadWrite : List ScheduledOpOneResource :=
  [⟨0, 0, 100, .producer, none⟩, ⟨1, 50, 150, .consumer, none⟩, ⟨2, 30, 70, .producer, none⟩]

theorem generateControlEdges_refines_three : ∃ s ps, s.inserted = true ∧ s.intervalTree = toTree ps ∧ Ordered ps ∧
      (∃ bound count, ∀ fuel ≥ bound, generateControlEdges fuel writeReadWrite init 0 = some (s, count)) ∧
      (∃ v, At ps 90 v) ∧
      ∀ v, At ps 90 v → v.producers = [⟨0, 0, 100, .producer, none⟩] ∧
        v.consumers.toFinset = {⟨1, 50, 150, .consumer, none⟩} := by
  obtain ⟨bound, s, count, ps, hrun, hins, htree, hord, htouched, hstored⟩ :=
    generateControlEdges_refines writeReadWrite [] (by decide) (by decide)
  refine ⟨s, ps, hins, htree, hord, ⟨bound, count, fun fuel hle => (hrun fuel hle).1⟩, (htouched 90).mpr (by decide), ?_⟩
  intro v hv
  obtain ⟨o, ho, hprod, hcons⟩ := hstored 90 v hv
  have howner : after writeReadWrite 90 = some ⟨⟨0, 0, 100, .producer, none⟩, {⟨1, 50, 150, .consumer, none⟩}⟩ := by
    decide
  rw [howner, Option.some.injEq] at ho
  rw [hprod, hcons, ← ho]
  exact ⟨rfl, rfl⟩

end ControlEdgeGenerator

end NpuCompiler.Control

namespace NpuCompiler.Control

/-- The accesses of one address: those that own it, and the earlier ones that an edge from each producer still
follows (`retired`) or that the owners say nothing about (`forgotten`). -/
structure History where
  producers : List ScheduledOpOneResource
  consumers : List ScheduledOpOneResource
  retired : List ScheduledOpOneResource
  forgotten : List ScheduledOpOneResource
  deriving DecidableEq

namespace History

def all (h : History) : List ScheduledOpOneResource := h.producers ++ h.consumers ++ h.retired ++ h.forgotten

def coexists (h : History) (e : ScheduledOpOneResource) : Bool := h.producers.all (fun p => e.canOverlap p)

def ownOp (h : History) : List ScheduledOpOneResource :=
  h.retired.filter (fun a => h.producers.all (fun p => p.op = a.op))

def followed (h : History) (e p : ScheduledOpOneResource) : Bool :=
  h.consumers.isEmpty || decide (p.op = e.op) || h.consumers.any (fun c => decide (c.op = p.op) || !c.canOverlap p)

def follows (h : History) (e a : ScheduledOpOneResource) : Bool :=
  decide (a ∈ h.consumers) ||
    h.producers.any (fun p => h.followed e p && (decide (p = a) || decide (a ∈ h.retired) || decide (p.op = a.op)))

def missed (h : History) (e : ScheduledOpOneResource) : List ScheduledOpOneResource :=
  if e.isProducer then
    if h.coexists e then h.consumers ++ h.ownOp ++ h.forgotten
    else h.all.filter (fun a => !h.follows e a)
  else
    h.retired.filter (fun a => a.isProducer && !h.producers.any (fun p => !e.canOverlap p)) ++
      h.forgotten.filter (fun a => a.isProducer && !h.producers.any (fun p => p.op = a.op && !e.canOverlap p))

def access : Option History → ScheduledOpOneResource → History
  | none, e => ⟨[e], [], [], []⟩
  | some h, e =>
    if e.isProducer then
      if h.coexists e then
        let producers := setInsert ScheduledOpOneResource.less e h.producers
        { producers
          consumers := h.consumers
          retired := h.retired.filter (fun a => a ∉ h.ownOp)
          forgotten := h.forgotten ++ h.ownOp ++ [e].filter (fun a => a ∉ producers) }
      else ⟨[e], [], h.all.filter (fun a => h.follows e a), h.all.filter (fun a => !h.follows e a)⟩
    else { h with consumers := h.consumers ++ [e] }

def after (entries : List ScheduledOpOneResource) (x : ℕ) : Option History :=
  (entries.filter (·.covers x)).foldl (fun h e => some (access h e)) none

def tracked (h : Option History) (e : ScheduledOpOneResource) : Bool :=
  match h with
  | none => true
  | some h => (h.missed e).all (fun a => decide (a.op = e.op) || a.canOverlap e)

section
variable {entries : List ScheduledOpOneResource} {e a : ScheduledOpOneResource} {x : ℕ} {h : History}

theorem after_append_of_covers (hx : e.covers x = true) :
    after (entries ++ [e]) x = some (access (after entries x) e) := by
  unfold after
  simp only [List.filter_append, List.filter_cons, hx, if_true, List.filter_nil, List.foldl_append]
  rfl

theorem after_append_of_not_covers (hx : e.covers x = false) : after (entries ++ [e]) x = after entries x := by
  unfold after
  rw [List.filter_append, List.filter_cons_of_neg (by simp [hx]), List.filter_nil, List.append_nil]

theorem access_coexisting (hprod : e.isProducer = true) (hco : h.coexists e = true) :
    access (some h) e =
      { producers := setInsert ScheduledOpOneResource.less e h.producers
        consumers := h.consumers
        retired := h.retired.filter (fun a => a ∉ h.ownOp)
        forgotten := h.forgotten ++ h.ownOp ++
          [e].filter (fun a => a ∉ setInsert ScheduledOpOneResource.less e h.producers) } := by
  simp only [access, hprod, hco, if_true]

theorem access_sole (hprod : e.isProducer = true) (hco : h.coexists e = false) :
    access (some h) e =
      ⟨[e], [], h.all.filter (fun a => h.follows e a), h.all.filter (fun a => !h.follows e a)⟩ := by
  simp only [access, hprod, hco, if_true, Bool.false_eq_true, if_false]

theorem access_consumer (hcons : e.isProducer = false) :
    access (some h) e = { h with consumers := h.consumers ++ [e] } := by
  simp only [access, hcons, Bool.false_eq_true, if_false]

theorem mem_all : a ∈ h.all ↔ a ∈ h.producers ∨ a ∈ h.consumers ∨ a ∈ h.retired ∨ a ∈ h.forgotten := by
  simp only [all, List.mem_append, or_assoc]

theorem mem_ownOp : a ∈ h.ownOp ↔ a ∈ h.retired ∧ ∀ p ∈ h.producers, p.op = a.op := by
  simp [ownOp]

end

end History

section
variable {α : Type} {less : α → α → Bool} {a x : α} {l : List α}

theorem subset_setInsert : l ⊆ setInsert less a l := by
  induction l with
  | nil => exact List.nil_subset _
  | cons y l ih =>
    rw [setInsert]
    by_cases h1 : less a y = true
    · rw [if_pos h1]
      exact List.subset_cons_self _ _
    · rw [if_neg h1]
      by_cases h2 : less y a = true
      · rw [if_pos h2]
        exact List.cons_subset_cons _ ih
      · rw [if_neg h2]
        exact List.Subset.refl _

theorem mem_of_mem_setInsert (hx : x ∈ setInsert less a l) : x = a ∨ x ∈ l := by
  induction l with
  | nil => exact .inl (List.mem_singleton.mp hx)
  | cons y l ih =>
    rw [setInsert] at hx
    by_cases h1 : less a y = true
    · rw [if_pos h1] at hx
      exact List.mem_cons.mp hx
    · rw [if_neg h1] at hx
      by_cases h2 : less y a = true
      · rw [if_pos h2] at hx
        rcases List.mem_cons.mp hx with rfl | hx
        · exact .inr (List.mem_cons_self ..)
        · exact (ih hx).imp_right (List.mem_cons_of_mem y)
      · rw [if_neg h2] at hx
        exact .inr hx

theorem exists_mem_setInsert (hless : less a a = false) :
    ∃ y ∈ setInsert less a l, less a y = false ∧ less y a = false := by
  induction l with
  | nil => exact ⟨a, List.mem_singleton.mpr rfl, hless, hless⟩
  | cons y l ih =>
    rw [setInsert]
    by_cases h1 : less a y = true
    · rw [if_pos h1]
      exact ⟨a, List.mem_cons_self .., hless, hless⟩
    · rw [if_neg h1]
      by_cases h2 : less y a = true
      · rw [if_pos h2]
        obtain ⟨z, hz, hza⟩ := ih
        exact ⟨z, List.mem_cons_of_mem y hz, hza⟩
      · rw [if_neg h2]
        exact ⟨y, List.mem_cons_self .., by simpa using h1, by simpa using h2⟩

end

namespace ScheduledOpOneResource

theorem op_eq_of_equiv {a b : ScheduledOpOneResource} (h1 : a.less b = false) (h2 : b.less a = false) :
    b.op = a.op := by
  unfold less at h1 h2
  grind

theorem less_irrefl (a : ScheduledOpOneResource) : a.less a = false := by simp [less]

theorem canOverlap_comm (a b : ScheduledOpOneResource) : a.canOverlap b = b.canOverlap a := by
  unfold canOverlap
  by_cases hout : a.addressEnd < b.addressStart ∨ a.addressStart > b.addressEnd
  · have hout' : b.addressEnd < a.addressStart ∨ b.addressStart > a.addressEnd := by omega
    rw [if_pos hout, if_pos hout']
  · have hout' : ¬ (b.addressEnd < a.addressStart ∨ b.addressStart > a.addressEnd) := by omega
    rw [if_neg hout, if_neg hout']
    by_cases hsame : a.addressStart = b.addressStart ∧ a.addressEnd = b.addressEnd
    · rw [if_pos hsame, if_pos ⟨hsame.1.symm, hsame.2.symm⟩]
      cases a.resourceView with
      | none => cases b.resourceView <;> rfl
      | some v =>
        cases b.resourceView with
        | none => rfl
        | some w => simp only [eq_comm, ne_comm]
    · have hsame' : ¬ (b.addressStart = a.addressStart ∧ b.addressEnd = a.addressEnd) :=
        fun h => hsame ⟨h.1.symm, h.2.symm⟩
      rw [if_neg hsame, if_neg hsame']

end ScheduledOpOneResource

end NpuCompiler.Control
