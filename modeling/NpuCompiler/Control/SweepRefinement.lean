import NpuCompiler.Control.IntervalTree

namespace NpuCompiler.Control.ControlEdgeGenerator

open IntervalMap DisjointIntervalSet IntervalUtils List Option

theorem intervalXor_eq {qbeg qend rbeg rend : ℕ} (hq : qbeg ≤ qend) (hr : rbeg ≤ rend) (h1 : rbeg ≤ qend)
    (h2 : qbeg ≤ rend) (hq' : qend < 2 ^ 64) (hr' : rend < 2 ^ 64) :
    (intervalXor qbeg qend rbeg rend).map (fun r => (r.1, r.2, isSubset r.1 r.2 rbeg rend)) =
      (if qbeg < rbeg then [(qbeg, rbeg - 1, false)] else if rbeg < qbeg then [(rbeg, qbeg - 1, true)] else []) ++
        (if rend < qend then [(rend + 1, qend, false)] else if qend < rend then [(qend + 1, rend, true)] else []) := by
  have hmeet : intersects qbeg qend rbeg rend = true := by
    unfold intersects
    rw [decide_eq_true_eq]
    omega
  have hpred : ∀ x, x < 2 ^ 64 → 0 < x → unitPred x = x - 1 := by
    intro x hx h0
    unfold unitPred
    rw [show 2 ^ 64 + x - 1 = (x - 1) + 2 ^ 64 by omega, Nat.add_mod_right]
    exact Nat.mod_eq_of_lt (by omega)
  have hleft : (min qbeg rbeg ≤ unitPred (max qbeg rbeg) ∧ unitPred (max qbeg rbeg) < min qend rend) ↔
      qbeg ≠ rbeg := by
    by_cases h0 : max qbeg rbeg = 0
    · rw [h0, show unitPred 0 = 2 ^ 64 - 1 from rfl]
      omega
    · rw [hpred _ (by omega) (by omega)]
      omega
  have hright : (unitSucc (min qend rend) ≤ max qend rend ∧ max qbeg rbeg < unitSucc (min qend rend)) ↔
      qend ≠ rend := by
    unfold unitSucc
    by_cases hmax : min qend rend + 1 = 2 ^ 64
    · rw [hmax, Nat.mod_self]
      omega
    · rw [Nat.mod_eq_of_lt (by omega)]
      omega
  have hsucc : qend ≠ rend → unitSucc (min qend rend) = min qend rend + 1 := by
    intro hne
    unfold unitSucc
    exact Nat.mod_eq_of_lt (by omega)
  unfold intervalXor
  simp only [hmeet, if_true, hleft, hright, map_append]
  congr 1
  · rcases Nat.lt_trichotomy qbeg rbeg with h | h | h
    · rw [if_pos h.ne, if_pos h, hpred _ (by omega) (by omega), min_eq_left h.le, max_eq_right h.le]
      simp only [map_cons, map_nil, isSubset]
      rw [if_pos (by omega)]
    · rw [if_neg (by omega), if_neg (by omega), if_neg (by omega)]
      rfl
    · rw [if_pos h.ne', if_neg (by omega), if_pos h, hpred _ (by omega) (by omega), min_eq_right h.le,
        max_eq_left h.le]
      simp only [map_cons, map_nil, isSubset]
      rw [if_neg (by omega), decide_eq_true (by omega), decide_eq_true (by omega)]
      rfl
  · rcases Nat.lt_trichotomy qend rend with h | h | h
    · rw [if_pos h.ne, if_neg (by omega), if_pos h, hsucc h.ne, min_eq_left h.le, max_eq_right h.le]
      simp only [map_cons, map_nil, isSubset]
      rw [if_neg (by omega), decide_eq_true (by omega), decide_eq_true (by omega)]
      rfl
    · rw [if_neg (by omega), if_neg (by omega), if_neg (by omega)]
      rfl
    · rw [if_pos h.ne', if_pos h, hsucc h.ne', min_eq_right h.le, max_eq_left h.le]
      simp only [map_cons, map_nil, isSubset]
      rw [if_pos (by omega)]

theorem insertParts_eq (s : State) (curr : ScheduledOpOneResource) (pc newPc : ProdCons) {qbeg qend rbeg rend : ℕ}
    (hq : qbeg ≤ qend) (hr : rbeg ≤ rend) (h1 : rbeg ≤ qend) (h2 : qbeg ≤ rend) (hq' : qend < 2 ^ 64)
    (hr' : rend < 2 ^ 64) :
    insertParts s curr pc newPc qbeg qend rbeg rend =
      let left := if qbeg < rbeg then s.insert qbeg (rbeg - 1) pc
        else if rbeg < qbeg then s.insert rbeg (qbeg - 1) (ProdCons.ofProducer curr) else s
      let mid := left.insert (max rbeg qbeg) (min rend qend) newPc
      if rend < qend then (mid.insert (rend + 1) qend pc, unitMax, 0)
      else if qend < rend then (mid, qend + 1, rend) else (mid, unitMax, 0) := by
  have hparts := intervalXor_eq hq hr h1 h2 hq' hr'
  unfold insertParts
  simp only [hparts]
  rcases Nat.lt_trichotomy qbeg rbeg with hb | hb | hb
  · have hcond : rbeg - 1 < max rbeg qbeg := by omega
    simp only [hb, singleton_append, hcond, if_true, Bool.false_eq_true, if_false]
    split_ifs <;> rfl
  · subst hb
    have hcond : ¬ qend < max qbeg qbeg := by omega
    have hcond' : ¬ rend < max qbeg qbeg := by omega
    simp only [lt_irrefl, if_false, nil_append]
    split_ifs
    · simp only [hcond, if_false, Bool.not_false, if_true]
    · simp only [hcond', if_false, Bool.not_true, Bool.false_eq_true]
    · rfl
  · have hno : ¬ qbeg < rbeg := hb.le.not_gt
    have hcond : qbeg - 1 < max rbeg qbeg := by omega
    simp only [hno, hb, if_true, if_false, singleton_append, hcond]
    split_ifs <;> rfl

theorem State.insert_toTree {s : State} {l r : List (Piece ProdCons)} {b e : ℕ} (pc : ProdCons)
    (ht : s.intervalTree = toTree (l ++ r)) (h : Ordered (l ++ r)) (hbe : b ≤ e) (hl : ∀ p ∈ l, p.hi < b)
    (hr : ∀ p ∈ r, e < p.lo) :
    s.insert b e pc = { s with intervalTree := toTree (l ++ ⟨b, e, pc⟩ :: r) } := by
  obtain ⟨hol, hor, -⟩ := ordered_append.mp h
  have hins := Control.insert_toTree pc hol hor hbe hl hr
  unfold State.insert
  rw [ht, hins]
  simp

theorem ordered_insert {l r : List (Piece ProdCons)} {b e : ℕ} {pc : ProdCons} (h : Ordered (l ++ r)) (hbe : b ≤ e)
    (hl : ∀ p ∈ l, p.hi < b) (hr : ∀ p ∈ r, e < p.lo) : Ordered (l ++ ⟨b, e, pc⟩ :: r) := by
  obtain ⟨hol, hor, hlr⟩ := ordered_append.mp h
  apply ordered_append.mpr
  refine ⟨hol, ordered_cons.mpr ⟨hbe, hr, hor⟩, ?_⟩
  intro p hp q hq
  rcases mem_cons.mp hq with rfl | hq
  · exact hl p hp
  · exact hlr p hp q hq

def edgesOver (curr : ScheduledOpOneResource) : List (Piece ProdCons) → ControlEdgeSet → ControlEdgeSet
  | [], output => output
  | q :: m, output => edgesOver curr m (output ++ newEdges curr q.val output)

def leftPart (curr : ScheduledOpOneResource) (q : Piece ProdCons) (rbeg : ℕ) : List (Piece ProdCons) :=
  if q.lo < rbeg then [⟨q.lo, rbeg - 1, q.val⟩]
  else if rbeg < q.lo then [⟨rbeg, q.lo - 1, ProdCons.ofProducer curr⟩] else []

section
variable {s : State} {curr : ScheduledOpOneResource} {l m r : List (Piece ProdCons)} {q : Piece ProdCons}
  {rbeg rend : ℕ}

theorem insert_leftPart (ht : s.intervalTree = toTree (l ++ (m ++ r))) (h : Ordered (l ++ q :: (m ++ r)))
    (hl : ∀ p ∈ l, p.hi < rbeg) (hq : rbeg ≤ q.hi) :
    (if q.lo < rbeg then s.insert q.lo (rbeg - 1) q.val
      else if rbeg < q.lo then s.insert rbeg (q.lo - 1) (ProdCons.ofProducer curr) else s) =
        { s with intervalTree := toTree ((l ++ leftPart curr q rbeg) ++ (m ++ r)) } ∧
      Ordered ((l ++ leftPart curr q rbeg) ++ (m ++ r)) ∧
      ∀ p ∈ l ++ leftPart curr q rbeg, p.hi < max rbeg q.lo := by
  obtain ⟨hol, hoqr, hlq⟩ := ordered_append.mp h
  obtain ⟨hqq, hafter, homr⟩ := ordered_cons.mp hoqr
  have hrest : Ordered (l ++ (m ++ r)) :=
    ordered_append.mpr ⟨hol, homr, fun p hp p' hp' => hlq p hp p' (mem_cons_of_mem q hp')⟩
  have hbound {p : Piece ProdCons} (hp : p.hi < max rbeg q.lo) : ∀ p' ∈ l ++ [p], p'.hi < max rbeg q.lo := by
    intro p' hp'
    rcases mem_append.mp hp' with hp' | hp'
    · exact (hl p' hp').trans_le (le_max_left _ _)
    · obtain rfl := mem_singleton.mp hp'
      exact hp
  unfold leftPart
  split_ifs with h1 h2
  · have hbe : q.lo ≤ rbeg - 1 := by omega
    have hbefore : ∀ p ∈ l, p.hi < q.lo := fun p hp => hlq p hp q (by simp)
    have hbehind : ∀ p ∈ m ++ r, rbeg - 1 < p.lo := by
      intro p hp
      have := hafter p hp
      omega
    rw [append_assoc, singleton_append]
    refine ⟨s.insert_toTree q.val ht hrest hbe hbefore hbehind, ordered_insert hrest hbe hbefore hbehind, ?_⟩
    exact hbound (by simp only; omega)
  · have hbe : rbeg ≤ q.lo - 1 := by omega
    have hbehind : ∀ p ∈ m ++ r, q.lo - 1 < p.lo := by
      intro p hp
      have := hafter p hp
      omega
    rw [append_assoc, singleton_append]
    refine ⟨s.insert_toTree _ ht hrest hbe hl hbehind, ordered_insert hrest hbe hl hbehind, ?_⟩
    exact hbound (by simp only; omega)
  · rw [append_nil]
    refine ⟨?_, hrest, fun p hp => (hl p hp).trans_le (le_max_left _ _)⟩
    rw [← ht]

def throughOverlap (curr : ScheduledOpOneResource) (l : List (Piece ProdCons)) (q : Piece ProdCons)
    (rbeg rend : ℕ) : List (Piece ProdCons) :=
  l ++ leftPart curr q rbeg ++ [⟨max rbeg q.lo, min rend q.hi, newProdCons curr q.val⟩]

theorem insertParts_toTree (ht : s.intervalTree = toTree (l ++ (m ++ r))) (h : Ordered (l ++ q :: (m ++ r)))
    (hl : ∀ p ∈ l, p.hi < rbeg) (hm : Meets rbeg rend (q :: m)) (hq' : q.hi < 2 ^ 64) (hr' : rend < 2 ^ 64) :
    insertParts s curr q.val (newProdCons curr q.val) q.lo q.hi rbeg rend =
        (if rend < q.hi then
          ({ s with intervalTree :=
              toTree (throughOverlap curr l q rbeg rend ++ ⟨rend + 1, q.hi, q.val⟩ :: (m ++ r)) }, unitMax, 0)
        else if q.hi < rend then
          ({ s with intervalTree := toTree (throughOverlap curr l q rbeg rend ++ (m ++ r)) }, q.hi + 1, rend)
        else ({ s with intervalTree := toTree (throughOverlap curr l q rbeg rend ++ (m ++ r)) }, unitMax, 0)) ∧
      Ordered (throughOverlap curr l q rbeg rend ++ (m ++ r)) ∧
      ∀ p ∈ throughOverlap curr l q rbeg rend, p.hi ≤ min rend q.hi := by
  have h1 := hm.above q (by simp)
  have h2 := hm.below q (by simp)
  have hbe := hm.lo_le
  obtain ⟨-, hoqr, -⟩ := ordered_append.mp h
  obtain ⟨hqq, hafter, -⟩ := ordered_cons.mp hoqr
  obtain ⟨hleft, hord, hbefore⟩ := @insert_leftPart s curr l m r q rbeg ht h hl h1
  have hmid : max rbeg q.lo ≤ min rend q.hi := by omega
  have hbehind : ∀ p ∈ m ++ r, min rend q.hi < p.lo := by
    intro p hp
    have := hafter p hp
    omega
  have hthrough : throughOverlap curr l q rbeg rend ++ (m ++ r) = (l ++ leftPart curr q rbeg) ++
      (⟨max rbeg q.lo, min rend q.hi, newProdCons curr q.val⟩ :: (m ++ r)) := by
    rw [throughOverlap, append_assoc _ [_], singleton_append]
  have hord' : Ordered (throughOverlap curr l q rbeg rend ++ (m ++ r)) := by
    rw [hthrough]
    exact ordered_insert hord hmid hbefore hbehind
  have hends : ∀ p ∈ throughOverlap curr l q rbeg rend, p.hi ≤ min rend q.hi := by
    intro p hp
    rcases mem_append.mp hp with hp | hp
    · have := hbefore p hp
      omega
    · obtain rfl := mem_singleton.mp hp
      exact le_refl _
  refine ⟨?_, hord', hends⟩
  have hmid_insert := State.insert_toTree (newProdCons curr q.val)
    (show ({ s with intervalTree := toTree ((l ++ leftPart curr q rbeg) ++ (m ++ r)) } : State).intervalTree = _ from rfl)
    hord hmid hbefore hbehind
  rw [insertParts_eq s curr q.val _ hqq hbe h1 h2 hq' hr', hleft]
  simp only [hmid_insert, ← hthrough]
  split_ifs with hright hrem
  · rw [State.insert_toTree q.val rfl hord' (by omega : rend + 1 ≤ q.hi)]
    · intro p hp
      have := hends p hp
      omega
    · exact hafter
  · rfl
  · rfl

end

theorem foreachOverlap_toTree {curr : ScheduledOpOneResource} {rend : ℕ} {r : List (Piece ProdCons)}
    (hr : ∀ p ∈ r, rend < p.lo) (hr' : rend < 2 ^ 64) (m : List (Piece ProdCons)) {l : List (Piece ProdCons)}
    {rbeg fuel count : ℕ} {s : State} (hf : m.length < fuel) (ht : s.intervalTree = toTree (l ++ (m ++ r)))
    (h : Ordered (l ++ (m ++ r))) (hl : ∀ p ∈ l, p.hi < rbeg) (hm : Meets rbeg rend m)
    (hm' : ∀ p ∈ m, p.hi < 2 ^ 64) :
    ∃ s' remBeg remEnd count', foreachOverlap curr fuel s ⟨firstKey (m ++ r), firstKey r⟩ rbeg rend count =
        some (s', remBeg, remEnd, count') ∧
      (if remBeg ≤ remEnd then s'.insert remBeg remEnd (ProdCons.ofProducer curr) else s') =
        { intervalTree := toTree
            (l ++ (overlay (newProdCons curr) (ProdCons.ofProducer curr) rend rbeg m ++ r))
          inserted := s.inserted
          outputDependency := edgesOver curr m s.outputDependency } ∧
      count' + s.outputDependency.length = count + (edgesOver curr m s.outputDependency).length := by
  induction m generalizing l rbeg fuel count s with
  | nil =>
    obtain ⟨fuel, rfl⟩ := Nat.exists_eq_succ_of_ne_zero (by omega : fuel ≠ 0)
    have hbe := hm.lo_le
    refine ⟨s, rbeg, rend, count, ?_, ?_, rfl⟩
    · rw [foreachOverlap, if_pos (by simp [isEnd])]
    · rw [if_pos hbe, State.insert_toTree _ ht h hbe hl hr]
      rfl
  | cons q m ih =>
    obtain ⟨fuel, rfl⟩ := Nat.exists_eq_succ_of_ne_zero (by omega : fuel ≠ 0)
    have h1 := hm.above q (by simp)
    have h2 := hm.below q (by simp)
    have hbe := hm.lo_le
    have hq' := hm' q (by simp)
    rw [cons_append] at ht h ⊢
    obtain ⟨-, hoqr, -⟩ := ordered_append.mp h
    have hmeet : intersects q.lo q.hi rbeg rend = true := by
      unfold intersects
      rw [decide_eq_true_eq]
      have := hm.ordered.proper q (by simp)
      omega
    have herase : (State.erase { s with outputDependency := s.outputDependency ++ newEdges curr q.val s.outputDependency }
        q.lo q.hi).intervalTree = toTree (l ++ (m ++ r)) := by
      unfold State.erase
      simp only [ht]
      exact erase_toTree h
    obtain ⟨hparts, hord, hends⟩ := @insertParts_toTree _ curr l m r q rbeg rend herase h hl hm hq' hr'
    have hround : foreachOverlap curr (fuel + 1) s ⟨firstKey (q :: (m ++ r)), firstKey r⟩ rbeg rend count =
        let parts := insertParts (State.erase
          { s with outputDependency := s.outputDependency ++ newEdges curr q.val s.outputDependency } q.lo q.hi)
          curr q.val (newProdCons curr q.val) q.lo q.hi rbeg rend
        foreachOverlap curr fuel parts.1 ⟨firstKey (m ++ r), firstKey r⟩ parts.2.1 parts.2.2
          (count + (newEdges curr q.val s.outputDependency).length) := by
      have hbegin : intervalBegin ⟨firstKey (q :: (m ++ r)), firstKey r⟩ = some q.lo := rfl
      rw [foreachOverlap, isEnd_firstKey hoqr, if_neg Bool.false_ne_true, ht, hbegin, intervalEnd_toTree h,
        getProdCons_toTree h, advance_toTree h]
      simp only [bind_eq_bind, bind_some, hmeet, Bool.not_true, Bool.false_eq_true, if_false]
    have hoverlay {rest : List (Piece ProdCons)} (hrest : (if rend < q.hi then ⟨rend + 1, q.hi, q.val⟩ :: m
        else if q.hi < rend then overlay (newProdCons curr) (ProdCons.ofProducer curr) rend (q.hi + 1) m else m) = rest) :
        l ++ (overlay (newProdCons curr) (ProdCons.ofProducer curr) rend rbeg (q :: m) ++ r) =
          throughOverlap curr l q rbeg rend ++ (rest ++ r) := by
      rw [overlay, hrest, throughOverlap, leftPart]
      simp only [append_assoc, cons_append, nil_append]
    rw [hround, hparts]
    by_cases hrem : q.hi < rend
    · rw [if_neg (by omega), if_pos hrem]
      obtain ⟨s', remBeg, remEnd, count', heq, hdone, hcount⟩ := @ih (throughOverlap curr l q rbeg rend) (q.hi + 1)
        fuel (count + (newEdges curr q.val s.outputDependency).length)
        ⟨toTree (throughOverlap curr l q rbeg rend ++ (m ++ r)), s.inserted,
          s.outputDependency ++ newEdges curr q.val s.outputDependency⟩
        (by simpa using hf) rfl hord (fun p hp => (hends p hp).trans_lt (by omega)) (hm.tail hrem)
        (fun p hp => hm' p (by simp [hp]))
      refine ⟨s', remBeg, remEnd, count', heq, ?_, ?_⟩
      · rw [hdone, hoverlay (by rw [if_neg (by omega), if_pos hrem])]
        rfl
      · change count' + (s.outputDependency ++ newEdges curr q.val s.outputDependency).length = _ at hcount
        rw [length_append] at hcount
        change _ = count + (edgesOver curr m (s.outputDependency ++ newEdges curr q.val s.outputDependency)).length
        change _ = _ + (edgesOver curr m (s.outputDependency ++ newEdges curr q.val s.outputDependency)).length at hcount
        omega
    · -- the stored interval reaches to the end of the new one, which leaves no remainder
      obtain rfl := hm.nil_of_le (not_lt.mp hrem)
      obtain ⟨fuel, rfl⟩ := Nat.exists_eq_succ_of_ne_zero (by simp at hf; omega : fuel ≠ 0)
      have hstop (s : State) (count : ℕ) : foreachOverlap curr (fuel + 1) s ⟨firstKey ([] ++ r), firstKey r⟩ unitMax 0
          count = some (s, unitMax, 0, count) := by
        rw [foreachOverlap, if_pos (by simp [isEnd])]
      have hcount : count + (newEdges curr q.val s.outputDependency).length + s.outputDependency.length =
          count + (edgesOver curr [q] s.outputDependency).length := by
        simp only [edgesOver, length_append]
        omega
      by_cases hright : rend < q.hi
      · rw [if_pos hright]
        refine ⟨_, unitMax, 0, _, hstop _ _, ?_, hcount⟩
        rw [if_neg (by decide), hoverlay (if_pos hright)]
        rfl
      · rw [if_neg hright, if_neg hrem]
        refine ⟨_, unitMax, 0, _, hstop _ _, ?_, hcount⟩
        rw [if_neg (by decide), hoverlay (by rw [if_neg hright, if_neg hrem])]
        rfl

theorem mergeLoop_toTree {pc : ProdCons} {l r : List (Piece ProdCons)} (m : List (Piece ProdCons)) {q : Piece ProdCons}
    {pr fuel : ℕ} {s : State} (hf : m.length < fuel) (ht : s.intervalTree = toTree (l ++ q :: (m ++ r)))
    (h : Ordered (l ++ ⟨q.lo, pr, q.val⟩ :: (m ++ r))) (hq : q.lo ≤ q.hi) (hpr : q.hi ≤ pr)
    (hm' : ∀ p ∈ m, p.hi < 2 ^ 64) :
    ∃ m' e, mergeLoop pc fuel s ⟨firstKey (m ++ r), firstKey r⟩ pr =
        some ({ s with intervalTree := toTree (l ++ q :: (m' ++ r)) }, e) ∧
      coalesce pc ⟨q.lo, pr, q.val⟩ m = ⟨q.lo, e, q.val⟩ :: m' ∧ q.hi ≤ e := by
  induction m generalizing pr fuel s with
  | nil =>
    obtain ⟨fuel, rfl⟩ := Nat.exists_eq_succ_of_ne_zero (by omega : fuel ≠ 0)
    refine ⟨[], pr, ?_, rfl, hpr⟩
    rw [mergeLoop, if_pos (by simp [isEnd]), ← ht]
  | cons p m ih =>
    obtain ⟨fuel, rfl⟩ := Nat.exists_eq_succ_of_ne_zero (by omega : fuel ≠ 0)
    obtain ⟨hol, hoqr, hlq⟩ := ordered_append.mp h
    obtain ⟨-, hafter, homr⟩ := ordered_cons.mp hoqr
    rw [cons_append] at ht homr hafter ⊢
    obtain ⟨hp, hafter', homr'⟩ := ordered_cons.mp homr
    have hplo : pr < p.lo := hafter p (by simp)
    have hphi := hm' p (by simp)
    have hbefore : ∀ x ∈ l, x.hi < q.lo := fun x hx => hlq x hx ⟨q.lo, pr, q.val⟩ (mem_cons_self ..)
    have hord : Ordered ((l ++ [q]) ++ p :: (m ++ r)) := by
      rw [append_assoc, singleton_append]
      apply ordered_append.mpr
      refine ⟨hol, ordered_cons.mpr ⟨hq, fun x hx => hpr.trans_lt (hafter x hx), homr⟩, ?_⟩
      intro x hx y hy
      rcases mem_cons.mp hy with rfl | hy
      · exact hbefore x hx
      · exact hlq x hx y (mem_cons_of_mem _ hy)
    have ht' : s.intervalTree = toTree ((l ++ [q]) ++ p :: (m ++ r)) := by
      rw [ht, append_assoc, singleton_append]
    have hsucc : unitSucc pr = p.lo ↔ pr + 1 = p.lo := by
      unfold unitSucc
      rw [Nat.mod_eq_of_lt (by omega)]
    have hbegin : intervalBegin ⟨firstKey (p :: (m ++ r)), firstKey r⟩ = some p.lo := rfl
    have hround : mergeLoop pc (fuel + 1) s ⟨firstKey (p :: (m ++ r)), firstKey r⟩ pr =
        if p.val = pc ∧ pr + 1 = p.lo then
          mergeLoop pc fuel (s.erase p.lo p.hi) ⟨firstKey (m ++ r), firstKey r⟩ p.hi
        else some (s, pr) := by
      rw [mergeLoop, isEnd_firstKey homr, if_neg Bool.false_ne_true, ht', hbegin, getProdCons_toTree hord,
        intervalEnd_toTree hord, advance_toTree hord]
      simp only [bind_eq_bind, bind_some, hsucc]
      rfl
    rw [hround, coalesce]
    by_cases hc : p.val = pc ∧ pr + 1 = p.lo
    · rw [if_pos hc, if_pos hc]
      have herase : (s.erase p.lo p.hi).intervalTree = toTree (l ++ q :: (m ++ r)) := by
        unfold State.erase
        simp only [ht']
        rw [erase_toTree hord, append_assoc, singleton_append]
      have hmerged : Ordered (l ++ ⟨q.lo, p.hi, q.val⟩ :: (m ++ r)) := by
        apply ordered_append.mpr
        refine ⟨hol, ordered_cons.mpr ⟨by simp only; omega, hafter', homr'⟩, ?_⟩
        intro x hx y hy
        rcases mem_cons.mp hy with rfl | hy
        · exact hbefore x hx
        · exact hlq x hx y (mem_cons_of_mem _ (mem_cons_of_mem _ hy))
      exact ih (by simpa using hf) herase hmerged (by omega) (fun x hx => hm' x (by simp [hx]))
    · rw [if_neg hc, if_neg hc]
      refine ⟨p :: m, pr, ?_, rfl, hpr⟩
      rw [cons_append, ← ht]

theorem mergeAbuttingIntervals_toTree {curr : ScheduledOpOneResource} {l m r : List (Piece ProdCons)} {fuel : ℕ}
    {s : State} (hf : m.length < fuel + 1) (ht : s.intervalTree = toTree (l ++ (m ++ r))) (h : Ordered (l ++ (m ++ r)))
    (hl : ∀ p ∈ l, p.hi < curr.addressStart) (hm : Meets curr.addressStart curr.addressEnd m)
    (hr : ∀ p ∈ r, curr.addressEnd < p.lo) (hm' : ∀ p ∈ m, p.hi < 2 ^ 64) :
    ∃ ps, mergeAbuttingIntervals fuel s curr = some { s with intervalTree := toTree ps } ∧ Ordered ps ∧
      (∀ x v, At ps x v ↔ At (l ++ (m ++ r)) x v) ∧ ∀ p ∈ ps, ∃ q ∈ l ++ (m ++ r), p.hi ≤ q.hi := by
  have hquery : query s.intervalTree curr.addressStart curr.addressEnd = ⟨firstKey (m ++ r), firstKey r⟩ := by
    rw [ht]
    exact query_toTree h hl hm hr
  have unchanged : ∃ ps, some s = some { s with intervalTree := toTree ps } ∧ Ordered ps ∧
      (∀ x v, At ps x v ↔ At (l ++ (m ++ r)) x v) ∧ ∀ p ∈ ps, ∃ q ∈ l ++ (m ++ r), p.hi ≤ q.hi :=
    ⟨l ++ (m ++ r), by rw [← ht], h, fun _ _ => Iff.rfl, fun p hp => ⟨p, hp, le_refl _⟩⟩
  unfold mergeAbuttingIntervals
  rw [hquery]
  cases m with
  | nil =>
    simp only [nil_append, isEnd, decide_true, if_true]
    exact unchanged
  | cons q m =>
    rw [cons_append] at ht h ⊢
    obtain ⟨hol, hoqr, hlq⟩ := ordered_append.mp h
    obtain ⟨hq, hafter, homr⟩ := ordered_cons.mp hoqr
    simp only [isEnd_firstKey hoqr, Bool.false_eq_true, if_false]
    rw [ht, getProdCons_toTree h, intervalEnd_toTree h, advance_toTree h]
    have hbegin : intervalBegin ⟨firstKey (q :: (m ++ r)), firstKey r⟩ = some q.lo := rfl
    rw [hbegin]
    simp only [bind_eq_bind, bind_some]
    by_cases hv : q.val = ProdCons.ofProducer curr
    · rw [if_neg (not_not.mpr hv)]
      obtain ⟨m', e, heq, hco, he⟩ := @mergeLoop_toTree (ProdCons.ofProducer curr) l r m q q.hi fuel s
        (by simpa using hf) ht h hq (le_refl _) (fun p hp => hm' p (by simp [hp]))
      have hco' : coalesce (ProdCons.ofProducer curr) q m = ⟨q.lo, e, q.val⟩ :: m' := hco
      have hoqm : Ordered (q :: m) := hm.ordered
      obtain ⟨hmerged, hbound⟩ := @coalesce_ordered _ _ (ProdCons.ofProducer curr) q m hoqm
      rw [hco'] at hmerged hbound
      have hord : Ordered (l ++ ⟨q.lo, e, q.val⟩ :: (m' ++ r)) := by
        apply ordered_append.mpr
        refine ⟨hol, ?_, ?_⟩
        · rw [← cons_append]
          apply ordered_append.mpr
          refine ⟨hmerged, (ordered_append.mp homr).2.1, ?_⟩
          intro x hx y hy
          obtain ⟨-, q', hq', hle⟩ := hbound x hx
          rcases mem_cons.mp hq' with rfl | hq'
          · exact hle.trans_lt (hafter y (by simp [hy]))
          · exact hle.trans_lt ((ordered_append.mp homr).2.2 q' hq' y hy)
        · intro x hx y hy
          have hxq : x.hi < q.lo := hlq x hx q (by simp)
          rw [← cons_append] at hy
          rcases mem_append.mp hy with hy | hy
          · exact hxq.trans_le (hbound y hy).1
          · exact hlq x hx y (by simp [hy])
      have hat : ∀ x v, At (l ++ ⟨q.lo, e, q.val⟩ :: (m' ++ r)) x v ↔ At (l ++ q :: (m ++ r)) x v := by
        intro x v
        rw [← cons_append, ← cons_append, ← hco', at_append, at_append, at_append, at_append,
          at_coalesce hv hoqm]
      have hends : ∀ p ∈ l ++ ⟨q.lo, e, q.val⟩ :: (m' ++ r), ∃ q' ∈ l ++ q :: (m ++ r), p.hi ≤ q'.hi := by
        intro p hp
        rw [← cons_append, mem_append, mem_append] at hp
        rcases hp with hp | hp | hp
        · exact ⟨p, by simp [hp], le_refl _⟩
        · obtain ⟨-, q', hq', hle⟩ := hbound p hp
          exact ⟨q', by rw [← cons_append]; simp only [mem_append]; exact .inr (.inl hq'), hle⟩
        · exact ⟨p, by simp [hp], le_refl _⟩
      have hord' : Ordered (l ++ q :: (m' ++ r)) := by
        obtain ⟨-, hoe, hle⟩ := ordered_append.mp hord
        obtain ⟨-, hafter', homr'⟩ := ordered_cons.mp hoe
        apply ordered_append.mpr
        refine ⟨hol, ordered_cons.mpr ⟨hq, fun x hx => he.trans_lt (hafter' x hx), homr'⟩, ?_⟩
        intro x hx y hy
        rcases mem_cons.mp hy with rfl | hy
        · exact hlq x hx y (by simp)
        · exact hle x hx y (mem_cons_of_mem _ hy)
      rw [heq]
      simp only [bind_some]
      have hstart : intervalEnd (toTree (l ++ q :: (m' ++ r))) ⟨firstKey (q :: (m ++ r)), firstKey r⟩ = some q.hi :=
        intervalEnd_toTree hord' (firstKey r)
      rw [hstart, bind_some]
      refine ⟨_, ?_, hord, hat, hends⟩
      by_cases hgt : e > q.hi
      · rw [if_pos hgt]
        have herase : ({ s with intervalTree := toTree (l ++ q :: (m' ++ r)) } : State).erase q.lo q.hi =
            { s with intervalTree := toTree (l ++ (m' ++ r)) } := by
          unfold State.erase
          simp only [erase_toTree hord']
        obtain ⟨hoeq, hoe, hle⟩ := ordered_append.mp hord
        obtain ⟨hqe, hafter', homr'⟩ := ordered_cons.mp hoe
        have hrest : Ordered (l ++ (m' ++ r)) :=
          ordered_append.mpr ⟨hol, homr', fun x hx y hy => hle x hx y (mem_cons_of_mem _ hy)⟩
        rw [herase, State.insert_toTree _ rfl hrest hqe (fun p hp => hlq p hp q (by simp)) hafter', hv]
        rfl
      · obtain rfl : e = q.hi := le_antisymm (not_lt.mp hgt) he
        rw [if_neg hgt]
        rfl
    · rw [if_pos hv]
      exact unchanged

end NpuCompiler.Control.ControlEdgeGenerator
