import NpuCompiler.Control.DisjointIntervalSet
import NpuCompiler.Library.IntervalMap

namespace NpuCompiler.Control

open IntervalMap DisjointIntervalSet EndPointTree List

variable {V : Type}

def leftKey (p : Piece V) : EndPoint := ⟨p.lo, .leftEnd⟩

def rightKey (p : Piece V) : EndPoint := ⟨p.hi, .rightEnd⟩

def toTree (ps : List (Piece V)) : EndPointTree V :=
  ps.flatMap (fun p => [(leftKey p, p.val), (rightKey p, p.val)])

def firstKey (ps : List (Piece V)) : Option EndPoint := ps.head?.map leftKey

theorem toTree_cons (p : Piece V) (ps : List (Piece V)) :
    toTree (p :: ps) = (leftKey p, p.val) :: (rightKey p, p.val) :: toTree ps := rfl

theorem toTree_append (ps qs : List (Piece V)) : toTree (ps ++ qs) = toTree ps ++ toTree qs := flatMap_append

theorem less_of_lt {e o : EndPoint} (h : e.x < o.x) : e.less o = true := by
  unfold EndPoint.less
  rw [if_pos h.ne]
  exact decide_eq_true h

theorem not_less_of_lt {e o : EndPoint} (h : o.x < e.x) : e.less o = false := by
  unfold EndPoint.less
  rw [if_pos h.ne']
  exact decide_eq_false (not_lt.mpr h.le)

theorem leftKey_less_rightKey {p q : Piece V} (h : p.lo ≤ q.hi) : (leftKey p).less (rightKey q) = true := by
  rcases h.lt_or_eq with h | h
  · exact less_of_lt h
  · unfold EndPoint.less leftKey rightKey
    rw [if_neg (not_not.mpr h)]
    rfl

theorem rightKey_not_less_leftKey {p q : Piece V} (h : q.lo ≤ p.hi) : (rightKey p).less (leftKey q) = false := by
  rcases h.lt_or_eq with h | h
  · exact not_less_of_lt h
  · unfold EndPoint.less leftKey rightKey
    rw [if_neg (not_not.mpr h.symm)]
    rfl

theorem less_irrefl (e : EndPoint) : e.less e = false := by
  unfold EndPoint.less
  rw [if_neg (not_not.mpr rfl)]
  exact decide_eq_false (lt_irrefl _)

theorem x_lt_of_mem {ps : List (Piece V)} (h : Ordered ps) {b : ℕ} (hb : ∀ p ∈ ps, p.hi < b)
    {e : EndPoint × V} (he : e ∈ toTree ps) : e.1.x < b := by
  obtain ⟨p, hp, hmem⟩ := mem_flatMap.mp he
  have := hb p hp
  have := h.proper p hp
  rcases mem_cons.mp hmem with rfl | hmem
  · simp only [leftKey]
    omega
  · obtain rfl := mem_singleton.mp hmem
    exact hb p hp

theorem lt_x_of_mem {ps : List (Piece V)} (h : Ordered ps) {b : ℕ} (hb : ∀ p ∈ ps, b < p.lo)
    {e : EndPoint × V} (he : e ∈ toTree ps) : b < e.1.x := by
  obtain ⟨p, hp, hmem⟩ := mem_flatMap.mp he
  have := hb p hp
  have := h.proper p hp
  rcases mem_cons.mp hmem with rfl | hmem
  · exact hb p hp
  · obtain rfl := mem_singleton.mp hmem
    simp only [rightKey]
    omega

section
variable {l r : List (Piece V)} {q : Piece V}

theorem find?_skip (hl : Ordered l) {b : ℕ} (hb : ∀ p ∈ l, p.hi < b) {found : EndPoint × V → Bool}
    (hno : ∀ e : EndPoint × V, e.1.x < b → found e = false) :
    (toTree (l ++ r)).find? found = (toTree r).find? found := by
  rw [toTree_append, find?_append, find?_eq_none.mpr, Option.none_or]
  intro e he
  rw [hno e (x_lt_of_mem hl hb he)]
  exact Bool.false_ne_true

theorem find?_first (hr : Ordered r) {b : ℕ} (hb : ∀ p ∈ r, b < p.lo) {found : EndPoint × V → Bool}
    (hyes : ∀ e : EndPoint × V, b < e.1.x → found e = true) :
    ((toTree r).find? found).map Prod.fst = firstKey r := by
  cases r with
  | nil => rfl
  | cons p r =>
    have := hyes (leftKey p, p.val) (hb p (by simp))
    rw [toTree_cons, find?_cons_of_pos this]
    rfl

theorem next_leftKey (h : Ordered (l ++ q :: r)) : (toTree (l ++ q :: r)).next (leftKey q) = some (rightKey q) := by
  obtain ⟨hl, hqr, hlq⟩ := ordered_append.mp h
  obtain ⟨hq, -, -⟩ := ordered_cons.mp hqr
  unfold EndPointTree.next
  rw [find?_skip hl (fun p hp => hlq p hp q (by simp)) (fun e he => not_less_of_lt he), toTree_cons,
    find?_cons_of_neg (by simp [less_irrefl]), find?_cons_of_pos (by exact leftKey_less_rightKey hq)]
  rfl

theorem next_rightKey (h : Ordered (l ++ q :: r)) : (toTree (l ++ q :: r)).next (rightKey q) = firstKey r := by
  obtain ⟨hl, hqr, hlq⟩ := ordered_append.mp h
  obtain ⟨hq, hr, hord⟩ := ordered_cons.mp hqr
  have below : ∀ p ∈ l, p.hi < q.lo := fun p hp => hlq p hp q (by simp)
  unfold EndPointTree.next
  rw [find?_skip hl below (fun e he => not_less_of_lt (he.trans_le hq)), toTree_cons,
    find?_cons_of_neg (by simp [rightKey_not_less_leftKey hq]), find?_cons_of_neg (by simp [less_irrefl])]
  exact find?_first hord hr (fun e he => less_of_lt he)

theorem find_leftKey (h : Ordered (l ++ q :: r)) : (toTree (l ++ q :: r)).find (leftKey q) = some q.val := by
  obtain ⟨hl, -, hlq⟩ := ordered_append.mp h
  have hno : ∀ e : EndPoint × V, e.1.x < q.lo → decide (e.1 = leftKey q) = false := by
    rintro e he
    apply decide_eq_false
    rintro heq
    rw [heq] at he
    exact lt_irrefl _ he
  unfold EndPointTree.find
  rw [find?_skip hl (fun p hp => hlq p hp q (by simp)) hno, toTree_cons, find?_cons_of_pos (by simp)]
  rfl

theorem find_rightKey_isSome (l r : List (Piece V)) (q : Piece V) :
    ((toTree (l ++ q :: r)).find (rightKey q)).isSome = true := by
  have hmem : (rightKey q, q.val) ∈ toTree (l ++ q :: r) := by simp [toTree_append, toTree_cons]
  unfold EndPointTree.find
  rw [Option.isSome_map, find?_isSome]
  exact ⟨_, hmem, by simp⟩

theorem prev_rightKey (h : Ordered (l ++ q :: r)) : (toTree (l ++ q :: r)).prev (rightKey q) = some (leftKey q) := by
  obtain ⟨hl, hqr, hlq⟩ := ordered_append.mp h
  obtain ⟨hq, hr, hord⟩ := ordered_cons.mp hqr
  have hbelow : (toTree l).filter (fun e => e.1.less (rightKey q)) = toTree l := by
    apply filter_eq_self.mpr
    intro e he
    exact less_of_lt ((x_lt_of_mem hl (fun p hp => hlq p hp q (by simp)) he).trans_le hq)
  have habove : (toTree r).filter (fun e => e.1.less (rightKey q)) = [] := by
    apply filter_eq_nil_iff.mpr
    intro e he
    rw [not_less_of_lt (lt_x_of_mem hord hr he)]
    exact Bool.false_ne_true
  unfold EndPointTree.prev
  rw [toTree_append, toTree_cons, filter_append, hbelow,
    filter_cons_of_pos (by exact leftKey_less_rightKey hq), filter_cons_of_neg (by simp [less_irrefl]), habove]
  simp

theorem lowerBound_leftKey (hl : Ordered l) (hr : Ordered r) {b : ℕ} (hlb : ∀ p ∈ l, p.hi < b) (hrb : ∀ p ∈ r, b ≤ p.lo) :
    (toTree (l ++ r)).lowerBound ⟨b, .leftEnd⟩ = firstKey r := by
  unfold EndPointTree.lowerBound
  rw [find?_skip hl hlb (fun e he => by rw [less_of_lt he]; rfl)]
  cases r with
  | nil => rfl
  | cons p r =>
    have hb := hrb p (by simp)
    have hno : (leftKey p).less ⟨b, .leftEnd⟩ = false := by
      rcases hb.lt_or_eq with hb | rfl
      · exact not_less_of_lt hb
      · exact less_irrefl _
    rw [toTree_cons, find?_cons_of_pos (by simp [hno])]
    rfl

section
variable (h : Ordered (l ++ q :: r)) (e : Option EndPoint)
include h e

theorem intervalEnd_toTree : intervalEnd (toTree (l ++ q :: r)) ⟨firstKey (q :: r), e⟩ = some q.hi := by
  change ((toTree (l ++ q :: r)).next (leftKey q) >>= fun right => some right.x) = _
  rw [next_leftKey h]
  rfl

theorem getProdCons_toTree : getProdCons (toTree (l ++ q :: r)) ⟨firstKey (q :: r), e⟩ = some q.val := find_leftKey h

theorem advance_toTree : advance (toTree (l ++ q :: r)) ⟨firstKey (q :: r), e⟩ = some ⟨firstKey r, e⟩ := by
  change ((toTree (l ++ q :: r)).next (leftKey q) >>= fun right =>
    some (IntervalIterator.mk ((toTree (l ++ q :: r)).next right) e)) = _
  rw [next_leftKey h]
  change some (IntervalIterator.mk ((toTree (l ++ q :: r)).next (rightKey q)) e) = _
  rw [next_rightKey h]

end

theorem isEnd_firstKey {m : List (Piece V)} (h : Ordered (q :: (m ++ r))) :
    isEnd ⟨firstKey (q :: (m ++ r)), firstKey r⟩ = false := by
  unfold isEnd
  apply decide_eq_false
  intro heq
  cases r with
  | nil => simp [firstKey] at heq
  | cons p r =>
    have hkey : leftKey q = leftKey p := by simpa [firstKey] using heq
    have hlo : q.lo = p.lo := congrArg EndPoint.x hkey
    obtain ⟨hq, hlt, -⟩ := ordered_cons.mp h
    have := hlt p (by simp)
    omega

end

theorem insertKey_below {k : EndPoint} {v : V} {t t' : EndPointTree V} (h : ∀ e ∈ t, e.1.less k = true)
    (h' : ∀ e ∈ t, k.less e.1 = false) : insertKey k v (t ++ t') = t ++ insertKey k v t' := by
  induction t with
  | nil => rfl
  | cons e t ih =>
    rw [cons_append, insertKey, h' e (by simp), h e (by simp), ih (fun e he => h e (by simp [he]))
      (fun e he => h' e (by simp [he]))]
    rfl

theorem insertKey_first {k : EndPoint} {v : V} {t : EndPointTree V} (h : ∀ e ∈ t, k.less e.1 = true) :
    insertKey k v t = (k, v) :: t := by
  cases t with
  | nil => rfl
  | cons e t => rw [insertKey, h e (by simp), if_pos rfl]

theorem insert_toTree {l r : List (Piece V)} {b e : ℕ} (v : V) (hl : Ordered l) (hr : Ordered r) (hbe : b ≤ e)
    (hlb : ∀ p ∈ l, p.hi < b) (hre : ∀ p ∈ r, e < p.lo) :
    DisjointIntervalSet.insert (toTree (l ++ r)) b e v = (true, toTree (l ++ ⟨b, e, v⟩ :: r)) := by
  have hbound : (toTree (l ++ r)).lowerBound ⟨b, .leftEnd⟩ = firstKey r :=
    lowerBound_leftKey hl hr hlb (fun p hp => hbe.trans (hre p hp).le)
  have hdisjoint : isIntervalDisjoint ⟨b, .leftEnd⟩ ⟨e, .rightEnd⟩ (firstKey r) = true := by
    cases r with
    | nil => rfl
    | cons p r =>
      have := hre p (by simp)
      simp only [firstKey, head?_cons, Option.map_some, isIntervalDisjoint, leftKey, EndPoint.isLeftEnd,
        Bool.and_eq_true, decide_eq_true_eq]
      exact ⟨⟨trivial, by omega⟩, this⟩
  have hbelow {k : EndPoint} (hk : b ≤ k.x) : ∀ x ∈ toTree l, x.1.x < k.x :=
    fun x hx => (x_lt_of_mem hl hlb hx).trans_le hk
  have hleft : insertKey ⟨b, .leftEnd⟩ v (toTree (l ++ r)) = toTree l ++ (⟨b, .leftEnd⟩, v) :: toTree r := by
    rw [toTree_append, insertKey_below (fun x hx => less_of_lt (hbelow (le_refl b) x hx))
      (fun x hx => not_less_of_lt (hbelow (le_refl b) x hx)),
      insertKey_first (fun x hx => less_of_lt (hbe.trans_lt (lt_x_of_mem hr hre hx)))]
  have hone : (EndPoint.mk b .leftEnd).less ⟨e, .rightEnd⟩ = true :=
    @leftKey_less_rightKey V ⟨b, b, v⟩ ⟨e, e, v⟩ hbe
  have hone' : (EndPoint.mk e .rightEnd).less ⟨b, .leftEnd⟩ = false :=
    @rightKey_not_less_leftKey V ⟨e, e, v⟩ ⟨b, b, v⟩ hbe
  unfold DisjointIntervalSet.insert
  simp only [hbound, hdisjoint, if_true, hleft]
  rw [insertKey_below (fun x hx => less_of_lt (hbelow hbe x hx)) (fun x hx => not_less_of_lt (hbelow hbe x hx)),
    insertKey, hone', hone, if_neg Bool.false_ne_true, if_pos rfl,
    insertKey_first (fun x hx => less_of_lt (lt_x_of_mem hr hre hx)), toTree_append, toTree_cons]
  rfl

theorem eraseKey_of_ne {t : EndPointTree V} {k : EndPoint} (h : ∀ e ∈ t, e.1 ≠ k) : t.eraseKey k = t :=
  filter_eq_self.mpr (fun e he => decide_eq_true (h e he))

theorem erase_toTree {l r : List (Piece V)} {q : Piece V} (h : Ordered (l ++ q :: r)) :
    (DisjointIntervalSet.erase (toTree (l ++ q :: r)) q.lo q.hi).2 = toTree (l ++ r) := by
  obtain ⟨hl, hqr, hlq⟩ := ordered_append.mp h
  obtain ⟨hq, hr, hord⟩ := ordered_cons.mp hqr
  have hlower : ∀ e ∈ toTree l, e.1.x < q.lo := fun e he => x_lt_of_mem hl (fun p hp => hlq p hp q (by simp)) he
  have hupper : ∀ e ∈ toTree r, q.hi < e.1.x := fun e he => lt_x_of_mem hord hr he
  have outside_l {k : EndPoint} (hk : q.lo ≤ k.x) : ∀ e ∈ toTree l, e.1 ≠ k := by
    rintro e he rfl
    exact absurd (hlower e he) (not_lt.mpr hk)
  have outside_r {k : EndPoint} (hk : k.x ≤ q.hi) : ∀ e ∈ toTree r, e.1 ≠ k := by
    rintro e he rfl
    exact absurd (hupper e he) (not_lt.mpr hk)
  have hfound : ((toTree (l ++ q :: r)).find (leftKey q)).isNone = false := by rw [find_leftKey h]; rfl
  have hfound' : ((toTree (l ++ q :: r)).find (rightKey q)).isNone = false := by
    rw [← Option.not_isSome, find_rightKey_isSome l r q]
    rfl
  unfold DisjointIntervalSet.erase
  change (if (((toTree (l ++ q :: r)).find (leftKey q)).isNone || ((toTree (l ++ q :: r)).find (rightKey q)).isNone)
    = true then (false, toTree (l ++ q :: r))
    else (true, ((toTree (l ++ q :: r)).eraseKey (leftKey q)).eraseKey (rightKey q))).2 = _
  rw [hfound, hfound']
  have herase {k : EndPoint} (hk : q.lo ≤ k.x) (hk' : k.x ≤ q.hi) (t : EndPointTree V) :
      EndPointTree.eraseKey (toTree l ++ (t ++ toTree r)) k = toTree l ++ (EndPointTree.eraseKey t k ++ toTree r) := by
    have h1 := eraseKey_of_ne (outside_l hk)
    have h2 := eraseKey_of_ne (outside_r hk')
    unfold EndPointTree.eraseKey at h1 h2 ⊢
    rw [filter_append, filter_append, h1, h2]
  have hmid : toTree (l ++ q :: r) = toTree l ++ ([(leftKey q, q.val), (rightKey q, q.val)] ++ toTree r) := by
    rw [toTree_append, toTree_cons]
    rfl
  have hne : rightKey q ≠ leftKey q := by simp [rightKey, leftKey]
  simp only [Bool.or_false, Bool.false_eq_true, if_false]
  rw [hmid, herase (le_refl _) hq, herase hq (le_refl _), toTree_append]
  simp [EndPointTree.eraseKey, hne]

theorem query_toTree {l m r : List (Piece V)} {ibeg iend : ℕ} (h : Ordered (l ++ (m ++ r)))
    (hl : ∀ p ∈ l, p.hi < ibeg) (hm : Meets ibeg iend m) (hr : ∀ p ∈ r, iend < p.lo) :
    query (toTree (l ++ (m ++ r))) ibeg iend = ⟨firstKey (m ++ r), firstKey r⟩ := by
  obtain ⟨hol, homr, hlmr⟩ := ordered_append.mp h
  obtain ⟨hom, hor, hmr⟩ := ordered_append.mp homr
  have hbe := hm.lo_le
  unfold query
  refine congrArg₂ IntervalIterator.mk ?hfirst ?hlast
  case hfirst =>
    by_cases hcut : ∃ q m', m = q :: m' ∧ q.lo < ibeg
    · -- the range begins inside the first interval, whose right end is found
      obtain ⟨q, m', rfl, hq⟩ := hcut
      have hhi := hm.above q (by simp)
      have hlower : (toTree (l ++ (q :: m' ++ r))).lowerBound ⟨ibeg, .leftEnd⟩ = some (rightKey q) := by
        unfold EndPointTree.lowerBound
        rw [find?_skip hol hl (fun e he => by rw [less_of_lt he]; rfl), cons_append, toTree_cons,
          find?_cons_of_neg (by simp [less_of_lt (show (leftKey q).x < (EndPoint.mk ibeg .leftEnd).x from hq)]),
          find?_cons_of_pos]
        · rfl
        · have := @rightKey_not_less_leftKey V q ⟨ibeg, ibeg, q.val⟩ hhi
          simpa [leftKey] using this
      rw [hlower]
      exact prev_rightKey h
    · have hge : ∀ p ∈ m ++ r, ibeg ≤ p.lo := by
        intro p hp
        rcases mem_append.mp hp with hp | hp
        · by_contra hlt
          obtain ⟨q, m', rfl⟩ := exists_cons_of_ne_nil (ne_nil_of_mem hp)
          apply hcut
          refine ⟨q, m', rfl, ?_⟩
          obtain ⟨hq, hq', -⟩ := ordered_cons.mp hom
          rcases mem_cons.mp hp with rfl | hp
          · omega
          · have := hq' p hp
            omega
        · have := hr p hp
          omega
      have hlower := lowerBound_leftKey hol homr hl hge
      rw [hlower]
      cases m ++ r with
      | nil => rfl
      | cons p s => rfl
  case hlast =>
    by_cases hend : ∃ m' q, m = m' ++ [q] ∧ iend ≤ q.hi
    · -- the range ends inside the last interval, whose right end is found
      obtain ⟨m', q, rfl, hq⟩ := hend
      have hsplit : l ++ (m' ++ [q] ++ r) = (l ++ m') ++ q :: r := by simp
      rw [hsplit] at h ⊢
      obtain ⟨holm, hoqr, hlmq⟩ := ordered_append.mp h
      obtain ⟨hqq, -, -⟩ := ordered_cons.mp hoqr
      have hqlo := hm.below q (by simp)
      have hlower : (toTree ((l ++ m') ++ q :: r)).lowerBound ⟨iend, .rightEnd⟩ = some (rightKey q) := by
        have hleft : (leftKey q).less ⟨iend, .rightEnd⟩ = true := @leftKey_less_rightKey V q ⟨iend, iend, q.val⟩ hqlo
        have hright : (rightKey q).less ⟨iend, .rightEnd⟩ = false := by
          rcases hq.lt_or_eq with hq | rfl
          · exact not_less_of_lt hq
          · exact less_irrefl _
        unfold EndPointTree.lowerBound
        rw [find?_skip holm (fun p hp => hlmq p hp q (by simp))
          (fun e he => by rw [less_of_lt (he.trans_le hqlo)]; rfl), toTree_cons,
          find?_cons_of_neg (by simp [hleft]), find?_cons_of_pos (by simp [hright])]
        rfl
      rw [hlower]
      exact next_rightKey h
    · have hlt : ∀ p ∈ l ++ m, p.hi < iend := by
        intro p hp
        rcases mem_append.mp hp with hp | hp
        · have := hl p hp
          omega
        · by_contra hge
          apply hend
          obtain ⟨m₁, m₂, rfl⟩ := append_of_mem hp
          have hmore : m₂ = [] := by
            apply eq_nil_iff_forall_not_mem.mpr
            intro p' hp'
            have := (ordered_cons.mp (ordered_append.mp hom).2.1).2.1 p' hp'
            have := hm.below p' (by simp [hp'])
            omega
          subst hmore
          exact ⟨m₁, p, rfl, not_lt.mp hge⟩
      have hlower : (toTree (l ++ (m ++ r))).lowerBound ⟨iend, .rightEnd⟩ = firstKey r := by
        rw [← append_assoc] at h ⊢
        unfold EndPointTree.lowerBound
        rw [find?_skip (ordered_append.mp h).1 hlt (fun e he => by rw [less_of_lt he]; rfl)]
        exact find?_first hor hr (fun e he => by rw [not_less_of_lt he]; rfl)
      rw [hlower]
      cases r with
      | nil => rfl
      | cons p s => rfl

end NpuCompiler.Control
