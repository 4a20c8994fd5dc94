import Mathlib.Order.CompletePartialOrder
import Mathlib.Tactic.Linarith
import NpuCompiler.Library.Spans
import NpuCompiler.Memory.Partitioner

namespace NpuCompiler.Memory

open Spans List

theorem addrAdd_eq {a b : ℕ} (h : a + b < 2 ^ 64) : addrAdd a b = a + b := Nat.mod_eq_of_lt h

theorem addrSub_eq {a b : ℕ} (ha : a < 2 ^ 64) (h : b ≤ a) : addrSub a b = a - b := by
  unfold addrSub
  rw [show 2 ^ 64 + a - b = (a - b) + 2 ^ 64 by omega, Nat.add_mod_right]
  exact Nat.mod_eq_of_lt (by omega)

def freeSet (gaps : List Gap) : Set ℕ := cover Gap.begin_ Gap.end_ gaps

structure GapsOk (totalSize : ℕ) (gaps : List Gap) : Prop where
  canonical : Canonical Gap.begin_ Gap.end_ gaps
  end_le : ∀ g ∈ gaps, g.end_ ≤ totalSize

theorem GapsOk.eq_of_freeSet {t t' : ℕ} {gs gs' : List Gap} (h : GapsOk t gs)
    (h' : GapsOk t' gs') (he : freeSet gs = freeSet gs') : gs = gs' := by
  refine h.canonical.eq_of_cover ?_ h'.canonical he
  rintro ⟨b, e⟩ ⟨b', e'⟩ rfl rfl
  rfl

theorem freeSet_cons (g : Gap) (gs : List Gap) :
    freeSet (g :: gs) = Set.Ico g.begin_ g.end_ ∪ freeSet gs := cover_cons g gs

theorem freeSet_append (gs gs' : List Gap) : freeSet (gs ++ gs') = freeSet gs ∪ freeSet gs' :=
  cover_append gs gs'

theorem gapsOk_nil (t : ℕ) : GapsOk t [] := ⟨canonical_nil, by simp⟩

theorem gapsOk_cons {t : ℕ} {g : Gap} {gs : List Gap} :
    GapsOk t (g :: gs) ↔ g.begin_ < g.end_ ∧ g.end_ ≤ t ∧ (∀ g' ∈ gs, g.end_ < g'.begin_) ∧ GapsOk t gs := by
  constructor
  · rintro ⟨hc, he⟩
    obtain ⟨h1, h2, h3⟩ := canonical_cons.mp hc
    exact ⟨h1, he g (by simp), h2, h3, fun g' h => he g' (by simp [h])⟩
  · rintro ⟨h1, h2, h3, h4, h5⟩
    refine ⟨canonical_cons.mpr ⟨h1, h3, h4⟩, ?_⟩
    intro g' hm
    rcases mem_cons.mp hm with rfl | hm
    · exact h2
    · exact h5 g' hm

theorem gapsOk_append {t : ℕ} {gs gs' : List Gap} :
    GapsOk t (gs ++ gs') ↔ GapsOk t gs ∧ GapsOk t gs' ∧ ∀ g ∈ gs, ∀ g' ∈ gs', g.end_ < g'.begin_ := by
  constructor
  · rintro ⟨hc, he⟩
    obtain ⟨h1, h2, h3⟩ := canonical_append.mp hc
    exact ⟨⟨h1, fun g h => he g (by simp [h])⟩, ⟨h2, fun g h => he g (by simp [h])⟩, h3⟩
  · rintro ⟨⟨h1, h2⟩, ⟨h3, h4⟩, h5⟩
    refine ⟨canonical_append.mpr ⟨h1, h3, h5⟩, ?_⟩
    intro g hm
    rcases mem_append.mp hm with h | h
    · exact h2 g h
    · exact h4 g h

def remains (g : Gap) (a b : ℕ) : List Gap :=
  (if g.begin_ < a then [⟨g.begin_, a⟩] else []) ++ (if b < g.end_ then [⟨b, g.end_⟩] else [])

theorem mem_remains {g g' : Gap} {a b : ℕ} (h : g' ∈ remains g a b) :
    (g' = ⟨g.begin_, a⟩ ∧ g.begin_ < a) ∨ (g' = ⟨b, g.end_⟩ ∧ b < g.end_) := by
  unfold remains at h
  rw [mem_append] at h
  rcases h with h | h
  · split at h
    · exact .inl ⟨by simpa using h, ‹_›⟩
    · simp at h
  · split at h
    · exact .inr ⟨by simpa using h, ‹_›⟩
    · simp at h

theorem remains_ok {t : ℕ} {g : Gap} {a b : ℕ} (he : g.end_ ≤ t) (hab : a < b) (hb : b ≤ g.end_) : GapsOk t (remains g a b) := by
  unfold remains
  split_ifs with h1 h2 h2
  · exact gapsOk_cons.mpr ⟨h1, by simp only; omega, by simp [hab], gapsOk_cons.mpr ⟨h2, he, by simp, gapsOk_nil t⟩⟩
  · exact gapsOk_cons.mpr ⟨h1, by simp only; omega, by simp, gapsOk_nil t⟩
  · exact gapsOk_cons.mpr ⟨h2, he, by simp, gapsOk_nil t⟩
  · exact gapsOk_nil t

theorem freeSet_remains {g : Gap} {a b : ℕ} (ha : g.begin_ ≤ a) (hab : a < b) (hb : b ≤ g.end_) :
    freeSet (remains g a b) = Set.Ico g.begin_ g.end_ \ Set.Ico a b := by
  ext x
  unfold remains
  simp only [freeSet, mem_cover, mem_append, Set.mem_sdiff, Set.mem_Ico]
  split_ifs <;> simp <;> omega

theorem take_out {t : ℕ} {l r : List Gap} {g : Gap} {a b : ℕ}
    (h : GapsOk t (l ++ g :: r)) (ha : g.begin_ ≤ a) (hab : a < b) (hb : b ≤ g.end_) :
    GapsOk t (l ++ (remains g a b ++ r)) ∧
      freeSet (l ++ (remains g a b ++ r)) = freeSet (l ++ g :: r) \ Set.Ico a b := by
  obtain ⟨hl, hgr, hlg⟩ := gapsOk_append.mp h
  obtain ⟨hg, het, hgr', hr⟩ := gapsOk_cons.mp hgr
  constructor
  · refine gapsOk_append.mpr ⟨hl, gapsOk_append.mpr ⟨remains_ok het hab hb, hr, ?_⟩, ?_⟩
    · intro g' hg' g'' hg''
      have := hgr' g'' hg''
      rcases mem_remains hg' with ⟨rfl, _⟩ | ⟨rfl, _⟩ <;> simp only <;> omega
    · intro g' hg' g'' hg''
      rcases mem_append.mp hg'' with hm | hm
      · have := hlg g' hg' g (by simp)
        rcases mem_remains hm with ⟨rfl, _⟩ | ⟨rfl, _⟩ <;> simp only <;> omega
      · exact hlg g' hg' g'' (by simp [hm])
  · simp only [freeSet_append, freeSet_cons, freeSet_remains ha hab hb]
    have outside_l : Disjoint (freeSet l) (Set.Ico a b) := by
      rw [Set.disjoint_left]
      rintro x ⟨g', hg', h1, h2⟩ ⟨h3, h4⟩
      have := hlg g' hg' g (by simp)
      omega
    have outside_r : Disjoint (freeSet r) (Set.Ico a b) := by
      rw [Set.disjoint_left]
      rintro x ⟨g', hg', h1, h2⟩ ⟨h3, h4⟩
      have := hgr' g' hg'
      omega
    rw [Set.union_sdiff_distrib, Set.union_sdiff_distrib, outside_l.sdiff_eq_left, outside_r.sdiff_eq_left]

theorem insertIdx_length_append {β : Type*} (l r : List β) (x : β) :
    (l ++ r).insertIdx l.length x = l ++ x :: r := by
  induction l with
  | nil => simp
  | cons y l ih => simpa using ih

namespace Partitioner

theorem useGap_append {t : ℕ} {l r : List Gap} {g : Gap} {a size : ℕ} (ht : t < 2 ^ 64)
    (h : GapsOk t (l ++ g :: r)) (ha : g.begin_ ≤ a) (hb : a + size ≤ g.end_) :
    useGap (l ++ g :: r) l.length a size = l ++ (remains g a (a + size) ++ r) := by
  have het := h.end_le g (by simp)
  have h1 : addrAdd a size = a + size := addrAdd_eq (by omega)
  have h2 : addrSub a g.begin_ = a - g.begin_ := addrSub_eq (by omega) ha
  have h3 : addrSub g.end_ (a + size) = g.end_ - (a + size) := addrSub_eq (by omega) hb
  simp only [useGap, getElem?_append_right (le_refl _), Nat.sub_self, getElem?_cons_zero, h1, h2, h3]
  rcases ha.eq_or_lt with hl | hl <;> rcases hb.eq_or_lt with hr | hr
  · rw [if_pos (by omega)]
    simp [remains, hl, hr, eraseIdx_append_of_length_le]
  · rw [if_neg (by omega), if_neg (by omega), if_pos (by omega)]
    simp [remains, hl, hr, set_append_right]
  · rw [if_neg (by omega), if_pos (by omega)]
    simp [remains, hl, hr, set_append_right]
  · rw [if_neg (by omega), if_neg (by omega), if_neg (by omega)]
    simp [remains, hl, hr, set_append_right, insertIdx_length_append]

structure Ok (p : Partitioner) : Prop where
  total_lt : p.totalSize < 2 ^ 64
  gapsOk : GapsOk p.totalSize p.gaps

structure TakesOut (p p' : Partitioner) (addr size : ℕ) : Prop where
  ok : p'.Ok
  total_eq : p'.totalSize = p.totalSize
  subset : Set.Ico addr (addr + size) ⊆ freeSet p.gaps
  freeSet_eq : freeSet p'.gaps = freeSet p.gaps \ Set.Ico addr (addr + size)

structure GivesBack (p p' : Partitioner) (addr size : ℕ) : Prop where
  ok : p'.Ok
  total_eq : p'.totalSize = p.totalSize
  freeSet_eq : freeSet p'.gaps = freeSet p.gaps ∪ Set.Ico addr (addr + size)

theorem init_ok {t : ℕ} (h0 : 0 < t) (ht : t < 2 ^ 64) : (init t).Ok :=
  ⟨ht, gapsOk_cons.mpr ⟨h0, le_refl t, by simp, gapsOk_nil t⟩⟩

theorem freeSet_init (t : ℕ) : freeSet (init t).gaps = Set.Ico 0 t := by
  ext x; simp [freeSet, init]

theorem Ok.freeSet_subset {p : Partitioner} (h : p.Ok) : freeSet p.gaps ⊆ Set.Ico 0 p.totalSize := by
  rintro x ⟨g, hg, -, hx⟩
  have := h.gapsOk.end_le g hg
  exact ⟨Nat.zero_le x, by omega⟩

theorem Ok.ext {p q : Partitioner} (hp : p.Ok) (hq : q.Ok) (ht : p.totalSize = q.totalSize)
    (hf : freeSet p.gaps = freeSet q.gaps) : p = q := by
  obtain ⟨gs, t⟩ := p
  obtain ⟨gs', t'⟩ := q
  have hg : gs = gs' := hp.gapsOk.eq_of_freeSet hq.gapsOk hf
  simp only at ht
  rw [hg, ht]

theorem takesOut_of_split {p : Partitioner} {l r : List Gap} {g : Gap} {addr size : ℕ} (h : p.Ok)
    (hs : p.gaps = l ++ g :: r) (h0 : 0 < size) (ha : g.begin_ ≤ addr) (hb : addr + size ≤ g.end_) :
    TakesOut p { p with gaps := l ++ (remains g addr (addr + size) ++ r) } addr size := by
  have hgaps := h.gapsOk
  rw [hs] at hgaps
  obtain ⟨hok, hfree⟩ := take_out hgaps ha (by omega) hb
  refine ⟨⟨h.total_lt, hok⟩, rfl, ?_, by rw [hfree, hs]⟩
  rintro x ⟨h1, h2⟩
  exact ⟨g, by simp [hs], by omega, by omega⟩

def roundUp (val align : ℕ) : ℕ := (val + (align - 1)) / align * align

theorem dvd_roundUp (val align : ℕ) : align ∣ roundUp val align := Dvd.intro_left _ rfl

theorem le_roundUp (val : ℕ) {align : ℕ} (h : 0 < align) : val ≤ roundUp val align := by
  have h1 := Nat.div_add_mod (val + (align - 1)) align
  have h2 := Nat.mod_lt (val + (align - 1)) h
  unfold roundUp
  rw [Nat.mul_comm]
  omega

theorem roundUp_le (val align : ℕ) : roundUp val align ≤ val + (align - 1) := Nat.div_mul_le_self _ _

theorem alignValUp_eq {val align : ℕ} (h0 : 0 < align) (ha : align < 2 ^ 64)
    (h : val + (align - 1) < 2 ^ 64) : alignValUp val align = roundUp val align := by
  unfold alignValUp roundUp
  rw [addrSub_eq ha h0, addrAdd_eq h]

/-- On the gap `g` no sum of `getAddrFromGap` passes `2 ^ 64`, unless the candidate is `invalidAddress`. -/
def NoOverflow (size alignment : ℕ) (dir : Direction) (g : Gap) : Prop :=
  size ≤ g.end_ - g.begin_ →
    match dir with
    | .up =>
      g.begin_ + (alignment - 1) < 2 ^ 64 ∧
        (roundUp g.begin_ alignment + size < 2 ^ 64 ∨ roundUp g.begin_ alignment = invalidAddress)
    | .down =>
      g.end_ - size + (alignment - 1) < 2 ^ 64 ∧
        (roundUp (g.end_ - size) alignment + size < 2 ^ 64 ∨
          roundUp (g.end_ - size) alignment = invalidAddress) ∧
        (g.end_ < roundUp (g.end_ - size) alignment + size → g.begin_ + alignment < 2 ^ 64)

instance (size alignment : ℕ) (dir : Direction) (g : Gap) : Decidable (NoOverflow size alignment dir g) :=
  match dir with
  | .up => inferInstanceAs (Decidable (_ → _ ∧ (_ ∨ _)))
  | .down => inferInstanceAs (Decidable (_ → _ ∧ (_ ∨ _) ∧ (_ → _)))

/-- `NoOverflow` of the gap that the request takes. -/
def TakenNoOverflow (p : Partitioner) (size alignment : ℕ) (dir : Direction) : Prop :=
  ∀ pos ∈ minGapInd p.gaps size alignment dir, ∀ g ∈ p.gaps[pos]?, NoOverflow size alignment dir g

instance (p : Partitioner) (size alignment : ℕ) (dir : Direction) : Decidable (p.TakenNoOverflow size alignment dir) :=
  inferInstanceAs (Decidable (∀ _ ∈ _, ∀ _ ∈ _, NoOverflow _ _ _ _))

theorem getAddrFromGap_fits {g : Gap} {size alignment : ℕ} {dir : Direction} (hg : g.begin_ < g.end_)
    (he : g.end_ < 2 ^ 64) (hs : 0 < size) (ha : 0 < alignment) (ha' : alignment < 2 ^ 64)
    (hno : NoOverflow size alignment dir g)
    (hv : getAddrFromGap g size alignment dir ≠ invalidAddress) :
    alignment ∣ getAddrFromGap g size alignment dir ∧
      g.begin_ ≤ getAddrFromGap g size alignment dir ∧
      getAddrFromGap g size alignment dir + size ≤ g.end_ := by
  have hsize : g.size = g.end_ - g.begin_ := addrSub_eq he hg.le
  unfold getAddrFromGap at hv ⊢
  rw [hsize] at hv ⊢
  by_cases hfit : g.end_ - g.begin_ < size
  · simp [hfit] at hv
  rw [if_neg hfit] at hv ⊢
  have hn := hno (not_lt.mp hfit)
  cases dir with
  | up =>
    obtain ⟨h1, h2⟩ := hn
    simp only [alignValUp_eq ha ha' h1] at hv ⊢
    have hle := le_roundUp g.begin_ ha
    have hlt : roundUp g.begin_ alignment + size < 2 ^ 64 := by
      refine h2.resolve_right (fun hinv => hv ?_)
      split_ifs <;> simp [hinv]
    rw [addrAdd_eq hlt] at hv ⊢
    split_ifs at hv ⊢ with hend
    · exact absurd rfl hv
    · exact ⟨dvd_roundUp _ _, hle, not_lt.mp hend⟩
  | down =>
    obtain ⟨h1, h2, h3⟩ := hn
    have hx : addrSub g.end_ size = g.end_ - size := addrSub_eq he (by omega)
    simp only [hx, alignValUp_eq ha ha' h1] at hv ⊢
    have hle := le_roundUp (g.end_ - size) ha
    have hle' := roundUp_le (g.end_ - size) alignment
    have hdvd := dvd_roundUp (g.end_ - size) alignment
    generalize roundUp (g.end_ - size) alignment = r at *
    have hlt : r + size < 2 ^ 64 := by
      refine h2.resolve_right (fun hinv => hv ?_)
      subst hinv
      have hwrap : addrAdd invalidAddress size = size - 1 := by
        unfold addrAdd invalidAddress; omega
      rw [if_neg (by omega)]
    rw [addrAdd_eq hlt] at hv ⊢
    by_cases hend : r + size > g.end_
    · have hbegin := h3 hend
      rw [if_pos hend, addrAdd_eq hbegin] at hv ⊢
      by_cases hlow : g.begin_ + alignment > r
      · simp [hlow] at hv
      · have hsub : addrSub r alignment = r - alignment := addrSub_eq (by omega) (by omega)
        have hadd : addrAdd (r - alignment) size = r - alignment + size := addrAdd_eq (by omega)
        rw [if_neg hlow, hsub, hadd] at hv ⊢
        split_ifs at hv ⊢ with hend'
        · exact absurd rfl hv
        · exact ⟨Nat.dvd_sub hdvd (dvd_refl _), by omega, not_lt.mp hend'⟩
    · rw [if_neg hend]
      exact ⟨hdvd, by omega, not_lt.mp hend⟩

theorem considerGap_found {gaps : List Gap} {size alignment : ℕ} {dir : Direction}
    (order : List ℕ) (best : Option ℕ × ℕ)
    (hb : ∀ i, best.1 = some i → ∃ g, gaps[i]? = some g ∧ getAddrFromGap g size alignment dir ≠ invalidAddress) :
    ∀ i, (order.foldl (considerGap gaps size alignment dir) best).1 = some i →
      ∃ g, gaps[i]? = some g ∧ getAddrFromGap g size alignment dir ≠ invalidAddress := by
  induction order generalizing best with
  | nil => exact hb
  | cons j order ih =>
    apply ih
    intro i hi
    unfold considerGap at hi
    split at hi
    · exact hb i hi
    · rename_i g hg
      split_ifs at hi with hv hless
      · obtain rfl : j = i := by simpa using hi
        exact ⟨g, hg, hv⟩
      · exact hb i hi
      · exact hb i hi

theorem minGapInd_found {gaps : List Gap} {size alignment : ℕ} {dir : Direction} {i : ℕ}
    (h : minGapInd gaps size alignment dir = some i) :
    ∃ g, gaps[i]? = some g ∧ getAddrFromGap g size alignment dir ≠ invalidAddress := by
  unfold minGapInd at h
  split at h
  · rename_i j hj
    obtain rfl : j = i := by simpa using h
    exact considerGap_found _ _ (by simp) j hj
  · split at h
    · simp at h
    · rename_i g hg
      split_ifs at h with hv
      obtain rfl : lastGap gaps.length dir = i := by simpa using h
      exact ⟨g, hg, hv⟩

theorem split_at_index {β : Type*} {l : List β} {i : ℕ} {x : β} (h : l[i]? = some x) :
    l = l.take i ++ x :: l.drop (i + 1) ∧ (l.take i).length = i := by
  obtain ⟨hi, rfl⟩ := List.getElem?_eq_some_iff.mp h
  exact ⟨by simp, by simp; omega⟩

theorem alloc_cases {p : Partitioner} {size alignment : ℕ} {dir : Direction} (h : p.Ok) (hs : 0 < size)
    (ha : 0 < alignment) (ha' : alignment < 2 ^ 64) (hno : p.TakenNoOverflow size alignment dir) :
    p.alloc size alignment dir = (invalidAddress, p) ∨
      ∃ addr p', p.alloc size alignment dir = (addr, p') ∧ addr ≠ invalidAddress ∧ alignment ∣ addr ∧
        TakesOut p p' addr size := by
  unfold alloc chooseMinimalGap
  cases hi : minGapInd p.gaps size alignment dir with
  | none => exact .inl rfl
  | some pos =>
    obtain ⟨g, hg, hv⟩ := minGapInd_found hi
    obtain ⟨hsplit, hlen⟩ := split_at_index hg
    have hmem : g ∈ p.gaps := mem_of_getElem? hg
    have hend : g.end_ < 2 ^ 64 := (h.gapsOk.end_le g hmem).trans_lt h.total_lt
    obtain ⟨hdvd, hlo, hhi⟩ := getAddrFromGap_fits (h.gapsOk.canonical.proper g hmem) hend hs ha ha'
      (hno pos hi g hg) hv
    right
    simp only [hg]
    refine ⟨_, _, rfl, hv, hdvd, ?_⟩
    have hok := h.gapsOk
    rw [hsplit] at hok
    have huse := useGap_append h.total_lt hok hlo hhi
    rw [hlen, ← hsplit] at huse
    rw [huse]
    exact takesOut_of_split h hsplit hs hlo hhi

theorem cutPrevious_append {t : ℕ} {l r : List Gap} {g : Gap} {addr size : ℕ} (ht : t < 2 ^ 64)
    (het : g.end_ ≤ t) (ha : g.begin_ < addr) (hb : addr + size ≤ g.end_) :
    cutPrevious (l ++ [g]) r addr size = l ++ (remains g addr (addr + size) ++ r) := by
  have h1 : addrAdd addr size = addr + size := addrAdd_eq (by omega)
  have h2 : addrSub g.end_ (addr + size) = g.end_ - (addr + size) := addrSub_eq (by omega) hb
  have h3 : addrAdd (addr + size) (g.end_ - (addr + size)) = g.end_ := by
    rw [addrAdd_eq (by omega)]
    omega
  simp only [cutPrevious, getLast?_append, getLast?_singleton, Option.some_or, h1, h2, h3,
    dropLast_concat]
  rcases hb.eq_or_lt with hr | hr
  · simp [remains, ha, hr]
  · rw [if_neg (by omega)]
    simp [remains, ha, hr]

theorem allocFixed_takesOut {p : Partitioner} {addr size : ℕ} (h : p.Ok) (hs : 0 < size)
    (hfree : Set.Ico addr (addr + size) ⊆ freeSet p.gaps) :
    TakesOut p (p.allocFixed addr size) addr size := by
  obtain ⟨g, hmem, ha, hb⟩ := h.gapsOk.canonical.exists_of_subset (by omega) hfree
  obtain ⟨l, r, hsplit⟩ := append_of_mem hmem
  have hok := h.gapsOk
  rw [hsplit] at hok
  obtain ⟨hl, hgr, hlg⟩ := gapsOk_append.mp hok
  obtain ⟨hg, het, hgr', hr⟩ := gapsOk_cons.mp hgr
  have ht := h.total_lt
  have before_l : ∀ g' ∈ l, decide (g'.begin_ < addr) = true := by
    intro g' hg'
    have := hlg g' hg' g (by simp)
    have := hl.canonical.proper g' hg'
    simp only [decide_eq_true_eq]
    omega
  have after_r : ∀ g' ∈ r, ¬ g'.begin_ < addr := by
    intro g' hg'
    have := hgr' g' hg'
    omega
  suffices hres : p.allocFixed addr size = { p with gaps := l ++ (remains g addr (addr + size) ++ r) } by
    rw [hres]
    exact takesOut_of_split h hsplit hs ha hb
  unfold allocFixed
  simp only [hsplit, takeWhile_append_of_pos before_l, dropWhile_append_of_pos before_l]
  rcases ha.eq_or_lt with heq | hlt
  · subst heq
    have hsize : g.size = g.end_ - g.begin_ := addrSub_eq (by omega) (by omega)
    have hadd : addrAdd g.begin_ size = g.begin_ + size := addrAdd_eq (by omega)
    have hge : decide (g.begin_ < g.begin_) = false := by simp
    simp only [takeWhile_cons, dropWhile_cons, hge, Bool.false_eq_true, if_false, if_true,
      append_nil, hsize, hadd]
    rcases hb.eq_or_lt with he | he
    · rw [if_pos (by omega)]
      simp [remains, he]
    · rw [if_neg (by omega)]
      simp [remains, he]
  · have hcut := cutPrevious_append (l := l) (r := r) ht het hlt hb
    cases r with
    | nil =>
      simp only [takeWhile_cons, dropWhile_cons, hlt, decide_true, if_true, takeWhile_nil,
        dropWhile_nil]
      rw [hcut]
    | cons g' r =>
      have hg' : ¬ g'.begin_ < addr := after_r g' (by simp)
      have hne : g'.begin_ ≠ addr := by
        have := hgr' g' (by simp)
        omega
      simp only [takeWhile_cons, dropWhile_cons, hlt, decide_true, if_true, hg', decide_false,
        Bool.false_eq_true, if_false, hne]
      rw [hcut]

structure FreedAfter (t : ℕ) (g : Gap) (r : List Gap) (addr size : ℕ) (out : List Gap) : Prop where
  head : ∃ g' r', out = g' :: r' ∧ g'.begin_ = g.begin_
  ok : GapsOk t out
  freeSet_eq : freeSet out = freeSet (g :: r) ∪ Set.Ico addr (addr + size)

theorem FreedAfter.cons {t : ℕ} {g g' : Gap} {r out : List Gap} {addr size : ℕ}
    (h : FreedAfter t g' r addr size out) (hok : GapsOk t (g :: g' :: r)) :
    FreedAfter t g (g' :: r) addr size (g :: out) := by
  obtain ⟨h1, h2, h3, -⟩ := gapsOk_cons.mp hok
  obtain ⟨g'', r', rfl, hb⟩ := h.head
  refine ⟨⟨g, _, rfl, rfl⟩, gapsOk_cons.mpr ⟨h1, h2, ?_, h.ok⟩, ?_⟩
  · intro x hx
    have hhead := h3 g' (by simp)
    rcases mem_cons.mp hx with rfl | hx
    · omega
    · have := (gapsOk_cons.mp h.ok).2.2.1 x hx
      have := (gapsOk_cons.mp h.ok).1
      omega
  · rw [freeSet_cons, h.freeSet_eq, freeSet_cons g (g' :: r), Set.union_assoc]

theorem freeAtLast_cons (addr size : ℕ) (g g' : Gap) (r : List Gap) :
    freeAtLast addr size (g :: g' :: r) = g :: freeAtLast addr size (g' :: r) := by
  unfold freeAtLast
  rw [getLast?_cons_cons]
  cases (g' :: r).getLast? with
  | none => rfl
  | some x => simp only [dropLast_cons_cons]; split_ifs <;> rfl

theorem freeAfter_spec {t : ℕ} {g : Gap} {r : List Gap} {addr size : ℕ} (ht : t < 2 ^ 64)
    (hok : GapsOk t (g :: r)) (hs : 0 < size) (he : addr + size ≤ t) (ha : g.end_ ≤ addr)
    (hd : Disjoint (Set.Ico addr (addr + size)) (freeSet (g :: r))) :
    FreedAfter t g r addr size
      ((freeBetween addr size (g :: r)).getD (freeAtLast addr size (g :: r))) := by
  have hend : addrAdd addr size = addr + size := addrAdd_eq (by omega)
  induction r generalizing g with
  | nil =>
    obtain ⟨hg, het, -, -⟩ := gapsOk_cons.mp hok
    simp only [freeBetween, Option.getD_none, freeAtLast, getLast?_singleton, hend,
      dropLast_singleton, nil_append, singleton_append]
    rw [if_neg (by omega), if_neg (by omega)]
    split_ifs with heq
    · have hadd : addrAdd g.end_ size = addr + size := by rw [addrAdd_eq (by omega), heq]
      rw [hadd]
      refine ⟨⟨_, _, rfl, rfl⟩, gapsOk_cons.mpr ⟨by simp only; omega, he, by simp, gapsOk_nil t⟩, ?_⟩
      ext x; simp [freeSet]; omega
    · refine ⟨⟨_, _, rfl, rfl⟩, gapsOk_cons.mpr ⟨hg, het, ?_, gapsOk_cons.mpr ⟨by simp only; omega, he, by simp, gapsOk_nil t⟩⟩, ?_⟩
      · simp only [mem_singleton, forall_eq]; omega
      · ext x; simp [freeSet]
  | cons g' r ih =>
    obtain ⟨hg, het, hgr, hok'⟩ := gapsOk_cons.mp hok
    obtain ⟨hg', het', hgr', hr⟩ := gapsOk_cons.mp hok'
    have hgg' := hgr g' (by simp)
    unfold freeBetween
    simp only [hend]
    by_cases hfit : addr ≥ g.end_ ∧ addr + size ≤ g'.begin_
    · have hsize : g'.size = g'.end_ - g'.begin_ := addrSub_eq (by omega) hg'.le
      have hadd : addrAdd g.end_ size = g.end_ + size := addrAdd_eq (by omega)
      have hsub : addrSub g'.begin_ size = g'.begin_ - size := addrSub_eq (by omega) (by omega)
      have hin : addrAdd size (g'.end_ - g'.begin_) = size + (g'.end_ - g'.begin_) := addrAdd_eq (by omega)
      simp only [if_pos hfit, Option.getD_some, hsize, hin, hadd, hsub]
      have hboth : addrAdd g.end_ (size + (g'.end_ - g'.begin_)) = g.end_ + (size + (g'.end_ - g'.begin_)) ∨
          ¬ (addr = g.end_ ∧ addr + size = g'.begin_) := by
        by_cases hj : addr = g.end_ ∧ addr + size = g'.begin_
        · exact .inl (addrAdd_eq (by omega))
        · exact .inr hj
      have tail_later : ∀ x ∈ r, g'.end_ < x.begin_ := hgr'
      split_ifs with h1 h2 h2
      · rw [hboth.resolve_right (not_not.mpr ⟨h1, h2⟩)]
        refine ⟨⟨_, _, rfl, rfl⟩, gapsOk_cons.mpr ⟨by simp only; omega, by simp only; omega, ?_, hr⟩, ?_⟩
        · intro x hx
          have := tail_later x hx
          simp only
          omega
        · simp only [freeSet_cons]
          ext x
          simp only [Set.mem_union, Set.mem_Ico]
          grind
      · refine ⟨⟨_, _, rfl, rfl⟩, gapsOk_cons.mpr ⟨by simp only; omega, by simp only; omega, ?_, hok'⟩, ?_⟩
        · intro x hx
          simp only
          rcases mem_cons.mp hx with rfl | hx
          · omega
          · have := tail_later x hx
            omega
        · simp only [freeSet_cons]
          ext x
          simp only [Set.mem_union, Set.mem_Ico]
          grind
      · refine ⟨⟨_, _, rfl, rfl⟩, gapsOk_cons.mpr ⟨hg, het, ?_, gapsOk_cons.mpr ⟨by simp only; omega, het', tail_later, hr⟩⟩, ?_⟩
        · intro x hx
          rcases mem_cons.mp hx with rfl | hx
          · simp only; omega
          · have := tail_later x hx
            omega
        · simp only [freeSet_cons]
          ext x
          simp only [Set.mem_union, Set.mem_Ico]
          grind
      · refine ⟨⟨_, _, rfl, rfl⟩, gapsOk_cons.mpr ⟨hg, het, ?_, gapsOk_cons.mpr ⟨by simp only; omega, by simp only; omega, ?_, hok'⟩⟩, ?_⟩
        · intro x hx
          rcases mem_cons.mp hx with rfl | hx
          · simp only; omega
          · exact hgr x hx
        · intro x hx
          simp only
          rcases mem_cons.mp hx with rfl | hx
          · omega
          · have := tail_later x hx
            omega
        · simp only [freeSet_cons]
          ext x
          simp only [Set.mem_union, Set.mem_Ico]
          grind
    · -- the freed range misses `g'` and does not end before it, so it lies behind it
      have hbehind : g'.end_ ≤ addr := by
        by_contra hlt
        have hx : max addr g'.begin_ ∈ Set.Ico addr (addr + size) :=
          ⟨le_max_left _ _, max_lt (by omega) (by omega)⟩
        exact Set.disjoint_left.mp hd hx ⟨g', by simp, le_max_right _ _, max_lt (by omega) hg'⟩
      have hd' : Disjoint (Set.Ico addr (addr + size)) (freeSet (g' :: r)) := by
        rw [freeSet_cons] at hd
        exact hd.mono_right Set.subset_union_right
      have hrec := ih hok' hbehind hd'
      rw [if_neg hfit, freeAtLast_cons]
      have hmap : ((freeBetween addr size (g' :: r)).map (g :: ·)).getD (g :: freeAtLast addr size (g' :: r)) =
          g :: (freeBetween addr size (g' :: r)).getD (freeAtLast addr size (g' :: r)) := by
        cases freeBetween addr size (g' :: r) <;> rfl
      rw [hmap]
      exact hrec.cons hok

theorem free_givesBack {p : Partitioner} {addr size : ℕ} (h : p.Ok) (hs : 0 < size)
    (he : addr + size ≤ p.totalSize) (hd : Disjoint (Set.Ico addr (addr + size)) (freeSet p.gaps)) :
    GivesBack p (p.free addr size) addr size := by
  have ht := h.total_lt
  have hend : addrAdd addr size = addr + size := addrAdd_eq (by omega)
  suffices hres : GapsOk p.totalSize (freeGaps addr size p.gaps) ∧
      freeSet (freeGaps addr size p.gaps) = freeSet p.gaps ∪ Set.Ico addr (addr + size) from
    ⟨⟨ht, hres.1⟩, rfl, hres.2⟩
  have hok := h.gapsOk
  cases hgs : p.gaps with
  | nil =>
    simp only [freeGaps, hend]
    refine ⟨gapsOk_cons.mpr ⟨by simp only; omega, he, by simp, gapsOk_nil _⟩, ?_⟩
    simp [freeSet, cover_cons]
  | cons g r =>
    rw [hgs] at hok hd
    obtain ⟨hg, het, hgr, hr⟩ := gapsOk_cons.mp hok
    simp only [freeGaps, hend]
    split_ifs with h1 h2
    · have hsub : addrSub g.begin_ size = addr := by rw [addrSub_eq (by omega) (by omega)]; omega
      rw [hsub]
      refine ⟨gapsOk_cons.mpr ⟨by simp only; omega, het, hgr, hr⟩, ?_⟩
      simp only [freeSet_cons]
      ext x
      simp only [Set.mem_union, Set.mem_Ico]
      grind
    · refine ⟨gapsOk_cons.mpr ⟨by simp only; omega, he, ?_, hok⟩, ?_⟩
      · intro x hx
        simp only
        rcases mem_cons.mp hx with rfl | hx
        · exact h2
        · have := hgr x hx
          omega
      · rw [freeSet_cons, Set.union_comm]
    · have hbehind : g.end_ ≤ addr := by
        by_contra hlt
        have hx : max addr g.begin_ ∈ Set.Ico addr (addr + size) :=
          ⟨le_max_left _ _, max_lt (by omega) (by omega)⟩
        exact Set.disjoint_left.mp hd hx ⟨g, by simp, le_max_right _ _, max_lt (by omega) hg⟩
      have hafter := freeAfter_spec ht hok hs he hbehind hd
      exact ⟨hafter.ok, hafter.freeSet_eq⟩

end Partitioner

end NpuCompiler.Memory
