import Mathlib.Data.List.Basic
import Mathlib.Order.Lattice

namespace NpuCompiler.IntervalMap

open List

structure Piece (V : Type*) where
  lo : ℕ
  hi : ℕ
  val : V

variable {V : Type*}

structure Ordered (ps : List (Piece V)) : Prop where
  proper : ∀ p ∈ ps, p.lo ≤ p.hi
  sorted : ps.Pairwise (fun p q => p.hi < q.lo)

def At (ps : List (Piece V)) (x : ℕ) (v : V) : Prop := ∃ p ∈ ps, p.lo ≤ x ∧ x ≤ p.hi ∧ p.val = v

theorem ordered_nil : Ordered ([] : List (Piece V)) := ⟨by simp, List.Pairwise.nil⟩

theorem ordered_cons {p : Piece V} {ps : List (Piece V)} :
    Ordered (p :: ps) ↔ p.lo ≤ p.hi ∧ (∀ q ∈ ps, p.hi < q.lo) ∧ Ordered ps := by
  constructor
  · rintro ⟨h1, h2⟩
    obtain ⟨h3, h4⟩ := pairwise_cons.mp h2
    exact ⟨h1 p (by simp), h3, fun q hq => h1 q (by simp [hq]), h4⟩
  · rintro ⟨h1, h2, h3⟩
    refine ⟨?_, pairwise_cons.mpr ⟨h2, h3.sorted⟩⟩
    intro q hq
    rcases mem_cons.mp hq with rfl | hq
    · exact h1
    · exact h3.proper q hq

theorem ordered_append {ps qs : List (Piece V)} :
    Ordered (ps ++ qs) ↔ Ordered ps ∧ Ordered qs ∧ ∀ p ∈ ps, ∀ q ∈ qs, p.hi < q.lo := by
  induction ps with
  | nil => simp [ordered_nil]
  | cons p ps ih =>
    rw [cons_append, ordered_cons, ordered_cons, ih]
    simp only [mem_append, forall_mem_cons]
    grind

@[simp] theorem not_at_nil (x : ℕ) (v : V) : ¬ At [] x v := by simp [At]

theorem at_cons {p : Piece V} {ps : List (Piece V)} {x : ℕ} {v : V} :
    At (p :: ps) x v ↔ (p.lo ≤ x ∧ x ≤ p.hi ∧ p.val = v) ∨ At ps x v := by
  simp [At]

theorem at_append {ps qs : List (Piece V)} {x : ℕ} {v : V} : At (ps ++ qs) x v ↔ At ps x v ∨ At qs x v := by
  simp only [At, mem_append]
  grind

theorem Ordered.at_unique {ps : List (Piece V)} (h : Ordered ps) {x : ℕ} {v w : V} (hv : At ps x v)
    (hw : At ps x w) : v = w := by
  induction ps with
  | nil => exact absurd hv (not_at_nil x v)
  | cons p ps ih =>
    obtain ⟨-, hlt, hps⟩ := ordered_cons.mp h
    have outside : ∀ u, At ps x u → ¬ x ≤ p.hi := by
      rintro u ⟨q, hq, hlo, -, -⟩
      have := hlt q hq
      omega
    rcases at_cons.mp hv with ⟨-, h1, rfl⟩ | hv'
    · rcases at_cons.mp hw with ⟨-, -, rfl⟩ | hw'
      · rfl
      · exact absurd h1 (outside w hw')
    · rcases at_cons.mp hw with ⟨-, h1, rfl⟩ | hw'
      · exact absurd h1 (outside v hv')
      · exact ih hps hv' hw'

/-- What becomes of the pieces that meet `[lo, hi]` when `f` is applied there and `fresh` fills the holes. -/
def overlay (f : V → V) (fresh : V) (hi : ℕ) : ℕ → List (Piece V) → List (Piece V)
  | lo, [] => [⟨lo, hi, fresh⟩]
  | lo, q :: m =>
    (if q.lo < lo then [⟨q.lo, lo - 1, q.val⟩] else if lo < q.lo then [⟨lo, q.lo - 1, fresh⟩] else []) ++
      ⟨max lo q.lo, min hi q.hi, f q.val⟩ ::
        (if hi < q.hi then ⟨hi + 1, q.hi, q.val⟩ :: m
        else if q.hi < hi then overlay f fresh hi (q.hi + 1) m else m)

structure Meets (lo hi : ℕ) (m : List (Piece V)) : Prop where
  ordered : Ordered m
  lo_le : lo ≤ hi
  above : ∀ q ∈ m, lo ≤ q.hi
  below : ∀ q ∈ m, q.lo ≤ hi

theorem Meets.tail {lo hi : ℕ} {q : Piece V} {m : List (Piece V)} (h : Meets lo hi (q :: m)) (hlt : q.hi < hi) :
    Meets (q.hi + 1) hi m := by
  obtain ⟨-, hq, hm⟩ := ordered_cons.mp h.ordered
  refine ⟨hm, hlt, ?_, fun p hp => h.below p (by simp [hp])⟩
  intro p hp
  have := hq p hp
  have := hm.proper p hp
  omega

theorem Meets.nil_of_le {lo hi : ℕ} {q : Piece V} {m : List (Piece V)} (h : Meets lo hi (q :: m))
    (hle : hi ≤ q.hi) : m = [] := by
  obtain ⟨-, hq, -⟩ := ordered_cons.mp h.ordered
  apply eq_nil_iff_forall_not_mem.mpr
  intro p hp
  have := hq p hp
  have := h.below p (by simp [hp])
  omega

theorem exists_split {ps : List (Piece V)} (h : Ordered ps) {lo hi : ℕ} (hlh : lo ≤ hi) :
    ∃ l m r, ps = l ++ (m ++ r) ∧ (∀ p ∈ l, p.hi < lo) ∧ Meets lo hi m ∧ ∀ p ∈ r, hi < p.lo := by
  induction ps with
  | nil => exact ⟨[], [], [], rfl, by simp, ⟨ordered_nil, hlh, by simp, by simp⟩, by simp⟩
  | cons p ps ih =>
    obtain ⟨hp, hlt, hps⟩ := ordered_cons.mp h
    obtain ⟨l, m, r, rfl, hl, hm, hr⟩ := ih hps
    by_cases hbefore : p.hi < lo
    · exact ⟨p :: l, m, r, rfl, by simpa using ⟨hbefore, hl⟩, hm, hr⟩
    have hnil : l = [] := by
      apply eq_nil_iff_forall_not_mem.mpr
      intro q hq
      have := hl q hq
      have := hlt q (by simp [hq])
      have := hps.proper q (by simp [hq])
      omega
    subst hnil
    by_cases hbehind : hi < p.lo
    · have hnil : m = [] := by
        apply eq_nil_iff_forall_not_mem.mpr
        intro q hq
        have := hm.below q hq
        have := hlt q (by simp [hq])
        omega
      subst hnil
      exact ⟨[], [], p :: r, rfl, by simp, hm, by simpa using ⟨hbehind, hr⟩⟩
    · refine ⟨[], p :: m, r, rfl, by simp, ⟨?_, hlh, ?_, ?_⟩, hr⟩
      · exact ordered_cons.mpr ⟨hp, fun q hq => hlt q (by simp [hq]), hm.ordered⟩
      · simpa using ⟨not_lt.mp hbefore, hm.above⟩
      · simpa using ⟨not_lt.mp hbehind, hm.below⟩

variable {f : V → V} {fresh : V} {lo hi : ℕ} {m : List (Piece V)}

theorem at_overlay (h : Meets lo hi m) (x : ℕ) (v : V) :
    At (overlay f fresh hi lo m) x v ↔
      if lo ≤ x ∧ x ≤ hi then (∃ u, At m x u ∧ f u = v) ∨ ((∀ u, ¬ At m x u) ∧ fresh = v) else At m x v := by
  induction m generalizing lo with
  | nil =>
    simp only [overlay, at_cons, not_at_nil]
    split_ifs with hx <;> grind
  | cons q m ih =>
    obtain ⟨hq, hlt, hm⟩ := ordered_cons.mp h.ordered
    have h1 := h.above q (by simp)
    have h2 := h.below q (by simp)
    have hlohi := h.lo_le
    have hleft : At (if q.lo < lo then [⟨q.lo, lo - 1, q.val⟩]
        else if lo < q.lo then [⟨lo, q.lo - 1, fresh⟩] else []) x v ↔
          (q.lo ≤ x ∧ x < lo ∧ q.val = v) ∨ (lo ≤ x ∧ x < q.lo ∧ fresh = v) := by
      split_ifs <;> simp only [at_cons, not_at_nil, or_false] <;> grind
    have hrest : At (if hi < q.hi then ⟨hi + 1, q.hi, q.val⟩ :: m
        else if q.hi < hi then overlay f fresh hi (q.hi + 1) m else m) x v ↔
          (hi < x ∧ x ≤ q.hi ∧ q.val = v) ∨
          (if q.hi < x ∧ x ≤ hi then (∃ u, At m x u ∧ f u = v) ∨ ((∀ u, ¬ At m x u) ∧ fresh = v) else At m x v) := by
      by_cases hend : q.hi < hi
      · rw [if_neg (by omega), if_pos hend, ih (h.tail hend)]
        grind
      · obtain rfl := h.nil_of_le (not_lt.mp hend)
        rw [if_neg hend, if_neg (by omega : ¬ (q.hi < x ∧ x ≤ hi))]
        split_ifs <;> simp only [at_cons, not_at_nil, or_false] <;> grind
    rw [overlay, at_append, at_cons, hleft, hrest]
    simp only [at_cons]
    by_cases hx : x ≤ q.hi
    · have outside : ∀ u, ¬ At m x u := by
        rintro u ⟨p, hp, hlo, -, -⟩
        have := hlt p hp
        omega
      have hsome : (∃ u, (q.lo ≤ x ∧ x ≤ q.hi ∧ q.val = u) ∧ f u = v) ↔ q.lo ≤ x ∧ f q.val = v :=
        ⟨fun ⟨u, ⟨h1, _, h3⟩, h4⟩ => ⟨h1, h3 ▸ h4⟩, fun ⟨h1, h2⟩ => ⟨_, ⟨h1, hx, rfl⟩, h2⟩⟩
      have hnone : (∀ u, ¬ (q.lo ≤ x ∧ x ≤ q.hi ∧ q.val = u)) ↔ x < q.lo :=
        ⟨fun hu => not_le.mp (fun hle => hu _ ⟨hle, hx, rfl⟩), fun hlt u hu => absurd hu.1 (not_le.mpr hlt)⟩
      rw [if_neg (by omega : ¬ (q.hi < x ∧ x ≤ hi))]
      simp only [outside, or_false, hsome, hnone]
      clear hrest hleft ih
      grind
    · have hqx : ∀ u, ¬ (q.lo ≤ x ∧ x ≤ q.hi ∧ q.val = u) := fun u hu => hx hu.2.1
      simp only [hqx, false_or]
      grind

theorem overlay_ordered (h : Meets lo hi m) :
    Ordered (overlay f fresh hi lo m) ∧
      ∀ p ∈ overlay f fresh hi lo m, (lo ≤ p.lo ∨ ∃ q ∈ m, q.lo ≤ p.lo) ∧ (p.hi ≤ hi ∨ ∃ q ∈ m, p.hi ≤ q.hi) := by
  induction m generalizing lo with
  | nil =>
    have hlohi := h.lo_le
    simp only [overlay, ordered_cons]
    exact ⟨⟨hlohi, by simp, ordered_nil⟩, by simp⟩
  | cons q m ih =>
    obtain ⟨hq, hlt, hm⟩ := ordered_cons.mp h.ordered
    have h1 := h.above q (by simp)
    have h2 := h.below q (by simp)
    have hlohi := h.lo_le
    have hrest : Ordered (if hi < q.hi then ⟨hi + 1, q.hi, q.val⟩ :: m
        else if q.hi < hi then overlay f fresh hi (q.hi + 1) m else m) ∧
          ∀ p ∈ (if hi < q.hi then ⟨hi + 1, q.hi, q.val⟩ :: m
            else if q.hi < hi then overlay f fresh hi (q.hi + 1) m else m),
            min hi q.hi < p.lo ∧ (p.hi ≤ hi ∨ ∃ q' ∈ q :: m, p.hi ≤ q'.hi) := by
      by_cases hend : q.hi < hi
      · obtain ⟨hord, hbound⟩ := ih (h.tail hend)
        rw [if_neg (by omega), if_pos hend]
        refine ⟨hord, ?_⟩
        intro p hp
        obtain ⟨hlo, hhi⟩ := hbound p hp
        constructor
        · rcases hlo with hlo | ⟨q', hq', hlo⟩
          · omega
          · have := hlt q' hq'
            omega
        · exact hhi.imp_right (fun ⟨q', hq', hle⟩ => ⟨q', by simp [hq'], hle⟩)
      · obtain rfl := h.nil_of_le (not_lt.mp hend)
        rw [if_neg hend]
        split_ifs with hr
        · refine ⟨ordered_cons.mpr ⟨by simp only; omega, by simp, ordered_nil⟩, ?_⟩
          simp only [mem_singleton, forall_eq]
          exact ⟨by omega, .inr ⟨q, rfl, le_refl _⟩⟩
        · exact ⟨ordered_nil, by simp⟩
    obtain ⟨hord, hbound⟩ := hrest
    rw [overlay]
    generalize (if hi < q.hi then ⟨hi + 1, q.hi, q.val⟩ :: m
      else if q.hi < hi then overlay f fresh hi (q.hi + 1) m else m) = rest at hord hbound ⊢
    have hmid : Ordered ((⟨max lo q.lo, min hi q.hi, f q.val⟩ : Piece V) :: rest) := by
      apply ordered_cons.mpr
      exact ⟨by simp only; omega, fun p hp => (hbound p hp).1, hord⟩
    have hmid_bound : ∀ p ∈ (⟨max lo q.lo, min hi q.hi, f q.val⟩ : Piece V) :: rest,
        max lo q.lo ≤ p.lo ∧ (p.hi ≤ hi ∨ ∃ q' ∈ q :: m, p.hi ≤ q'.hi) := by
      intro p hp
      rcases mem_cons.mp hp with rfl | hp
      · exact ⟨le_refl _, .inl (min_le_left _ _)⟩
      · refine ⟨?_, (hbound p hp).2⟩
        have := (hbound p hp).1
        omega
    have cover_left : ∀ left : Piece V, left.lo ≤ left.hi → left.hi < max lo q.lo → left.hi ≤ hi →
        (lo ≤ left.lo ∨ q.lo ≤ left.lo) →
        Ordered (left :: (⟨max lo q.lo, min hi q.hi, f q.val⟩ : Piece V) :: rest) ∧
          ∀ p ∈ left :: (⟨max lo q.lo, min hi q.hi, f q.val⟩ : Piece V) :: rest,
            (lo ≤ p.lo ∨ ∃ q' ∈ q :: m, q'.lo ≤ p.lo) ∧ (p.hi ≤ hi ∨ ∃ q' ∈ q :: m, p.hi ≤ q'.hi) := by
      intro left h1 h2 h3 h4
      refine ⟨ordered_cons.mpr ⟨h1, fun p hp => h2.trans_le (hmid_bound p hp).1, hmid⟩, ?_⟩
      intro p hp
      rcases mem_cons.mp hp with rfl | hp
      · exact ⟨h4.imp_right (fun hle => ⟨q, by simp, hle⟩), .inl h3⟩
      · exact ⟨.inl ((le_max_left _ _).trans (hmid_bound p hp).1), (hmid_bound p hp).2⟩
    split_ifs with hl hg
    · exact cover_left ⟨q.lo, lo - 1, q.val⟩ (by simp only; omega) (by simp only; omega) (by simp only; omega)
        (.inr (le_refl _))
    · exact cover_left ⟨lo, q.lo - 1, fresh⟩ (by simp only; omega) (by simp only; omega) (by simp only; omega)
        (.inl (le_refl _))
    · refine ⟨hmid, ?_⟩
      intro p hp
      exact ⟨.inl ((le_max_left _ _).trans (hmid_bound p hp).1), (hmid_bound p hp).2⟩

section
variable {l r : List (Piece V)}

theorem overlay_between (h : Ordered (l ++ (m ++ r))) (hl : ∀ p ∈ l, p.hi < lo) (hm : Meets lo hi m)
    (hr : ∀ p ∈ r, hi < p.lo) :
    Ordered (l ++ (overlay f fresh hi lo m ++ r)) ∧
      ∀ p ∈ l ++ (overlay f fresh hi lo m ++ r), p.hi ≤ hi ∨ ∃ q ∈ l ++ (m ++ r), p.hi ≤ q.hi := by
  obtain ⟨hol, homr, hlmr⟩ := ordered_append.mp h
  obtain ⟨-, hor, hmr⟩ := ordered_append.mp homr
  obtain ⟨hmid, hbound⟩ := @overlay_ordered V f fresh lo hi m hm
  have hbefore : ∀ p ∈ l, ∀ q ∈ overlay f fresh hi lo m, p.hi < q.lo := by
    intro p hp q hq
    rcases (hbound q hq).1 with hlo | ⟨q', hq', hlo⟩
    · exact (hl p hp).trans_le hlo
    · exact (hlmr p hp q' (by simp [hq'])).trans_le hlo
  have hbehind : ∀ p ∈ overlay f fresh hi lo m, ∀ q ∈ r, p.hi < q.lo := by
    intro p hp q hq
    rcases (hbound p hp).2 with hhi | ⟨q', hq', hhi⟩
    · exact hhi.trans_lt (hr q hq)
    · exact hhi.trans_lt (hmr q' hq' q hq)
  constructor
  · apply ordered_append.mpr
    refine ⟨hol, ordered_append.mpr ⟨hmid, hor, hbehind⟩, ?_⟩
    intro p hp q hq
    rcases mem_append.mp hq with hq | hq
    · exact hbefore p hp q hq
    · exact hlmr p hp q (by simp [hq])
  · intro p hp
    rcases mem_append.mp hp with hp | hp
    · exact .inr ⟨p, by simp [hp], le_refl _⟩
    rcases mem_append.mp hp with hp | hp
    · exact (hbound p hp).2.imp_right (fun ⟨q, hq, hle⟩ => ⟨q, by simp [hq], hle⟩)
    · exact .inr ⟨p, by simp [hp], le_refl _⟩

theorem at_overlay_between (hl : ∀ p ∈ l, p.hi < lo) (hm : Meets lo hi m) (hr : ∀ p ∈ r, hi < p.lo) (x : ℕ) (v : V) :
    At (l ++ (overlay f fresh hi lo m ++ r)) x v ↔
      if lo ≤ x ∧ x ≤ hi then
        (∃ u, At (l ++ (m ++ r)) x u ∧ f u = v) ∨ ((∀ u, ¬ At (l ++ (m ++ r)) x u) ∧ fresh = v)
      else At (l ++ (m ++ r)) x v := by
  simp only [at_append, at_overlay hm]
  by_cases hx : lo ≤ x ∧ x ≤ hi
  · have hleft : ∀ u, ¬ At l x u := by
      rintro u ⟨p, hp, -, hhi, -⟩
      have := hl p hp
      omega
    have hright : ∀ u, ¬ At r x u := by
      rintro u ⟨p, hp, hlo, -, -⟩
      have := hr p hp
      omega
    simp only [if_pos hx, hleft, hright, false_or, or_false]
  · simp only [if_neg hx]

end

def coalesce [DecidableEq V] (v : V) (p : Piece V) : List (Piece V) → List (Piece V)
  | [] => [p]
  | q :: m => if q.val = v ∧ p.hi + 1 = q.lo then coalesce v ⟨p.lo, q.hi, p.val⟩ m else p :: q :: m

theorem at_coalesce [DecidableEq V] {v : V} {p : Piece V} (hp : p.val = v) {m : List (Piece V)}
    (h : Ordered (p :: m)) (x : ℕ) (w : V) : At (coalesce v p m) x w ↔ At (p :: m) x w := by
  induction m generalizing p with
  | nil => rfl
  | cons q m ih =>
    obtain ⟨hp', hlt, hm⟩ := ordered_cons.mp h
    obtain ⟨hq', hlt', hm'⟩ := ordered_cons.mp hm
    unfold coalesce
    split_ifs with hc
    · have hord : Ordered ((⟨p.lo, q.hi, p.val⟩ : Piece V) :: m) :=
        ordered_cons.mpr ⟨by simp only; omega, hlt', hm'⟩
      rw [ih (show (⟨p.lo, q.hi, p.val⟩ : Piece V).val = v from hp) hord]
      simp only [at_cons]
      grind
    · rfl

theorem coalesce_ordered [DecidableEq V] {v : V} {p : Piece V} {m : List (Piece V)} (h : Ordered (p :: m)) :
    Ordered (coalesce v p m) ∧
      ∀ q ∈ coalesce v p m, p.lo ≤ q.lo ∧ ∃ q' ∈ p :: m, q.hi ≤ q'.hi := by
  induction m generalizing p with
  | nil => exact ⟨h, fun q hq => ⟨by simp_all [coalesce], q, hq, le_refl _⟩⟩
  | cons q m ih =>
    obtain ⟨hp', hlt, hm⟩ := ordered_cons.mp h
    obtain ⟨hq', hlt', hm'⟩ := ordered_cons.mp hm
    unfold coalesce
    split_ifs with hc
    · have hord : Ordered ((⟨p.lo, q.hi, p.val⟩ : Piece V) :: m) :=
        ordered_cons.mpr ⟨by simp only; omega, hlt', hm'⟩
      obtain ⟨h1, h2⟩ := ih hord
      refine ⟨h1, ?_⟩
      intro r hr
      obtain ⟨hlo, q', hq', hle⟩ := h2 r hr
      refine ⟨hlo, ?_⟩
      rcases mem_cons.mp hq' with rfl | hq'
      · exact ⟨q, by simp, hle⟩
      · exact ⟨q', by simp [hq'], hle⟩
    · refine ⟨h, ?_⟩
      intro r hr
      refine ⟨?_, r, hr, le_refl _⟩
      rcases mem_cons.mp hr with rfl | hr
      · exact le_refl _
      · have := hlt r hr
        omega

end NpuCompiler.IntervalMap
