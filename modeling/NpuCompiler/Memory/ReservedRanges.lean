import Mathlib.Data.List.Sort
import Mathlib.Data.List.Induction
import Mathlib.Order.Interval.Set.Disjoint
import NpuCompiler.Memory.GapInvariant

namespace NpuCompiler.Memory

open List

/-- `ReservedAddressAndSizeVector`: an address and a size for each range. -/
abbrev AddressAndSizes := List (ℕ × ℕ)

namespace ReservedMemInfo

def sortsBefore (entry1 entry2 : ℕ × ℕ) : Bool :=
  if entry1.1 ≠ entry2.1 then entry1.1 < entry2.1
  else if entry1.2 ≠ entry2.2 then entry1.2 < entry2.2
  else false

def sortRanges (ranges : AddressAndSizes) : AddressAndSizes :=
  ranges.insertionSort (fun entry1 entry2 => ¬ sortsBefore entry2 entry1)

def isOverlapRange : AddressAndSizes → ℕ → ℕ → Option AddressAndSizes
  | [], _, _ => none
  | entry :: rest, address, size =>
    if addrAdd address size < entry.1 then (isOverlapRange rest address size).map (entry :: ·)
    else if addrAdd entry.1 entry.2 ≤ address then (isOverlapRange rest address size).map (entry :: ·)
    else some ((min entry.1 address, max entry.2 (addrAdd address size)) :: rest)

def addRange (uniqueRanges : AddressAndSizes) (entry : ℕ × ℕ) : AddressAndSizes :=
  (isOverlapRange uniqueRanges entry.1 entry.2).getD (uniqueRanges ++ [entry])

section
variable {Buffer : Type*} (isBlockArgument : Buffer → Bool) (getAddress getSize : Buffer → ℕ)

def collectRanges (buffers : List Buffer) : AddressAndSizes :=
  (buffers.filter (fun buffer => !isBlockArgument buffer)).map (fun buffer => (getAddress buffer, getSize buffer))

def getUniqueRanges (buffers : List Buffer) : AddressAndSizes :=
  let allRanges := collectRanges isBlockArgument getAddress getSize buffers
  if allRanges.length < 2 then allRanges else (sortRanges allRanges).foldl addRange []

end

def rangeEnd (r : ℕ × ℕ) : ℕ := r.1 + r.2

abbrev addresses (ranges : AddressAndSizes) : Set ℕ := Spans.cover Prod.fst rangeEnd ranges

structure ExactCover (ranges out : AddressAndSizes) : Prop where
  disjoint : out.Pairwise (fun r r' => Disjoint (Set.Ico r.1 (rangeEnd r)) (Set.Ico r'.1 (rangeEnd r')))
  addresses_eq : addresses out = addresses ranges

/-- Every earlier range ends at or before this one's address, and one of the later ranges starts inside it:
the entry it begins is extended, so it has to start at zero or its size has to reach the later range's end. -/
def ExtensionsHarmless (ranges : AddressAndSizes) : Prop :=
  ∀ before first after, ranges = before ++ first :: after → (∀ r ∈ before, rangeEnd r ≤ first.1) →
    ∀ later ∈ after, later.1 < rangeEnd first → first.1 = 0 ∨ rangeEnd later ≤ first.2

theorem ExtensionsHarmless.left {ranges rest : AddressAndSizes} (h : ExtensionsHarmless (ranges ++ rest)) :
    ExtensionsHarmless ranges := by
  rintro before first after rfl hbefore later hlater
  apply h before first (after ++ rest) (by simp) hbefore
  simp [hlater]

section
variable {entries : AddressAndSizes} {entry last : ℕ × ℕ}

section
variable (h : ∀ e ∈ entries, addrAdd e.1 e.2 ≤ entry.1)
include h

theorem isOverlapRange_append (rest : AddressAndSizes) :
    isOverlapRange (entries ++ rest) entry.1 entry.2 = (isOverlapRange rest entry.1 entry.2).map (entries ++ ·) := by
  induction entries with
  | nil => simp
  | cons e entries ih =>
    have hskip : addrAdd e.1 e.2 ≤ entry.1 := h e (by simp)
    have hrest := ih (fun e' he' => h e' (by simp [he']))
    simp only [cons_append, isOverlapRange, hskip, if_true, ite_self, hrest, Option.map_map]
    rfl

theorem addRange_push : addRange entries entry = entries ++ [entry] := by
  have hnone := isOverlapRange_append h []
  rw [append_nil] at hnone
  simp [addRange, hnone, isOverlapRange]

theorem addRange_extend (hlast : last.1 ≤ entry.1)
    (hinside : entry.1 < addrAdd last.1 last.2) (hfits : rangeEnd entry < 2 ^ 64) :
    addRange (entries ++ [last]) entry = entries ++ [(last.1, max last.2 (rangeEnd entry))] := by
  have hend : addrAdd entry.1 entry.2 = rangeEnd entry := addrAdd_eq hfits
  have hbefore : ¬ rangeEnd entry < last.1 := by unfold rangeEnd; omega
  simp [addRange, isOverlapRange_append h, isOverlapRange, hend, hbefore, hinside.not_ge, hlast]

end

theorem mem_isOverlapRange {out : AddressAndSizes} {address size : ℕ} (h : last ∈ entries)
    (hend : addrAdd last.1 last.2 ≤ address) (hout : isOverlapRange entries address size = some out) : last ∈ out := by
  induction entries generalizing out with
  | nil => simp at h
  | cons e entries ih =>
    simp only [isOverlapRange] at hout
    split_ifs at hout with hbefore hafter
    · obtain ⟨rest, hrest, rfl⟩ := Option.map_eq_some_iff.mp hout
      rcases mem_cons.mp h with rfl | h
      · simp
      · simp [ih h hrest]
    · obtain ⟨rest, hrest, rfl⟩ := Option.map_eq_some_iff.mp hout
      rcases mem_cons.mp h with rfl | h
      · simp
      · simp [ih h hrest]
    · obtain rfl := Option.some.inj hout
      rcases mem_cons.mp h with rfl | h
      · exact absurd hend hafter
      · simp [h]

theorem mem_addRange (h : last ∈ entries) (hend : addrAdd last.1 last.2 ≤ entry.1) : last ∈ addRange entries entry := by
  unfold addRange
  cases hout : isOverlapRange entries entry.1 entry.2 with
  | none => simp [h]
  | some out => exact mem_isOverlapRange h hend hout

variable {l : AddressAndSizes}

theorem mem_foldl_addRange {last : ℕ × ℕ} {entries : AddressAndSizes} (h : last ∈ entries)
    (hend : ∀ r ∈ l, addrAdd last.1 last.2 ≤ r.1) : last ∈ l.foldl addRange entries := by
  induction l generalizing entries with
  | nil => exact h
  | cons r l ih =>
    rw [foldl_cons]
    apply ih
    · apply mem_addRange h
      exact hend r (by simp)
    · exact fun r' hr' => hend r' (by simp [hr'])

theorem last_foldl_addRange {front : AddressAndSizes} {a S : ℕ} (hfront : ∀ e ∈ front, addrAdd e.1 e.2 ≤ a)
    (hsorted : l.Pairwise (fun r r' => r.1 ≤ r'.1)) (hfits : ∀ r ∈ l, rangeEnd r < 2 ^ 64) (hfrom : ∀ r ∈ l, a ≤ r.1) :
    ∃ S', S ≤ S' ∧ (a, S') ∈ l.foldl addRange (front ++ [(a, S)]) ∧
      ∀ r ∈ l, rangeEnd r ≤ S' ∨ addrAdd a S' ≤ r.1 := by
  induction l generalizing S with
  | nil => exact ⟨S, le_refl S, by simp, by simp⟩
  | cons r l ih =>
    rw [pairwise_cons] at hsorted
    simp only [forall_mem_cons] at hfits hfrom ⊢
    have hfront' : ∀ e ∈ front, addrAdd e.1 e.2 ≤ r.1 := fun e he => (hfront e he).trans hfrom.1
    rw [foldl_cons]
    rcases le_or_gt (addrAdd a S) r.1 with hle | hlt
    · have hlater : ∀ r' ∈ l, addrAdd a S ≤ r'.1 := fun r' hr' => hle.trans (hsorted.1 r' hr')
      refine ⟨S, le_refl S, ?_, .inr hle, fun r' hr' => .inr (hlater r' hr')⟩
      apply mem_foldl_addRange
      · apply mem_addRange (by simp) hle
      · exact hlater
    · rw [addRange_extend hfront' hfrom.1 hlt hfits.1]
      obtain ⟨S', hS', hmem, hl⟩ := ih hsorted.2 hfits.2 hfrom.2 (S := max S (rangeEnd r))
      exact ⟨S', (le_max_left _ _).trans hS', hmem, .inl ((le_max_right _ _).trans hS'), hl⟩

end

/-- What is known after a harmless part of the ranges: the entries are ordered and cover it exactly, and the last
entry was begun by a range whose size it still has unless it starts at zero. -/
structure Merged (processed front : AddressAndSizes) (last : ℕ × ℕ) : Prop where
  fits : ∀ e ∈ front ++ [last], rangeEnd e < 2 ^ 64
  ordered : (front ++ [last]).Pairwise (fun e e' => rangeEnd e ≤ e'.1)
  addresses_eq : addresses (front ++ [last]) = addresses processed
  begun : ∃ before first after, processed = before ++ first :: after ∧ (∀ r ∈ before, rangeEnd r ≤ first.1) ∧
    first.1 = last.1 ∧ (last.1 = 0 ∨ first.2 = last.2)
  firsts : ∀ before first after, processed = before ++ first :: after → (∀ r ∈ before, rangeEnd r ≤ first.1) →
    rangeEnd first ≤ last.1 ∨ (first.1 = last.1 ∧ (last.1 = 0 ∨ first.2 = last.2))

namespace Merged

variable {processed front : AddressAndSizes} {last entry : ℕ × ℕ}

theorem single (h : rangeEnd entry < 2 ^ 64) : Merged [entry] [] entry := by
  refine ⟨by simpa using h, by simp, rfl, ⟨[], entry, [], rfl, by simp, rfl, .inr rfl⟩, ?_⟩
  intro before first after heq _
  have hmem : first ∈ [entry] := by rw [heq]; simp
  obtain rfl := mem_singleton.mp hmem
  exact .inr ⟨rfl, .inr rfl⟩

section
variable (h : Merged processed front last)
include h

theorem last_le (hsorted : ∀ r ∈ processed, r.1 ≤ entry.1) : last.1 ≤ entry.1 := by
  obtain ⟨before, first, after, rfl, -, hfirst, -⟩ := h.begun
  rw [← hfirst]
  exact hsorted first (by simp)

theorem front_le {e : ℕ × ℕ} (he : e ∈ front) : rangeEnd e ≤ last.1 :=
  (pairwise_append.mp h.ordered).2.2 e he last (by simp)

theorem addrAdd_eq_rangeEnd {e : ℕ × ℕ} (he : e ∈ front ++ [last]) :
    addrAdd e.1 e.2 = rangeEnd e := addrAdd_eq (h.fits e he)

theorem addrAdd_front : ∀ e ∈ front, addrAdd e.1 e.2 ≤ last.1 := by
  intro e he
  rw [h.addrAdd_eq_rangeEnd (by simp [he])]
  exact h.front_le he

end

section
variable (h : Merged processed front last) (hsorted : ∀ r ∈ processed, r.1 ≤ entry.1)
include h hsorted

theorem rangeEnd_le (hend : rangeEnd last ≤ entry.1) : ∀ r ∈ processed, rangeEnd r ≤ entry.1 := by
  intro r hr
  by_contra hlt
  have hr1 := hsorted r hr
  have hmem : entry.1 ∈ addresses processed := ⟨r, hr, hr1, not_le.mp hlt⟩
  rw [← h.addresses_eq] at hmem
  obtain ⟨e, he, -, hhi⟩ := hmem
  rcases mem_append.mp he with he | he
  · have h1 := h.front_le he
    have h2 : last.1 ≤ rangeEnd last := Nat.le_add_right _ _
    omega
  · obtain rfl := mem_singleton.mp he
    omega

theorem push (hfits : rangeEnd entry < 2 ^ 64) (hend : rangeEnd last ≤ entry.1) :
    Merged (processed ++ [entry]) (front ++ [last]) entry := by
  have hended := h.rangeEnd_le hsorted hend
  have hentries : ∀ e ∈ front ++ [last], rangeEnd e ≤ entry.1 := by
    intro e he
    rcases mem_append.mp he with he | he
    · exact (h.front_le he).trans (h.last_le hsorted)
    · rwa [mem_singleton.mp he]
  refine ⟨?_, ?_, ?_, ?_, ?_⟩
  · intro e he
    rcases mem_append.mp he with he | he
    · exact h.fits e he
    · rwa [mem_singleton.mp he]
  · rw [pairwise_append]
    refine ⟨h.ordered, by simp, ?_⟩
    simpa using hentries
  · have heq := h.addresses_eq
    simp only [addresses] at heq ⊢
    rw [Spans.cover_append, heq, Spans.cover_append]
  · exact ⟨processed, entry, [], rfl, hended, rfl, .inr rfl⟩
  · intro before first after heq hbefore
    have hmem : first ∈ processed ++ [entry] := by rw [heq]; simp
    rcases mem_append.mp hmem with hm | hm
    · exact .inl (hended first hm)
    · obtain rfl := mem_singleton.mp hm
      exact .inr ⟨rfl, .inr rfl⟩

theorem exists_beyond (hinside : entry.1 < rangeEnd last) : ∃ r ∈ processed, entry.1 < rangeEnd r := by
  have hmem : entry.1 ∈ addresses (front ++ [last]) := ⟨last, by simp, h.last_le hsorted, hinside⟩
  rw [h.addresses_eq] at hmem
  obtain ⟨r, hr, -, hhi⟩ := hmem
  exact ⟨r, hr, hhi⟩

theorem extend (hfits : rangeEnd entry < 2 ^ 64) (hinside : entry.1 < rangeEnd last)
    (hharmless : ExtensionsHarmless (processed ++ [entry])) :
    Merged (processed ++ [entry]) front (last.1, max last.2 (rangeEnd entry)) := by
  have hle := h.last_le hsorted
  have hlast : rangeEnd last < 2 ^ 64 := h.fits last (by simp)
  obtain ⟨before, first, after, hproc, hbefore, hfirst, hsize⟩ := h.begun
  have hkept : last.1 = 0 ∨ max last.2 (rangeEnd entry) = last.2 := by
    rcases hsize with h0 | hsize
    · exact .inl h0
    · have hin : entry.1 < rangeEnd first := by
        unfold rangeEnd at hinside ⊢; omega
      have hok := hharmless before first (after ++ [entry]) (by simp [hproc]) hbefore entry (by simp) hin
      rw [hfirst, hsize] at hok
      exact hok.imp_right max_eq_left
  have hsize' : last.1 = 0 ∨ first.2 = max last.2 (rangeEnd entry) := by
    rcases hkept with h0 | hk
    · exact .inl h0
    · exact hsize.imp_right (fun hs => hs.trans hk.symm)
  have hends : ∀ x, rangeEnd (last.1, x) = last.1 + x := fun _ => rfl
  refine ⟨?_, ?_, ?_, ?_, ?_⟩
  · intro e he
    rcases mem_append.mp he with he | he
    · exact h.fits e (by simp [he])
    · rw [mem_singleton.mp he, hends]
      rcases hkept with h0 | hk
      · rw [h0, Nat.zero_add]
        unfold rangeEnd at hlast hfits ⊢; omega
      · rw [hk]; exact hlast
  · rw [pairwise_append]
    refine ⟨(pairwise_append.mp h.ordered).1, by simp, ?_⟩
    simpa using fun a b he => h.front_le he
  · have hcov : Set.Ico last.1 (last.1 + max last.2 (rangeEnd entry)) =
        Set.Ico last.1 (rangeEnd last) ∪ Set.Ico entry.1 (rangeEnd entry) := by
      ext x
      simp only [Set.mem_Ico, Set.mem_union]
      unfold rangeEnd at *
      omega
    have heq := h.addresses_eq
    simp only [addresses, Spans.cover_append, Spans.cover_cons, Spans.cover_nil, Set.union_empty, hends] at heq ⊢
    rw [hcov, ← heq, Set.union_assoc]
    rfl
  · refine ⟨before, first, after ++ [entry], by simp [hproc], hbefore, hfirst, hsize'⟩
  · intro before' first' after' heq hbefore'
    rcases eq_nil_or_concat after' with rfl | ⟨after'', x, rfl⟩
    · obtain ⟨rfl, hx⟩ := append_inj' heq rfl
      obtain rfl := (List.cons.inj hx).1
      obtain ⟨r, hr, hlt⟩ := h.exists_beyond hsorted hinside
      exact absurd (hbefore' r hr) (not_le.mpr hlt)
    · have heq' : processed ++ [entry] = (before' ++ first' :: after'') ++ [x] := by simpa using heq
      obtain ⟨hp, -⟩ := append_inj' heq' rfl
      rcases h.firsts before' first' after'' hp hbefore' with hl | ⟨hl, hs⟩
      · exact .inl hl
      · refine .inr ⟨hl, ?_⟩
        rcases hkept with h0 | hk
        · exact .inl h0
        · exact hs.imp_right (fun hs => hs.trans hk.symm)

end

end Merged

section
variable {l : AddressAndSizes}

theorem exists_merged (hne : l ≠ []) (hsorted : l.Pairwise (fun r r' => r.1 ≤ r'.1))
    (hfits : ∀ r ∈ l, rangeEnd r < 2 ^ 64) (hharmless : ExtensionsHarmless l) :
    ∃ front last, l.foldl addRange [] = front ++ [last] ∧ Merged l front last := by
  induction l using List.reverseRecOn with
  | nil => exact absurd rfl hne
  | append_singleton l entry ih =>
    obtain ⟨hl, -, hle⟩ := pairwise_append.mp hsorted
    simp only [mem_singleton, forall_eq] at hle
    have hentry : rangeEnd entry < 2 ^ 64 := hfits entry (by simp)
    rw [foldl_append, foldl_cons, foldl_nil]
    rcases eq_nil_or_concat l with rfl | ⟨init, x, rfl⟩
    · exact ⟨[], entry, by simp [addRange, isOverlapRange], Merged.single hentry⟩
    · obtain ⟨front, last, hfold, hm⟩ := ih (by simp) hl (fun r hr => hfits r (mem_append_left _ hr))
        hharmless.left
      rw [hfold]
      have hlast : addrAdd last.1 last.2 = rangeEnd last := hm.addrAdd_eq_rangeEnd (by simp)
      have hfront : ∀ e ∈ front, addrAdd e.1 e.2 ≤ entry.1 :=
        fun e he => (hm.addrAdd_front e he).trans (hm.last_le hle)
      rcases le_or_gt (rangeEnd last) entry.1 with hend | hinside
      · refine ⟨front ++ [last], entry, ?_, hm.push hle hentry hend⟩
        apply addRange_push
        simpa [or_imp, forall_and, hlast, hend] using fun a b he => hfront (a, b) he
      · refine ⟨front, _, ?_, hm.extend hle hentry hinside hharmless⟩
        exact addRange_extend hfront (hm.last_le hle) (hinside.trans_eq hlast.symm) hentry

theorem extensionsHarmless_nil : ExtensionsHarmless [] := by
  intro before first after heq
  simp at heq

theorem exists_first_harm (h : ¬ ExtensionsHarmless l) :
    ∃ p y q, l = p ++ y :: q ∧ ExtensionsHarmless p ∧ ¬ ExtensionsHarmless (p ++ [y]) := by
  induction l using List.reverseRecOn with
  | nil => exact absurd extensionsHarmless_nil h
  | append_singleton l y ih =>
    by_cases hl : ExtensionsHarmless l
    · exact ⟨l, y, [], rfl, hl, h⟩
    · obtain ⟨p, x, q, rfl, hp, hx⟩ := ih hl
      exact ⟨p, x, q ++ [y], by simp, hp, hx⟩

theorem harm_of_not_harmless {p : AddressAndSizes} {y : ℕ × ℕ} (hp : ExtensionsHarmless p)
    (h : ¬ ExtensionsHarmless (p ++ [y])) :
    ∃ before first after, p = before ++ first :: after ∧ (∀ r ∈ before, rangeEnd r ≤ first.1) ∧
      y.1 < rangeEnd first ∧ first.1 ≠ 0 ∧ first.2 < rangeEnd y := by
  unfold ExtensionsHarmless at h
  push Not at h
  obtain ⟨before, first, after, heq, hbefore, later, hlater, hin, h0, hbig⟩ := h
  rcases eq_nil_or_concat after with rfl | ⟨after', x, rfl⟩
  · simp at hlater
  · have heq' : p ++ [y] = (before ++ first :: after') ++ [x] := by simpa using heq
    obtain ⟨rfl, hx⟩ := append_inj' heq' rfl
    obtain rfl := (List.cons.inj hx).1
    refine ⟨before, first, after', rfl, hbefore, ?_⟩
    rcases mem_append.mp (concat_eq_append ▸ hlater) with hl | hl
    · rcases hp before first after' rfl hbefore later hl hin with hz | hz
      · exact absurd hz h0
      · exact absurd hbig (not_lt.mpr hz)
    · obtain rfl := mem_singleton.mp hl
      exact ⟨hin, h0, hbig⟩

theorem addresses_ne (hsorted : l.Pairwise (fun r r' => r.1 ≤ r'.1)) (hfits : ∀ r ∈ l, rangeEnd r < 2 ^ 64)
    (h : ¬ ExtensionsHarmless l) : addresses (l.foldl addRange []) ≠ addresses l := by
  obtain ⟨p, y, q, rfl, hp, hy⟩ := exists_first_harm h
  obtain ⟨before, first, after, hproc, hbefore, hin, h0, hbig⟩ := harm_of_not_harmless hp hy
  obtain ⟨hsp, hsq, hpq⟩ := pairwise_append.mp hsorted
  rw [pairwise_cons] at hsq
  have hpy : ∀ r ∈ p, r.1 ≤ y.1 := fun r hr => hpq r hr y (by simp)
  have hyfits : rangeEnd y < 2 ^ 64 := hfits y (by simp)
  obtain ⟨front, last, hfold, hm⟩ := exists_merged (by simp [hproc]) hsp (fun r hr => hfits r (by simp [hr])) hp
  have hlast : addrAdd last.1 last.2 = rangeEnd last := hm.addrAdd_eq_rangeEnd (by simp)
  have hly : last.1 ≤ y.1 := hm.last_le hpy
  -- the entry still is the harmless range itself, so the next one falls inside it
  have hfirst : first.1 = last.1 ∧ first.2 = last.2 := by
    rcases hm.firsts before first after hproc hbefore with hl | ⟨hl, hs⟩
    · omega
    · exact ⟨hl, hs.resolve_left (hl ▸ h0)⟩
  have hinside : y.1 < addrAdd last.1 last.2 := by
    rw [hlast]
    unfold rangeEnd at hin ⊢
    omega
  have hext := addRange_extend (fun e he => (hm.addrAdd_front e he).trans hly) hly hinside hyfits
  obtain ⟨S, hS, hmem, hq⟩ := last_foldl_addRange (S := max last.2 (rangeEnd y)) hm.addrAdd_front hsq.2
    (fun r hr => hfits r (by simp [hr])) (fun r hr => hly.trans (hsq.1 r hr))
  rw [← hext, ← hfold, ← foldl_cons, ← foldl_append] at hmem
  have hSy : rangeEnd y ≤ S := (le_max_right _ _).trans hS
  have hpoint : last.1 + S - 1 ∈ addresses ((p ++ y :: q).foldl addRange []) := by
    refine ⟨_, hmem, ?_, ?_⟩
    · dsimp only; omega
    · unfold rangeEnd; dsimp only; omega
  intro heq
  rw [heq] at hpoint
  obtain ⟨r, hr, hlo, hhi⟩ := hpoint
  have hrfits := hfits r hr
  rcases mem_append.mp hr with hr | hr
  · -- a processed range ends no later than the entries did
    have hmem' : last.1 + S - 1 ∈ addresses p := ⟨r, hr, hlo, hhi⟩
    rw [← hm.addresses_eq] at hmem'
    obtain ⟨e, he, -, hhi'⟩ := hmem'
    rcases mem_append.mp he with he | he
    · have := hm.front_le he
      omega
    · rw [mem_singleton.mp he] at hhi'
      unfold rangeEnd at hhi' hSy hbig
      omega
  · rcases mem_cons.mp hr with rfl | hr
    · omega
    · rcases hq r hr with hle | hle
      · omega
      · unfold addrAdd at hle
        omega

theorem exactCover_foldl_iff (hsorted : l.Pairwise (fun r r' => r.1 ≤ r'.1)) (hfits : ∀ r ∈ l, rangeEnd r < 2 ^ 64) :
    ExactCover l (l.foldl addRange []) ↔ ExtensionsHarmless l := by
  constructor
  · intro h
    by_contra hharm
    exact addresses_ne hsorted hfits hharm h.addresses_eq
  · intro h
    by_cases hne : l = []
    · subst hne
      exact ⟨List.Pairwise.nil, rfl⟩
    · obtain ⟨front, last, hfold, hm⟩ := exists_merged hne hsorted hfits h
      rw [hfold]
      refine ⟨hm.ordered.imp ?_, hm.addresses_eq⟩
      intro r r' hle
      exact Set.Ico_disjoint_Ico.mpr (by omega)

theorem not_sortsBefore_iff {r r' : ℕ × ℕ} : ¬ sortsBefore r' r ↔ r.1 < r'.1 ∨ r.1 = r'.1 ∧ r.2 ≤ r'.2 := by
  unfold sortsBefore
  split_ifs <;> simp <;> omega

instance : Std.Total (fun entry1 entry2 : ℕ × ℕ => ¬ sortsBefore entry2 entry1) where
  total r r' := by
    simp only [not_sortsBefore_iff]
    omega

instance : IsTrans (ℕ × ℕ) (fun entry1 entry2 => ¬ sortsBefore entry2 entry1) where
  trans r r' r'' h h' := by
    rw [not_sortsBefore_iff] at *
    omega

theorem pairwise_sortRanges (ranges : AddressAndSizes) : (sortRanges ranges).Pairwise (fun r r' => r.1 ≤ r'.1) := by
  apply (pairwise_insertionSort _ ranges).imp
  intro r r' h
  rw [not_sortsBefore_iff] at h
  omega

theorem perm_sortRanges (ranges : AddressAndSizes) : (sortRanges ranges).Perm ranges := perm_insertionSort _ ranges

theorem addresses_sortRanges (ranges : AddressAndSizes) : addresses (sortRanges ranges) = addresses ranges := by
  ext x
  simp [(perm_sortRanges ranges).mem_iff]

theorem extensionsHarmless_of_length {ranges : AddressAndSizes} (h : ranges.length < 2) : ExtensionsHarmless ranges := by
  rintro before first after rfl - later hlater
  have := length_pos_of_mem hlater
  simp at h
  omega

variable {Buffer : Type*} (isBlockArgument : Buffer → Bool) (getAddress getSize : Buffer → ℕ)

/-- The unique ranges cover the buffers exactly if and only if no extension of an entry does harm. -/
theorem getUniqueRanges_exactCover_iff (buffers : List Buffer)
    (hfits : ∀ buffer ∈ buffers, getAddress buffer + getSize buffer < 2 ^ 64) :
    ExactCover (collectRanges isBlockArgument getAddress getSize buffers)
        (getUniqueRanges isBlockArgument getAddress getSize buffers) ↔
      ExtensionsHarmless (sortRanges (collectRanges isBlockArgument getAddress getSize buffers)) := by
  have hcollect : ∀ r ∈ collectRanges isBlockArgument getAddress getSize buffers, rangeEnd r < 2 ^ 64 := by
    intro r hr
    obtain ⟨buffer, hb, rfl⟩ := mem_map.mp hr
    exact hfits buffer (mem_filter.mp hb).1
  unfold getUniqueRanges
  generalize collectRanges isBlockArgument getAddress getSize buffers = ranges at hcollect
  dsimp only
  split
  case isTrue h =>
    have hharmless : ExtensionsHarmless (sortRanges ranges) := by
      apply extensionsHarmless_of_length
      rwa [(perm_sortRanges ranges).length_eq]
    refine iff_of_true ⟨?_, rfl⟩ hharmless
    match ranges, h with
    | [], _ => exact List.Pairwise.nil
    | [r], _ => exact pairwise_singleton _ r
  case isFalse h =>
    have hiff := exactCover_foldl_iff (pairwise_sortRanges ranges)
      (fun r hr => hcollect r ((perm_sortRanges ranges).mem_iff.mp hr))
    rw [← hiff]
    constructor
    · exact fun h => ⟨h.disjoint, h.addresses_eq.trans (addresses_sortRanges ranges).symm⟩
    · exact fun h => ⟨h.disjoint, h.addresses_eq.trans (addresses_sortRanges ranges)⟩

/-- Two buffers from 64 to 192 and from 128 to 256: the entry's size becomes 256, the end of the second one. -/
theorem getUniqueRanges_overlapping : ¬ ExactCover (collectRanges (fun _ => false) Prod.fst Prod.snd [(64, 128), (128, 128)])
      (getUniqueRanges (fun _ => false) Prod.fst Prod.snd [(64, 128), (128, 128)]) := by
  have hout : getUniqueRanges (fun _ => false) Prod.fst Prod.snd [(64, 128), (128, 128)] = [(64, 256)] := by decide
  have hin : collectRanges (fun _ => false) Prod.fst Prod.snd [(64, 128), (128, 128)] = [(64, 128), (128, 128)] := by
    decide
  rw [hout, hin]
  intro h
  have hmem : 300 ∈ addresses [(64, 256)] := ⟨(64, 256), by simp, by decide, by decide⟩
  rw [h.addresses_eq] at hmem
  obtain ⟨r, hr, -, hhi⟩ := hmem
  simp only [mem_cons, not_mem_nil, or_false] at hr
  rcases hr with rfl | rfl
  · exact absurd hhi (by decide)
  · exact absurd hhi (by decide)

theorem getUniqueRanges_exactCover_iff_touching :
    ExactCover (collectRanges (fun _ => false) Prod.fst Prod.snd [(64, 128), (192, 64)])
      (getUniqueRanges (fun _ => false) Prod.fst Prod.snd [(64, 128), (192, 64)]) := by
  apply (getUniqueRanges_exactCover_iff _ _ _ _ (by decide)).mpr
  have hsort : sortRanges (collectRanges (fun _ => false) Prod.fst Prod.snd [(64, 128), (192, 64)]) =
      [(64, 128)] ++ [(192, 64)] := by decide
  rw [hsort]
  intro before first after heq _ later hlater hin
  rcases before with _ | ⟨b, before⟩
  · obtain ⟨rfl, rfl⟩ := List.cons.inj heq
    obtain rfl := mem_singleton.mp hlater
    exact absurd hin (by decide)
  · have hlen := congrArg List.length heq
    have hpos := length_pos_of_mem hlater
    simp at hlen
    omega

end

end ReservedMemInfo
end NpuCompiler.Memory
