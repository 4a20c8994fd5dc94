import NpuCompiler.Barrier.BarrierPages
import NpuCompiler.Library.FoldRules
import NpuCompiler.Library.Levels

namespace NpuCompiler.Barrier

open BarrierPagesSplitHandler List SmallSet

def BarrierPages.page (pages : BarrierPages) (barInd : ℕ) : ℕ := pages.barrierToPageAssignment.getD barInd 0

def BarrierPages.Starts (pages : BarrierPages) (barInd : ℕ) : Prop := ∀ b < barInd, pages.page b ≠ pages.page barInd

def BarrierPagesSplitHandler.newSyncProducers (handler : BarrierPagesSplitHandler) (pages : BarrierPages) (barInd : ℕ) : List ℕ :=
  (handler.barrierInfo.getBarrierProducers barInd).toList.filter (fun t =>
    t ∈ handler.split.syncTasksIds ∧ t ∉ pages.processedSyncPoints)

def BarrierPagesSplitHandler.pageSwitches (handler : BarrierPagesSplitHandler) (pages : BarrierPages) (barInd : ℕ) : ℕ :=
  if pages.barriersInPage = handler.pageSize then 1 else (handler.newSyncProducers pages barInd).length

section
variable {handler : BarrierPagesSplitHandler} {pages : BarrierPages} {barInd : ℕ}

theorem startPageAtSync_foldlM {producers : List ℕ}
    (hsplit : handler.split.WellFormed handler.barrierInfo.getNumOfTasks)
    (hlt : ∀ t ∈ producers, t < handler.barrierInfo.getNumOfTasks) (hnodup : producers.Nodup) :
    ∃ pages', producers.foldlM (handler.startPageAtSync barInd) pages = .ok pages' ∧
      pages'.pageInd = pages.pageInd +
        (producers.filter (fun t => t ∈ handler.split.syncTasksIds ∧ t ∉ pages.processedSyncPoints)).length ∧
      pages'.firstBarrierInPage = pages.firstBarrierInPage ++ List.replicate
        (producers.filter (fun t => t ∈ handler.split.syncTasksIds ∧ t ∉ pages.processedSyncPoints)).length barInd ∧
      pages'.barrierToPageAssignment = pages.barrierToPageAssignment ∧
      pages'.barriersInPage = (if pages'.pageInd = pages.pageInd then pages.barriersInPage else 0) ∧
      ∀ t, t ∈ pages'.processedSyncPoints ↔ t ∈ pages.processedSyncPoints ∨ (t ∈ producers ∧ t ∈ handler.split.syncTasksIds) := by
  induction producers generalizing pages with
  | nil => exact ⟨pages, rfl, rfl, (append_nil _).symm, rfl, (if_pos rfl).symm, fun t => by simp⟩
  | cons producer producers ih =>
    obtain ⟨hproducer, hlt⟩ := forall_mem_cons.mp hlt
    obtain ⟨hnew, hnodup⟩ := nodup_cons.mp hnodup
    rw [foldlM_cons]
    have hstep : handler.startPageAtSync barInd pages producer = .ok (
        if producer ∈ handler.split.syncTasksIds ∧ producer ∉ pages.processedSyncPoints then { pages with
          pageInd := pages.pageInd + 1
          barriersInPage := 0
          processedSyncPoints := pages.processedSyncPoints.insert producer
          firstBarrierInPage := pages.firstBarrierInPage ++ [barInd] }
        else pages) := by
      unfold startPageAtSync
      rw [isSyncPoint_eq hsplit hproducer]
      by_cases hsync : producer ∈ handler.split.syncTasksIds
      · by_cases hprocessed : producer ∈ pages.processedSyncPoints
        · simp [hsync, hprocessed, bind, Except.bind, pure, Except.pure]
        · simp [hsync, hprocessed, bind, Except.bind, pure, Except.pure]
      · simp [hsync, bind, Except.bind, pure, Except.pure]
    rw [hstep]
    by_cases hswitch : producer ∈ handler.split.syncTasksIds ∧ producer ∉ pages.processedSyncPoints
    · rw [if_pos hswitch]
      obtain ⟨pages', hpages', hpage, hfirst, hassignment, hcount, hprocessed⟩ := @ih { pages with
        pageInd := pages.pageInd + 1
        barriersInPage := 0
        processedSyncPoints := pages.processedSyncPoints.insert producer
        firstBarrierInPage := pages.firstBarrierInPage ++ [barInd] } hlt hnodup
      have hsame : producers.filter (fun t => t ∈ handler.split.syncTasksIds ∧ t ∉ pages.processedSyncPoints.insert producer) =
          producers.filter (fun t => t ∈ handler.split.syncTasksIds ∧ t ∉ pages.processedSyncPoints) := by
        apply filter_congr
        intro t ht
        have hne : t ≠ producer := fun heq => hnew (heq ▸ ht)
        simp [hne]
      dsimp only at hpage hfirst
      rw [hsame] at hpage hfirst
      rw [filter_cons_of_pos (by simpa using hswitch), length_cons]
      refine ⟨pages', hpages', ?_, ?_, hassignment, ?_, ?_⟩
      · rw [hpage]
        omega
      · rw [hfirst, append_assoc, replicate_succ]
        rfl
      · rw [hcount, if_neg (show ¬ pages'.pageInd = pages.pageInd by omega)]
        exact ite_self 0
      · intro t
        rw [hprocessed, mem_insert, mem_cons]
        constructor
        · rintro ((heq | hold) | hrest)
          · exact .inr ⟨.inl heq, heq ▸ hswitch.1⟩
          · exact .inl hold
          · exact .inr ⟨.inr hrest.1, hrest.2⟩
        · rintro (hold | ⟨heq | hmem, hsync⟩)
          · exact .inl (.inr hold)
          · exact .inl (.inl heq)
          · exact .inr ⟨hmem, hsync⟩
    · rw [if_neg hswitch]
      obtain ⟨pages', hpages', hpage, hfirst, hassignment, hcount, hprocessed⟩ := @ih pages hlt hnodup
      rw [filter_cons_of_neg (by simpa using hswitch)]
      refine ⟨pages', hpages', hpage, hfirst, hassignment, hcount, ?_⟩
      intro t
      rw [hprocessed, mem_cons]
      constructor
      · exact fun hor => hor.imp_right (fun hmem => ⟨.inr hmem.1, hmem.2⟩)
      · rintro (hold | ⟨heq | hmem, hsync⟩)
        · exact .inl hold
        · subst heq
          apply Or.inl
          by_contra hnot
          exact hswitch ⟨hsync, hnot⟩
        · exact .inr ⟨hmem, hsync⟩

structure Assigns (handler : BarrierPagesSplitHandler) (barInd : ℕ) (pages pages' : BarrierPages) : Prop where
  pageInd : pages'.pageInd = pages.pageInd + handler.pageSwitches pages barInd
  first : pages'.firstBarrierInPage = pages.firstBarrierInPage ++ List.replicate (handler.pageSwitches pages barInd) barInd
  assignment : pages'.barrierToPageAssignment = pages.barrierToPageAssignment.set barInd pages'.pageInd
  count : pages'.barriersInPage = (if pages'.pageInd = pages.pageInd then pages.barriersInPage else 0) + 1
  processed : ∀ t, t ∈ pages'.processedSyncPoints → t ∈ pages.processedSyncPoints ∨
    (t ∈ handler.barrierInfo.getBarrierProducers barInd ∧ pages'.pageInd ≠ pages.pageInd)
  /-- The sync tasks that produce the barrier have been processed, or it starts a page. -/
  sync : ∀ t ∈ handler.barrierInfo.getBarrierProducers barInd, t ∈ handler.split.syncTasksIds →
    t ∈ pages.processedSyncPoints ∨ pages'.pageInd ≠ pages.pageInd
  kept : ∀ t ∈ pages.processedSyncPoints, t ∈ pages'.processedSyncPoints

theorem assignBarrierPage_spec (hinfo : handler.barrierInfo.Consistent)
    (hsplit : handler.split.WellFormed handler.barrierInfo.getNumOfTasks) :
    ∃ pages', handler.assignBarrierPage pages barInd = .ok pages' ∧ Assigns handler barInd pages pages' := by
  unfold assignBarrierPage
  by_cases hfull : pages.barriersInPage = handler.pageSize
  · rw [if_pos hfull]
    have hswitches : handler.pageSwitches pages barInd = 1 := if_pos hfull
    have hne : pages.pageInd + 1 ≠ pages.pageInd := Nat.succ_ne_self _
    refine ⟨_, rfl, ?_, ?_, rfl, ?_, fun t ht => .inl ht, fun t _ _ => .inr hne, fun t ht => ht⟩
    · rw [hswitches]
    · rw [hswitches]
      rfl
    · rw [if_neg hne]
  · rw [if_neg hfull]
    have hswitches : handler.pageSwitches pages barInd = (handler.newSyncProducers pages barInd).length := if_neg hfull
    obtain ⟨pages', hpages', hpage, hfirst, hassignment, hcount, hprocessed⟩ :=
      @startPageAtSync_foldlM handler pages barInd (handler.barrierInfo.getBarrierProducers barInd).toList hsplit
        (fun t ht => (hinfo.producer_lt (mem_iff.mpr ht)).2) (toList_nodup _)
    rw [hpages']
    have hnew : ∀ t ∈ handler.barrierInfo.getBarrierProducers barInd, t ∈ handler.split.syncTasksIds →
        t ∈ pages.processedSyncPoints ∨ pages'.pageInd ≠ pages.pageInd := by
      intro t ht hsync
      by_cases hold : t ∈ pages.processedSyncPoints
      · exact .inl hold
      · apply Or.inr
        have hmem : t ∈ handler.newSyncProducers pages barInd :=
          mem_filter.mpr ⟨mem_iff.mp ht, by simpa using ⟨hsync, hold⟩⟩
        have hpos := length_pos_of_mem hmem
        unfold newSyncProducers at hpos
        omega
    refine ⟨_, rfl, ?_, ?_, ?_, ?_, ?_, hnew, fun t ht => (hprocessed t).mpr (.inl ht)⟩
    · rw [hswitches]
      exact hpage
    · rw [hswitches]
      exact hfirst
    · dsimp only
      rw [hassignment]
    · dsimp only
      rw [hcount]
    · intro t ht
      by_cases hold : t ∈ pages.processedSyncPoints
      · exact .inl hold
      · cases (hprocessed t).mp ht with
        | inl hmem => exact .inl hmem
        | inr hmem =>
          have hproducer := mem_iff.mpr hmem.1
          exact .inr ⟨hproducer, (hnew t hproducer hmem.2).resolve_left hold⟩

end

def BarrierPages.barriersOf (pages : BarrierPages) (k page : ℕ) : List ℕ := (List.range k).filter (fun b => pages.page b = page)

def initialPages (handler : BarrierPagesSplitHandler) : BarrierPages :=
  ⟨0, 0, ∅, [0], List.replicate handler.barrierInfo.getNumOfBarrierOps 0⟩

structure Assigned (handler : BarrierPagesSplitHandler) (k : ℕ) (pages : BarrierPages) : Prop where
  length : pages.barrierToPageAssignment.length = handler.barrierInfo.getNumOfBarrierOps
  mono : ∀ b b', b ≤ b' → b' < k → pages.page b ≤ pages.page b'
  last : pages.pageInd = if k = 0 then 0 else pages.page (k - 1)
  count : (pages.barriersOf k pages.pageInd).length = pages.barriersInPage
  full : ∀ page, (pages.barriersOf k page).length ≤ handler.pageSize
  firsts_length : pages.firstBarrierInPage.length = pages.pageCount
  first_zero : pages.firstBarrierInPage[0]? = some 0
  firsts : 0 < k → ∀ page ≤ pages.pageInd, ∃ b < k, pages.firstBarrierInPage[page]? = some b ∧ page ≤ pages.page b ∧
    ∀ b' < b, pages.page b' < page
  sync : ∀ b < k, ∀ t ∈ handler.barrierInfo.getBarrierProducers b, t ∈ handler.split.syncTasksIds →
    pages.Starts b ∨ ∃ b' < b, t ∈ handler.barrierInfo.getBarrierProducers b' ∧ pages.Starts b'
  processed : ∀ t ∈ pages.processedSyncPoints, ∃ b < k, t ∈ handler.barrierInfo.getBarrierProducers b ∧ pages.Starts b
  steps : (0 < k → pages.page 0 = handler.pageSwitches (initialPages handler) 0) ∧
    ∀ b, b + 1 < k → ∃ before, pages.page (b + 1) = pages.page b + handler.pageSwitches before (b + 1)

section
variable {handler : BarrierPagesSplitHandler} {pages pages' : BarrierPages} {k : ℕ}

theorem Assigned.le_pageInd (h : Assigned handler k pages) {b : ℕ} (hb : b < k) : pages.page b ≤ pages.pageInd := by
  rw [h.last, if_neg (Nat.ne_of_gt (Nat.zero_lt_of_lt hb))]
  exact h.mono b (k - 1) (Nat.le_sub_one_of_lt hb) (Nat.sub_lt (Nat.zero_lt_of_lt hb) Nat.zero_lt_one)

theorem assigned_zero : Assigned handler 0 (initialPages handler) := by
  refine ⟨length_replicate, ?_, rfl, rfl, fun _ => Nat.zero_le _, rfl, rfl, fun h => absurd h (Nat.lt_irrefl 0), ?_, ?_, ?_⟩
  · exact fun _ _ _ hlt => absurd hlt (Nat.not_lt_zero _)
  · exact fun _ hlt => absurd hlt (Nat.not_lt_zero _)
  · exact fun t ht => absurd ht not_mem_empty
  · exact ⟨fun hlt => absurd hlt (Nat.lt_irrefl 0), fun _ hlt => absurd hlt (Nat.not_lt_zero _)⟩

section
variable (h : Assigned handler k pages) (hassigns : Assigns handler k pages pages')
include hassigns

theorem Assigns.pageInd_le : pages.pageInd ≤ pages'.pageInd := by
  rw [hassigns.pageInd]
  exact Nat.le_add_right _ _

include h

/-- No barrier before is on a new page. -/
theorem Assigned.length_barriersOf_new (hne : pages'.pageInd ≠ pages.pageInd) : (pages.barriersOf k pages'.pageInd).length = 0 := by
  have hle := hassigns.pageInd_le
  rw [length_eq_zero_iff]
  apply filter_eq_nil_iff.mpr
  intro b hb heq
  have hless := h.le_pageInd (mem_range.mp hb)
  have hpageb := of_decide_eq_true heq
  omega

theorem Assigned.room (hsame : pages'.pageInd = pages.pageInd) : pages.barriersInPage < handler.pageSize := by
  have hfull := h.full pages.pageInd
  rw [h.count] at hfull
  apply Nat.lt_of_le_of_ne hfull
  intro heq
  have hswitches : handler.pageSwitches pages k = 1 := if_pos heq
  have hind := hassigns.pageInd
  omega

theorem Assigned.first_zero_succ : pages'.firstBarrierInPage[0]? = some 0 := by
  rw [hassigns.first, getElem?_append_left (List.getElem?_eq_some_iff.mp h.first_zero).1]
  exact h.first_zero

variable (hk : k < handler.barrierInfo.getNumOfBarrierOps)
include hk

theorem Assigned.page_succ (b : ℕ) : pages'.page b = if b = k then pages'.pageInd else pages.page b := by
  unfold BarrierPages.page
  rw [hassigns.assignment]
  by_cases heq : b = k
  · rw [if_pos heq, heq, getD_eq_getElem?_getD, getElem?_set_self (h.length.symm ▸ hk)]
    rfl
  · rw [if_neg heq, getD_eq_getElem?_getD, getD_eq_getElem?_getD, getElem?_set_ne (Ne.symm heq)]

theorem Assigned.page_self : pages'.page k = pages'.pageInd := (h.page_succ hassigns hk k).trans (if_pos rfl)

theorem Assigned.page_old {b : ℕ} (hb : b < k) : pages'.page b = pages.page b :=
  (h.page_succ hassigns hk b).trans (if_neg (Nat.ne_of_lt hb))

theorem Assigned.starts_old {b : ℕ} (hb : b < k) (hstart : pages.Starts b) : pages'.Starts b := by
  intro b' hb'
  rw [h.page_old hassigns hk hb, h.page_old hassigns hk (Nat.lt_trans hb' hb)]
  exact hstart b' hb'

theorem Assigned.starts_new (hne : pages'.pageInd ≠ pages.pageInd) : pages'.Starts k := by
  intro b hb heq
  rw [h.page_self hassigns hk, h.page_old hassigns hk hb] at heq
  have hless := h.le_pageInd hb
  have hle := hassigns.pageInd_le
  omega

theorem Assigned.mono_succ {b b' : ℕ} (hb : b ≤ b') (hb' : b' < k + 1) : pages'.page b ≤ pages'.page b' := by
  cases Nat.lt_or_eq_of_le (Nat.le_of_lt_succ hb') with
  | inl hlt =>
    rw [h.page_old hassigns hk (Nat.lt_of_le_of_lt hb hlt), h.page_old hassigns hk hlt]
    exact h.mono b b' hb hlt
  | inr heq =>
    rw [heq, h.page_self hassigns hk]
    cases Nat.lt_or_eq_of_le (heq ▸ hb) with
    | inl hlt =>
      rw [h.page_old hassigns hk hlt]
      exact Nat.le_trans (h.le_pageInd hlt) hassigns.pageInd_le
    | inr heq' => rw [heq', h.page_self hassigns hk]

theorem Assigned.length_barriersOf_succ (page : ℕ) : (pages'.barriersOf (k + 1) page).length =
    (pages.barriersOf k page).length + if pages'.pageInd = page then 1 else 0 := by
  unfold BarrierPages.barriersOf
  rw [range_succ, filter_append, length_append]
  congr 1
  · congr 1
    apply filter_congr
    intro b hb
    rw [h.page_old hassigns hk (mem_range.mp hb)]
  · rw [filter_singleton, h.page_self hassigns hk]
    by_cases heq : pages'.pageInd = page
    · simp [heq]
    · simp [heq]

theorem Assigned.count_succ : (pages'.barriersOf (k + 1) pages'.pageInd).length = pages'.barriersInPage := by
  rw [h.length_barriersOf_succ hassigns hk, if_pos rfl, hassigns.count]
  by_cases hsame : pages'.pageInd = pages.pageInd
  · rw [if_pos hsame, hsame, h.count]
  · rw [if_neg hsame, h.length_barriersOf_new hassigns hsame]

theorem Assigned.full_succ (hsize : 0 < handler.pageSize) (page : ℕ) :
    (pages'.barriersOf (k + 1) page).length ≤ handler.pageSize := by
  rw [h.length_barriersOf_succ hassigns hk]
  by_cases heq : pages'.pageInd = page
  · rw [if_pos heq, ← heq]
    by_cases hsame : pages'.pageInd = pages.pageInd
    · rw [hsame, h.count]
      exact h.room hassigns hsame
    · rw [h.length_barriersOf_new hassigns hsame]
      exact hsize
  · rw [if_neg heq]
    exact h.full page

theorem Assigned.firsts_succ {page : ℕ} (hpage : page ≤ pages'.pageInd) : ∃ b < k + 1,
    pages'.firstBarrierInPage[page]? = some b ∧ page ≤ pages'.page b ∧ ∀ b' < b, pages'.page b' < page := by
  by_cases hbefore : page ≤ pages.pageInd ∧ 0 < k
  · obtain ⟨b, hb, hfirst, hreached, hless⟩ := h.firsts hbefore.2 page hbefore.1
    refine ⟨b, Nat.lt_succ_of_lt hb, ?_, ?_, ?_⟩
    · rw [hassigns.first, getElem?_append_left (List.getElem?_eq_some_iff.mp hfirst).1]
      exact hfirst
    · rw [h.page_old hassigns hk hb]
      exact hreached
    · intro b' hb'
      rw [h.page_old hassigns hk (Nat.lt_trans hb' hb)]
      exact hless b' hb'
  · refine ⟨k, Nat.lt_succ_self k, ?_, (h.page_self hassigns hk).symm ▸ hpage, ?_⟩
    · by_cases hfirst : page ≤ pages.pageInd
      · have hk0 : k = 0 := Nat.eq_zero_of_not_pos (fun hpos => hbefore ⟨hfirst, hpos⟩)
        have hind := h.last
        rw [if_pos hk0] at hind
        have hpage0 : page = 0 := by omega
        rw [hpage0, hk0]
        exact h.first_zero_succ hassigns
      · have hlength := h.firsts_length
        unfold BarrierPages.pageCount at hlength
        rw [hassigns.first, getElem?_append_right (by omega), getElem?_replicate, if_pos]
        have hind := hassigns.pageInd
        omega
    · intro b' hb'
      rw [h.page_old hassigns hk hb']
      have hless := h.le_pageInd hb'
      by_contra hge
      exact hbefore ⟨by omega, Nat.zero_lt_of_lt hb'⟩

theorem Assigned.sync_succ {b t : ℕ} (hb : b < k + 1) (ht : t ∈ handler.barrierInfo.getBarrierProducers b)
    (hsync : t ∈ handler.split.syncTasksIds) :
    pages'.Starts b ∨ ∃ b' < b, t ∈ handler.barrierInfo.getBarrierProducers b' ∧ pages'.Starts b' := by
  cases Nat.lt_or_eq_of_le (Nat.le_of_lt_succ hb) with
  | inl hlt =>
    cases h.sync b hlt t ht hsync with
    | inl hstart => exact .inl (h.starts_old hassigns hk hlt hstart)
    | inr hearlier =>
      obtain ⟨b', hb', hproducer, hstart⟩ := hearlier
      exact .inr ⟨b', hb', hproducer, h.starts_old hassigns hk (Nat.lt_trans hb' hlt) hstart⟩
  | inr heq =>
    subst heq
    cases hassigns.sync t ht hsync with
    | inl hprocessed =>
      obtain ⟨b', hb', hproducer, hstart⟩ := h.processed t hprocessed
      exact .inr ⟨b', hb', hproducer, h.starts_old hassigns hk hb' hstart⟩
    | inr hne => exact .inl (h.starts_new hassigns hk hne)

theorem Assigned.steps_succ (hinitial : k = 0 → pages = initialPages handler) :
    pages'.page 0 = handler.pageSwitches (initialPages handler) 0 ∧
      ∀ b, b + 1 < k + 1 → ∃ before, pages'.page (b + 1) = pages'.page b + handler.pageSwitches before (b + 1) := by
  constructor
  · cases Nat.eq_zero_or_pos k with
    | inl hzero =>
      subst hzero
      rw [h.page_self hassigns hk, hassigns.pageInd, h.last, if_pos rfl, Nat.zero_add, hinitial rfl]
    | inr hpos => rw [h.page_old hassigns hk hpos, h.steps.1 hpos]
  · intro b hb
    cases Nat.lt_or_eq_of_le (Nat.le_of_lt_succ hb) with
    | inl hlt =>
      obtain ⟨before, hstep⟩ := h.steps.2 b hlt
      exact ⟨before, by rw [h.page_old hassigns hk hlt, h.page_old hassigns hk (Nat.lt_of_succ_lt hlt), hstep]⟩
    | inr heq =>
      refine ⟨pages, ?_⟩
      rw [heq, h.page_self hassigns hk, hassigns.pageInd, h.last, if_neg (by omega), h.page_old hassigns hk (by omega), ← heq,
        Nat.add_sub_cancel]

theorem Assigned.succ (hsize : 0 < handler.pageSize) (hinitial : k = 0 → pages = initialPages handler) :
    Assigned handler (k + 1) pages' where
  length := by
    rw [hassigns.assignment, length_set]
    exact h.length
  mono _ _ hb hb' := h.mono_succ hassigns hk hb hb'
  last := by
    rw [if_neg (Nat.succ_ne_zero k)]
    exact (h.page_self hassigns hk).symm
  count := h.count_succ hassigns hk
  full := h.full_succ hassigns hk hsize
  firsts_length := by
    unfold BarrierPages.pageCount
    rw [hassigns.first, length_append, length_replicate, h.firsts_length, hassigns.pageInd]
    unfold BarrierPages.pageCount
    omega
  first_zero := h.first_zero_succ hassigns
  firsts _ _ hpage := h.firsts_succ hassigns hk hpage
  sync _ hb _ ht hsync := h.sync_succ hassigns hk hb ht hsync
  processed t ht := by
    cases hassigns.processed t ht with
    | inl hprocessed =>
      obtain ⟨b, hb, hproducer, hstart⟩ := h.processed t hprocessed
      exact ⟨b, Nat.lt_succ_of_lt hb, hproducer, h.starts_old hassigns hk hb hstart⟩
    | inr hmem => exact ⟨k, Nat.lt_succ_self k, hmem.1, h.starts_new hassigns hk hmem.2⟩
  steps := ⟨fun _ => (h.steps_succ hassigns hk hinitial).1, (h.steps_succ hassigns hk hinitial).2⟩

end

theorem assignBarrierPages_spec (hinfo : handler.barrierInfo.Consistent)
    (hsplit : handler.split.WellFormed handler.barrierInfo.getNumOfTasks) (hsize : 0 < handler.pageSize)
    (hk : k ≤ handler.barrierInfo.getNumOfBarrierOps) :
    ∃ pages, handler.assignBarrierPages k = .ok pages ∧ Assigned handler k pages := by
  induction k with
  | zero => exact ⟨_, rfl, assigned_zero⟩
  | succ k ih =>
    obtain ⟨pages, hpages, hassigned⟩ := ih (Nat.le_of_succ_le hk)
    obtain ⟨pages', hpages', hassigns⟩ := @assignBarrierPage_spec handler pages k hinfo hsplit
    have hinitial : k = 0 → pages = initialPages handler := fun hzero => (Except.ok.inj (hzero ▸ hpages)).symm
    refine ⟨pages', ?_, hassigned.succ hassigns hk hsize hinitial⟩
    unfold assignBarrierPages at hpages ⊢
    rw [range_succ, foldlM_append, hpages]
    change (handler.assignBarrierPage pages k >>= pure) = _
    rw [hpages']
    rfl

/-- Every barrier belongs to one block, and a sync task produces barriers of the next block only. -/
def InBlocks (handler : BarrierPagesSplitHandler) : Prop :=
  ∀ b, ∃ k, (∀ p ∈ handler.barrierInfo.getBarrierProducers b, blockOf handler.split.syncTasksIds (p + 1) = k) ∧
    ∀ c ∈ handler.barrierInfo.getBarrierConsumers b, blockOf handler.split.syncTasksIds c = k

theorem newSyncProducers_length (hsplit : handler.split.WellFormed handler.barrierInfo.getNumOfTasks) (hblocks : InBlocks handler) :
    (handler.newSyncProducers pages barInd).length ≤ 1 := by
  obtain ⟨k, hproducers, -⟩ := hblocks barInd
  -- of two sync tasks the earlier one ends an earlier block
  have hle : ∀ t ∈ handler.newSyncProducers pages barInd, ∀ t' ∈ handler.newSyncProducers pages barInd, t' ≤ t := by
    intro t ht t' ht'
    obtain ⟨hmem, -⟩ := mem_filter.mp ht
    obtain ⟨hmem', hsync'⟩ := mem_filter.mp ht'
    simp only [decide_eq_true_eq] at hsync'
    by_contra hlt
    have hsame := (hproducers t (mem_iff.mpr hmem)).trans (hproducers t' (mem_iff.mpr hmem')).symm
    have hless := @blockOf_mono handler.split.syncTasksIds (t + 1) t' (by omega)
    have hnext := @blockOf_mono handler.split.syncTasksIds t' (t' + 1) (Nat.le_succ t')
    exact (blockOf_succ hsplit.sorted).mpr hsync'.1 (Nat.le_antisymm (hsame ▸ hless) hnext)
  have hnodup : (handler.newSyncProducers pages barInd).Nodup := (toList_nodup _).filter _
  match hnew : handler.newSyncProducers pages barInd, hnodup, hle with
  | [], _, _ => exact Nat.zero_le 1
  | [_], _, _ => exact Nat.le_refl 1
  | t :: t' :: rest, hnodup, hle =>
    have heq : t = t' := Nat.le_antisymm (hle t' (by simp) t (by simp)) (hle t (by simp) t' (by simp))
    exact absurd (heq ▸ mem_cons_self) (nodup_cons.mp hnodup).1

theorem pageSwitches_le_one (hsplit : handler.split.WellFormed handler.barrierInfo.getNumOfTasks) (hblocks : InBlocks handler) :
    handler.pageSwitches pages barInd ≤ 1 := by
  unfold pageSwitches
  split_ifs
  · exact Nat.le_refl 1
  · exact newSyncProducers_length hsplit hblocks

theorem Assigned.covered_iff (h : Assigned handler handler.barrierInfo.getNumOfBarrierOps pages) (hsize : 0 < handler.pageSize)
    (hsplit : handler.split.WellFormed handler.barrierInfo.getNumOfTasks) (hblocks : InBlocks handler) :
    (∀ page < pages.pageCount, ∃ b < handler.barrierInfo.getNumOfBarrierOps, pages.page b = page) ↔
      0 < handler.barrierInfo.getNumOfBarrierOps ∧
        ∀ t ∈ handler.barrierInfo.getBarrierProducers 0, t ∉ handler.split.syncTasksIds := by
  cases Nat.eq_zero_or_pos handler.barrierInfo.getNumOfBarrierOps with
  | inl hnone =>
    constructor
    · intro hcovered
      obtain ⟨b, hb, -⟩ := hcovered 0 (Nat.succ_pos _)
      rw [hnone] at hb
      exact absurd hb (Nat.not_lt_zero b)
    · rintro ⟨hpos, -⟩
      exact absurd hpos (by rw [hnone]; exact Nat.lt_irrefl 0)
  | inr hpos =>
    have hlast : pages.pageInd = pages.page (handler.barrierInfo.getNumOfBarrierOps - 1) :=
      h.last.trans (if_neg (Nat.ne_of_gt hpos))
    have hcovered : (∀ page < pages.pageCount, ∃ b < handler.barrierInfo.getNumOfBarrierOps, pages.page b = page) ↔
        pages.page 0 = 0 ∧ ∀ b, b + 1 < handler.barrierInfo.getNumOfBarrierOps → pages.page (b + 1) ≤ pages.page b + 1 := by
      rw [← levels_covered_iff h.mono hpos, ← hlast]
      exact forall_congr' (fun page => imp_congr_left Nat.lt_succ_iff)
    have hnext : ∀ b, b + 1 < handler.barrierInfo.getNumOfBarrierOps → pages.page (b + 1) ≤ pages.page b + 1 := by
      intro b hb
      obtain ⟨before, hpage⟩ := h.steps.2 b hb
      rw [hpage]
      exact Nat.add_le_add_left (pageSwitches_le_one hsplit hblocks) _
    rw [hcovered, and_iff_right hpos, and_iff_left hnext, h.steps.1 hpos]
    have hroom : ¬(initialPages handler).barriersInPage = handler.pageSize := Nat.ne_of_lt hsize
    unfold pageSwitches newSyncProducers
    rw [if_neg hroom, length_eq_zero_iff, filter_eq_nil_iff]
    refine forall_congr' (fun t => imp_congr mem_iff.symm ?_)
    have hnew : t ∉ (initialPages handler).processedSyncPoints := not_mem_empty
    simp [hnew]

end

def BarrierPagesSplitHandler.waitPage (handler : BarrierPagesSplitHandler) (pages : BarrierPages) (taskInd : ℕ) : ℕ :=
  match (handler.barrierInfo.getWaitBarriers taskInd).toList.max? with
  | none => 0
  | some barInd => pages.page barInd

structure QueueAssigned (handler : BarrierPagesSplitHandler) (pages : BarrierPages) (check : Bool) (prev : Option ℕ)
    (taskVec : List ℕ) (assignment : List ℕ) : Prop where
  waits : ∀ t ∈ taskVec, handler.waitPage pages t ≤ assignment.getD t 0
  ordered : check = true → (prev.toList ++ taskVec).Pairwise (fun t t' => assignment.getD t 0 ≤ assignment.getD t' 0)
  /-- The page is that of a barrier that the task or one before it waits for. -/
  reached : ∀ (i t : ℕ), taskVec[i]? = some t → (∃ j ≤ i, ∃ t', taskVec[j]? = some t' ∧
    assignment.getD t 0 = handler.waitPage pages t') ∨ ∃ p ∈ prev, assignment.getD t 0 = assignment.getD p 0

section
variable {handler : BarrierPagesSplitHandler} {pages : BarrierPages}

theorem getWaitPage_eq (hinfo : handler.barrierInfo.Consistent)
    (hlength : pages.barrierToPageAssignment.length = handler.barrierInfo.getNumOfBarrierOps) (t : ℕ) :
    handler.getWaitPage pages t = .ok (handler.waitPage pages t) := by
  unfold getWaitPage waitPage
  cases hmax : (handler.barrierInfo.getWaitBarriers t).toList.max? with
  | none => rfl
  | some barInd =>
    have hmem : barInd ∈ handler.barrierInfo.getWaitBarriers t := mem_iff.mpr (max?_mem hmax)
    have hlt := (hinfo.consumer_lt (hinfo.wait_iff.mp hmem)).1
    unfold BarrierPages.getBarrierPage
    exact if_pos (hlength.symm ▸ hlt)

theorem page_le_waitPage (hmono : ∀ b b', b ≤ b' → b' < handler.barrierInfo.getNumOfBarrierOps → pages.page b ≤ pages.page b')
    (hinfo : handler.barrierInfo.Consistent) {t b : ℕ} (hb : b ∈ handler.barrierInfo.getWaitBarriers t) :
    pages.page b ≤ handler.waitPage pages t := by
  unfold waitPage
  cases hmax : (handler.barrierInfo.getWaitBarriers t).toList.max? with
  | none =>
    rw [max?_eq_none_iff] at hmax
    rw [mem_iff, hmax] at hb
    exact absurd hb not_mem_nil
  | some last =>
    have hmem : last ∈ handler.barrierInfo.getWaitBarriers t := mem_iff.mpr (max?_mem hmax)
    apply hmono b last
    · exact (max?_eq_some_iff.mp hmax).2 b (mem_iff.mp hb)
    · exact (hinfo.consumer_lt (hinfo.wait_iff.mp hmem)).1

theorem assignTaskPages_spec {check : Bool} {prev : Option ℕ} {taskVec assignment : List ℕ}
    (hinfo : handler.barrierInfo.Consistent)
    (hlength : pages.barrierToPageAssignment.length = handler.barrierInfo.getNumOfBarrierOps)
    (hnodup : (prev.toList ++ taskVec).Nodup) (hlt : ∀ t ∈ taskVec, t < assignment.length) :
    ∃ assignment', handler.assignTaskPages pages check prev taskVec assignment = .ok assignment' ∧
      assignment'.length = assignment.length ∧ (∀ t, t ∉ taskVec → assignment'.getD t 0 = assignment.getD t 0) ∧
      QueueAssigned handler pages check prev taskVec assignment' := by
  induction taskVec generalizing prev assignment with
  | nil =>
    refine ⟨assignment, rfl, rfl, fun _ _ => rfl, fun t ht => absurd ht not_mem_nil, fun _ => ?_, fun i t ht => ?_⟩
    · rw [append_nil]
      cases prev with
      | none => exact .nil
      | some p => exact pairwise_singleton _ p
    · cases ht
  | cons taskInd taskVec ih =>
    obtain ⟨htask, hlt⟩ := forall_mem_cons.mp hlt
    obtain ⟨-, hnodupTask, hdisjoint⟩ := nodup_append.mp hnodup
    obtain ⟨hnotMem, -⟩ := nodup_cons.mp hnodupTask
    unfold assignTaskPages
    rw [getWaitPage_eq hinfo hlength]
    dsimp only [bind, Except.bind]
    generalize htaskPage : getTaskPage check assignment (handler.waitPage pages taskInd) prev = taskPage
    have hset : ∀ t, (assignment.set taskInd taskPage).getD t 0 = if t = taskInd then taskPage else assignment.getD t 0 := by
      intro t
      by_cases heq : t = taskInd
      · rw [if_pos heq, heq, getD_eq_getElem?_getD, getElem?_set_self htask]
        rfl
      · rw [if_neg heq, getD_eq_getElem?_getD, getD_eq_getElem?_getD, getElem?_set_ne (Ne.symm heq)]
    obtain ⟨assignment', hrun, hlength', hothers, hassigned⟩ := @ih (some taskInd) (assignment.set taskInd taskPage) hnodupTask
      (by rw [length_set]; exact hlt)
    have hfirst : assignment'.getD taskInd 0 = taskPage := by
      rw [hothers taskInd hnotMem, hset, if_pos rfl]
    have hprev : ∀ p ∈ prev, assignment'.getD p 0 = assignment.getD p 0 := by
      intro p hp
      have hne : ∀ t ∈ taskInd :: taskVec, p ≠ t := fun t ht => hdisjoint p (Option.mem_toList.mpr hp) t ht
      rw [hothers p (fun hmem => hne p (mem_cons_of_mem _ hmem) rfl), hset, if_neg (hne taskInd mem_cons_self)]
    have hwait : handler.waitPage pages taskInd ≤ taskPage := by
      rw [← htaskPage]
      cases prev with
      | none => exact Nat.le_refl _
      | some p =>
        unfold getTaskPage
        split_ifs
        · exact Nat.le_max_left _ _
        · exact Nat.le_refl _
    refine ⟨assignment', hrun, hlength'.trans length_set, ?_, ?_, ?_, ?_⟩
    · intro t ht
      rw [mem_cons, not_or] at ht
      obtain ⟨hne, hnot⟩ := ht
      rw [hothers t hnot, hset, if_neg hne]
    · intro t ht
      cases mem_cons.mp ht with
      | inl heq =>
        rw [heq, hfirst]
        exact hwait
      | inr ht => exact hassigned.waits t ht
    · intro hcheck
      have htail := hassigned.ordered hcheck
      change (taskInd :: taskVec).Pairwise _ at htail
      cases prev with
      | none => exact htail
      | some p =>
        change (p :: taskInd :: taskVec).Pairwise _
        refine pairwise_cons.mpr ⟨?_, htail⟩
        have hle : assignment'.getD p 0 ≤ assignment'.getD taskInd 0 := by
          rw [hfirst, hprev p rfl, ← htaskPage]
          exact Nat.le_trans (Nat.le_max_right _ _) (Nat.le_of_eq (if_pos hcheck).symm)
        intro t ht
        cases mem_cons.mp ht with
        | inl heq =>
          rw [heq]
          exact hle
        | inr ht => exact Nat.le_trans hle ((pairwise_cons.mp htail).1 t ht)
    · have htaken : taskPage = handler.waitPage pages taskInd ∨ ∃ p ∈ prev, taskPage = assignment'.getD p 0 := by
        rw [← htaskPage]
        cases prev with
        | none => exact .inl rfl
        | some p =>
          unfold getTaskPage
          split_ifs
          · cases Nat.le_total (handler.waitPage pages taskInd) (assignment.getD p 0) with
            | inl hle => exact .inr ⟨p, rfl, (Nat.max_eq_right hle).trans (hprev p rfl).symm⟩
            | inr hle => exact .inl (Nat.max_eq_left hle)
          · exact .inl rfl
      intro i t ht
      cases i with
      | zero =>
        rw [getElem?_cons_zero, Option.some.injEq] at ht
        rw [← ht, hfirst]
        exact htaken.imp_left (fun heq => ⟨0, Nat.le_refl 0, taskInd, rfl, heq⟩)
      | succ i =>
        rw [getElem?_cons_succ] at ht
        obtain ⟨j, hj, t', ht', heq⟩ | ⟨p, hp, heq⟩ := hassigned.reached i t ht
        · exact .inl ⟨j + 1, Nat.succ_le_succ hj, t', ht', heq⟩
        · cases hp
          rw [heq, hfirst]
          exact htaken.imp_left (fun heq => ⟨0, Nat.zero_le _, taskInd, rfl, heq⟩)

theorem assignQueuePages_foldlM (hinfo : handler.barrierInfo.Consistent)
    (hlength : pages.barrierToPageAssignment.length = handler.barrierInfo.getNumOfBarrierOps)
    {queues : List (TaskQueueType × List ℕ)} {assignment : List ℕ} (hnodup : (queues.flatMap Prod.snd).Nodup)
    (hlt : ∀ t ∈ queues.flatMap Prod.snd, t < assignment.length) :
    ∃ assignment', queues.foldlM (handler.assignQueuePages pages) assignment = .ok assignment' ∧
      assignment'.length = assignment.length ∧
      (∀ t, t ∉ queues.flatMap Prod.snd → assignment'.getD t 0 = assignment.getD t 0) ∧
      ∀ queue ∈ queues, QueueAssigned handler pages (handler.checkPageOfPrevTask queue.1) none queue.2 assignment' := by
  induction queues generalizing assignment with
  | nil => exact ⟨assignment, rfl, rfl, fun _ _ => rfl, fun queue hqueue => absurd hqueue not_mem_nil⟩
  | cons queue queues ih =>
    rw [flatMap_cons] at hnodup hlt
    obtain ⟨hfirst, hrest, hdisjoint⟩ := nodup_append.mp hnodup
    obtain ⟨middle, hmiddle, hmiddleLength, hmiddleOthers, hqueue⟩ := @assignTaskPages_spec handler pages
      (handler.checkPageOfPrevTask queue.1) none queue.2 assignment hinfo hlength hfirst
      (fun t ht => hlt t (mem_append_left _ ht))
    obtain ⟨assignment', hrun, hlength', hothers, hqueues⟩ := ih hrest (fun t ht => hmiddleLength ▸ hlt t (mem_append_right _ ht))
    have hsame : ∀ t ∈ queue.2, assignment'.getD t 0 = middle.getD t 0 := fun t ht =>
      hothers t (fun hmem => hdisjoint t ht t hmem rfl)
    refine ⟨assignment', ?_, hlength'.trans hmiddleLength, ?_, ?_⟩
    · rw [foldlM_cons]
      unfold assignQueuePages
      rw [hmiddle]
      exact hrun
    · intro t ht
      rw [flatMap_cons, mem_append, not_or] at ht
      rw [hothers t ht.2, hmiddleOthers t ht.1]
    · intro queue' hqueue'
      cases mem_cons.mp hqueue' with
      | inr hmem => exact hqueues queue' hmem
      | inl heq =>
        subst heq
        refine ⟨fun t ht => ?_, fun hcheck => ?_, fun i t ht => ?_⟩
        · rw [hsame t ht]
          exact hqueue.waits t ht
        · apply (hqueue.ordered hcheck).imp_of_mem
          intro t t' ht ht' hle
          rw [hsame t ht, hsame t' ht']
          exact hle
        · rw [hsame t (mem_of_getElem? ht)]
          exact (hqueue.reached i t ht).imp_right (fun ⟨p, hp, _⟩ => absurd hp (Option.not_mem_none p))

end

/-- Every barrier that a task or an earlier one of its queue waits for is smaller than those that the task updates. -/
def Numbered (handler : BarrierPagesSplitHandler) : Prop :=
  ∀ queue ∈ handler.taskQueueTypeMap, ∀ i j t t' : ℕ, i ≤ j → queue.2[i]? = some t → queue.2[j]? = some t' →
    ∀ b ∈ handler.barrierInfo.getWaitBarriers t, ∀ b' ∈ handler.barrierInfo.getUpdateBarriers t', b < b'

def TaskPages.page (tasks : TaskPages) (taskInd : ℕ) : ℕ := tasks.taskPageAssignment.getD taskInd 0

structure MonotonePartition (handler : BarrierPagesSplitHandler) (pages : BarrierPages) (tasks : TaskPages) : Prop where
  mono : ∀ b b', b ≤ b' → b' < handler.barrierInfo.getNumOfBarrierOps → pages.page b ≤ pages.page b'
  lt : ∀ b < handler.barrierInfo.getNumOfBarrierOps, pages.page b < pages.pageCount
  covered : ∀ page < pages.pageCount, ∃ b < handler.barrierInfo.getNumOfBarrierOps, pages.page b = page
  size : ∀ page < pages.pageCount, 1 ≤ (pages.barriersOf handler.barrierInfo.getNumOfBarrierOps page).length ∧
    (pages.barriersOf handler.barrierInfo.getNumOfBarrierOps page).length ≤ handler.pageSize
  firsts : pages.firstBarrierInPage.length = pages.pageCount ∧ ∀ page < pages.pageCount,
    ∃ b < handler.barrierInfo.getNumOfBarrierOps, pages.firstBarrierInPage[page]? = some b ∧ pages.page b = page ∧ pages.Starts b
  sync : ∀ b < handler.barrierInfo.getNumOfBarrierOps, ∀ t ∈ handler.barrierInfo.getBarrierProducers b,
    handler.split.isSyncPoint handler.barrierInfo t = .ok true →
      pages.Starts b ∨ ∃ b' < b, t ∈ handler.barrierInfo.getBarrierProducers b' ∧ pages.Starts b'
  queues : ∀ queue ∈ handler.taskQueueTypeMap, handler.fifoPerShaveEngineEnabled = true ∨ queue.1.type ≠ .shaveAct →
    queue.2.Pairwise (fun t t' => tasks.page t ≤ tasks.page t')
  waits : ∀ t < handler.barrierInfo.getNumOfTasks, ∀ b ∈ handler.barrierInfo.getWaitBarriers t, pages.page b ≤ tasks.page t
  updates : ∀ t < handler.barrierInfo.getNumOfTasks, ∀ b ∈ handler.barrierInfo.getUpdateBarriers t, tasks.page t ≤ pages.page b

section
variable {handler : BarrierPagesSplitHandler}

/-- The assignment is a monotone partition if and only if there is a barrier and no sync task produces the first one. -/
theorem initializePages_iff (hinfo : handler.barrierInfo.Consistent)
    (hsplit : handler.split.WellFormed handler.barrierInfo.getNumOfTasks) (hsize : 0 < handler.pageSize)
    (hqueues : (handler.taskQueueTypeMap.flatMap Prod.snd).Perm (List.range handler.barrierInfo.getNumOfTasks))
    (hblocks : InBlocks handler) (hnumbered : Numbered handler) :
    ∃ pages tasks, handler.initializePages = .ok (pages, tasks) ∧
      (MonotonePartition handler pages tasks ↔ 0 < handler.barrierInfo.getNumOfBarrierOps ∧
        ∀ t ∈ handler.barrierInfo.getBarrierProducers 0, t ∉ handler.split.syncTasksIds) := by
  obtain ⟨pages, hpages, hassigned⟩ := assignBarrierPages_spec hinfo hsplit hsize (Nat.le_refl _)
  obtain ⟨assignment, hassignment, -, -, hqueue⟩ := @assignQueuePages_foldlM handler pages hinfo hassigned.length
    handler.taskQueueTypeMap (List.replicate handler.barrierInfo.getNumOfTasks 0)
    (hqueues.nodup_iff.mpr nodup_range) (fun t ht => by
      rw [length_replicate]
      exact mem_range.mp (hqueues.mem_iff.mp ht))
  have hmem : ∀ t < handler.barrierInfo.getNumOfTasks, ∃ queue ∈ handler.taskQueueTypeMap, t ∈ queue.2 := by
    intro t ht
    exact mem_flatMap.mp (hqueues.mem_iff.mpr (mem_range.mpr ht))
  obtain ⟨tasks, htasks, hrun⟩ : ∃ tasks : TaskPages, tasks.taskPageAssignment = assignment ∧
      handler.initializePages = .ok (pages, tasks) := by
    refine ⟨⟨assignment, (List.range handler.barrierInfo.getNumOfTasks).foldl (updateFirstAndLast assignment)
      (List.replicate pages.pageCount none)⟩, rfl, ?_⟩
    unfold initializePages initializeBarrierToPageAssignment initializeTaskToPageAssignment
    rw [hpages]
    dsimp only [bind, Except.bind]
    rw [hassignment]
    rfl
  have hpage : ∀ t, tasks.page t = assignment.getD t 0 := by
    intro t
    unfold TaskPages.page
    rw [htasks]
  refine ⟨pages, tasks, hrun, ?_⟩
  constructor
  · intro hpartition
    exact (hassigned.covered_iff hsize hsplit hblocks).mp hpartition.covered
  · intro hcondition
    have hcovered := (hassigned.covered_iff hsize hsplit hblocks).mpr hcondition
    refine ⟨hassigned.mono, fun b hb => Nat.lt_succ_of_le (hassigned.le_pageInd hb), hcovered, ?_, ?_, ?_, ?_, ?_, ?_⟩
    · intro page hlt
      obtain ⟨b, hb, heq⟩ := hcovered page hlt
      refine ⟨?_, hassigned.full page⟩
      apply length_pos_of_mem
      exact mem_filter.mpr ⟨mem_range.mpr hb, decide_eq_true heq⟩
    · refine ⟨hassigned.firsts_length, fun page hlt => ?_⟩
      obtain ⟨b, hb, hfirst, hle, hless⟩ := hassigned.firsts hcondition.1 page (Nat.le_of_lt_succ hlt)
      obtain ⟨b', hb', heq⟩ := hcovered page hlt
      have hpageb : pages.page b = page := by
        apply Nat.le_antisymm _ hle
        rw [← heq]
        apply hassigned.mono b b' _ hb'
        by_contra hgt
        exact absurd heq (Nat.ne_of_lt (hless b' (Nat.lt_of_not_le hgt)))
      refine ⟨b, hb, hfirst, hpageb, fun b'' hb'' => ?_⟩
      rw [hpageb]
      exact Nat.ne_of_lt (hless b'' hb'')
    · intro b hb t ht hsync
      rw [isSyncPoint_eq hsplit (hinfo.producer_lt ht).2, Except.ok.injEq, decide_eq_true_eq] at hsync
      exact hassigned.sync b hb t ht hsync
    · intro queue hmemQueue hfifo
      have hcheck : handler.checkPageOfPrevTask queue.1 = true := by
        unfold checkPageOfPrevTask
        rw [Bool.or_eq_true, bne_iff_ne]
        exact hfifo
      apply ((hqueue queue hmemQueue).ordered hcheck).imp
      intro t t' hle
      rw [hpage, hpage]
      exact hle
    · intro t ht b hb
      obtain ⟨queue, hmemQueue, htask⟩ := hmem t ht
      rw [hpage]
      exact Nat.le_trans (page_le_waitPage hassigned.mono hinfo hb) ((hqueue queue hmemQueue).waits t htask)
    · intro t ht b hb
      obtain ⟨queue, hmemQueue, htask⟩ := hmem t ht
      obtain ⟨i, hi⟩ := getElem?_of_mem htask
      obtain ⟨j, hj, t', ht', heq⟩ | ⟨p, hp, -⟩ := (hqueue queue hmemQueue).reached i t hi
      · rw [hpage, heq]
        unfold waitPage
        cases hmax : (handler.barrierInfo.getWaitBarriers t').toList.max? with
        | none => exact Nat.zero_le _
        | some last =>
          have hwait : last ∈ handler.barrierInfo.getWaitBarriers t' := mem_iff.mpr (max?_mem hmax)
          have hless := hnumbered queue hmemQueue j i t' t hj ht' hi last hwait b hb
          exact hassigned.mono last b (Nat.le_of_lt hless) (hinfo.producer_lt (hinfo.update_iff.mp hb)).1
      · exact absurd hp (Option.not_mem_none p)

def syncPages : BarrierPagesSplitHandler where
  barrierInfo := (((BarrierInfo.empty.addNewTaskOp.addNewTaskOp.addNewTaskOp.addNewTaskOp.addNewBarrier.addNewBarrier.addProducer
    0 0).addConsumer 0 1).addProducer 1 1).addConsumer 1 3
  split := ⟨[1], [0, 0, 1, 1]⟩
  pageSize := 2
  fifoPerShaveEngineEnabled := true
  taskQueueTypeMap := [(⟨.dmaNN, 0⟩, [0, 2]), (⟨.dpu, 0⟩, [1, 3])]

theorem syncPages_consistent : syncPages.barrierInfo.Consistent :=
  BarrierInfo.Consistent.addConsumer (BarrierInfo.Consistent.addProducer (BarrierInfo.Consistent.addConsumer
    (BarrierInfo.Consistent.addProducer
      BarrierInfo.consistent_empty.addNewTaskOp.addNewTaskOp.addNewTaskOp.addNewTaskOp.addNewBarrier.addNewBarrier
      (by decide) (by decide)) (by decide) (by decide)) (by decide) (by decide)) (by decide) (by decide)

theorem syncSplit_wellFormed : GraphSplit.WellFormed ⟨[1], [0, 0, 1, 1]⟩ 4 :=
  ⟨pairwise_singleton _ _, by decide, by decide, fun _ => by decide⟩

theorem initializePages_iff_syncPages :
    ∃ pages tasks, syncPages.initializePages = .ok (pages, tasks) ∧ MonotonePartition syncPages pages tasks := by
  have hnumbered : Numbered syncPages := by
    have hchecked : ∀ queue ∈ syncPages.taskQueueTypeMap, ∀ i < queue.2.length, ∀ j < queue.2.length, i ≤ j →
        ∀ b ∈ (syncPages.barrierInfo.getWaitBarriers (queue.2.getD i 0)).toList,
          ∀ b' ∈ (syncPages.barrierInfo.getUpdateBarriers (queue.2.getD j 0)).toList, b < b' := by decide
    intro queue hqueue i j t t' hij ht ht' b hb b' hb'
    obtain ⟨hi, rfl⟩ := List.getElem?_eq_some_iff.mp ht
    obtain ⟨hj, rfl⟩ := List.getElem?_eq_some_iff.mp ht'
    rw [← getD_eq_getElem _ 0 hi] at hb
    rw [← getD_eq_getElem _ 0 hj] at hb'
    exact hchecked queue hqueue i hi j hj hij b hb b' hb'
  have hblocks : InBlocks syncPages := by
    intro b
    match b with
    | 0 => exact ⟨0, by decide, by decide⟩
    | 1 => exact ⟨1, by decide, by decide⟩
    | b + 2 => exact ⟨0, fun p hp => absurd hp not_mem_empty, fun c hc => absurd hc not_mem_empty⟩
  obtain ⟨pages, tasks, hrun, hiff⟩ := @initializePages_iff syncPages syncPages_consistent syncSplit_wellFormed (by decide)
    (by decide) hblocks hnumbered
  exact ⟨pages, tasks, hrun, hiff.mpr ⟨by decide, by decide⟩⟩

def unwaitedSync : BarrierPagesSplitHandler where
  barrierInfo := (BarrierInfo.empty.addNewTaskOp.addNewTaskOp.addNewTaskOp.addNewTaskOp.addNewBarrier.addProducer
    0 1).addConsumer 0 3
  split := ⟨[1], [0, 0, 1, 1]⟩
  pageSize := 2
  fifoPerShaveEngineEnabled := true
  taskQueueTypeMap := [(⟨.dmaNN, 0⟩, [0, 1, 2]), (⟨.dpu, 0⟩, [3])]

/-- The first page has no barriers, and the list of the first barriers has an entry for it. -/
theorem initializePages_unwaitedSync : ∃ pages tasks, unwaitedSync.initializePages = .ok (pages, tasks) ∧
    pages.barrierToPageAssignment = [1] ∧ pages.firstBarrierInPage = [0, 0] ∧
    ¬ MonotonePartition unwaitedSync pages tasks := by
  refine ⟨⟨1, 1, SmallSet.ofList [1], [0, 0], [1]⟩, ⟨[0, 0, 0, 1], [some (0, 2), some (3, 3)]⟩, rfl, rfl, rfl, ?_⟩
  intro hpartition
  obtain ⟨b, hb, hpage⟩ := hpartition.covered 0 (by decide)
  match b with
  | 0 => cases hpage

end

end NpuCompiler.Barrier
