import NpuCompiler.Schedule.StallReduction

namespace NpuCompiler.Schedule

open List

open Memory (addrAdd addrSub addrAdd_eq addrSub_eq)

section
variable {op y : CycleInfo} {ops later rest : List CycleInfo} {fromCycle toCycle adjustCycles i : ℕ}

def CycleInfo.adjusted (adjustCycles : ℕ) (op : CycleInfo) : CycleInfo :=
  { op with cycleBegin := addrSub op.cycleBegin adjustCycles }

theorem CycleInfo.Fits.adjusted_eq (h : op.Fits) (hle : adjustCycles ≤ op.cycleBegin) :
    op.adjusted adjustCycles = op.moved adjustCycles := by
  have hlt : op.cycleBegin + op.cycleCost < 2 ^ 64 := h
  unfold CycleInfo.adjusted CycleInfo.moved
  rw [addrSub_eq (by omega) hle]

theorem updateReversed_skip (h : ∀ op ∈ later, toCycle < op.getCycleEnd) :
    updateReversed fromCycle toCycle adjustCycles (later ++ ops) =
      later ++ updateReversed fromCycle toCycle adjustCycles ops := by
  induction later with
  | nil => rfl
  | cons op later ih =>
    obtain ⟨hop, h⟩ := forall_mem_cons.mp h
    rw [cons_append, updateReversed, if_pos hop, ih h, cons_append]

theorem updateReversed_adjust (h : ∀ op ∈ later, op.getCycleEnd ≤ toCycle ∧ fromCycle ≤ op.cycleBegin) :
    updateReversed fromCycle toCycle adjustCycles (later ++ ops) =
      later.map (CycleInfo.adjusted adjustCycles) ++ updateReversed fromCycle toCycle adjustCycles ops := by
  induction later with
  | nil => rfl
  | cons op later ih =>
    obtain ⟨hop, h⟩ := forall_mem_cons.mp h
    rw [cons_append, updateReversed, if_neg (Nat.not_lt.mpr hop.1), if_neg (Nat.not_lt.mpr hop.2), ih h]
    rfl

theorem updateReversed_self (h : ∀ op ∈ ops, toCycle < op.getCycleEnd ∨ op.cycleBegin < fromCycle) :
    updateReversed fromCycle toCycle adjustCycles ops = ops := by
  induction ops with
  | nil => rfl
  | cons op ops ih =>
    obtain ⟨hop, h⟩ := forall_mem_cons.mp h
    rw [updateReversed, ih h]
    split_ifs with hend hbegin
    · rfl
    · rfl
    · exact absurd hop (not_or.mpr ⟨hend, hbegin⟩)

theorem updateReversed_cases (fromCycle toCycle adjustCycles : ℕ) (h : ops[i]? = some y) :
    (updateReversed fromCycle toCycle adjustCycles ops)[i]? = some y ∨
      (fromCycle ≤ y.cycleBegin ∧ y.getCycleEnd ≤ toCycle ∧
        (updateReversed fromCycle toCycle adjustCycles ops)[i]? = some (y.adjusted adjustCycles)) := by
  induction ops generalizing i with
  | nil => cases h
  | cons op ops ih =>
    unfold updateReversed
    split_ifs with hend hbegin
    · cases i with
      | zero => exact .inl h
      | succ i => exact ih h
    · exact .inl h
    · cases i with
      | zero =>
        cases h
        exact .inr ⟨Nat.le_of_not_lt hbegin, Nat.le_of_not_lt hend, rfl⟩
      | succ i => exact ih h

theorem updateReversed_keeps (h : ops[i]? = some y) (hout : toCycle < y.getCycleEnd ∨ y.cycleBegin < fromCycle) :
    (updateReversed fromCycle toCycle adjustCycles ops)[i]? = some y := by
  apply (updateReversed_cases _ _ _ h).resolve_right
  rintro ⟨hbegin, hend, -⟩
  omega

theorem updateReversed_again (fromCycle adjustCycles : ℕ) (rest : List CycleInfo) (h : ∃ op ∈ later, op.getCycleEnd ≤ toCycle) :
    updateReversed fromCycle toCycle adjustCycles (later ++ rest) = later ++ rest ∨
      ∃ i z, i < later.length ∧ later[i]? = some z ∧ fromCycle ≤ z.cycleBegin ∧
        (updateReversed fromCycle toCycle adjustCycles (later ++ rest))[i]? = some (z.adjusted adjustCycles) := by
  induction later with
  | nil =>
    obtain ⟨op, hop, -⟩ := h
    exact absurd hop not_mem_nil
  | cons op later ih =>
    simp only [cons_append, updateReversed]
    split_ifs with hend hbegin
    · have hlater : ∃ op ∈ later, op.getCycleEnd ≤ toCycle := by
        obtain ⟨op', hop', hle⟩ := h
        cases mem_cons.mp hop' with
        | inl heq => exact absurd hle (Nat.not_le.mpr (heq ▸ hend))
        | inr hmem => exact ⟨op', hmem, hle⟩
      cases ih hlater with
      | inl heq => exact .inl (congrArg _ heq)
      | inr hmoved =>
        obtain ⟨i, z, hi, hz, hfrom, hresult⟩ := hmoved
        exact .inr ⟨i + 1, z, Nat.succ_lt_succ hi, hz, hfrom, hresult⟩
    · exact .inl rfl
    · exact .inr ⟨0, op, Nat.zero_lt_succ _, rfl, Nat.le_of_not_lt hbegin, rfl⟩

def NoLater (ops' ops : List CycleInfo) : Prop :=
  List.Forall₂ (fun op' op => op'.cycleBegin ≤ op.cycleBegin ∧ op'.cycleCost = op.cycleCost) ops' ops

theorem noLater_refl (ops : List CycleInfo) : NoLater ops ops := forall₂_same.mpr (fun _ _ => ⟨Nat.le_refl _, rfl⟩)

theorem NoLater.trans {ops' ops'' : List CycleInfo} (h : NoLater ops' ops) (h' : NoLater ops'' ops') : NoLater ops'' ops := by
  induction h generalizing ops'' with
  | nil => exact h'
  | cons hop _ ih =>
    cases h' with
    | cons hop' h' => exact .cons ⟨Nat.le_trans hop'.1 hop.1, hop'.2.trans hop.2⟩ (ih h')

theorem NoLater.fits {ops' : List CycleInfo} (h : NoLater ops' ops) (hfits : ∀ op ∈ ops, op.Fits) : ∀ op ∈ ops', op.Fits := by
  induction h with
  | nil => exact fun _ hop => absurd hop not_mem_nil
  | @cons op' op _ _ hop _ ih =>
    obtain ⟨hfit, hfits⟩ := forall_mem_cons.mp hfits
    apply forall_mem_cons.mpr ⟨_, ih hfits⟩
    have hlt : op.cycleBegin + op.cycleCost < 2 ^ 64 := hfit
    change op'.cycleBegin + op'.cycleCost < 2 ^ 64
    omega

theorem NoLater.getElem? {ops' : List CycleInfo} (h : NoLater ops' ops) (hop : ops[i]? = some op) :
    ∃ op', ops'[i]? = some op' ∧ op'.cycleBegin ≤ op.cycleBegin := by
  induction h generalizing i with
  | nil => cases hop
  | @cons op' _ _ _ hle _ ih =>
    cases i with
    | zero =>
      cases hop
      exact ⟨op', rfl, hle.1⟩
    | succ i => exact ih hop

theorem updateReversed_noLater (toCycle : ℕ) (hfits : ∀ op ∈ ops, op.Fits) (hle : adjustCycles ≤ fromCycle) :
    NoLater (updateReversed fromCycle toCycle adjustCycles ops) ops := by
  induction ops with
  | nil => exact .nil
  | cons op ops ih =>
    obtain ⟨hfit, hfits⟩ := forall_mem_cons.mp hfits
    unfold updateReversed
    split_ifs with hend hbegin
    · exact .cons ⟨Nat.le_refl _, rfl⟩ (ih hfits)
    · exact noLater_refl _
    · have hbegin : (op.adjusted adjustCycles).cycleBegin ≤ op.cycleBegin := by
        rw [hfit.adjusted_eq (by omega)]
        exact Nat.sub_le _ _
      exact .cons ⟨hbegin, rfl⟩ (ih hfits)

end

def removeBack (ops : List CycleInfo) (cyclesFreed rangeEnd : ℕ) (stalls : List CycleInfo) : List CycleInfo :=
  (removeStalls ops.reverse cyclesFreed rangeEnd stalls).reverse

structure StallsBack (stalls : List CycleInfo) : Prop where
  fits : ∀ stall ∈ stalls, 0 < stall.cycleCost ∧ stall.getCycleEnd = stall.cycleBegin + stall.cycleCost ∧
    stall.getCycleEnd < 2 ^ 64
  ordered : stalls.Pairwise (fun later stall => stall.getCycleEnd ≤ later.cycleBegin)

section
variable {op y stall : CycleInfo} {ops stalls others : List CycleInfo} {cyclesFreed rangeEnd i : ℕ}

theorem StallsBack.tail (h : StallsBack (stall :: stalls)) : StallsBack stalls :=
  ⟨fun stall hstall => h.fits stall (mem_cons_of_mem _ hstall), (pairwise_cons.mp h.ordered).2⟩

theorem StallsBack.left (h : StallsBack (stalls ++ others)) : StallsBack stalls :=
  ⟨fun stall hstall => h.fits stall (mem_append_left _ hstall), (pairwise_append.mp h.ordered).1⟩

theorem StallsBack.le (h : StallsBack (stall :: stalls)) : stallCycles (stall :: stalls) ≤ stall.getCycleEnd := by
  induction stalls generalizing stall with
  | nil =>
    have hend := (h.fits stall mem_cons_self).2.1
    rw [stallCycles_cons, stallCycles_nil]
    omega
  | cons before stalls ih =>
    have hend := (h.fits stall mem_cons_self).2.1
    have hrest := ih h.tail
    have hbefore := (pairwise_cons.mp h.ordered).1 before mem_cons_self
    rw [stallCycles_cons]
    omega

theorem gapsOf_stallsBack (h : OrderedBack ops) : StallsBack (gapsOf ops) := by
  induction ops with
  | nil => exact ⟨fun _ hstall => absurd hstall not_mem_nil, .nil⟩
  | cons op earlier ih =>
    have hfits := h.fits op mem_cons_self
    have hlt : op.cycleBegin + op.cycleCost < 2 ^ 64 := hfits
    have hrest := ih h.tail
    rw [gapsOf_cons]
    split_ifs with hgap
    · have hend := @gapBefore_end op earlier hfits h.endOf_le
      have hcost := @gapBefore_cost op earlier hfits
      have hbegin : (gapBefore op earlier).cycleBegin = endOf earlier := rfl
      constructor
      · exact forall_mem_cons.mpr ⟨⟨by omega, by omega, by omega⟩, hrest.fits⟩
      · apply pairwise_cons.mpr ⟨_, hrest.ordered⟩
        intro stall hstall
        obtain ⟨-, -, before, hbefore, hbeforeBegin⟩ := exists_op_of_mem_gapsOf h.tail hstall
        have hle := h.tail.le_endOf hbefore
        omega
    · exact hrest

theorem mem_gapsOf_disjoint (h : OrderedBack ops) (hop : op ∈ ops) (hstall : stall ∈ gapsOf ops) :
    op.cycleBegin + op.cycleCost ≤ stall.cycleBegin ∨ stall.getCycleEnd ≤ op.cycleBegin := by
  induction ops with
  | nil => exact absurd hop not_mem_nil
  | cons last earlier ih =>
    cases mem_cons.mp hop with
    | inl heq =>
      subst heq
      exact .inr (mem_gapsOf_end_le h hstall)
    | inr hop =>
      rw [gapsOf_cons] at hstall
      split_ifs at hstall with hgap
      · cases mem_cons.mp hstall with
        | inl heq =>
          rw [heq]
          exact .inl (h.tail.le_endOf hop)
        | inr hstall => exact ih h.tail hop hstall
      · exact ih h.tail hop hstall

theorem removeBack_nil : removeBack ops cyclesFreed rangeEnd [] = ops := by
  unfold removeBack
  rw [removeStalls, reverse_reverse]

theorem removeBack_cons : removeBack ops cyclesFreed rangeEnd (stall :: stalls) =
    removeBack (updateReversed stall.getCycleEnd rangeEnd cyclesFreed ops) (addrSub cyclesFreed stall.cycleCost)
      stall.cycleBegin
      (if stall.cycleCost ≤ addrSub cyclesFreed stall.cycleCost then stalls else stall :: stalls) := by
  unfold removeBack
  rw [removeStalls]
  unfold updatePrefetchPipeline
  rw [reverse_reverse]
  split_ifs
  · rfl
  · rfl

theorem updateReversed_range {fromCycle toCycle : ℕ} (hfits : ∀ op ∈ ops, op.Fits) (hlt : toCycle < fromCycle) :
    updateReversed fromCycle toCycle cyclesFreed ops = ops := by
  apply updateReversed_self
  intro op hop
  by_cases hend : toCycle < op.getCycleEnd
  · exact .inl hend
  · rw [(hfits op hop).getCycleEnd_eq] at hend
    exact .inr (by omega)

theorem removeBack_settles (hfits : ∀ op ∈ ops, op.Fits) (h : StallsBack (stall :: stalls))
    (hfreed : cyclesFreed < stall.cycleCost) : ∃ wrapped, stall.cycleBegin < wrapped ∧ wrapped < 2 ^ 64 ∧
      removeBack ops cyclesFreed stall.cycleBegin (stall :: stalls) = removeBack ops wrapped stall.cycleBegin stalls := by
  obtain ⟨hcost, hend, hlt⟩ := h.fits stall mem_cons_self
  induction hn : attempts cyclesFreed (stall :: stalls) using Nat.strong_induction_on generalizing cyclesFreed with
  | _ n ih =>
    have hwrap : addrSub cyclesFreed stall.cycleCost = 2 ^ 64 + cyclesFreed - stall.cycleCost :=
      Nat.mod_eq_of_lt (by omega)
    rw [removeBack_cons, updateReversed_range hfits (by omega)]
    by_cases hleft : stall.cycleCost ≤ addrSub cyclesFreed stall.cycleCost
    · rw [if_pos hleft]
      exact ⟨_, by omega, by omega, rfl⟩
    · rw [if_neg hleft]
      have hattempts := @attempts_lt stall stalls cyclesFreed hleft
      exact ih _ (hn ▸ hattempts) (Nat.lt_of_not_le hleft) rfl

def Covered : List CycleInfo → Prop
  | [] => True
  | stall :: stalls => (stalls ≠ [] → stall.cycleCost ≤ stallCycles stalls) ∧ Covered stalls

theorem removeBack_step (hfits : ∀ op ∈ ops, op.Fits) (h : StallsBack (stall :: stalls))
    (hcovered : stalls ≠ [] → stall.cycleCost ≤ stallCycles stalls) :
    removeBack ops (stallCycles (stall :: stalls)) rangeEnd (stall :: stalls) =
      removeBack (updateReversed stall.getCycleEnd rangeEnd (stallCycles (stall :: stalls)) ops) (stallCycles stalls)
        stall.cycleBegin stalls := by
  have hle := h.le
  have hcost := (h.fits stall mem_cons_self).1
  have hlt := (h.fits stall mem_cons_self).2.2
  have hleft : addrSub (stallCycles (stall :: stalls)) stall.cycleCost = stallCycles stalls := by
    rw [addrSub_eq (by omega) (by rw [stallCycles_cons]; omega), stallCycles_cons]
    omega
  rw [removeBack_cons, hleft]
  by_cases hlast : stalls = []
  · subst hlast
    rw [if_neg (by rw [stallCycles_nil]; omega), removeBack_nil]
    have hkept := updateReversed_noLater rangeEnd hfits hle
    obtain ⟨wrapped, -, -, heq⟩ := removeBack_settles (hkept.fits hfits) h hcost
    rw [stallCycles_nil, heq, removeBack_nil]
  · rw [if_pos (hcovered hlast)]

theorem removeBack_noLater (rangeEnd : ℕ) (hfits : ∀ op ∈ ops, op.Fits) (h : StallsBack stalls) (hcovered : Covered stalls) :
    NoLater (removeBack ops (stallCycles stalls) rangeEnd stalls) ops := by
  induction stalls generalizing ops rangeEnd with
  | nil =>
    rw [removeBack_nil]
    exact noLater_refl ops
  | cons stall stalls ih =>
    have hupdate := updateReversed_noLater rangeEnd hfits h.le
    rw [removeBack_step hfits h hcovered.1]
    exact hupdate.trans (ih stall.cycleBegin (hupdate.fits hfits) h.tail hcovered.2)

theorem removeBack_keeps (h : ops[i]? = some y) (hrange : rangeEnd < y.getCycleEnd)
    (hstalls : ∀ stall ∈ stalls, stall.cycleBegin < y.getCycleEnd) :
    (removeBack ops cyclesFreed rangeEnd stalls)[i]? = some y := by
  unfold removeBack
  rw [← reverse_reverse ops] at h
  generalize ops.reverse = pipeline at h
  induction pipeline, cyclesFreed, rangeEnd, stalls using removeStalls.induct with
  | case1 pipeline cyclesFreed rangeEnd =>
    rw [removeStalls]
    exact h
  | case2 pipeline cyclesFreed rangeEnd stall stalls hle ih =>
    obtain ⟨hstall, hstalls⟩ := forall_mem_cons.mp hstalls
    rw [removeStalls, if_pos hle]
    apply ih hstall hstalls
    unfold updatePrefetchPipeline
    rw [reverse_reverse]
    exact updateReversed_keeps h (.inl hrange)
  | case3 pipeline cyclesFreed rangeEnd stall stalls hle ih =>
    rw [removeStalls, if_neg hle]
    apply ih (hstalls stall mem_cons_self) hstalls
    unfold updatePrefetchPipeline
    rw [reverse_reverse]
    exact updateReversed_keeps h (.inl hrange)

theorem removeBack_misses (rangeEnd : ℕ) (hfits : ∀ op ∈ ops, op.Fits) (h : StallsBack stalls) (hcovered : ¬ Covered stalls) :
    ∃ stall ∈ stalls, ∀ (i : ℕ) (y : CycleInfo), ops[i]? = some y → y.cycleBegin = stall.getCycleEnd →
      (∀ other ∈ stalls, y.cycleBegin + y.cycleCost ≤ other.cycleBegin ∨ other.getCycleEnd ≤ y.cycleBegin) →
      ∃ y' : CycleInfo, (removeBack ops (stallCycles stalls) rangeEnd stalls)[i]? = some y' ∧ y.cycleBegin ≤ y'.cycleBegin := by
  induction stalls generalizing ops rangeEnd with
  | nil => exact absurd trivial hcovered
  | cons stall stalls ih =>
    obtain ⟨hcost, hend, hlt⟩ := h.fits stall mem_cons_self
    have hle := h.le
    have hbefore := (pairwise_cons.mp h.ordered).1
    have hupdate := updateReversed_noLater rangeEnd hfits hle
    -- the operations before this stall are not yet adjusted
    have hkept : ∀ before ∈ stalls, ∀ (i : ℕ) (y : CycleInfo), ops[i]? = some y → y.cycleBegin = before.getCycleEnd →
        (updateReversed stall.getCycleEnd rangeEnd (stallCycles (stall :: stalls)) ops)[i]? = some y := by
      intro before hmem i y hy hbegin
      have hle := hbefore before hmem
      exact updateReversed_keeps hy (.inr (by omega))
    by_cases hnext : stalls ≠ [] → stall.cycleCost ≤ stallCycles stalls
    · obtain ⟨before, hmem, hmisses⟩ := ih stall.cycleBegin (hupdate.fits hfits) h.tail (fun hrest => hcovered ⟨hnext, hrest⟩)
      refine ⟨before, mem_cons_of_mem _ hmem, ?_⟩
      intro i y hy hbegin hdisjoint
      rw [removeBack_step hfits h hnext]
      exact hmisses i y (hkept before hmem i y hy hbegin) hbegin
        (fun other hother => hdisjoint other (mem_cons_of_mem _ hother))
    · obtain ⟨hsome, hlonger⟩ := Classical.not_imp.mp hnext
      have hleft : addrSub (stallCycles (stall :: stalls)) stall.cycleCost = stallCycles stalls := by
        rw [addrSub_eq (by omega) (by rw [stallCycles_cons]; omega), stallCycles_cons]
        omega
      obtain ⟨wrapped, hwrapped, hwrappedLt, heq⟩ := removeBack_settles (hupdate.fits hfits) h (Nat.lt_of_not_le hlonger)
      cases stalls with
      | nil => exact absurd rfl hsome
      | cons before stalls =>
        refine ⟨before, mem_cons_of_mem _ mem_cons_self, ?_⟩
        intro i y hy hbegin hdisjoint
        have hbeforeEnd := hbefore before mem_cons_self
        have hbeforeFits := h.tail.fits before mem_cons_self
        have hy' := hkept before mem_cons_self i y hy hbegin
        have hfit : y.cycleBegin + y.cycleCost < 2 ^ 64 := hfits y (mem_of_getElem? hy)
        have hyEnd : y.cycleBegin + y.cycleCost ≤ stall.cycleBegin := by
          apply (hdisjoint stall mem_cons_self).resolve_right
          omega
        have hstays : ∀ y' : CycleInfo, y.cycleBegin ≤ y'.cycleBegin → y'.cycleBegin + y'.cycleCost < 2 ^ 64 →
            ∀ rest : List CycleInfo, rest ⊆ before :: stalls → ∀ other ∈ rest, other.cycleBegin < y'.getCycleEnd := by
          intro y' hle hfit' rest hrest other hother
          rw [CycleInfo.Fits.getCycleEnd_eq hfit']
          have hotherBegin : other.cycleBegin ≤ before.cycleBegin := by
            cases mem_cons.mp (hrest hother) with
            | inl heq => rw [heq]
            | inr hmem =>
              have hotherEnd := (pairwise_cons.mp h.tail.ordered).1 other hmem
              have hotherFits := h.tail.fits other (mem_cons_of_mem _ hmem)
              omega
          omega
        rw [removeBack_cons, hleft, if_neg hlonger, heq, removeBack_cons]
        have hrest : (if before.cycleCost ≤ addrSub wrapped before.cycleCost then stalls else before :: stalls) ⊆
            before :: stalls := by
          split_ifs
          · exact subset_cons_self _ _
          · exact List.Subset.refl _
        cases updateReversed_cases before.getCycleEnd stall.cycleBegin wrapped hy' with
        | inl hstay =>
          have hbehind := hstays y (Nat.le_refl _) hfit
          exact ⟨y, removeBack_keeps hstay (hbehind [before] (by simp) before (by simp)) (hbehind _ hrest), Nat.le_refl _⟩
        | inr hmoved =>
          obtain ⟨-, -, hmoved⟩ := hmoved
          have hbeginMoved : (y.adjusted wrapped).cycleBegin = 2 ^ 64 + y.cycleBegin - wrapped := Nat.mod_eq_of_lt (by omega)
          have hcostMoved : (y.adjusted wrapped).cycleCost = y.cycleCost := rfl
          have hbehind := hstays (y.adjusted wrapped) (by omega) (by omega)
          exact ⟨_, removeBack_keeps hmoved (hbehind [before] (by simp) before (by simp)) (hbehind _ hrest), by omega⟩

end

/-- Each stall but the last one to be treated is covered by those treated after it, and the operations right behind it
are longer than these together. -/
def Exhausted (ops : List CycleInfo) : List CycleInfo → Prop
  | [] => True
  | stall :: stalls =>
    (stalls ≠ [] → stall.cycleCost ≤ stallCycles stalls ∧
      ∀ op ∈ ops, op.cycleBegin = stall.getCycleEnd → stallCycles stalls < op.cycleCost) ∧ Exhausted ops stalls

section
variable {op stall : CycleInfo} {ops block earlier rest done stalls others : List CycleInfo} {rangeEnd i : ℕ}

theorem Exhausted.covered (h : Exhausted ops stalls) : Covered stalls := by
  induction stalls with
  | nil => exact trivial
  | cons stall stalls ih => exact ⟨fun hne => (h.1 hne).1, ih h.2⟩

theorem exhausted_congr {ops' : List CycleInfo} (h : ∀ stall ∈ stalls, ∀ op : CycleInfo, op.cycleBegin = stall.getCycleEnd →
    (op ∈ ops ↔ op ∈ ops')) : Exhausted ops stalls ↔ Exhausted ops' stalls := by
  induction stalls with
  | nil => exact Iff.rfl
  | cons stall stalls ih =>
    obtain ⟨hstall, h⟩ := forall_mem_cons.mp h
    unfold Exhausted
    rw [ih h]
    apply and_congr_left'
    apply imp_congr_right
    intro _
    apply and_congr_right'
    apply forall_congr'
    intro op
    constructor
    · exact fun hall hop hbegin => hall ((hstall op hbegin).mpr hop) hbegin
    · exact fun hall hop hbegin => hall ((hstall op hbegin).mp hop) hbegin

theorem moveBack_lt (h : OrderedBack ops) (hgaps : gapsOf ops = stalls ++ others) (hstall : stall ∈ stalls)
    (hop : ops[i]? = some op) (hbehind : stall.getCycleEnd ≤ op.cycleBegin) :
    ∃ op', (moveBack (stallCycles stalls) ops)[i]? = some op' ∧ op'.cycleBegin < op.cycleBegin := by
  induction ops generalizing stalls i with
  | nil => cases hop
  | cons last earlier ih =>
    have hfits := h.fits last mem_cons_self
    have hpositive : ∀ stall ∈ gapsOf (last :: earlier), 0 < stall.cycleCost ∧ 0 < stall.getCycleEnd := by
      intro stall hstall
      obtain ⟨hcost, hend, -⟩ := exists_op_of_mem_gapsOf h hstall
      exact ⟨hcost, by omega⟩
    have hin : stall ∈ gapsOf (last :: earlier) := by
      rw [hgaps]
      exact mem_append_left _ hstall
    cases i with
    | zero =>
      cases hop
      have hsome : 0 < stallCycles stalls := by
        obtain ⟨before, after, rfl⟩ := append_of_mem hstall
        rw [stallCycles_append, stallCycles_cons]
        have hcost := (hpositive stall hin).1
        omega
      have htotal : stallCycles (gapsOf (op :: earlier)) = stallCycles stalls + stallCycles others := by
        rw [hgaps, stallCycles_append]
      have hend := (hpositive stall hin).2
      refine ⟨_, rfl, ?_⟩
      change op.cycleBegin - _ < op.cycleBegin
      omega
    | succ i =>
      have hmem : op ∈ earlier := mem_of_getElem? hop
      have hle := h.tail.le_endOf hmem
      rw [moveBack, getElem?_cons_succ]
      rw [gapsOf_cons] at hgaps
      split_ifs at hgaps with hgap
      · cases stalls with
        | nil => exact absurd hstall not_mem_nil
        | cons first stalls =>
          obtain ⟨rfl, hrest⟩ := List.cons.inj hgaps
          rw [stallCycles_cons, gapBefore_cost hfits, Nat.add_sub_cancel_left]
          apply ih h.tail hrest _ hop
          apply (mem_cons.mp hstall).resolve_left
          rintro rfl
          rw [gapBefore_end hfits h.endOf_le] at hbehind
          omega
      · rw [Nat.sub_eq_zero_of_le (Nat.le_of_not_lt hgap), Nat.sub_zero]
        exact ih h.tail hgaps hstall hop

theorem removeBack_ne (hdone : ∀ op ∈ done, op.Fits) (hrest : OrderedBack rest) (hgaps : gapsOf rest = stalls ++ others)
    (hcovered : ¬ Covered stalls) :
    removeBack (done ++ rest) (stallCycles stalls) rangeEnd stalls ≠ done ++ moveBack (stallCycles stalls) rest := by
  have hfits : ∀ op ∈ done ++ rest, op.Fits := fun op hop => (mem_append.mp hop).elim (hdone op) (hrest.fits op)
  have hin : ∀ stall ∈ stalls, stall ∈ gapsOf rest := by
    intro stall hstall
    rw [hgaps]
    exact mem_append_left _ hstall
  have hback : StallsBack stalls := by
    have hall := gapsOf_stallsBack hrest
    rw [hgaps] at hall
    exact hall.left
  obtain ⟨stall, hstall, hmisses⟩ := removeBack_misses rangeEnd hfits hback hcovered
  obtain ⟨-, -, y, hy, hbegin⟩ := exists_op_of_mem_gapsOf hrest (hin stall hstall)
  obtain ⟨i, hi⟩ := mem_iff_getElem?.mp hy
  have hindex : (done ++ rest)[done.length + i]? = some y := by
    rw [getElem?_append_right (Nat.le_add_right _ _), Nat.add_sub_cancel_left]
    exact hi
  obtain ⟨y', hy', hle⟩ := hmisses _ y hindex hbegin (fun other hother => mem_gapsOf_disjoint hrest hy (hin other hother))
  obtain ⟨y'', hy'', hlt⟩ := moveBack_lt hrest hgaps hstall hi (Nat.le_of_eq hbegin.symm)
  intro heq
  rw [heq, getElem?_append_right (Nat.le_add_right _ _), Nat.add_sub_cancel_left, hy''] at hy'
  cases hy'
  omega

theorem OrderedBack.lt_of_lt (h : OrderedBack ops) {op op' : CycleInfo} (hop : op ∈ ops) (hop' : op' ∈ ops)
    (hlt : op.cycleBegin < op'.cycleBegin) : op.cycleBegin + op.cycleCost ≤ op'.cycleBegin := by
  induction ops with
  | nil => exact absurd hop not_mem_nil
  | cons last earlier ih =>
    have hlast := (pairwise_cons.mp h.ordered).1
    cases mem_cons.mp hop with
    | inl heq =>
      cases mem_cons.mp hop' with
      | inl heq' =>
        rw [heq, heq'] at hlt
        exact absurd hlt (Nat.lt_irrefl _)
      | inr hop' =>
        have hle := hlast op' hop'
        rw [heq] at hlt
        omega
    | inr hop =>
      cases mem_cons.mp hop' with
      | inl heq' =>
        rw [heq']
        exact hlast op hop
      | inr hop' => exact ih h.tail hop hop'

theorem removeBack_ne_of_short (hdone : ∀ op ∈ done, op.Fits) (hrest : OrderedBack rest)
    (hgaps : gapsOf rest = stalls ++ others) (hne : stalls ≠ []) (hcovered : Covered stalls)
    (hshort : ∃ op ∈ done, op.getCycleEnd ≤ rangeEnd) :
    removeBack (done ++ rest) (stallCycles stalls) rangeEnd stalls ≠ done ++ moveBack (stallCycles stalls) rest := by
  have hfits : ∀ op ∈ done ++ rest, op.Fits := fun op hop => (mem_append.mp hop).elim (hdone op) (hrest.fits op)
  cases stalls with
  | nil => exact absurd rfl hne
  | cons stall stalls =>
    have hin : stall ∈ gapsOf rest := by
      rw [hgaps]
      exact mem_cons_self
    have hback : StallsBack (stall :: stalls) := by
      have hall := gapsOf_stallsBack hrest
      rw [hgaps] at hall
      exact hall.left
    obtain ⟨hcost, hend, hlt⟩ := hback.fits stall mem_cons_self
    have hle := hback.le
    have hupdate := updateReversed_noLater rangeEnd hfits hle
    rw [removeBack_step hfits hback hcovered.1]
    intro heq
    rcases updateReversed_again stall.getCycleEnd (stallCycles (stall :: stalls)) rest hshort with hsame | ⟨i, z, hi, hz, hfrom, hmoved⟩
    · obtain ⟨-, -, y, hy, hbegin⟩ := exists_op_of_mem_gapsOf hrest hin
      obtain ⟨i, hi⟩ := mem_iff_getElem?.mp hy
      have hyEnd : stall.cycleBegin < y.getCycleEnd := by
        rw [(hrest.fits y hy).getCycleEnd_eq]
        omega
      have hindex : (done ++ rest)[done.length + i]? = some y := by
        rw [getElem?_append_right (Nat.le_add_right _ _), Nat.add_sub_cancel_left]
        exact hi
      have hstays : (removeBack (done ++ rest) (stallCycles stalls) stall.cycleBegin stalls)[done.length + i]? = some y := by
        apply removeBack_keeps hindex hyEnd
        intro other hother
        have hbefore := (pairwise_cons.mp hback.ordered).1 other hother
        have hotherFits := hback.fits other (mem_cons_of_mem _ hother)
        omega
      obtain ⟨y', hy', hlt'⟩ := moveBack_lt hrest hgaps mem_cons_self hi (Nat.le_of_eq hbegin.symm)
      rw [hsame] at heq
      rw [heq, getElem?_append_right (Nat.le_add_right _ _), Nat.add_sub_cancel_left, hy'] at hstays
      cases hstays
      exact Nat.lt_irrefl _ hlt'
    · obtain ⟨z', hz', hle'⟩ := (removeBack_noLater stall.cycleBegin (hupdate.fits hfits) hback.tail
        hcovered.2).getElem? hmoved
      have hzFits : z.Fits := hdone z (mem_of_getElem? hz)
      rw [hzFits.adjusted_eq (Nat.le_trans hle hfrom)] at hle'
      rw [heq, getElem?_append_left hi, hz] at hz'
      cases hz'
      have hcycles : 0 < stallCycles (stall :: stalls) := by
        rw [stallCycles_cons]
        omega
      change z.cycleBegin ≤ z.cycleBegin - _ at hle'
      omega

theorem removeBack_block (hdone : ∀ op ∈ done, op.Fits ∧ rangeEnd < op.getCycleEnd) (hrest : OrderedBack rest)
    (hrange : ∀ op ∈ rest, op.getCycleEnd ≤ rangeEnd) (hgaps : gapsOf rest = stall :: stalls ++ others)
    (hblock : Block rest block earlier stall (stalls ++ others))
    (hcovered : stalls ≠ [] → stall.cycleCost ≤ stallCycles stalls) :
    removeBack (done ++ rest) (stallCycles (stall :: stalls)) rangeEnd (stall :: stalls) =
      removeBack (done ++ block.map (CycleInfo.moved (stallCycles (stall :: stalls))) ++ earlier) (stallCycles stalls)
        stall.cycleBegin stalls := by
  have hfits : ∀ op ∈ done ++ rest, op.Fits := fun op hop =>
    (mem_append.mp hop).elim (fun hop => (hdone op hop).1) (hrest.fits op)
  have hback : StallsBack (stall :: stalls) := by
    have hall := gapsOf_stallsBack hrest
    rw [hgaps] at hall
    exact hall.left
  have hle := hback.le
  have hend := (hback.fits stall mem_cons_self).2.1
  have hmoved : block.map (CycleInfo.adjusted (stallCycles (stall :: stalls))) =
      block.map (CycleInfo.moved (stallCycles (stall :: stalls))) := by
    apply map_congr_left
    intro op hop
    have hmem : op ∈ rest := by
      rw [hblock.append]
      exact mem_append_left _ hop
    exact (hrest.fits op hmem).adjusted_eq (Nat.le_trans hle (hblock.inside op hop))
  have hearlier : OrderedBack earlier := by
    have hordered := hrest.ordered
    rw [hblock.append] at hordered
    refine ⟨fun op hop => hrest.fits op ?_, (pairwise_append.mp hordered).2.1⟩
    rw [hblock.append]
    exact mem_append_right _ hop
  rw [removeBack_step hfits hback hcovered, updateReversed_skip (fun op hop => (hdone op hop).2)]
  conv_lhs => rw [hblock.append]
  rw [updateReversed_adjust, hmoved, updateReversed_self, append_assoc]
  · intro op hop
    right
    have hbefore := hearlier.le_endOf hop
    have hbegins := hblock.begins
    have hcost := (hback.fits stall mem_cons_self).1
    omega
  · intro op hop
    refine ⟨hrange op ?_, hblock.inside op hop⟩
    rw [hblock.append]
    exact mem_append_left _ hop

theorem removeBack_eq_iff (hdone : ∀ op ∈ done, op.Fits ∧ rangeEnd < op.getCycleEnd) (hrest : OrderedBack rest)
    (hrange : ∀ op ∈ rest, op.getCycleEnd ≤ rangeEnd) (hgaps : gapsOf rest = stalls ++ others) :
    removeBack (done ++ rest) (stallCycles stalls) rangeEnd stalls = done ++ moveBack (stallCycles stalls) rest ↔
      Exhausted rest stalls := by
  induction stalls generalizing done rest rangeEnd with
  | nil =>
    rw [removeBack_nil, stallCycles_nil, moveBack_zero]
    exact ⟨fun _ => trivial, fun _ => rfl⟩
  | cons stall stalls ih =>
    by_cases hcovered : stalls ≠ [] → stall.cycleCost ≤ stallCycles stalls
    · obtain ⟨block, earlier, hblock⟩ := exists_block hrest hgaps
      have happend := hblock.append
      have hinRest : ∀ op ∈ block, op ∈ rest := fun op hop => by
        rw [happend]
        exact mem_append_left _ hop
      have hinEarlier : ∀ op ∈ earlier, op ∈ rest := fun op hop => by
        rw [happend]
        exact mem_append_right _ hop
      have hearlier : OrderedBack earlier := by
        have hordered := hrest.ordered
        rw [happend] at hordered
        exact ⟨fun op hop => hrest.fits op (hinEarlier op hop), (pairwise_append.mp hordered).2.1⟩
      have hstallIn : stall ∈ gapsOf rest := by
        rw [hgaps]
        exact mem_cons_self
      obtain ⟨hcost, hend, -⟩ := exists_op_of_mem_gapsOf hrest hstallIn
      have hbegins := hblock.begins
      have hbefore : ∀ op ∈ earlier, op.getCycleEnd ≤ stall.cycleBegin := by
        intro op hop
        rw [(hearlier.fits op hop).getCycleEnd_eq, hbegins]
        exact hearlier.le_endOf hop
      have htotal : stallCycles (gapsOf rest) = stallCycles (stall :: stalls) + stallCycles others := by
        rw [hgaps, stallCycles_append]
      have hmoves := hblock.moves (stallCycles (stall :: stalls)) (by rw [stallCycles_cons]; omega) (by omega)
      rw [stallCycles_cons, Nat.add_sub_cancel_left, ← stallCycles_cons] at hmoves
      rw [removeBack_block hdone hrest hrange hgaps hblock hcovered, hmoves, ← append_assoc]
      have hmovedFits : ∀ op ∈ done ++ block.map (CycleInfo.moved (stallCycles (stall :: stalls))), op.Fits := by
        intro op hop
        cases mem_append.mp hop with
        | inl hop => exact (hdone op hop).1
        | inr hop =>
          obtain ⟨source, hsource, rfl⟩ := mem_map.mp hop
          have hfits : source.cycleBegin + source.cycleCost < 2 ^ 64 := hrest.fits source (hinRest source hsource)
          change source.cycleBegin - _ + source.cycleCost < 2 ^ 64
          omega
      -- the operations that begin at the end of an earlier stall are before the block
      have hexhausted : Exhausted earlier stalls ↔ Exhausted rest stalls := by
        apply exhausted_congr
        intro other hother op hbegin
        refine ⟨hinEarlier op, fun hop => ?_⟩
        rw [happend] at hop
        apply (mem_append.mp hop).resolve_left
        intro hop
        have hinside := hblock.inside op hop
        have hall := gapsOf_stallsBack hrest
        rw [hgaps] at hall
        have hle := (pairwise_cons.mp hall.left.ordered).1 other hother
        omega
      obtain ⟨first, hfirst, hfirstBegin⟩ := hblock.first
      by_cases hlong : stalls ≠ [] → ∀ op ∈ rest, op.cycleBegin = stall.getCycleEnd → stallCycles stalls < op.cycleCost
      · by_cases hlast : stalls = []
        · subst hlast
          rw [removeBack_nil, stallCycles_nil, moveBack_zero]
          exact ⟨fun _ => ⟨fun hne => absurd rfl hne, trivial⟩, fun _ => rfl⟩
        · have hlong := hlong hlast
          have hdone' : ∀ op ∈ done ++ block.map (CycleInfo.moved (stallCycles (stall :: stalls))),
              op.Fits ∧ stall.cycleBegin < op.getCycleEnd := by
            intro op hop
            refine ⟨hmovedFits op hop, ?_⟩
            cases mem_append.mp hop with
            | inl hop =>
              have hfirstEnd := hrange first (hinRest first hfirst)
              rw [(hrest.fits first (hinRest first hfirst)).getCycleEnd_eq] at hfirstEnd
              have hdoneEnd := (hdone op hop).2
              omega
            | inr hop =>
              rw [(hmovedFits op (mem_append_right _ hop)).getCycleEnd_eq]
              obtain ⟨source, hsource, rfl⟩ := mem_map.mp hop
              have hinside := hblock.inside source hsource
              have hfirstLong := hlong first (hinRest first hfirst) hfirstBegin
              change _ < source.cycleBegin - stallCycles (stall :: stalls) + source.cycleCost
              rw [stallCycles_cons]
              cases Nat.eq_or_lt_of_le hinside with
              | inl heq =>
                have hlongSource := hlong source (hinRest source hsource) heq.symm
                omega
              | inr hlt =>
                have hle := hrest.lt_of_lt (hinRest first hfirst) (hinRest source hsource) (by omega)
                omega
          rw [ih hdone' hearlier hbefore hblock.gaps, hexhausted]
          exact ⟨fun hrest => ⟨fun hne => ⟨hcovered hne, hlong⟩, hrest⟩, fun h => h.2⟩
      · obtain ⟨hne, hshort⟩ := Classical.not_imp.mp hlong
        have hfalse : ¬ Exhausted rest (stall :: stalls) := fun h => hshort (h.1 hne).2
        refine ⟨fun heq => absurd heq ?_, fun h => absurd h hfalse⟩
        by_cases hall : Covered stalls
        · apply removeBack_ne_of_short hmovedFits hearlier hblock.gaps hne hall
          push Not at hshort
          obtain ⟨op, hop, hbegin, hcostLe⟩ := hshort
          have hin : op ∈ block := by
            rw [happend] at hop
            apply (mem_append.mp hop).resolve_right
            intro hop
            have hle := hearlier.le_endOf hop
            omega
          refine ⟨op.moved (stallCycles (stall :: stalls)), mem_append_right _ (mem_map_of_mem hin), ?_⟩
          rw [(hmovedFits _ (mem_append_right _ (mem_map_of_mem hin))).getCycleEnd_eq]
          change op.cycleBegin - stallCycles (stall :: stalls) + op.cycleCost ≤ _
          have hle : stallCycles (stall :: stalls) ≤ stall.getCycleEnd := by
            have hstalls := gapsOf_stallsBack hrest
            rw [hgaps] at hstalls
            exact hstalls.left.le
          rw [stallCycles_cons] at hle ⊢
          omega
        · exact removeBack_ne hmovedFits hearlier hblock.gaps hall
    · have hfalse : ¬ Covered (stall :: stalls) := fun h => hcovered h.1
      refine ⟨fun heq => absurd heq ?_, fun h => absurd h.covered hfalse⟩
      exact removeBack_ne (fun op hop => (hdone op hop).1) hrest hgaps hfalse

end

/-- The cycles of the target are taken out of the stalls from the last one on, as far as there are stalls. -/
structure Reduced (s : Pipelines) (target : ℕ) (s' : Pipelines) : Prop where
  moved : s'.prefetchPipeline =
    s.prefetchPipeline.map (fun op => op.moved (takenBefore target s.prefetchPipelineStalls.reverse op))
  noWrap : ∀ op ∈ s.prefetchPipeline, takenBefore target s.prefetchPipelineStalls.reverse op ≤ op.cycleBegin
  total : (takenOut target s.prefetchPipelineStalls.reverse).sum = min target (stallCycles s.prefetchPipelineStalls)
  packed : Packed s'

/-- Some of the last stalls have the cycles of the target, or all of them have no more, and they are exhausted. -/
def ExactTarget (s : Pipelines) (target : ℕ) : Prop :=
  ∃ removed others, s.prefetchPipelineStalls.reverse = removed ++ others ∧
    (stallCycles removed = target ∨ (others = [] ∧ stallCycles removed ≤ target)) ∧ Exhausted s.prefetchPipeline removed

section
variable {s : Pipelines} {stalls removed others : List CycleInfo} {target : ℕ}

theorem Packed.orderedBack (h : Packed s) : OrderedBack s.prefetchPipeline.reverse :=
  ⟨fun op hop => h.fits op (mem_reverse.mp hop), pairwise_reverse.mpr h.ordered⟩

theorem stallCycles_reverse : stallCycles stalls.reverse = stallCycles stalls := by
  induction stalls with
  | nil => rfl
  | cons stall stalls ih =>
    rw [reverse_cons, stallCycles_append, ih, stallCycles_cons, stallCycles_cons, stallCycles_nil]
    omega

theorem stallCycles_pos (h : ∀ stall ∈ stalls, 0 < stall.cycleCost) (hne : stalls ≠ []) : 0 < stallCycles stalls := by
  cases stalls with
  | nil => exact absurd rfl hne
  | cons stall stalls =>
    have hcost := h stall mem_cons_self
    rw [stallCycles_cons]
    omega

theorem stallsToRemove_spec {cyclesFreed : ℕ} (hlt : cyclesFreed + stallCycles stalls < 2 ^ 64) :
    (∃ others, stalls = (stallsToRemove target cyclesFreed stalls).1 ++ others ∧
      (others = [] ∨ target ≤ (stallsToRemove target cyclesFreed stalls).2)) ∧
    (stallsToRemove target cyclesFreed stalls).2 =
      cyclesFreed + stallCycles (stallsToRemove target cyclesFreed stalls).1 ∧
    ∀ before after, (stallsToRemove target cyclesFreed stalls).1 = before ++ after → after ≠ [] →
      cyclesFreed + stallCycles before < target := by
  induction stalls generalizing cyclesFreed with
  | nil =>
    refine ⟨⟨[], rfl, .inl rfl⟩, rfl, ?_⟩
    intro before after heq hne
    exact absurd (append_eq_nil_iff.mp heq.symm).2 hne
  | cons stall stalls ih =>
    rw [stallCycles_cons] at hlt
    unfold stallsToRemove
    split_ifs with hmore
    · have hadd : addrAdd cyclesFreed stall.cycleCost = cyclesFreed + stall.cycleCost := addrAdd_eq (by omega)
      obtain ⟨⟨others, happend, hothers⟩, hsum, hmin⟩ := @ih (addrAdd cyclesFreed stall.cycleCost) (by omega)
      dsimp only
      refine ⟨⟨others, congrArg (stall :: ·) happend, hothers⟩, ?_, ?_⟩
      · rw [hsum, hadd, stallCycles_cons]
        omega
      · intro before after heq hne
        cases before with
        | nil => exact hmore
        | cons first before =>
          obtain ⟨rfl, hrest⟩ := List.cons.inj heq
          have hlt := hmin before after hrest hne
          rw [stallCycles_cons]
          omega
    · refine ⟨⟨stall :: stalls, rfl, .inr (Nat.le_of_not_lt hmore)⟩, rfl, ?_⟩
      intro before after heq hne
      exact absurd (append_eq_nil_iff.mp heq.symm).2 hne

theorem eq_stallsToRemove (hlt : stallCycles stalls < 2 ^ 64) (hcost : ∀ stall ∈ stalls, 0 < stall.cycleCost)
    (hstalls : stalls = removed ++ others)
    (htarget : stallCycles removed = target ∨ (others = [] ∧ stallCycles removed ≤ target)) :
    removed = (stallsToRemove target 0 stalls).1 := by
  obtain ⟨⟨left, happend, hleft⟩, hsum, hmin⟩ := @stallsToRemove_spec stalls target 0 (by omega)
  rw [hstalls] at happend hcost
  rw [← hstalls] at happend
  rcases append_eq_append_iff.mp (hstalls.symm.trans happend) with ⟨more, hmore, hothers⟩ | ⟨more, hmore, hothers⟩
  · cases more with
    | nil => rw [hmore, append_nil]
    | cons first more =>
      have hfew := hmin removed (first :: more) hmore (cons_ne_nil _ _)
      rcases htarget with heq | ⟨hnil, -⟩
      · omega
      · rw [hnil] at hothers
        cases hothers
  · cases more with
    | nil => rw [hmore, append_nil]
    | cons first more =>
      have hpos : 0 < first.cycleCost := by
        apply hcost first
        rw [hmore]
        simp
      rw [hmore, stallCycles_append, stallCycles_cons] at htarget
      cases hleft with
      | inl hnil =>
        rw [hnil] at hothers
        cases hothers
      | inr hle => omega

/-- The reduction is exact if and only if the target is the sum of some of the last stalls, or no less than all of them, and
these stalls are exhausted one after the other. -/
theorem reducePrefetchPipelineStalls_reduced_iff (h : Packed s) :
    Reduced s target (reducePrefetchPipelineStalls s target) ↔ ExactTarget s target := by
  have hordered := h.orderedBack
  have hgaps := h.stalls
  have hback := gapsOf_stallsBack hordered
  have hcost : ∀ stall ∈ s.prefetchPipelineStalls.reverse, 0 < stall.cycleCost := by
    rw [hgaps]
    exact fun stall hstall => (hback.fits stall hstall).1
  have hlt : stallCycles s.prefetchPipelineStalls.reverse < 2 ^ 64 := by
    rw [hgaps]
    cases hstalls : gapsOf s.prefetchPipeline.reverse with
    | nil => exact Nat.two_pow_pos 64
    | cons stall stalls =>
      rw [hstalls] at hback
      exact Nat.lt_of_le_of_lt hback.le (hback.fits stall mem_cons_self).2.2
  have hunique := fun removed others => @eq_stallsToRemove s.prefetchPipelineStalls.reverse removed others target hlt hcost
  obtain ⟨⟨others, happend, hothers⟩, hsum, -⟩ := @stallsToRemove_spec s.prefetchPipelineStalls.reverse target 0 (by omega)
  have hresult : (reducePrefetchPipelineStalls s target).prefetchPipeline.reverse =
      removeBack s.prefetchPipeline.reverse (min (stallsToRemove target 0 s.prefetchPipelineStalls.reverse).2 target)
        (2 ^ 64 - 1) (stallsToRemove target 0 s.prefetchPipelineStalls.reverse).1 := by
    unfold removeBack
    rw [reverse_reverse]
    rfl
  have hleft : (reducePrefetchPipelineStalls s target).prefetchPipelineStalls = s.prefetchPipelineStalls.take
      (s.prefetchPipelineStalls.length - (stallsToRemove target 0 s.prefetchPipelineStalls.reverse).1.length) := rfl
  rw [hsum, Nat.zero_add] at hresult
  rw [hsum, Nat.zero_add] at hothers
  generalize (stallsToRemove target 0 s.prefetchPipelineStalls.reverse).1 = removed at happend hothers hresult hleft hunique
  have hstalls : s.prefetchPipelineStalls = others.reverse ++ removed.reverse := by
    rw [← reverse_append, ← happend, reverse_reverse]
  have hothersLeft : (reducePrefetchPipelineStalls s target).prefetchPipelineStalls.reverse = others := by
    rw [hleft, hstalls]
    simp
  have htotal : stallCycles (gapsOf s.prefetchPipeline.reverse) = stallCycles removed + stallCycles others := by
    rw [← hgaps, happend, stallCycles_append]
  have hmoved : (reducePrefetchPipelineStalls s target).prefetchPipeline =
      s.prefetchPipeline.map (fun op => op.moved (takenBefore target s.prefetchPipelineStalls.reverse op)) ↔
      (reducePrefetchPipelineStalls s target).prefetchPipeline.reverse = moveBack target s.prefetchPipeline.reverse := by
    rw [moveBack_eq_map hordered, map_reverse, reverse_inj, hgaps]
  -- all of the removed stalls are used up
  have hsame : stallCycles removed ≤ target →
      moveBack target s.prefetchPipeline.reverse = moveBack (stallCycles removed) s.prefetchPipeline.reverse := by
    intro hle
    cases hothers with
    | inl hnil =>
      rw [hnil, stallCycles_nil, Nat.add_zero] at htotal
      rw [← htotal]
      exact moveBack_min hordered (by omega)
    | inr hge => rw [Nat.le_antisymm hge hle]
  have hexact : stallCycles removed ≤ target → ((reducePrefetchPipelineStalls s target).prefetchPipeline.reverse =
      moveBack target s.prefetchPipeline.reverse ↔ Exhausted s.prefetchPipeline removed) := by
    intro hle
    have hiff := @removeBack_eq_iff s.prefetchPipeline.reverse [] removed others (2 ^ 64 - 1)
      (fun _ hop => absurd hop not_mem_nil) hordered (fun op hop => by
        have hfits : op.cycleBegin + op.cycleCost < 2 ^ 64 := hordered.fits op hop
        rw [(hordered.fits op hop).getCycleEnd_eq]
        omega) (hgaps ▸ happend)
    rw [hresult, Nat.min_eq_left hle, hsame hle]
    exact hiff.trans (exhausted_congr (fun _ _ _ _ => mem_reverse))
  constructor
  · intro hreduced
    have hback' := hmoved.mp hreduced.moved
    have hgaps' := hreduced.packed.stalls
    rw [hback', hothersLeft] at hgaps'
    have hcycles := @stallCycles_gapsOf_moveBack _ target hordered
    rw [← hgaps', htotal] at hcycles
    have hcostOthers : ∀ stall ∈ others, 0 < stall.cycleCost := by
      intro stall hstall
      apply hcost stall
      rw [happend]
      exact mem_append_right _ hstall
    by_cases hnil : others = []
    · rw [hnil, stallCycles_nil] at hcycles
      have hle : stallCycles removed ≤ target := by omega
      exact ⟨removed, others, happend, .inr ⟨hnil, hle⟩, (hexact hle).mp hback'⟩
    · have hpos := stallCycles_pos hcostOthers hnil
      have heq : stallCycles removed = target := by omega
      exact ⟨removed, others, happend, .inl heq, (hexact (Nat.le_of_eq heq)).mp hback'⟩
  · rintro ⟨removed', others', happend', htarget, hexhausted⟩
    obtain rfl := hunique removed' others' happend' htarget
    have hle : stallCycles removed' ≤ target := by
      rcases htarget with heq | ⟨-, hle⟩
      · exact Nat.le_of_eq heq
      · exact hle
    have hback' := (hexact hle).mpr hexhausted
    have horderedAfter := @moveBack_orderedBack _ target hordered
    rw [← hback'] at horderedAfter
    refine ⟨hmoved.mpr hback', ?_, ?_, ?_, ?_, ?_⟩
    · rw [hgaps]
      exact fun op hop => takenBefore_le hordered (mem_reverse.mpr hop)
    · rw [sum_takenOut, stallCycles_reverse]
    · exact fun op hop => horderedAfter.fits op (mem_reverse.mpr hop)
    · exact pairwise_reverse.mp horderedAfter.ordered
    · rw [hothersLeft, hback', hsame hle]
      exact (gapsOf_moveBack hordered (hgaps ▸ happend)).symm

def load (opIdx cycleBegin cycleCost : ℕ) : CycleInfo := .of opIdx cycleBegin cycleCost .dmaNN

/-- Three operations behind stalls of four, three and two cycles. -/
def threeLoads : Pipelines :=
  ⟨[], [load 0 4 2, load 1 9 2, load 2 13 4], [load (2 ^ 64 - 1) 0 4, load (2 ^ 64 - 1) 6 3, load (2 ^ 64 - 1) 11 2],
    fun _ => []⟩

theorem reducePrefetchPipelineStalls_reduced_iff_threeLoads :
    Reduced threeLoads 5 (reducePrefetchPipelineStalls threeLoads 5) := by
  apply (reducePrefetchPipelineStalls_reduced_iff ⟨by decide, by decide, by decide⟩).mpr
  refine ⟨[load (2 ^ 64 - 1) 11 2, load (2 ^ 64 - 1) 6 3], [load (2 ^ 64 - 1) 0 4], rfl, .inl rfl, ?_⟩
  -- the operation behind the last stall is longer than the stall before
  exact ⟨fun _ => by decide, fun h => absurd rfl h, trivial⟩

def oneStall : Pipelines := ⟨[], [load 0 4 2], [load (2 ^ 64 - 1) 0 4], fun _ => []⟩

theorem oneStall_packed : Packed oneStall := ⟨by decide, by decide, by decide⟩

/-- A stall of which one cycle is used is no longer recorded. -/
theorem reducePrefetchPipelineStalls_oneStall :
    Packed oneStall ∧ ¬ Reduced oneStall 1 (reducePrefetchPipelineStalls oneStall 1) := by
  refine ⟨oneStall_packed, fun h => ?_⟩
  have hstalls := h.packed.stalls
  rw [h.moved] at hstalls
  exact absurd hstalls (by decide)

end

end NpuCompiler.Schedule
