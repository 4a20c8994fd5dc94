import NpuCompiler.Memory.GapInvariant
import NpuCompiler.Schedule.PrefetchDataOps

namespace NpuCompiler.Schedule

open List

open Memory (addrAdd addrSub addrAdd_eq addrSub_eq)

def CycleInfo.Fits (op : CycleInfo) : Prop := op.cycleBegin + op.cycleCost < 2 ^ 64

instance (op : CycleInfo) : Decidable op.Fits := inferInstanceAs (Decidable (_ < _))

def CycleInfo.moved (cycles : ℕ) (op : CycleInfo) : CycleInfo := { op with cycleBegin := op.cycleBegin - cycles }

def stallCycles (stalls : List CycleInfo) : ℕ := (stalls.map CycleInfo.cycleCost).sum

def endOf : List CycleInfo → ℕ
  | [] => 0
  | op :: _ => op.cycleBegin + op.cycleCost

def gapsOf : List CycleInfo → List CycleInfo
  | [] => []
  | op :: earlier =>
    if endOf earlier < op.cycleBegin then
      .of (2 ^ 64 - 1) (endOf earlier) (op.cycleBegin - endOf earlier) .dmaNN :: gapsOf earlier
    else gapsOf earlier

structure Packed (s : Pipelines) : Prop where
  fits : ∀ op ∈ s.prefetchPipeline, op.Fits
  ordered : s.prefetchPipeline.Pairwise (fun op later => op.cycleBegin + op.cycleCost ≤ later.cycleBegin)
  stalls : s.prefetchPipelineStalls.reverse = gapsOf s.prefetchPipeline.reverse

def takenOut : ℕ → List CycleInfo → List ℕ
  | _, [] => []
  | target, stall :: stalls => min target stall.cycleCost :: takenOut (target - stall.cycleCost) stalls

def takenBefore (target : ℕ) (stalls : List CycleInfo) (op : CycleInfo) : ℕ :=
  (((stalls.zip (takenOut target stalls)).filter (fun taken => taken.1.getCycleEnd ≤ op.cycleBegin)).map Prod.snd).sum

structure OrderedBack (ops : List CycleInfo) : Prop where
  fits : ∀ op ∈ ops, op.Fits
  ordered : ops.Pairwise (fun later op => op.cycleBegin + op.cycleCost ≤ later.cycleBegin)

def moveBack : ℕ → List CycleInfo → List CycleInfo
  | _, [] => []
  | target, op :: earlier =>
    op.moved (min target (stallCycles (gapsOf (op :: earlier)))) :: moveBack (target - (op.cycleBegin - endOf earlier)) earlier

section
variable {op stall : CycleInfo} {ops earlier stalls : List CycleInfo} {target : ℕ}

theorem CycleInfo.Fits.getCycleEnd_eq (h : op.Fits) : op.getCycleEnd = op.cycleBegin + op.cycleCost := addrAdd_eq h

theorem endOf_cons : endOf (op :: earlier) = op.cycleBegin + op.cycleCost := rfl

theorem OrderedBack.tail (h : OrderedBack (op :: ops)) : OrderedBack ops :=
  ⟨fun op hop => h.fits op (mem_cons_of_mem _ hop), (pairwise_cons.mp h.ordered).2⟩

theorem OrderedBack.endOf_le (h : OrderedBack (op :: earlier)) : endOf earlier ≤ op.cycleBegin := by
  cases earlier with
  | nil => exact Nat.zero_le _
  | cons before earlier => exact (pairwise_cons.mp h.ordered).1 before mem_cons_self

theorem OrderedBack.le_endOf (h : OrderedBack ops) (hop : op ∈ ops) : op.cycleBegin + op.cycleCost ≤ endOf ops := by
  cases ops with
  | nil => exact absurd hop not_mem_nil
  | cons last earlier =>
    cases mem_cons.mp hop with
    | inl heq =>
      rw [heq]
      exact Nat.le_refl _
    | inr hop =>
      have hbefore := (pairwise_cons.mp h.ordered).1 op hop
      rw [endOf_cons]
      omega

def gapBefore (op : CycleInfo) (earlier : List CycleInfo) : CycleInfo :=
  .of (2 ^ 64 - 1) (endOf earlier) (op.cycleBegin - endOf earlier) .dmaNN

theorem gapsOf_cons : gapsOf (op :: earlier) =
    if endOf earlier < op.cycleBegin then gapBefore op earlier :: gapsOf earlier else gapsOf earlier := rfl

theorem gapBefore_cost (h : op.Fits) : (gapBefore op earlier).cycleCost = op.cycleBegin - endOf earlier := by
  apply Nat.mod_eq_of_lt
  have hlt : op.cycleBegin + op.cycleCost < 2 ^ 64 := h
  omega

theorem gapBefore_end (h : op.Fits) (hle : endOf earlier ≤ op.cycleBegin) :
    (gapBefore op earlier).getCycleEnd = op.cycleBegin := by
  have hlt : op.cycleBegin + op.cycleCost < 2 ^ 64 := h
  unfold CycleInfo.getCycleEnd
  rw [gapBefore_cost h, addrAdd_eq]
  · exact Nat.add_sub_of_le hle
  · change endOf earlier + _ < _
    omega

@[simp] theorem stallCycles_nil : stallCycles [] = 0 := rfl

@[simp] theorem stallCycles_cons : stallCycles (stall :: stalls) = stall.cycleCost + stallCycles stalls := rfl

@[simp] theorem stallCycles_append : stallCycles (stalls ++ ops) = stallCycles stalls + stallCycles ops := by
  unfold stallCycles
  rw [map_append, sum_append]

theorem stallCycles_gapsOf_cons (h : OrderedBack (op :: earlier)) :
    stallCycles (gapsOf (op :: earlier)) = (op.cycleBegin - endOf earlier) + stallCycles (gapsOf earlier) := by
  rw [gapsOf_cons]
  split_ifs with hgap
  · rw [stallCycles_cons, gapBefore_cost (h.fits op mem_cons_self)]
  · omega

theorem stallCycles_add_costs (h : OrderedBack ops) : stallCycles (gapsOf ops) + stallCycles ops = endOf ops := by
  induction ops with
  | nil => rfl
  | cons op earlier ih =>
    have hrest := ih h.tail
    have hle := h.endOf_le
    rw [stallCycles_gapsOf_cons h, stallCycles_cons, endOf_cons]
    omega

theorem stallCycles_gapsOf_le (h : OrderedBack (op :: earlier)) :
    stallCycles (gapsOf (op :: earlier)) ≤ op.cycleBegin := by
  have htotal := stallCycles_add_costs h
  rw [stallCycles_cons, endOf_cons] at htotal
  omega

theorem exists_op_of_mem_gapsOf (h : OrderedBack ops) (hstall : stall ∈ gapsOf ops) :
    0 < stall.cycleCost ∧ stall.getCycleEnd = stall.cycleBegin + stall.cycleCost ∧
      ∃ op ∈ ops, op.cycleBegin = stall.getCycleEnd := by
  induction ops with
  | nil => exact absurd hstall not_mem_nil
  | cons op earlier ih =>
    have hfits := h.fits op mem_cons_self
    rw [gapsOf_cons] at hstall
    split_ifs at hstall with hgap
    · cases mem_cons.mp hstall with
      | inl heq =>
        have hend := @gapBefore_end op earlier hfits h.endOf_le
        have hcost := @gapBefore_cost op earlier hfits
        have hbegin : (gapBefore op earlier).cycleBegin = endOf earlier := rfl
        rw [heq]
        exact ⟨by omega, by omega, op, mem_cons_self, hend.symm⟩
      | inr hstall =>
        obtain ⟨hcost, hend, before, hbefore, hbegin⟩ := ih h.tail hstall
        exact ⟨hcost, hend, before, mem_cons_of_mem _ hbefore, hbegin⟩
    · obtain ⟨hcost, hend, before, hbefore, hbegin⟩ := ih h.tail hstall
      exact ⟨hcost, hend, before, mem_cons_of_mem _ hbefore, hbegin⟩

theorem sum_takenOut : (takenOut target stalls).sum = min target (stallCycles stalls) := by
  induction stalls generalizing target with
  | nil => simp [takenOut]
  | cons stall stalls ih =>
    rw [takenOut, sum_cons, ih, stallCycles_cons]
    omega

theorem length_takenOut : (takenOut target stalls).length = stalls.length := by
  induction stalls generalizing target with
  | nil => rfl
  | cons stall stalls ih => rw [takenOut, length_cons, ih, length_cons]

theorem takenBefore_of_forall (h : ∀ stall ∈ stalls, stall.getCycleEnd ≤ op.cycleBegin) :
    takenBefore target stalls op = min target (stallCycles stalls) := by
  unfold takenBefore
  rw [filter_eq_self.mpr, map_snd_zip (Nat.le_of_eq length_takenOut), sum_takenOut]
  intro taken htaken
  exact decide_eq_true (h taken.1 (of_mem_zip htaken).1)

theorem takenBefore_cons (h : op.cycleBegin < stall.getCycleEnd) :
    takenBefore target (stall :: stalls) op = takenBefore (target - stall.cycleCost) stalls op := by
  unfold takenBefore
  rw [takenOut, zip_cons_cons, filter_cons_of_neg]
  exact fun hle => Nat.not_le.mpr h (of_decide_eq_true hle)

theorem mem_gapsOf_end_le (h : OrderedBack (op :: earlier)) (hstall : stall ∈ gapsOf (op :: earlier)) :
    stall.getCycleEnd ≤ op.cycleBegin := by
  obtain ⟨-, -, before, hbefore, hbegin⟩ := exists_op_of_mem_gapsOf h hstall
  rw [← hbegin]
  cases mem_cons.mp hbefore with
  | inl heq => rw [heq]
  | inr hbefore => exact Nat.le_trans (Nat.le_add_right _ _) ((pairwise_cons.mp h.ordered).1 before hbefore)

theorem moveBack_eq_map (h : OrderedBack ops) :
    moveBack target ops = ops.map (fun op => op.moved (takenBefore target (gapsOf ops) op)) := by
  induction ops generalizing target with
  | nil => rfl
  | cons op earlier ih =>
    have hfits := h.fits op mem_cons_self
    rw [moveBack, map_cons, takenBefore_of_forall (fun stall hstall => mem_gapsOf_end_le h hstall), ih h.tail]
    congr 1
    apply map_congr_left
    intro before hbefore
    rw [gapsOf_cons]
    split_ifs with hgap
    · have hle := h.tail.le_endOf hbefore
      rw [takenBefore_cons, gapBefore_cost hfits]
      rw [gapBefore_end hfits h.endOf_le]
      omega
    · rw [Nat.sub_eq_zero_of_le (Nat.le_of_not_lt hgap), Nat.sub_zero]

theorem takenBefore_le (h : OrderedBack ops) (hop : op ∈ ops) : takenBefore target (gapsOf ops) op ≤ op.cycleBegin := by
  induction ops generalizing target with
  | nil => exact absurd hop not_mem_nil
  | cons last earlier ih =>
    have hfits := h.fits last mem_cons_self
    cases mem_cons.mp hop with
    | inl heq =>
      subst heq
      rw [takenBefore_of_forall (fun stall hstall => mem_gapsOf_end_le h hstall)]
      exact Nat.le_trans (Nat.min_le_right _ _) (stallCycles_gapsOf_le h)
    | inr hop =>
      rw [gapsOf_cons]
      split_ifs with hgap
      · have hle := h.tail.le_endOf hop
        rw [takenBefore_cons]
        · exact ih h.tail hop
        · rw [gapBefore_end hfits h.endOf_le]
          omega
      · exact ih h.tail hop

theorem endOf_moveBack (h : OrderedBack ops) :
    endOf (moveBack target ops) = endOf ops - min target (stallCycles (gapsOf ops)) := by
  cases ops with
  | nil => exact (Nat.zero_sub _).symm
  | cons op earlier =>
    have hle := stallCycles_gapsOf_le h
    rw [moveBack, endOf_cons, endOf_cons]
    change op.cycleBegin - _ + op.cycleCost = _
    omega

theorem moveBack_orderedBack (h : OrderedBack ops) : OrderedBack (moveBack target ops) := by
  induction ops generalizing target with
  | nil => exact ⟨fun _ hop => absurd hop not_mem_nil, .nil⟩
  | cons op earlier ih =>
    have hrest := @ih (target - (op.cycleBegin - endOf earlier)) h.tail
    have hend := @endOf_moveBack earlier (target - (op.cycleBegin - endOf earlier)) h.tail
    have hcycles := stallCycles_gapsOf_cons h
    have hle := h.endOf_le
    have hgaps := stallCycles_add_costs h.tail
    constructor
    · apply forall_mem_cons.mpr ⟨_, hrest.fits⟩
      have hfits : op.cycleBegin + op.cycleCost < 2 ^ 64 := h.fits op mem_cons_self
      change op.cycleBegin - _ + op.cycleCost < 2 ^ 64
      omega
    · apply pairwise_cons.mpr ⟨_, hrest.ordered⟩
      intro before hbefore
      apply Nat.le_trans (hrest.le_endOf hbefore)
      rw [hend]
      change _ ≤ op.cycleBegin - _
      omega

theorem stallCycles_moveBack : stallCycles (moveBack target ops) = stallCycles ops := by
  induction ops generalizing target with
  | nil => rfl
  | cons op earlier ih =>
    rw [moveBack, stallCycles_cons, stallCycles_cons, ih]
    rfl

theorem stallCycles_gapsOf_moveBack (h : OrderedBack ops) :
    stallCycles (gapsOf (moveBack target ops)) = stallCycles (gapsOf ops) - target := by
  have hbefore := stallCycles_add_costs h
  have hafter := stallCycles_add_costs (@moveBack_orderedBack ops target h)
  rw [stallCycles_moveBack, endOf_moveBack h] at hafter
  omega

theorem moveBack_min (h : OrderedBack ops) (hle : stallCycles (gapsOf ops) ≤ target) :
    moveBack target ops = moveBack (stallCycles (gapsOf ops)) ops := by
  induction ops generalizing target with
  | nil => rfl
  | cons op earlier ih =>
    have hcycles := stallCycles_gapsOf_cons h
    rw [moveBack, moveBack, Nat.min_eq_right hle, Nat.min_self, ih h.tail (by omega),
      ih h.tail (show _ ≤ stallCycles (gapsOf (op :: earlier)) - _ by omega)]

theorem moveBack_zero : moveBack 0 ops = ops := by
  induction ops with
  | nil => rfl
  | cons op earlier ih =>
    rw [moveBack, Nat.zero_min, Nat.zero_sub, ih]
    rfl

theorem gapsOf_moveBack (h : OrderedBack ops) {others : List CycleInfo} (hgaps : gapsOf ops = stalls ++ others) :
    gapsOf (moveBack (stallCycles stalls) ops) = others := by
  induction ops generalizing stalls with
  | nil =>
    obtain ⟨rfl, rfl⟩ := append_eq_nil_iff.mp hgaps.symm
    rfl
  | cons op earlier ih =>
    have hfits := h.fits op mem_cons_self
    cases stalls with
    | nil =>
      rw [stallCycles_nil, moveBack_zero]
      exact hgaps
    | cons stall stalls =>
      have hcycles := stallCycles_gapsOf_cons h
      have hend := @endOf_moveBack earlier (stallCycles (stall :: stalls) - (op.cycleBegin - endOf earlier)) h.tail
      have hle := h.endOf_le
      have hrest := stallCycles_add_costs h.tail
      have htotal : stallCycles (gapsOf (op :: earlier)) = stallCycles (stall :: stalls) + stallCycles others := by
        rw [hgaps, stallCycles_append]
      rw [gapsOf_cons] at hgaps
      rw [moveBack, gapsOf_cons, hend]
      split_ifs at hgaps with hgap
      · obtain ⟨rfl, hothers⟩ := List.cons.inj hgaps
        rw [stallCycles_cons, gapBefore_cost hfits] at htotal hend
        rw [if_neg]
        · rw [stallCycles_cons, gapBefore_cost hfits, Nat.add_sub_cancel_left]
          exact ih h.tail hothers
        · rw [stallCycles_cons, gapBefore_cost hfits]
          change ¬ _ < op.cycleBegin - _
          omega
      · rw [if_neg]
        · rw [Nat.sub_eq_zero_of_le (Nat.le_of_not_lt hgap), Nat.sub_zero]
          exact ih h.tail hgaps
        · change ¬ _ < op.cycleBegin - _
          omega

structure Block (ops block earlier : List CycleInfo) (stall : CycleInfo) (stalls : List CycleInfo) : Prop where
  append : ops = block ++ earlier
  gaps : gapsOf earlier = stalls
  begins : stall.cycleBegin = endOf earlier
  first : ∃ first ∈ block, first.cycleBegin = stall.getCycleEnd
  inside : ∀ op ∈ block, stall.getCycleEnd ≤ op.cycleBegin
  moves : ∀ target, stall.cycleCost ≤ target → target ≤ stallCycles (gapsOf ops) →
    moveBack target ops = block.map (CycleInfo.moved target) ++ moveBack (target - stall.cycleCost) earlier

theorem exists_block (h : OrderedBack ops) (hgaps : gapsOf ops = stall :: stalls) :
    ∃ block earlier, Block ops block earlier stall stalls := by
  induction ops with
  | nil => cases hgaps
  | cons op earlier ih =>
    have hfits := h.fits op mem_cons_self
    have hcycles := stallCycles_gapsOf_cons h
    have hgaps' := hgaps
    rw [gapsOf_cons] at hgaps
    split_ifs at hgaps with hgap
    · obtain ⟨rfl, hrest⟩ := List.cons.inj hgaps
      have hend := gapBefore_end hfits h.endOf_le
      refine ⟨[op], earlier, rfl, hrest, rfl, ⟨op, mem_singleton_self op, hend.symm⟩, ?_, ?_⟩
      · intro op' hop'
        rw [mem_singleton.mp hop', hend]
      · intro target _ hle
        rw [moveBack, Nat.min_eq_left hle, gapBefore_cost hfits]
        rfl
    · obtain ⟨block, before, rfl, hrest, hbegins, ⟨first, hfirst, hfirstBegin⟩, hinside, hmoves⟩ := ih h.tail hgaps
      have hnoGap : op.cycleBegin - endOf (block ++ before) = 0 := Nat.sub_eq_zero_of_le (Nat.le_of_not_lt hgap)
      refine ⟨op :: block, before, rfl, hrest, hbegins, ⟨first, mem_cons_of_mem _ hfirst, hfirstBegin⟩, ?_, ?_⟩
      · apply forall_mem_cons.mpr ⟨_, hinside⟩
        apply mem_gapsOf_end_le h
        rw [hgaps']
        exact mem_cons_self
      · intro target hcost hle
        rw [moveBack, Nat.min_eq_left hle, hnoGap, Nat.sub_zero, hmoves target hcost (by omega)]
        rfl

end

end NpuCompiler.Schedule
