import NpuCompiler.Barrier.LinearizeTasks

namespace NpuCompiler.Barrier

open BarrierInfo FifoBarrierInfo GraphSplit Sweeps List

structure IndexedBlocks (config : OptimizeConfig) (s : BarrierInfo) : Prop where
  consistent : s.Consistent
  split : config.split.WellFormed s.getNumOfTasks
  pos : 0 < s.getNumOfTasks
  fits : ∀ p c, s.Edge p c → config.split.Fits p c

/-- A new dependency leads from a section to the next one, if both begin in one block and no path is known between their
first tasks. -/
def LinkedIn (config : OptimizeConfig) (known : ℕ → ℕ → Prop) (sections : List (List ℕ)) (p c : ℕ) : Prop :=
  ∃ producers consumers, [producers, consumers] <:+: sections ∧
    blockOf config.split.syncTasksIds (producers.headD 0) = blockOf config.split.syncTasksIds (consumers.headD 0) ∧
      ¬known (producers.headD 0) (consumers.headD 0) ∧ p ∈ producers ∧ c ∈ consumers

section
variable {config : OptimizeConfig} {known : ℕ → ℕ → Prop} {s : BarrierInfo} {st : LinearizeState} {producers consumers : List ℕ}
  {sections : List (List ℕ)} {p c a b : ℕ}

theorem not_linkedIn_single : ¬LinkedIn config known [producers] p c := by
  rintro ⟨first, second, hnear, -⟩
  have hle := hnear.length_le
  simp at hle

theorem linkedIn_cons : LinkedIn config known (producers :: consumers :: sections) p c ↔
    (blockOf config.split.syncTasksIds (producers.headD 0) = blockOf config.split.syncTasksIds (consumers.headD 0) ∧
      ¬known (producers.headD 0) (consumers.headD 0) ∧ p ∈ producers ∧ c ∈ consumers) ∨
        LinkedIn config known (consumers :: sections) p c := by
  constructor
  · rintro ⟨first, second, hnear, hlinked⟩
    rcases infix_cons_iff.mp hnear with hprefix | hnear
    · obtain ⟨hfirst, hprefix⟩ := cons_prefix_cons.mp hprefix
      obtain ⟨hsecond, -⟩ := cons_prefix_cons.mp hprefix
      rw [hfirst, hsecond] at hlinked
      exact .inl hlinked
    · exact .inr ⟨first, second, hnear, hlinked⟩
  · rintro (hlinked | ⟨first, second, hnear, hlinked⟩)
    · exact ⟨producers, consumers, ⟨[], sections, rfl⟩, hlinked⟩
    · exact ⟨first, second, infix_cons hnear, hlinked⟩

theorem linkedIn_congr {known' : ℕ → ℕ → Prop} (h : ∀ producers consumers, [producers, consumers] <:+: sections →
    (known (producers.headD 0) (consumers.headD 0) ↔ known' (producers.headD 0) (consumers.headD 0))) :
    LinkedIn config known sections p c ↔ LinkedIn config known' sections p c := by
  constructor
  · rintro ⟨first, second, hnear, hblock, hnot, hmem⟩
    exact ⟨first, second, hnear, hblock, fun hknown => hnot ((h first second hnear).mpr hknown), hmem⟩
  · rintro ⟨first, second, hnear, hblock, hnot, hmem⟩
    exact ⟨first, second, hnear, hblock, fun hknown => hnot ((h first second hnear).mp hknown), hmem⟩

theorem MapTells.controlPath (h : MapTells config s known st) (hsplit : config.split.WellFormed s.getNumOfTasks) (hab : a < b)
    (hb : b < s.getNumOfTasks) (hblockA : blockOf config.split.syncTasksIds a = st.controlMapBlockIdx)
    (hblockB : blockOf config.split.syncTasksIds b = st.controlMapBlockIdx) (hback : ¬known b a) :
    ∃ pathExists, controlPathExistsBetweenTasksInSameBlock st.taskControlMap (a - st.controlMapOffset) (b - st.controlMapOffset)
      true = .ok pathExists ∧ (pathExists = true ↔ known a b) := by
  obtain ⟨hi, hk, hlength⟩ := h.range
  have ha : a < s.getNumOfTasks := by omega
  obtain ⟨hloA, hhiA⟩ := inRange_iff.mp (inRange_block hsplit ha (hblockA ▸ hk))
  obtain ⟨hloB, hhiB⟩ := inRange_iff.mp (inRange_block hsplit hb (hblockB ▸ hk))
  unfold controlPathExistsBetweenTasksInSameBlock
  rw [if_neg (fun hnil => by simp [hnil] at hlength), if_neg (by omega), if_neg (by omega), if_neg (by omega),
    if_pos rfl]
  refine ⟨_, rfl, ?_⟩
  rw [Bool.or_eq_true, h.tells a b ha hb hblockA hblockB, h.tells b a hb ha hblockB hblockA]
  exact or_iff_left hback

end

/-- Before a step of the loop: the links so far lead to tasks of blocks whose map was built, and the map is that of the first
block or of one up to the current task. -/
structure BeforeSection (config : OptimizeConfig) (s : BarrierInfo) (known : ℕ → ℕ → Prop) (firstBlockIdx : ℕ) (links : ℕ → ℕ → Prop)
    (currTask : ℕ) (current rest : List ℕ) (st : LinearizeState) : Prop where
  linked : LinkedBefore s st.barrierInfo links current rest
  map : MapTells config s known st
  first : firstBlockIdx ≤ st.controlMapBlockIdx
  reached : st.controlMapBlockIdx = firstBlockIdx ∨ st.controlMapBlockIdx ≤ blockOf config.split.syncTasksIds currTask
  before : ∀ p c, links p c → ∃ q, p < q ∧ blockOf config.split.syncTasksIds q ≤ st.controlMapBlockIdx

section
variable {config : OptimizeConfig} {availableSlots firstBlockIdx : ℕ} {s : BarrierInfo} {known : ℕ → ℕ → Prop}
  {links : ℕ → ℕ → Prop} {blockIndexes : List (ℕ × ℕ)} {currTask nextTask : ℕ} {current next rest : List ℕ} {st st' : LinearizeState}

theorem BeforeSection.reach (h : IndexedBlocks config s)
    (habove : ∀ a b, firstBlockIdx < blockOf config.split.syncTasksIds b → (known a b ↔ s.Ordered a b))
    (hst : BeforeSection config s known firstBlockIdx links currTask current rest st) (hle : currTask ≤ nextTask) :
    ∃ st', st.reachBlock config (blockOf config.split.syncTasksIds nextTask) = .ok st' ∧
      blockOf config.split.syncTasksIds nextTask ≤ st'.controlMapBlockIdx ∧
        BeforeSection config s known firstBlockIdx links nextTask current rest st' := by
  have hmono := @blockOf_mono config.split.syncTasksIds currTask nextTask hle
  unfold LinearizeState.reachBlock
  by_cases hgt : blockOf config.split.syncTasksIds nextTask > st.controlMapBlockIdx
  · have hcount : blockOf config.split.syncTasksIds nextTask < config.split.getControlGraphBlockCount :=
      Nat.lt_succ_of_le countP_le_length
    have hbefore : ∀ p c, links p c → ∃ q, p < q ∧
        blockOf config.split.syncTasksIds q < blockOf config.split.syncTasksIds nextTask := by
      intro p c hlink
      obtain ⟨q, hpq, hq⟩ := hst.before p c hlink
      exact ⟨q, hpq, by omega⟩
    obtain ⟨taskControlMap, offset, hbuild, hmap⟩ :=
      buildControlMap_spec h.split h.pos h.consistent h.fits hst.linked.toWithLinks hbefore hcount
    rw [if_pos hgt, hbuild]
    have hfirst := hst.first
    refine ⟨_, rfl, le_refl _, hst.linked, ⟨hmap.range, ?_⟩, ?_, .inr (le_refl _), ?_⟩
    · intro a b ha hb hblockA hblockB
      have hb' : firstBlockIdx < blockOf config.split.syncTasksIds b := by
        rw [hblockB]
        exact lt_of_le_of_lt hfirst hgt
      exact (hmap.tells a b ha hb hblockA hblockB).trans (habove a b hb').symm
    · exact le_of_lt (lt_of_le_of_lt hfirst hgt)
    · intro p c hlink
      obtain ⟨q, hpq, hq⟩ := hbefore p c hlink
      exact ⟨q, hpq, hq.le⟩
  · rw [if_neg hgt]
    refine ⟨st, rfl, by omega, hst.linked, hst.map, hst.first, ?_, hst.before⟩
    exact hst.reached.imp_right fun hreached => le_trans hreached hmono

theorem BeforeSection.advance (hst : BeforeSection config s known firstBlockIdx links currTask current (next ++ rest) st) :
    BeforeSection config s known firstBlockIdx links currTask next rest st :=
  ⟨hst.linked.advance, hst.map, hst.first, hst.reached, hst.before⟩

theorem BeforeSection.link (hst : BeforeSection config s known firstBlockIdx links nextTask current (next ++ rest) st)
    (hsorted : (current ++ (next ++ rest)).Pairwise (· < ·)) (hlt : ∀ t ∈ current ++ next, t < s.getNumOfTasks)
    (hnext : nextTask ∈ next) (hblock : blockOf config.split.syncTasksIds nextTask ≤ st.controlMapBlockIdx) :
    BeforeSection config s known firstBlockIdx (fun p c => links p c ∨ p ∈ current ∧ c ∈ next) nextTask next rest
      { st with barrierInfo := addBarrierBetween st.barrierInfo current next } := by
  refine ⟨hst.linked.link (hsorted.imp Nat.ne_of_lt) hlt, ⟨hst.map.range, hst.map.tells⟩, hst.first, hst.reached, ?_⟩
  rintro p c (hlink | ⟨hp, -⟩)
  · exact hst.before p c hlink
  · exact ⟨nextTask, (pairwise_append.mp hsorted).2.2 p hp nextTask (mem_append_left _ hnext), hblock⟩

theorem linearizeSections_spec (h : IndexedBlocks config s)
    (hbelow : ∀ a b, blockOf config.split.syncTasksIds b < firstBlockIdx → ¬known a b)
    (habove : ∀ a b, firstBlockIdx < blockOf config.split.syncTasksIds b → (known a b ↔ s.Ordered a b))
    (honward : ∀ a b, a < s.getNumOfTasks → b < s.getNumOfTasks →
      blockOf config.split.syncTasksIds a = blockOf config.split.syncTasksIds b → known a b → a < b) {fuel : ℕ}
    {currTasks nextTasks : List ℕ} {linearized : Bool} (hsorted : (currTask :: currTasks).Pairwise (· < ·))
    (hlt : ∀ t ∈ currTask :: currTasks, t < s.getNumOfTasks)
    (hindexes : ∀ t ∈ currTask :: currTasks, blockIndexes.lookup t = some (blockOf config.split.syncTasksIds t))
    (hend : findEndItr config availableSlots s currTask currTasks = (current, rest)) (hnext : nextTasks = [] → rest = [])
    (hfuel : currTasks.length < fuel) (hst : BeforeSection config s known firstBlockIdx links currTask current rest st) :
    ∃ linearized' st' links', linearizeSections config availableSlots blockIndexes fuel (currTask :: currTasks) nextTasks linearized st =
        .ok (linearized', st') ∧
      (∀ p c, links' p c ↔ links p c ∨ LinkedIn config known (sectionsOf config availableSlots s (currTask :: currTasks)) p c) ∧
        WithLinks s st'.barrierInfo links' ∧ MapTells config s known st' := by
  induction fuel generalizing currTask currTasks nextTasks linearized st links current rest with
  | zero => exact absurd hfuel (Nat.not_lt_zero _)
  | succ fuel ih =>
    obtain ⟨happend, hcurrentHead, hcurrentMem, -⟩ := findEndItr_spec hend
    have hstop (hnil : rest = []) (p c : ℕ) :
        links p c ↔ links p c ∨ LinkedIn config known (sectionsOf config availableSlots s (currTask :: currTasks)) p c := by
      rw [sectionsOf_cons hend, hnil, sectionsOf]
      exact (or_iff_left not_linkedIn_single).symm
    cases nextTasks with
    | nil => exact ⟨linearized, st, links, rfl, hstop (hnext rfl), hst.linked.toWithLinks, hst.map⟩
    | cons _ _ =>
      unfold linearizeSections
      rw [hst.linked.findEndItr_eq h.consistent hend]
      dsimp only
      cases rest with
      | nil => exact ⟨linearized, st, links, rfl, hstop rfl, hst.linked.toWithLinks, hst.map⟩
      | cons nextTask nextTasks =>
        obtain ⟨next, nextRest, hendNext⟩ : ∃ next nextRest, findEndItr config availableSlots s nextTask nextTasks = (next, nextRest) :=
          ⟨_, _, rfl⟩
        obtain ⟨happendNext, hnextHead, hnextMem, -⟩ := findEndItr_spec hendNext
        have hsub {t : ℕ} (ht : t ∈ nextTask :: nextTasks) : t ∈ currTask :: currTasks := happend ▸ mem_append_right _ ht
        have hsortedAll : (current ++ (nextTask :: nextTasks)).Pairwise (· < ·) := happend ▸ hsorted
        obtain ⟨-, hsortedNext, hbefore⟩ := pairwise_append.mp hsortedAll
        have hcurrNext : currTask < nextTask := hbefore currTask hcurrentMem nextTask mem_cons_self
        have hlength : nextTasks.length < fuel := by
          have hlen := congrArg List.length happend
          have hpos := length_pos_of_mem hcurrentMem
          rw [length_append, length_cons, length_cons] at hlen
          omega
        have hsections : sectionsOf config availableSlots s (currTask :: currTasks) = current :: next :: sectionsOf config availableSlots s nextRest := by
          rw [sectionsOf_cons hend, sectionsOf_cons hendNext]
        have hsectionsNext : sectionsOf config availableSlots s (nextTask :: nextTasks) = next :: sectionsOf config availableSlots s nextRest :=
          sectionsOf_cons hendNext
        rw [← happendNext] at hst
        obtain ⟨st₁, hreach, hreached, hst₁⟩ := hst.reach h habove hcurrNext.le
        dsimp only
        rw [hst.advance.linked.findEndItr_eq h.consistent hendNext, hindexes currTask mem_cons_self,
          hindexes nextTask (hsub mem_cons_self), Option.getD_some, Option.getD_some, hreach]
        have hskip : (blockOf config.split.syncTasksIds currTask = blockOf config.split.syncTasksIds nextTask → known currTask nextTask) →
            ∃ linearized' st' links', linearizeSections config availableSlots blockIndexes fuel (nextTask :: nextTasks) nextTasks
                linearized st₁ = .ok (linearized', st') ∧
              (∀ p c, links' p c ↔ links p c ∨
                LinkedIn config known (sectionsOf config availableSlots s (currTask :: currTasks)) p c) ∧
                WithLinks s st'.barrierInfo links' ∧ MapTells config s known st' := by
          intro hknown
          have hnone : nextTasks = [] → nextRest = [] := by
            intro hnil
            rw [hnil] at happendNext
            have hlen := congrArg List.length happendNext
            have hpos := length_pos_of_mem hnextMem
            rw [length_append, length_singleton] at hlen
            exact length_eq_zero_iff.mp (by omega)
          obtain ⟨linearized', st', links', hrun, hlinks, hrest⟩ := @ih links nextTask next nextRest st₁ nextTasks nextTasks linearized
            hsortedNext (fun t ht => hlt t (hsub ht)) (fun t ht => hindexes t (hsub ht)) hendNext hnone hlength hst₁.advance
          refine ⟨linearized', st', links', hrun, ?_, hrest⟩
          intro p c
          rw [hlinks, hsections, hsectionsNext, linkedIn_cons, hcurrentHead, hnextHead]
          constructor
          · exact Or.imp_right Or.inr
          · rintro (hlink | ⟨hblock, hnot, -⟩ | hlink)
            · exact .inl hlink
            · exact absurd (hknown hblock) hnot
            · exact .inr hlink
        by_cases hblock : blockOf config.split.syncTasksIds currTask = blockOf config.split.syncTasksIds nextTask
        · obtain ⟨pathExists, hexists, hiff⟩ : ∃ pathExists, st₁.barrierExists (blockOf config.split.syncTasksIds currTask) currTask nextTask =
              .ok pathExists ∧ (pathExists = true ↔ known currTask nextTask) := by
            unfold LinearizeState.barrierExists
            by_cases hmap : blockOf config.split.syncTasksIds currTask = st₁.controlMapBlockIdx
            · rw [if_pos hmap]
              have hnextLt := hlt nextTask (hsub mem_cons_self)
              have hback : ¬known nextTask currTask := fun hknown =>
                Nat.lt_asymm hcurrNext (honward nextTask currTask hnextLt (Nat.lt_trans hcurrNext hnextLt) hblock.symm hknown)
              exact hst₁.map.controlPath h.split hcurrNext hnextLt hmap (hblock ▸ hmap) hback
            · rw [if_neg hmap]
              refine ⟨false, rfl, iff_of_false Bool.false_ne_true (hbelow currTask nextTask ?_)⟩
              have := hst₁.reached
              omega
          cases pathExists with
          | true =>
            obtain ⟨linearized', st', links', hrun, hrest⟩ := hskip fun _ => hiff.mp rfl
            refine ⟨linearized', st', links', ?_, hrest⟩
            change (if _ ≠ _ then _ else Except.bind _ _) = _
            rw [if_neg (not_not.mpr hblock), hexists]
            exact hrun
          | false =>
            have hnot : ¬known currTask nextTask := fun hknown => Bool.false_ne_true (hiff.mpr hknown)
            have hlinked := hst₁.link (happendNext.symm ▸ hsortedAll) (by
              intro t ht
              rcases mem_append.mp ht with ht | ht
              · exact hlt t (happend ▸ mem_append_left _ ht)
              · exact hlt t (hsub (happendNext ▸ mem_append_left _ ht))) hnextMem hreached
            obtain ⟨linearized', st', links', hrun, hlinks, hrest⟩ := @ih _ nextTask next nextRest _ nextTasks nextRest true
              hsortedNext (fun t ht => hlt t (hsub ht)) (fun t ht => hindexes t (hsub ht)) hendNext id hlength hlinked
            refine ⟨linearized', st', links', ?_, ?_, hrest⟩
            · change (if _ ≠ _ then _ else Except.bind _ _) = _
              rw [if_neg (not_not.mpr hblock), hexists]
              exact hrun
            · intro p c
              rw [hlinks, hsections, hsectionsNext, linkedIn_cons, hcurrentHead, hnextHead, or_assoc]
              exact or_congr_right (or_congr_left ⟨fun hmem => ⟨hblock, hnot, hmem⟩, fun hmem => hmem.2.2⟩)
        · obtain ⟨linearized', st', links', hrun, hrest⟩ := hskip fun heq => absurd heq hblock
          refine ⟨linearized', st', links', ?_, hrest⟩
          change (if _ ≠ _ then _ else _) = _
          rw [if_pos hblock]
          exact hrun

end

end NpuCompiler.Barrier
