import NpuCompiler.Barrier.LinearizeRuns

namespace NpuCompiler.Barrier

open BarrierInfo FifoBarrierInfo GraphSplit Sweeps List

structure KeptMap (config : OptimizeConfig) (st : LinearizeState) : Prop where
  range : ∃ hi, BlockRange config.split st.barrierInfo st.controlMapBlockIdx st.controlMapOffset hi ∧
    st.taskControlMap.length = hi - st.controlMapOffset + 1
  sound : ∀ a b, a < st.barrierInfo.getNumOfTasks → b < st.barrierInfo.getNumOfTasks →
    blockOf config.split.syncTasksIds a = st.controlMapBlockIdx → blockOf config.split.syncTasksIds b = st.controlMapBlockIdx →
      (st.taskControlMap.getD (a - st.controlMapOffset) []).getD (b - st.controlMapOffset) false = true → st.barrierInfo.Ordered a b

/-- The paths that the pass knows of when it comes to two tasks of a block: the map kept from the batch before serves its own
block, and it has no map of an earlier one. -/
def KnownPath (config : OptimizeConfig) (st : LinearizeState) (a b : ℕ) : Prop :=
  if st.rebuildControlMap then st.barrierInfo.Ordered a b
  else (blockOf config.split.syncTasksIds b = st.controlMapBlockIdx ∧
      (st.taskControlMap.getD (a - st.controlMapOffset) []).getD (b - st.controlMapOffset) false = true) ∨
    st.controlMapBlockIdx < blockOf config.split.syncTasksIds b ∧ st.barrierInfo.Ordered a b

section
variable {config : OptimizeConfig} {availableSlots : ℕ} {s : BarrierInfo} {tasks current next : List ℕ} {t u : ℕ}

theorem flatten_sectionsOf : (sectionsOf config availableSlots s tasks).flatten = tasks := by
  induction tasks using sectionsOf.induct config availableSlots s with
  | case1 => rw [sectionsOf, flatten_nil]
  | case2 t tasks ih => rw [sectionsOf, flatten_cons, ih, findEndItr_append]

theorem sectionsOf_spec (h : current ∈ sectionsOf config availableSlots s tasks) :
    current.headD 0 ∈ current ∧ ∀ t ∈ current, SameBarriers s (current.headD 0) t := by
  induction tasks using sectionsOf.induct config availableSlots s with
  | case1 =>
    rw [sectionsOf] at h
    exact absurd h not_mem_nil
  | case2 t tasks ih =>
    rw [sectionsOf] at h
    rcases mem_cons.mp h with rfl | h
    · obtain ⟨-, -, hmem, hsame⟩ := @findEndItr_spec config availableSlots s t tasks _ _ rfl
      exact ⟨hmem, hsame⟩
    · exact ih h

theorem mem_of_section (h : current ∈ sectionsOf config availableSlots s tasks) (ht : t ∈ current) : t ∈ tasks := by
  rw [← @flatten_sectionsOf config availableSlots s tasks]
  exact mem_flatten.mpr ⟨current, h, ht⟩

theorem exists_section (ht : t ∈ tasks) : ∃ current ∈ sectionsOf config availableSlots s tasks, t ∈ current := by
  rw [← @flatten_sectionsOf config availableSlots s tasks] at ht
  exact mem_flatten.mp ht

theorem head_le_of_flatten {sections : List (List ℕ)} (hsorted : (current :: sections).flatten.Pairwise (· < ·))
    (hhead : current.headD 0 ∈ current) (hu : u ∈ (current :: sections).flatten) : current.headD 0 ≤ u := by
  cases current with
  | nil => exact absurd hhead not_mem_nil
  | cons t current =>
    rw [flatten_cons, cons_append] at hsorted hu
    rcases mem_cons.mp hu with rfl | hu
    · exact le_refl _
    · exact ((pairwise_cons.mp hsorted).1 u hu).le

theorem lt_of_infix (hsorted : tasks.Pairwise (· < ·)) (h : [current, next] <:+: sectionsOf config availableSlots s tasks) :
    current ∈ sectionsOf config availableSlots s tasks ∧ next ∈ sectionsOf config availableSlots s tasks ∧
      ∀ t ∈ current, ∀ u ∈ next, t < u := by
  have hmem {l : List ℕ} (hl : l ∈ [current, next]) : l ∈ sectionsOf config availableSlots s tasks := h.subset hl
  refine ⟨hmem mem_cons_self, hmem (mem_cons_of_mem _ mem_cons_self), ?_⟩
  rw [← @flatten_sectionsOf config availableSlots s tasks] at hsorted
  have hpair := (pairwise_flatten.mp hsorted).2.sublist h.sublist
  exact (pairwise_cons.mp hpair).1 next mem_cons_self

end

section
variable {s s' : BarrierInfo} {links : ℕ → ℕ → Prop} {t u v c : ℕ}

theorem WithLinks.edge_iff (h : WithLinks s s' links) (hs : s.Consistent) : s'.Edge t u ↔ s.Edge t u ∨ links t u := by
  rw [← h.links]
  constructor
  · rintro ⟨b, hedge⟩
    by_cases hb : b < s.getNumOfBarrierOps
    · exact .inl ⟨b, (h.edgeAt_iff hb).mp hedge⟩
    · exact .inr ⟨b, Nat.le_of_not_lt hb, hedge⟩
  · rintro (⟨b, hedge⟩ | ⟨b, -, hedge⟩)
    · exact ⟨b, (h.edgeAt_iff (hs.producer_lt hedge.1).1).mpr hedge⟩
    · exact ⟨b, hedge⟩

theorem WithLinks.kept (h : WithLinks s s' links) (hs : s.Consistent) (hordered : s.Ordered t u) : s'.Ordered t u :=
  hordered.mono fun _ _ hedge => .single ((h.edge_iff hs).mpr (.inl hedge))

theorem SameBarriers.ordered_left (h : SameBarriers s t u) (hs : s.Consistent) (hordered : s.Ordered t v) : s.Ordered u v := by
  obtain ⟨x, ⟨b, hp, hc⟩, hrest⟩ := Relation.TransGen.head'_iff.mp hordered
  exact Relation.TransGen.head'_iff.mpr ⟨x, ⟨b, hs.update_iff.mp ((h.2 b).mp (hs.update_iff.mpr hp)), hc⟩, hrest⟩

theorem SameBarriers.ordered_right (h : SameBarriers s t u) (hs : s.Consistent) (hordered : s.Ordered v t) : s.Ordered v u := by
  obtain ⟨x, hrest, b, hp, hc⟩ := Relation.TransGen.tail'_iff.mp hordered
  exact Relation.TransGen.tail'_iff.mpr ⟨x, hrest, b, hp, hs.wait_iff.mp ((h.1 b).mp (hs.wait_iff.mpr hc))⟩

theorem ordered_firstLink (h : WithLinks s s' links) (hs : s.Consistent) (htopological : s'.Topological) (hordered : s'.Ordered t c) :
    s.Ordered t c ∨ ∃ x y, (x = t ∨ s.Ordered t x) ∧ links x y ∧ y ≤ c := by
  induction hordered using Relation.TransGen.head_induction_on with
  | @single t hedge =>
    rcases (h.edge_iff hs).mp hedge with hedge | hlink
    · exact .inl (.single hedge)
    · exact .inr ⟨t, c, .inl rfl, hlink, le_refl _⟩
  | @head t x hedge hordered ih =>
    rcases (h.edge_iff hs).mp hedge with hedge | hlink
    · rcases ih with hordered | ⟨x', y, rfl | hx, hlink, hy⟩
      · exact .inl (.head hedge hordered)
      · exact .inr ⟨x', y, .inr (.single hedge), hlink, hy⟩
      · exact .inr ⟨x', y, .inr (.head hedge hx), hlink, hy⟩
    · exact .inr ⟨t, x, .inl rfl, hlink, (htopological.lt_of_ordered hordered).le⟩

end

section
variable {config : OptimizeConfig} {availableSlots : ℕ} {known : ℕ → ℕ → Prop} {s s' : BarrierInfo} {tasks current next : List ℕ}
  {sections before : List (List ℕ)} {t u : ℕ}

theorem ordered_of_infix (hs : s.Consistent) (hlinks : WithLinks s s' (LinkedIn config known (sectionsOf config availableSlots s tasks)))
    (hsound : ∀ a b, a ∈ tasks → b ∈ tasks → blockOf config.split.syncTasksIds a = blockOf config.split.syncTasksIds b →
      known a b → s.Ordered a b)
    (hnear : [current, next] <:+: sectionsOf config availableSlots s tasks)
    (hblock : blockOf config.split.syncTasksIds (current.headD 0) = blockOf config.split.syncTasksIds (next.headD 0))
    (ht : t ∈ current) (hu : u ∈ next) : s'.Ordered t u := by
  have hcurrent : current ∈ sectionsOf config availableSlots s tasks := hnear.subset mem_cons_self
  have hnext : next ∈ sectionsOf config availableSlots s tasks := hnear.subset (mem_cons_of_mem _ mem_cons_self)
  obtain ⟨hcurrentHead, hcurrentSame⟩ := sectionsOf_spec hcurrent
  obtain ⟨hnextHead, hnextSame⟩ := sectionsOf_spec hnext
  by_cases hknown : known (current.headD 0) (next.headD 0)
  · have hordered := hsound _ _ (mem_of_section hcurrent hcurrentHead) (mem_of_section hnext hnextHead) hblock hknown
    apply hlinks.kept hs
    exact (hnextSame u hu).ordered_right hs ((hcurrentSame t ht).ordered_left hs hordered)
  · exact .single ((hlinks.edge_iff hs).mpr (.inr ⟨current, next, hnear, hblock, hknown, ht, hu⟩))

theorem ordered_of_sections (hs : s.Consistent) (hsorted : tasks.Pairwise (· < ·))
    (hlinks : WithLinks s s' (LinkedIn config known (sectionsOf config availableSlots s tasks)))
    (hsound : ∀ a b, a ∈ tasks → b ∈ tasks → blockOf config.split.syncTasksIds a = blockOf config.split.syncTasksIds b →
      known a b → s.Ordered a b)
    (hsections : sectionsOf config availableSlots s tasks = before ++ current :: sections) (ht : t ∈ current) (hu : u ∈ sections.flatten)
    (hblock : blockOf config.split.syncTasksIds (current.headD 0) = blockOf config.split.syncTasksIds u) : s'.Ordered t u := by
  induction sections generalizing before current t with
  | nil => exact absurd hu not_mem_nil
  | cons next sections ih =>
    have hnear : [current, next] <:+: sectionsOf config availableSlots s tasks := by
      rw [hsections]
      exact ⟨before, sections, by simp⟩
    obtain ⟨hcurrent, hnext, hlt⟩ := lt_of_infix hsorted hnear
    have hcurrentHead := (sectionsOf_spec hcurrent).1
    have hnextHead := (sectionsOf_spec hnext).1
    have hhead := hlt _ hcurrentHead _ hnextHead
    have hle : next.headD 0 ≤ u := by
      rw [← @flatten_sectionsOf config availableSlots s tasks, hsections, flatten_append, flatten_cons] at hsorted
      exact head_le_of_flatten (pairwise_append.mp (pairwise_append.mp hsorted).2.1).2.1 hnextHead hu
    have hblockNext : blockOf config.split.syncTasksIds (current.headD 0) = blockOf config.split.syncTasksIds (next.headD 0) := by
      have := @blockOf_mono config.split.syncTasksIds _ _ hhead.le
      have := @blockOf_mono config.split.syncTasksIds _ _ hle
      omega
    rcases mem_append.mp (flatten_cons ▸ hu) with hu | hu
    · exact ordered_of_infix hs hlinks hsound hnear hblockNext ht hu
    · have hstep := ordered_of_infix hs hlinks hsound hnear hblockNext ht hnextHead
      have hsections' : sectionsOf config availableSlots s tasks = (before ++ [current]) ++ next :: sections := by
        rw [hsections, append_assoc]
        rfl
      exact hstep.trans (ih hsections' hnextHead hu (hblockNext.symm.trans hblock))

end

/-- The tasks of one block are ordered, unless they have the same barriers; new dependencies go from smaller to larger
indices inside of a block, and the old order is kept. -/
structure Linearized (config : OptimizeConfig) (s s' : BarrierInfo) (tasks : List ℕ) : Prop where
  ordered : ∀ t ∈ tasks, ∀ u ∈ tasks, t < u → blockOf config.split.syncTasksIds t = blockOf config.split.syncTasksIds u →
    SameBarriers s t u ∨ s'.Ordered t u
  added : ∀ p c, s'.Edge p c → ¬s.Edge p c → p < c ∧ blockOf config.split.syncTasksIds p = blockOf config.split.syncTasksIds c
  kept : ∀ p c, s.Ordered p c → s'.Ordered p c

/-- No barrier is inserted before a section that goes on in the next block, and a task in which its section has gone on comes
before the later tasks of its block already. -/
structure SectionsFit (config : OptimizeConfig) (known : ℕ → ℕ → Prop) (s : BarrierInfo) (sections : List (List ℕ)) : Prop where
  linked : ∀ current next, [current, next] <:+: sections →
    blockOf config.split.syncTasksIds (current.headD 0) = blockOf config.split.syncTasksIds (next.headD 0) →
      ¬known (current.headD 0) (next.headD 0) →
        ∀ c ∈ next, blockOf config.split.syncTasksIds c = blockOf config.split.syncTasksIds (next.headD 0)
  crossing : ∀ current ∈ sections, ∀ t ∈ current,
    blockOf config.split.syncTasksIds t ≠ blockOf config.split.syncTasksIds (current.headD 0) → ∀ u ∈ sections.flatten, t < u →
      blockOf config.split.syncTasksIds u = blockOf config.split.syncTasksIds t → ¬SameBarriers s t u →
        ∃ x ∈ sections.flatten, x ≤ u ∧ s.Ordered t x

section
variable {config : OptimizeConfig} {availableSlots : ℕ} {known : ℕ → ℕ → Prop} {s s' : BarrierInfo} {tasks current : List ℕ} {t u : ℕ}

theorem sectionsFit_of_blocks {sections : List (List ℕ)} (h : ∀ current ∈ sections, ∀ t ∈ current,
    blockOf config.split.syncTasksIds t = blockOf config.split.syncTasksIds (current.headD 0)) :
    SectionsFit config known s sections where
  linked current next hlink _ _ c hc := h next (hlink.subset (by simp)) c hc
  crossing current hcurrent t ht hne := absurd (h current hcurrent t ht) hne

theorem section_unique (hsorted : tasks.Pairwise (· < ·)) {next : List ℕ} (hcurrent : current ∈ sectionsOf config availableSlots s tasks)
    (hnext : next ∈ sectionsOf config availableSlots s tasks) (ht : t ∈ current) (ht' : t ∈ next) : current = next := by
  rw [← @flatten_sectionsOf config availableSlots s tasks] at hsorted
  have hdisjoint := (pairwise_flatten.mp hsorted).2
  have : Std.Symm fun current next : List ℕ => ∀ x ∈ current, ∀ y ∈ next, x ≠ y :=
    ⟨fun _ _ h x hx y hy => (h y hy x hx).symm⟩
  by_contra hne
  exact (hdisjoint.imp fun h x hx y hy => Nat.ne_of_lt (h x hx y hy)).forall hcurrent hnext hne t ht t ht' rfl

theorem head_le (hsorted : tasks.Pairwise (· < ·)) (hcurrent : current ∈ sectionsOf config availableSlots s tasks) (ht : t ∈ current) :
    current.headD 0 ≤ t := by
  rw [← @flatten_sectionsOf config availableSlots s tasks] at hsorted
  apply @head_le_of_flatten current t []
  · simpa using (pairwise_flatten.mp hsorted).1 current hcurrent
  · exact (sectionsOf_spec hcurrent).1
  · simpa using ht

theorem ordered_of_section (hs : s.Consistent) (hsorted : tasks.Pairwise (· < ·))
    (hlinks : WithLinks s s' (LinkedIn config known (sectionsOf config availableSlots s tasks)))
    (hsound : ∀ a b, a ∈ tasks → b ∈ tasks → blockOf config.split.syncTasksIds a = blockOf config.split.syncTasksIds b →
      known a b → s.Ordered a b)
    (hcurrent : current ∈ sectionsOf config availableSlots s tasks) (ht : t ∈ current) (hu : u ∈ tasks) (htu : t < u)
    (hblock : blockOf config.split.syncTasksIds (current.headD 0) = blockOf config.split.syncTasksIds u)
    (hsame : ¬SameBarriers s t u) : s'.Ordered t u := by
  obtain ⟨before, sections, hsections⟩ := append_of_mem hcurrent
  have hflatten := @flatten_sectionsOf config availableSlots s tasks
  rw [hsections, flatten_append, flatten_cons] at hflatten
  rw [← hflatten] at hu hsorted
  rcases mem_append.mp hu with hu | hu
  · have hlt := (pairwise_append.mp hsorted).2.2 u hu t (mem_append_left _ ht)
    omega
  · rcases mem_append.mp hu with hu | hu
    · have hall := (sectionsOf_spec hcurrent).2
      exact absurd ((hall t ht).symm.trans (hall u hu)) hsame
    · exact ordered_of_sections hs (hflatten ▸ hsorted) hlinks hsound hsections ht hu hblock

theorem linkedIn_spec (hsorted : tasks.Pairwise (· < ·)) (hlink : LinkedIn config known (sectionsOf config availableSlots s tasks) t u) :
    t ∈ tasks ∧ u ∈ tasks ∧ t < u := by
  obtain ⟨current, next, hnear, -, -, ht, hu⟩ := hlink
  obtain ⟨hcurrent, hnext, hlt⟩ := lt_of_infix hsorted hnear
  exact ⟨mem_of_section hcurrent ht, mem_of_section hnext hu, hlt t ht u hu⟩

theorem linearized_topological (h : IndexedBlocks config s) (hsorted : tasks.Pairwise (· < ·))
    (hlinks : WithLinks s s' (LinkedIn config known (sectionsOf config availableSlots s tasks))) : s'.Topological := by
  intro p c hedge
  rcases (hlinks.edge_iff h.consistent).mp hedge with hedge | hlink
  · exact (h.fits p c hedge).1
  · exact (linkedIn_spec hsorted hlink).2.2

theorem blockOf_eq_of_between {sync : List ℕ} {a b c : ℕ} (hab : a ≤ b) (hbc : b ≤ c) (h : blockOf sync a = blockOf sync c) :
    blockOf sync b = blockOf sync c := by
  have := @blockOf_mono sync a b hab
  have := @blockOf_mono sync b c hbc
  omega

section
variable (h : IndexedBlocks config s) (hsorted : tasks.Pairwise (· < ·))
  (hlinks : WithLinks s s' (LinkedIn config known (sectionsOf config availableSlots s tasks)))
include h hsorted hlinks

theorem sectionsFit_of_linearized (hlinear : Linearized config s s' tasks) :
    SectionsFit config known s (sectionsOf config availableSlots s tasks) := by
  constructor
  · intro current next hnear hblock hnot c hc
    obtain ⟨hcurrent, hnext, hlt⟩ := lt_of_infix hsorted hnear
    have hcurrentHead := (sectionsOf_spec hcurrent).1
    have hnextHead := (sectionsOf_spec hnext).1
    have hle := head_le hsorted hnext hc
    have hheads := hlt _ hcurrentHead _ hnextHead
    have hedge : s'.Edge (current.headD 0) c :=
      (hlinks.edge_iff h.consistent).mpr (.inr ⟨current, next, hnear, hblock, hnot, hcurrentHead, hc⟩)
    by_cases hold : s.Edge (current.headD 0) c
    · obtain ⟨-, hfits⟩ := h.fits _ _ hold
      by_contra hne
      have hmono := @blockOf_mono config.split.syncTasksIds _ _ hle
      obtain ⟨sync, hsync, hbefore, hbehind⟩ := before_of_blockOf_lt (lt_of_le_of_ne hmono (Ne.symm hne))
      have := hfits sync hsync (by omega)
      omega
    · exact (hlinear.added _ _ hedge hold).2.symm.trans hblock
  · intro current hcurrent t ht hcrosses u hu htu hblock hsame
    rw [flatten_sectionsOf] at hu ⊢
    have hordered := (hlinear.ordered t (mem_of_section hcurrent ht) u hu htu hblock.symm).resolve_left hsame
    rcases ordered_firstLink hlinks h.consistent (linearized_topological h hsorted hlinks) hordered with hordered | ⟨x, y, hx, hlink, hy⟩
    · exact ⟨u, hu, le_refl _, hordered⟩
    · obtain ⟨hxMem, -, hxy⟩ := linkedIn_spec hsorted hlink
      rcases hx with rfl | hordered
      · -- the section of the task begins in an earlier block, so that no link starts from it
        obtain ⟨producers, next, hnear, hheads, -, hxProducers, -⟩ := hlink
        obtain ⟨hproducers, hnext, hlt⟩ := lt_of_infix hsorted hnear
        obtain rfl := section_unique hsorted hcurrent hproducers ht hxProducers
        have hbefore := hlt _ hxProducers _ (sectionsOf_spec hnext).1
        exact absurd ((blockOf_eq_of_between (head_le hsorted hcurrent ht) hbefore.le hheads).trans hheads.symm) hcrosses
      · exact ⟨x, hxMem, by omega, hordered⟩

theorem linearized_of_sectionsFit (hsound : ∀ a b, a ∈ tasks → b ∈ tasks → blockOf config.split.syncTasksIds a = blockOf config.split.syncTasksIds b →
      known a b → s.Ordered a b)
    (hfit : SectionsFit config known s (sectionsOf config availableSlots s tasks)) : Linearized config s s' tasks := by
  have htopological : s.Topological := fun p c hedge => (h.fits p c hedge).1
  refine ⟨?_, ?_, fun p c => hlinks.kept h.consistent⟩
  · intro t ht u hu htu hblock
    by_cases hsame : SameBarriers s t u
    · exact .inl hsame
    · right
      obtain ⟨current, hcurrent, htCurrent⟩ := @exists_section config availableSlots s tasks t ht
      by_cases hbegins : blockOf config.split.syncTasksIds t = blockOf config.split.syncTasksIds (current.headD 0)
      · exact ordered_of_section h.consistent hsorted hlinks hsound hcurrent htCurrent hu htu (hbegins.symm.trans hblock) hsame
      · have hcrossing := hfit.crossing current hcurrent t htCurrent hbegins u
        rw [flatten_sectionsOf] at hcrossing
        obtain ⟨x, hx, hxu, hordered⟩ := hcrossing hu htu hblock.symm hsame
        rcases hxu.eq_or_lt with rfl | hxu
        · exact hlinks.kept h.consistent hordered
        · by_cases hsameX : SameBarriers s x u
          · exact hlinks.kept h.consistent (hsameX.ordered_right h.consistent hordered)
          · have htx := htopological.lt_of_ordered hordered
            obtain ⟨later, hlater, hxLater, hbefore⟩ : ∃ later ∈ sectionsOf config availableSlots s tasks, x ∈ later ∧ t < later.headD 0 := by
              obtain ⟨before, sections, hsections⟩ := append_of_mem hcurrent
              have hflatten := @flatten_sectionsOf config availableSlots s tasks
              rw [hsections, flatten_append, flatten_cons] at hflatten
              have hsorted' := hsorted
              rw [← hflatten] at hx hsorted'
              obtain ⟨-, hbehind, hbefore⟩ := pairwise_append.mp hsorted'
              rcases mem_append.mp hx with hx | hx
              · have hlt := hbefore x hx t (mem_append_left _ htCurrent)
                omega
              · rcases mem_append.mp hx with hx | hx
                · have hall := (sectionsOf_spec hcurrent).2
                  have hcycle := ((hall x hx).symm.trans (hall t htCurrent)).ordered_right h.consistent hordered
                  exact absurd (htopological.lt_of_ordered hcycle) (Nat.lt_irrefl t)
                · obtain ⟨later, hlater, hxLater⟩ := mem_flatten.mp hx
                  have hmem : later ∈ sectionsOf config availableSlots s tasks := by
                    rw [hsections]
                    exact mem_append_right _ (mem_cons_of_mem _ hlater)
                  exact ⟨later, hmem, hxLater, (pairwise_append.mp hbehind).2.2 t htCurrent _
                    (mem_flatten.mpr ⟨later, hlater, (sectionsOf_spec hmem).1⟩)⟩
            have hle := head_le hsorted hlater hxLater
            have hblockLater := blockOf_eq_of_between hbefore.le (hle.trans hxu.le) hblock
            exact (hlinks.kept h.consistent hordered).trans
              (ordered_of_section h.consistent hsorted hlinks hsound hlater hxLater hu hxu hblockLater hsameX)
  · intro p c hedge hnew
    obtain ⟨current, next, hnear, hblock, hnot, hp, hc⟩ := ((hlinks.edge_iff h.consistent).mp hedge).resolve_left hnew
    obtain ⟨hcurrent, hnext, hlt⟩ := lt_of_infix hsorted hnear
    have hnextHead := (sectionsOf_spec hnext).1
    refine ⟨hlt p hp c hc, ?_⟩
    rw [hfit.linked current next hnear hblock hnot c hc]
    exact blockOf_eq_of_between (head_le hsorted hcurrent hp) (hlt p hp _ hnextHead).le hblock

end

end

end NpuCompiler.Barrier
