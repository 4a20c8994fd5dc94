import NpuCompiler.Barrier.BarrierReduction
import NpuCompiler.Library.ReachabilitySweeps

namespace NpuCompiler.Barrier.GraphSplit

open BarrierInfo FifoBarrierInfo Sweeps List

variable {lo hi t c i j : ℕ} {m : TaskControlMap}

structure Square (lo hi : ℕ) (m : TaskControlMap) : Prop where
  rows : m.length = hi - lo + 1
  columns : ∀ bits ∈ m, bits.length = hi - lo + 1

def RowBit (lo hi : ℕ) (m : TaskControlMap) (i j : ℕ) : Prop :=
  inRange lo hi i = true ∧ inRange lo hi j = true ∧ (m.getD (i - lo) []).getD (j - lo) false = true

section

theorem Square.modify (h : Square lo hi m) {f : List Bool → List Bool} {k : ℕ}
    (hf : ∀ bits, bits.length = hi - lo + 1 → (f bits).length = hi - lo + 1) : Square lo hi (m.modify k f) := by
  refine ⟨(length_modify _ _ _).trans h.rows, ?_⟩
  intro bits hbits
  obtain ⟨n, hn, rfl⟩ := getElem_of_mem hbits
  rw [getElem_modify]
  split_ifs
  · exact hf _ (h.columns _ (getElem_mem _))
  · exact h.columns _ (getElem_mem _)

theorem Square.row_length (h : Square lo hi m) (ht : inRange lo hi t = true) : (m.getD (t - lo) []).length = hi - lo + 1 := by
  rw [inRange_iff] at ht
  have hlt : t - lo < m.length := by
    rw [h.rows]
    omega
  rw [getD_eq_getElem _ _ hlt]
  exact h.columns _ (getElem_mem _)

theorem row_modify_ne {f : List Bool → List Bool} {k n : ℕ} (h : k ≠ n) : (m.modify k f).getD n [] = m.getD n [] := by
  rw [getD_eq_getElem?_getD, getD_eq_getElem?_getD, getElem?_modify]
  simp only [h, if_false, id_map']

theorem Square.row_modify (h : Square lo hi m) (ht : inRange lo hi t = true) {f : List Bool → List Bool} :
    (m.modify (t - lo) f).getD (t - lo) [] = f (m.getD (t - lo) []) := by
  rw [inRange_iff] at ht
  have hlt : t - lo < m.length := by
    rw [h.rows]
    omega
  rw [getD_eq_getElem?_getD, getElem?_modify_eq, getElem?_eq_getElem hlt, getD_eq_getElem _ _ hlt]
  rfl

theorem rowBit_modify (h : Square lo hi m) (ht : inRange lo hi t = true) {f : List Bool → List Bool} {P : ℕ → Prop}
    (hf : ∀ j, inRange lo hi j = true →
      ((f (m.getD (t - lo) [])).getD (j - lo) false = true ↔ (m.getD (t - lo) []).getD (j - lo) false = true ∨ P j)) :
    RowBit lo hi (m.modify (t - lo) f) i j ↔ RowBit lo hi m i j ∨ i = t ∧ inRange lo hi j = true ∧ P j := by
  unfold RowBit
  by_cases hit : i = t
  · subst hit
    rw [h.row_modify ht]
    by_cases hj : inRange lo hi j = true
    · rw [hf j hj]
      simp only [ht, hj, true_and]
    · simp only [hj, false_and, and_false, or_false, Bool.false_eq_true]
  · by_cases hi : inRange lo hi i = true
    · rw [row_modify_ne (sub_ne ht hi (Ne.symm hit)).symm]
      simp only [hit, false_and, or_false]
    · simp only [hi, hit, false_and, or_false, Bool.false_eq_true]

theorem Square.setBit (h : Square lo hi m) {row bit : ℕ} : Square lo hi (setBit m row bit) :=
  h.modify (fun _ hbits => (length_set ..).trans hbits)

theorem rowBit_setBit (h : Square lo hi m) (ht : inRange lo hi t = true) (hc : inRange lo hi c = true) :
    RowBit lo hi (GraphSplit.setBit m (t - lo) (c - lo)) i j ↔ RowBit lo hi m i j ∨ i = t ∧ inRange lo hi j = true ∧ j = c := by
  apply rowBit_modify h ht
  intro j hj
  have hlength := h.row_length ht
  rw [getD_eq_getElem?_getD, getElem?_set, hlength]
  by_cases heq : j = c
  · subst heq
    rw [inRange_iff] at hj
    rw [if_pos rfl, if_pos (by omega)]
    simp
  · rw [if_neg (sub_ne hj hc heq), ← getD_eq_getElem?_getD]
    simp only [heq, or_false]

theorem orRow_length (h : Square lo hi m) (hc : inRange lo hi c = true) {bits : List Bool} (hbits : bits.length = hi - lo + 1) :
    (bits.zipWith or (m.getD (c - lo) [])).length = hi - lo + 1 := by
  rw [length_zipWith, hbits, h.row_length hc, min_self]

theorem Square.orRow (h : Square lo hi m) (hc : inRange lo hi c = true) {row : ℕ} : Square lo hi (orRow m row (c - lo)) :=
  h.modify (fun _ hbits => orRow_length h hc hbits)

theorem rowBit_orRow (h : Square lo hi m) (ht : inRange lo hi t = true) (hc : inRange lo hi c = true) :
    RowBit lo hi (GraphSplit.orRow m (t - lo) (c - lo)) i j ↔ RowBit lo hi m i j ∨ i = t ∧ RowBit lo hi m c j := by
  have hrow := @rowBit_modify lo hi t i j m h ht (fun bits => bits.zipWith or (m.getD (c - lo) []))
    (fun j => (m.getD (c - lo) []).getD (j - lo) false = true) (by
      intro j hj
      have hlt : j - lo < hi - lo + 1 := by
        rw [inRange_iff] at hj
        omega
      have ht' := Nat.lt_of_lt_of_eq hlt (h.row_length ht).symm
      have hc' := Nat.lt_of_lt_of_eq hlt (h.row_length hc).symm
      have hz := Nat.lt_of_lt_of_eq hlt (orRow_length h hc (h.row_length ht)).symm
      rw [getD_eq_getElem _ _ hz, getD_eq_getElem _ _ ht', getD_eq_getElem _ _ hc', getElem_zipWith,
        Bool.or_eq_true])
  apply hrow.trans
  unfold RowBit
  simp only [hc, true_and]

variable {s : BarrierInfo}

def BlockEdge (s : BarrierInfo) (lo hi t c : ℕ) : Prop := inRange lo hi t = true ∧ inRange lo hi c = true ∧ s.Edge t c

theorem mem_childTasks (h : s.Consistent) {b : ℕ} : (b, c) ∈ childTasks s t ↔ s.EdgeAt b t c := by
  unfold childTasks EdgeAt
  rw [mem_flatMap]
  constructor
  · rintro ⟨b', hb', hmem⟩
    obtain ⟨c', hc', heq⟩ := mem_map.mp hmem
    obtain ⟨rfl, rfl⟩ := Prod.mk.inj heq
    exact ⟨h.update_iff.mp hb', hc'⟩
  · rintro ⟨hb, hc⟩
    exact ⟨b, h.update_iff.mpr hb, mem_map.mpr ⟨c, hc, rfl⟩⟩

theorem exists_childTasks (h : s.Consistent) : (∃ b, (b, c) ∈ childTasks s t) ↔ s.Edge t c :=
  exists_congr (fun _ => mem_childTasks h)

theorem directRows_spec (h : s.Consistent) (hm : Square lo hi m) (ht : inRange lo hi t = true) :
    Square lo hi (directRows s lo hi m t) ∧
      ∀ i j, RowBit lo hi (directRows s lo hi m t) i j ↔ RowBit lo hi m i j ∨ i = t ∧ BlockEdge s lo hi t j := by
  have hfold : ∀ (children : List (ℕ × ℕ)) (m : TaskControlMap), Square lo hi m →
      let m' := children.foldl (fun taskControlMap child =>
        if inRange lo hi child.2 then GraphSplit.setBit taskControlMap (t - lo) (child.2 - lo) else taskControlMap) m
      Square lo hi m' ∧ ∀ i j, RowBit lo hi m' i j ↔
        RowBit lo hi m i j ∨ i = t ∧ inRange lo hi j = true ∧ ∃ b, (b, j) ∈ children := by
    intro children
    induction children with
    | nil => exact fun m hm => ⟨hm, by simp⟩
    | cons child children ih =>
      intro m hm
      obtain ⟨b, c⟩ := child
      rw [foldl_cons]
      by_cases hc : inRange lo hi c = true
      · rw [if_pos hc]
        obtain ⟨hsquare, hbits⟩ := ih _ (@Square.setBit lo hi m hm (t - lo) (c - lo))
        refine ⟨hsquare, ?_⟩
        intro i j
        rw [hbits, rowBit_setBit hm ht hc]
        simp only [mem_cons, Prod.mk.injEq, exists_or]
        constructor
        · rintro ((hold | ⟨hit, hj, rfl⟩) | ⟨hit, hj, hmem⟩)
          · exact .inl hold
          · exact .inr ⟨hit, hj, .inl ⟨b, rfl, rfl⟩⟩
          · exact .inr ⟨hit, hj, .inr hmem⟩
        · rintro (hold | ⟨hit, hj, ⟨-, -, heq⟩ | hmem⟩)
          · exact .inl (.inl hold)
          · exact .inl (.inr ⟨hit, hj, heq⟩)
          · exact .inr ⟨hit, hj, hmem⟩
      · rw [if_neg hc]
        obtain ⟨hsquare, hbits⟩ := ih m hm
        refine ⟨hsquare, ?_⟩
        intro i j
        rw [hbits]
        apply or_congr_right
        apply and_congr_right
        intro _
        apply and_congr_right
        intro hj
        apply exists_congr
        intro b'
        rw [mem_cons, or_iff_right]
        intro heq
        rw [Prod.mk.injEq] at heq
        exact hc (heq.2 ▸ hj)
  obtain ⟨hsquare, hbits⟩ := hfold (childTasks s t) m hm
  refine ⟨hsquare, ?_⟩
  intro i j
  apply (hbits i j).trans
  unfold BlockEdge
  rw [exists_childTasks h]
  simp only [ht, true_and]

theorem directRows_run (h : s.Consistent) {tasks : List ℕ} (htasks : ∀ t ∈ tasks, inRange lo hi t = true) (hm : Square lo hi m) :
    Square lo hi (tasks.foldl (directRows s lo hi) m) ∧ ∀ i j, RowBit lo hi (tasks.foldl (directRows s lo hi) m) i j ↔
      RowBit lo hi m i j ∨ i ∈ tasks ∧ BlockEdge s lo hi i j := by
  induction tasks generalizing m with
  | nil => exact ⟨hm, by simp⟩
  | cons t tasks ih =>
    obtain ⟨ht, htasks⟩ := forall_mem_cons.mp htasks
    obtain ⟨hsquare, hbits⟩ := directRows_spec h hm ht
    obtain ⟨hsquare', hbits'⟩ := ih htasks hsquare
    refine ⟨hsquare', ?_⟩
    intro i j
    rw [foldl_cons, hbits', hbits, mem_cons]
    constructor
    · rintro ((hold | ⟨rfl, hedge⟩) | ⟨hmem, hedge⟩)
      · exact .inl hold
      · exact .inr ⟨.inl rfl, hedge⟩
      · exact .inr ⟨.inr hmem, hedge⟩
    · rintro (hold | ⟨rfl | hmem, hedge⟩)
      · exact .inl (.inl hold)
      · exact .inl (.inr ⟨rfl, hedge⟩)
      · exact .inr ⟨hmem, hedge⟩

theorem inheritRows_spec (h : s.Consistent) (hm : Square lo hi m) (ht : inRange lo hi t = true) :
    Square lo hi (inheritRows s lo hi m t) ∧
      RowBit lo hi (inheritRows s lo hi m t) = inherit (BlockEdge s lo hi) (RowBit lo hi m) t := by
  have hfold : ∀ (children : List (ℕ × ℕ)) (m : TaskControlMap), Square lo hi m →
      let m' := children.foldl (fun taskControlMap child =>
        if inRange lo hi child.2 then GraphSplit.orRow taskControlMap (t - lo) (child.2 - lo) else taskControlMap) m
      Square lo hi m' ∧ ∀ i j, RowBit lo hi m' i j ↔
        RowBit lo hi m i j ∨ i = t ∧ ∃ c, (∃ b, (b, c) ∈ children) ∧ RowBit lo hi m c j := by
    intro children
    induction children with
    | nil => exact fun m hm => ⟨hm, by simp⟩
    | cons child children ih =>
      intro m hm
      obtain ⟨b, c⟩ := child
      rw [foldl_cons]
      by_cases hc : inRange lo hi c = true
      · rw [if_pos hc]
        obtain ⟨hsquare, hbits⟩ := ih _ (@Square.orRow lo hi c m hm hc (t - lo))
        refine ⟨hsquare, ?_⟩
        intro i j
        rw [hbits, rowBit_orRow hm ht hc]
        constructor
        · rintro ((hold | ⟨hit, hrow⟩) | ⟨hit, c', ⟨b', hmem⟩, hrow⟩)
          · exact .inl hold
          · exact .inr ⟨hit, c, ⟨b, mem_cons_self⟩, hrow⟩
          · rcases (rowBit_orRow hm ht hc).mp hrow with hrow | ⟨-, hrow⟩
            · exact .inr ⟨hit, c', ⟨b', mem_cons_of_mem _ hmem⟩, hrow⟩
            · exact .inr ⟨hit, c, ⟨b, mem_cons_self⟩, hrow⟩
        · rintro (hold | ⟨hit, c', ⟨b', hmem⟩, hrow⟩)
          · exact .inl (.inl hold)
          · rcases mem_cons.mp hmem with heq | hmem
            · obtain ⟨rfl, rfl⟩ := Prod.mk.inj heq
              exact .inl (.inr ⟨hit, hrow⟩)
            · exact .inr ⟨hit, c', ⟨b', hmem⟩, (rowBit_orRow hm ht hc).mpr (.inl hrow)⟩
      · rw [if_neg hc]
        obtain ⟨hsquare, hbits⟩ := ih m hm
        refine ⟨hsquare, ?_⟩
        intro i j
        rw [hbits]
        constructor
        · rintro (hold | ⟨hit, c', ⟨b', hmem⟩, hrow⟩)
          · exact .inl hold
          · exact .inr ⟨hit, c', ⟨b', mem_cons_of_mem _ hmem⟩, hrow⟩
        · rintro (hold | ⟨hit, c', ⟨b', hmem⟩, hrow⟩)
          · exact .inl hold
          · rcases mem_cons.mp hmem with heq | hmem
            · obtain ⟨rfl, rfl⟩ := Prod.mk.inj heq
              exact absurd hrow.1 hc
            · exact .inr ⟨hit, c', ⟨b', hmem⟩, hrow⟩
  obtain ⟨hsquare, hbits⟩ := hfold (childTasks s t) m hm
  refine ⟨hsquare, ?_⟩
  funext i j
  apply propext
  apply (hbits i j).trans
  apply or_congr_right
  apply and_congr_right
  intro _
  apply exists_congr
  intro c
  unfold BlockEdge
  rw [exists_childTasks h]
  constructor
  · exact fun hrow => ⟨⟨ht, hrow.2.1, hrow.1⟩, hrow.2⟩
  · exact fun hrow => ⟨hrow.1.2.2, hrow.2⟩

theorem inheritRows_run (h : s.Consistent) (tasks : List ℕ) (htasks : ∀ t ∈ tasks, inRange lo hi t = true) (hm : Square lo hi m) :
    Square lo hi (tasks.foldl (inheritRows s lo hi) m) ∧
      RowBit lo hi (tasks.foldl (inheritRows s lo hi) m) = sweep (BlockEdge s lo hi) (RowBit lo hi m) tasks := by
  induction tasks generalizing m with
  | nil => exact ⟨hm, rfl⟩
  | cons t tasks ih =>
    obtain ⟨ht, htasks⟩ := forall_mem_cons.mp htasks
    obtain ⟨hsquare, hbits⟩ := inheritRows_spec h hm ht
    obtain ⟨hsquare', hbits'⟩ := ih htasks hsquare
    refine ⟨hsquare', ?_⟩
    rw [foldl_cons, hbits', hbits]
    rfl

end

section
variable {split : GraphSplit} {s : BarrierInfo} {ignoreOutOfBlockDependencies : Bool}

/-- A dependency inside of the block whose child's row is taken: the row of the sync task at the end is not continued. -/
def Onward (split : GraphSplit) (s : BarrierInfo) (lo hi t c : ℕ) : Prop :=
  BlockEdge s lo hi t c ∧ ¬ (t = hi ∧ t ∈ split.syncTasksIds)

def Closed (split : GraphSplit) (s : BarrierInfo) (lo hi : ℕ) (ignoreOutOfBlockDependencies : Bool) : Prop :=
  ignoreOutOfBlockDependencies = true ∨ ∀ t c, inRange lo hi t = true → ¬ (t = hi ∧ t ∈ split.syncTasksIds) → s.Edge t c →
    inRange lo hi c = true

def takenRow (s : BarrierInfo) (lo hi : ℕ) (state : TaskControlMap × List ℕ) (t : ℕ) : TaskControlMap × List ℕ :=
  (inheritRows s lo hi state.1 t,
    state.2 ++ ((childTasks s t).filter (fun child => inRange lo hi child.2 && child.2 < t)).map (fun _ => t))

theorem inheritTask_skip {state : TaskControlMap × List ℕ} (hthi : t = hi) (hsync : split.isSyncPoint s t = .ok true) :
    split.inheritTask s lo hi ignoreOutOfBlockDependencies state t = .ok state := by
  unfold inheritTask
  rw [if_pos hthi, hsync]
  rfl

theorem inheritTask_row {state : TaskControlMap × List ℕ} (hsync : t = hi → split.isSyncPoint s t = .ok false)
    (hclosed : ignoreOutOfBlockDependencies = true ∨ ∀ child ∈ childTasks s t, inRange lo hi child.2 = true) :
    split.inheritTask s lo hi ignoreOutOfBlockDependencies state t = .ok (takenRow s lo hi state t) := by
  unfold inheritTask
  generalize hfound : find? _ (childTasks s t) = found
  cases found with
  | none =>
    by_cases hthi : t = hi
    · rw [if_pos hthi, hsync hthi]
      rfl
    · rw [if_neg hthi]
      rfl
  | some child =>
    have hignore : ignoreOutOfBlockDependencies = true := by
      apply hclosed.resolve_right
      intro hclosed
      have hout := find?_some hfound
      dsimp only at hout
      rw [hclosed child (mem_of_find?_eq_some hfound)] at hout
      cases hout
    by_cases hthi : t = hi
    · rw [if_pos hthi, hsync hthi, hignore]
      rfl
    · rw [if_neg hthi, hignore]
      rfl

theorem inheritTask_spec (h : s.Consistent) (hsync : split.isSyncPoint s hi = .ok (decide (hi ∈ split.syncTasksIds)))
    (hclosed : Closed split s lo hi ignoreOutOfBlockDependencies) (hm : Square lo hi m) (ht : inRange lo hi t = true)
    (back : List ℕ) :
    ∃ m' back', split.inheritTask s lo hi ignoreOutOfBlockDependencies (m, back) t = .ok (m', back') ∧ Square lo hi m' ∧
      RowBit lo hi m' = inherit (Onward split s lo hi) (RowBit lo hi m) t ∧
      ∀ x, x ∈ back' ↔ x ∈ back ∨ x = t ∧ ∃ c, Onward split s lo hi t c ∧ c < t := by
  by_cases hskip : t = hi ∧ t ∈ split.syncTasksIds
  · have hnone (c : ℕ) : ¬ Onward split s lo hi t c := fun honward => honward.2 hskip
    refine ⟨m, back, ?_, hm, ?_, ?_⟩
    · apply inheritTask_skip hskip.1
      rw [hskip.1, hsync, ← hskip.1, decide_eq_true hskip.2]
    · funext i j
      apply propext
      unfold inherit
      simp only [hnone, false_and, exists_false, and_false, or_false]
    · intro x
      simp only [hnone, false_and, exists_false, and_false, or_false]
  · have honward (c : ℕ) : Onward split s lo hi t c ↔ BlockEdge s lo hi t c := and_iff_left hskip
    obtain ⟨hsquare, hbits⟩ := inheritRows_spec h hm ht
    refine ⟨_, _, inheritTask_row ?_ ?_, hsquare, ?_, ?_⟩
    · rintro rfl
      rw [hsync, decide_eq_false (fun hmem => hskip ⟨rfl, hmem⟩)]
    · apply hclosed.imp_right
      intro hclosed child hchild
      exact hclosed t child.2 ht hskip ((exists_childTasks h).mp ⟨child.1, hchild⟩)
    · rw [hbits]
      unfold inherit
      simp only [honward]
    · intro x
      simp only [honward]
      rw [mem_append, mem_map]
      apply or_congr_right
      constructor
      · rintro ⟨⟨b, c⟩, hmem, rfl⟩
        rw [mem_filter, Bool.and_eq_true, decide_eq_true_eq] at hmem
        exact ⟨rfl, c, ⟨ht, hmem.2.1, (exists_childTasks h).mp ⟨b, hmem.1⟩⟩, hmem.2.2⟩
      · rintro ⟨rfl, c, ⟨-, hc, hedge⟩, hlt⟩
        obtain ⟨b, hmem⟩ := (exists_childTasks h).mpr hedge
        refine ⟨(b, c), ?_, rfl⟩
        rw [mem_filter, Bool.and_eq_true, decide_eq_true_eq]
        exact ⟨hmem, hc, hlt⟩

theorem inheritTask_run (h : s.Consistent) (hsync : split.isSyncPoint s hi = .ok (decide (hi ∈ split.syncTasksIds)))
    (hclosed : Closed split s lo hi ignoreOutOfBlockDependencies) {tasks : List ℕ}
    (htasks : ∀ t ∈ tasks, inRange lo hi t = true) (hm : Square lo hi m) (back : List ℕ) :
    ∃ m' back', tasks.foldlM (split.inheritTask s lo hi ignoreOutOfBlockDependencies) (m, back) = .ok (m', back') ∧
      Square lo hi m' ∧ RowBit lo hi m' = sweep (Onward split s lo hi) (RowBit lo hi m) tasks ∧
      ∀ x, x ∈ back' ↔ x ∈ back ∨ x ∈ tasks ∧ ∃ c, Onward split s lo hi x c ∧ c < x := by
  induction tasks generalizing m back with
  | nil => exact ⟨m, back, rfl, hm, rfl, by simp⟩
  | cons t tasks ih =>
    obtain ⟨ht, htasks⟩ := forall_mem_cons.mp htasks
    obtain ⟨m₁, back₁, hstep, hsquare, hbits, hback⟩ := inheritTask_spec h hsync hclosed hm ht back
    obtain ⟨m', back', hrun, hsquare', hbits', hback'⟩ := ih htasks hsquare back₁
    refine ⟨m', back', ?_, hsquare', ?_, ?_⟩
    · rw [foldlM_cons, hstep]
      exact hrun
    · rw [hbits', hbits]
      rfl
    · intro x
      rw [hback', hback, mem_cons]
      constructor
      · rintro ((hold | ⟨rfl, hlater⟩) | ⟨hmem, hlater⟩)
        · exact .inl hold
        · exact .inr ⟨.inl rfl, hlater⟩
        · exact .inr ⟨.inr hmem, hlater⟩
      · rintro (hold | ⟨rfl | hmem, hlater⟩)
        · exact .inl (.inl hold)
        · exact .inl (.inr ⟨rfl, hlater⟩)
        · exact .inr ⟨hmem, hlater⟩

theorem sweep_onward (split : GraphSplit) {M : ℕ → ℕ → Prop} {tasks : List ℕ} (htasks : ∀ t ∈ tasks, ¬ (t = hi ∧ t ∈ split.syncTasksIds)) :
    sweep (BlockEdge s lo hi) M tasks = sweep (Onward split s lo hi) M tasks := by
  induction tasks generalizing M with
  | nil => rfl
  | cons t tasks ih =>
    obtain ⟨ht, htasks⟩ := forall_mem_cons.mp htasks
    have hrow : inherit (BlockEdge s lo hi) M t = inherit (Onward split s lo hi) M t := by
      unfold inherit Onward
      simp only [ht, not_false_eq_true, and_true]
    change sweep _ (inherit _ M t) tasks = sweep _ (inherit _ M t) tasks
    rw [hrow]
    exact ih htasks

theorem revisitRows_spec (h : s.Consistent) (hm : Square lo hi m)
    (hdown : RowBit lo hi m = Down (BlockEdge s lo hi) (Onward split s lo hi)) {back : List ℕ}
    (hback : ∀ x, x ∈ back ↔ ∃ c, Onward split s lo hi x c ∧ c < x) :
    RowBit lo hi (revisitRows s lo hi m back) = Found (BlockEdge s lo hi) (Onward split s lo hi) := by
  have hin (x : ℕ) (hx : x ∈ back) : inRange lo hi x = true ∧ ¬ (x = hi ∧ x ∈ split.syncTasksIds) := by
    obtain ⟨c, honward, -⟩ := (hback x).mp hx
    exact ⟨honward.1.1, honward.2⟩
  unfold revisitRows
  cases hmax : back.max? with
  | none =>
    -- no step back at all
    have hnil : back = [] := max?_eq_none_iff.mp hmax
    have hrise (i c : ℕ) (hc : Onward split s lo hi i c) : ¬ c < i := by
      intro hlt
      have := (hback i).mpr ⟨c, hc, hlt⟩
      rw [hnil] at this
      exact not_mem_nil this
    dsimp only
    rw [hdown]
    funext i j
    apply propext
    rw [← sweep_found (l := []) .nil (fun _ _ _ _ _ => not_mem_nil) (fun i a d c _ _ _ hc => hrise d c hc)]
    exact sweep_repaired (l := []) .nil (fun i c hc hlt => absurd hlt (hrise i c hc))
  | some highestTaskInd =>
    dsimp only
    have hhighest : highestTaskInd ∈ back := max?_mem hmax
    have hmaximal : ∀ x ∈ back, x ≤ highestTaskInd := (max?_eq_some_iff.mp hmax).2
    obtain ⟨hhighestIn, -⟩ := hin _ hhighest
    rw [inRange_iff] at hhighestIn
    have hsortedMem (x : ℕ) : x ∈ back.insertionSort (· ≤ ·) ↔ x ∈ back := mem_insertionSort _
    have hlast (t : ℕ) : t ∈ (tasksFrom lo highestTaskInd).reverse ↔ lo ≤ t ∧ t < highestTaskInd := by
      rw [mem_reverse, mem_tasksFrom]
    obtain ⟨hsquare, hbits⟩ := inheritRows_run h (back.insertionSort (· ≤ ·))
      (fun t ht => (hin t ((hsortedMem t).mp ht)).1) hm
    obtain ⟨-, hbits'⟩ := inheritRows_run h (tasksFrom lo highestTaskInd).reverse (by
      intro t ht
      rw [hlast] at ht
      rw [inRange_iff]
      omega) hsquare
    rw [hbits', hbits, sweep_onward split, sweep_onward split, hdown]
    · have hrepaired : sweep (Onward split s lo hi) (Down (BlockEdge s lo hi) (Onward split s lo hi))
          (back.insertionSort (· ≤ ·)) = Repaired (BlockEdge s lo hi) (Onward split s lo hi) := by
        rw [← sweep_dedup (pairwise_insertionSort _ _)]
        funext i j
        apply propext
        apply sweep_repaired
        · have hle := (pairwise_insertionSort (· ≤ ·) back).sublist (dedup_sublist _)
          have hne := nodup_dedup (back.insertionSort (· ≤ ·))
          exact (hle.and hne).imp (fun hlt => Nat.lt_of_le_of_ne hlt.1 hlt.2)
        · intro i c hc hlt
          rw [mem_dedup, hsortedMem, hback]
          exact ⟨c, hc, hlt⟩
      rw [hrepaired]
      funext i j
      apply propext
      apply sweep_found
      · rw [pairwise_reverse]
        exact pairwise_tasksFrom
      · intro i c hc hlt hi' hmem
        rw [hlast] at hi' hmem
        have hi := inRange_iff.mp hc.1.1
        omega
      · intro i a d c hi' ha hlt hc hcd
        rw [hlast] at hi'
        have hi := inRange_iff.mp ha.1.1
        have hd := hmaximal d ((hback d).mpr ⟨c, hc, hcd⟩)
        omega
    · exact fun t ht => (hin t ((hsortedMem t).mp ht)).2
    · intro t ht
      rw [hlast] at ht
      rintro ⟨rfl, -⟩
      omega

theorem square_replicate : Square lo hi (List.replicate (hi - lo + 1) (List.replicate (hi - lo + 1) false)) := by
  refine ⟨length_replicate, ?_⟩
  intro bits hbits
  rw [eq_of_mem_replicate hbits, length_replicate]

theorem rowBit_replicate {n : ℕ} : ¬ RowBit lo hi (List.replicate n (List.replicate n false)) i j := by
  rintro ⟨-, -, hbit⟩
  rw [getD_eq_getElem?_getD, getD_eq_getElem?_getD, getElem?_replicate] at hbit
  by_cases hi : i - lo < n
  · rw [if_pos hi, Option.getD_some, getElem?_replicate] at hbit
    by_cases hj : j - lo < n
    · rw [if_pos hj] at hbit
      cases hbit
    · rw [if_neg hj] at hbit
      cases hbit
  · rw [if_neg hi] at hbit
    cases hbit

theorem buildTaskControlMap_found (h : s.Consistent) (hsplit : split.WellFormed s.getNumOfTasks) (hpos : 0 < s.getNumOfTasks)
    {k : ℕ} (hk : BlockRange split s k lo hi) (hclosed : Closed split s lo hi ignoreOutOfBlockDependencies) :
    ∃ m, split.buildTaskControlMap s k ignoreOutOfBlockDependencies = .ok (m, lo) ∧
      RowBit lo hi m = Found (BlockEdge s lo hi) (Onward split s lo hi) := by
  have htasks (t : ℕ) : t ∈ (tasksFrom lo (hi + 1)).reverse ↔ inRange lo hi t = true := by
    rw [mem_reverse, mem_tasksFrom, inRange_iff, Nat.lt_succ_iff]
  obtain ⟨hsquare, hdirect⟩ := directRows_run h (fun t ht => (htasks t).mp ht) (@square_replicate lo hi)
  obtain ⟨m, back, hrun, hm, hbits, hback⟩ := inheritTask_run h (isSyncPoint_eq hsplit (hk.lt hpos)) hclosed
    (fun t ht => (htasks t).mp ht) hsquare []
  refine ⟨revisitRows s lo hi m back, ?_, ?_⟩
  · unfold buildTaskControlMap
    rw [hk.range]
    change (if lo > hi then _ else _) = _
    rw [if_neg (Nat.not_lt.mpr hk.le)]
    change Except.bind (List.foldlM _ _ _) _ = _
    rw [hrun]
    rfl
  · apply revisitRows_spec h hm
    · rw [hbits]
      have hedges : RowBit lo hi ((tasksFrom lo (hi + 1)).reverse.foldl (directRows s lo hi)
          (List.replicate (hi - lo + 1) (List.replicate (hi - lo + 1) false))) = BlockEdge s lo hi := by
        funext i j
        apply propext
        rw [hdirect, htasks]
        constructor
        · exact fun hbit => (hbit.resolve_left rowBit_replicate).2
        · exact fun hedge => .inr ⟨hedge.1, hedge⟩
      rw [hedges]
      funext i j
      apply propext
      apply sweep_down
      · rw [pairwise_reverse]
        exact pairwise_tasksFrom
      · intro i c hc
        rw [htasks, htasks]
        exact ⟨hc.1.1, hc.1.2.1⟩
    · intro x
      rw [hback, htasks]
      constructor
      · rintro (hnil | ⟨-, hlater⟩)
        · exact absurd hnil not_mem_nil
        · exact hlater
      · rintro ⟨c, hc, hlt⟩
        exact .inr ⟨hc.1.1, c, hc, hlt⟩

end

end NpuCompiler.Barrier.GraphSplit
