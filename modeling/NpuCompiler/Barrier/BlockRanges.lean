import NpuCompiler.Barrier.OptimizeBarriers

namespace NpuCompiler.Barrier

open BarrierInfo GraphSplit List

section
variable {start stop t : ℕ}

theorem mem_tasksFrom : t ∈ tasksFrom start stop ↔ start ≤ t ∧ t < stop := by
  unfold tasksFrom
  rw [mem_map]
  constructor
  · rintro ⟨k, hk, rfl⟩
    have hlt := mem_range.mp hk
    omega
  · rintro ⟨hle, hlt⟩
    exact ⟨t - start, mem_range.mpr (by omega), by omega⟩

theorem pairwise_tasksFrom : (tasksFrom start stop).Pairwise (· < ·) := by
  unfold tasksFrom
  rw [pairwise_map]
  exact pairwise_lt_range.imp (fun h => Nat.add_lt_add_left h start)

theorem nodup_tasksFrom : (tasksFrom start stop).Nodup := pairwise_tasksFrom.imp Nat.ne_of_lt

end

section
variable {sync blocks : List ℕ} {n t : ℕ}

theorem getD_foldl_set {tasks : List ℕ} {v : ℕ} :
    (tasks.foldl (fun blocks taskInd => blocks.set taskInd v) blocks).length = blocks.length ∧
      (tasks.foldl (fun blocks taskInd => blocks.set taskInd v) blocks).getD t 0 =
        if t ∈ tasks ∧ t < blocks.length then v else blocks.getD t 0 := by
  induction tasks generalizing blocks with
  | nil => exact ⟨rfl, by simp⟩
  | cons x tasks ih =>
    rw [foldl_cons]
    obtain ⟨hlength, hget⟩ := @ih (blocks.set x v)
    rw [length_set] at hlength hget
    refine ⟨hlength, ?_⟩
    rw [hget]
    by_cases ht : t ∈ tasks ∧ t < blocks.length
    · rw [if_pos ht, if_pos ⟨mem_cons_of_mem _ ht.1, ht.2⟩]
    · rw [if_neg ht, getD_eq_getElem?_getD, getElem?_set]
      by_cases hx : x = t
      · subst hx
        by_cases hlt : x < blocks.length
        · rw [if_pos rfl, if_pos hlt, if_pos ⟨mem_cons_self, hlt⟩]
          rfl
        · rw [if_pos rfl, if_neg hlt, if_neg (fun h => hlt h.2), getD_eq_getElem?_getD,
            getElem?_eq_none (Nat.le_of_not_lt hlt)]
      · rw [if_neg hx, ← getD_eq_getElem?_getD, if_neg]
        rintro ⟨hmem, hlt⟩
        exact ht ⟨(mem_cons.mp hmem).resolve_left (Ne.symm hx), hlt⟩

def blockOf (sync : List ℕ) (t : ℕ) : ℕ := sync.countP (· < t)

theorem blockOf_mono {sync : List ℕ} {x y : ℕ} (h : x ≤ y) : blockOf sync x ≤ blockOf sync y := by
  apply countP_mono_left
  intro t _ ht
  rw [decide_eq_true_eq] at ht ⊢
  exact Nat.lt_of_lt_of_le ht h

theorem blockOf_append {done rest : List ℕ} (hdone : ∀ x ∈ done, x < t) (hrest : ∀ x ∈ rest, t ≤ x) :
    blockOf (done ++ rest) t = done.length := by
  unfold blockOf
  rw [countP_append, countP_eq_length.mpr (fun x hx => decide_eq_true (hdone x hx)),
    countP_eq_zero.mpr (fun x hx => by simpa using hrest x hx)]
  rfl

theorem blockOf_succ (hsorted : sync.Pairwise (· < ·)) : blockOf sync (t + 1) ≠ blockOf sync t ↔ t ∈ sync := by
  have hnodup : sync.Nodup := hsorted.imp Nat.ne_of_lt
  have hsplit : blockOf sync (t + 1) = blockOf sync t + sync.count t := by
    unfold blockOf
    clear hsorted hnodup
    induction sync with
    | nil => rfl
    | cons x sync ih =>
      rw [countP_cons, countP_cons, count_cons, ih]
      by_cases hlt : x < t
      · have hne : ¬ x = t := by omega
        have hlt' : x < t + 1 := by omega
        simp only [hlt, hlt', hne, beq_iff_eq, decide_true, if_true, if_false]
        omega
      · by_cases heq : x = t
        · simp only [heq, beq_self_eq_true, if_true, Nat.lt_irrefl, Nat.lt_succ_self, decide_true, decide_false,
            Bool.false_eq_true, if_false]
          omega
        · have hlt' : ¬ x < t + 1 := by omega
          simp only [hlt, hlt', heq, beq_iff_eq, decide_false, Bool.false_eq_true, if_false]
          omega
  rw [hsplit]
  by_cases hmem : t ∈ sync
  · rw [count_eq_one_of_mem hnodup hmem]
    simp [hmem]
  · rw [count_eq_zero_of_not_mem hmem]
    simp [hmem]

theorem buildTaskBlockMap_spec (hsorted : sync.Pairwise (· < ·)) : (buildTaskBlockMap sync n).length = n ∧
    ∀ t < n, (buildTaskBlockMap sync n).getD t 0 = blockOf sync t := by
  -- after the sync tasks `done`, the tasks before `start` have their block
  suffices hrun : ∀ (rest done blocks : List ℕ) (start : ℕ), sync = done ++ rest → blocks.length = n →
      (∀ x ∈ done, x < start) → (∀ x ∈ rest, start ≤ x) → (∀ t < n, t < start → blocks.getD t 0 = blockOf sync t) →
      let state := rest.foldl (fun (state : List ℕ × ℕ × ℕ) syncTaskInd =>
        ((tasksFrom state.2.1 (syncTaskInd + 1)).foldl (fun blocks taskInd => blocks.set taskInd state.2.2) state.1,
          syncTaskInd + 1, state.2.2 + 1)) (blocks, start, done.length)
      let final := (tasksFrom state.2.1 n).foldl (fun blocks taskInd => blocks.set taskInd state.2.2) state.1
      final.length = n ∧ ∀ t < n, final.getD t 0 = blockOf sync t by
    exact hrun sync [] (List.replicate n 0) 0 rfl length_replicate (by simp) (fun _ _ => Nat.zero_le _)
      (fun t _ ht => absurd ht (Nat.not_lt_zero t))
  intro rest
  induction rest with
  | nil =>
    intro done blocks start heq hlength hdone _ hblocks
    dsimp only [foldl_nil]
    refine ⟨getD_foldl_set (t := 0).1.trans hlength, ?_⟩
    intro t ht
    rw [getD_foldl_set.2, hlength]
    by_cases hstart : start ≤ t
    · rw [if_pos ⟨mem_tasksFrom.mpr ⟨hstart, ht⟩, ht⟩, heq, blockOf_append]
      · exact fun x hx => Nat.lt_of_lt_of_le (hdone x hx) hstart
      · exact fun x hx => absurd hx not_mem_nil
    · rw [if_neg (fun h => hstart (mem_tasksFrom.mp h.1).1)]
      exact hblocks t ht (Nat.lt_of_not_le hstart)
  | cons x rest ih =>
    intro done blocks start heq hlength hdone hrest hblocks
    have hsorted' := hsorted
    rw [heq, pairwise_append, pairwise_cons] at hsorted'
    obtain ⟨-, ⟨hx, -⟩, hcross⟩ := hsorted'
    have hnext := ih (done ++ [x])
      ((tasksFrom start (x + 1)).foldl (fun blocks taskInd => blocks.set taskInd done.length) blocks) (x + 1)
      (by rw [heq]; simp) (getD_foldl_set (t := 0).1.trans hlength)
    rw [length_append, length_singleton] at hnext
    apply hnext
    · intro y hy
      cases mem_append.mp hy with
      | inl hy => exact Nat.lt_succ_of_lt (hcross y hy x mem_cons_self)
      | inr hy => exact Nat.lt_succ_of_le (Nat.le_of_eq (mem_singleton.mp hy))
    · exact fun y hy => hx y hy
    · intro t ht hlt
      rw [getD_foldl_set.2, hlength]
      by_cases hstart : start ≤ t
      · rw [if_pos ⟨mem_tasksFrom.mpr ⟨hstart, hlt⟩, ht⟩, heq, blockOf_append]
        · exact fun y hy => Nat.lt_of_lt_of_le (hdone y hy) hstart
        · intro y hy
          cases mem_cons.mp hy with
          | inl hy => exact hy ▸ Nat.le_of_lt_succ hlt
          | inr hy => exact Nat.le_trans (Nat.le_of_lt_succ hlt) (Nat.le_of_lt (hx y hy))
      · rw [if_neg (fun h => hstart (mem_tasksFrom.mp h.1).1)]
        exact hblocks t ht (Nat.lt_of_not_le hstart)

end

structure GraphSplit.WellFormed (split : GraphSplit) (nTasks : ℕ) : Prop where
  sorted : split.syncTasksIds.Pairwise (· < ·)
  pos : ∀ t ∈ split.syncTasksIds, 0 < t
  lt : ∀ t ∈ split.syncTasksIds, t + 1 < nTasks
  blockMap : split.syncTasksIds ≠ [] → split.taskToBlockMap = buildTaskBlockMap split.syncTasksIds nTasks

def GraphSplit.Fits (split : GraphSplit) (p c : ℕ) : Prop := p < c ∧ ∀ t ∈ split.syncTasksIds, p < t → c ≤ t

section
variable {split : GraphSplit} {s : BarrierInfo} {k t : ℕ}

theorem isSyncPoint_eq (h : split.WellFormed s.getNumOfTasks) (ht : t < s.getNumOfTasks) :
    split.isSyncPoint s t = .ok (decide (t ∈ split.syncTasksIds)) := by
  unfold isSyncPoint
  dsimp only
  rw [if_neg (Nat.not_le.mpr ht)]
  by_cases hlast : split.syncTasksIds = [] ∨ t = s.getNumOfTasks - 1
  · rw [if_pos hlast, decide_eq_false]
    intro hmem
    cases hlast with
    | inl hnil => exact absurd (hnil ▸ hmem) not_mem_nil
    | inr hlast =>
      have := h.lt t hmem
      omega
  · rw [not_or] at hlast
    have hspec := @buildTaskBlockMap_spec split.syncTasksIds s.getNumOfTasks h.sorted
    rw [if_neg (by rw [not_or]; exact hlast), h.blockMap hlast.1, if_neg (not_not.mpr hspec.1), hspec.2 t ht,
      hspec.2 (t + 1) (by omega), Except.ok.injEq, Bool.eq_iff_iff, bne_iff_ne, decide_eq_true_eq]
    exact blockOf_succ h.sorted

structure BlockRange (split : GraphSplit) (s : BarrierInfo) (k lo hi : ℕ) : Prop where
  range : split.getControlGraphBlockTaskRange s k true true = .ok (lo, hi)
  le : lo ≤ hi
  lt : 0 < s.getNumOfTasks → hi < s.getNumOfTasks
  first : lo = 0 ∨ lo ∈ split.syncTasksIds
  last : hi = s.getNumOfTasks - 1 ∨ hi ∈ split.syncTasksIds

theorem sync_le (hsorted : split.syncTasksIds.Pairwise (· < ·)) {i j : ℕ} (hij : i ≤ j) (hj : j < split.syncTasksIds.length) :
    split.syncTasksIds.getD i 0 ≤ split.syncTasksIds.getD j 0 := by
  rw [getD_eq_getElem _ _ (Nat.lt_of_le_of_lt hij hj), getD_eq_getElem _ _ hj]
  by_cases heq : i = j
  · subst heq
    exact Nat.le_refl _
  · exact Nat.le_of_lt (pairwise_iff_getElem.mp hsorted i j _ hj (Nat.lt_of_le_of_ne hij heq))

theorem sync_mem {i : ℕ} (hi : i < split.syncTasksIds.length) : split.syncTasksIds.getD i 0 ∈ split.syncTasksIds := by
  rw [getD_eq_getElem _ _ hi]
  exact getElem_mem hi

theorem exists_range (hk : k < split.getControlGraphBlockCount) (blockStartSyncPoint blockEndSyncPoint : Bool) :
    ∃ lo hi, split.getControlGraphBlockTaskRange s k blockStartSyncPoint blockEndSyncPoint = .ok (lo, hi) := by
  unfold getControlGraphBlockTaskRange
  rw [if_neg (Nat.not_le.mpr hk)]
  exact ⟨_, _, rfl⟩

theorem exists_blockRange (h : split.WellFormed s.getNumOfTasks) (hk : k < split.getControlGraphBlockCount) :
    ∃ lo hi, BlockRange split s k lo hi := by
  have hcount : split.getControlGraphBlockCount = split.syncTasksIds.length + 1 := rfl
  refine ⟨if k = 0 then 0 else split.syncTasksIds.getD (k - 1) 0,
    if k = split.syncTasksIds.length then s.getNumOfTasks - 1 else split.syncTasksIds.getD k 0, ?_, ?_, ?_, ?_, ?_⟩
  · unfold getControlGraphBlockTaskRange
    rw [if_neg (Nat.not_le.mpr hk)]
    rfl
  · by_cases hfirst : k = 0
    · rw [if_pos hfirst]
      exact Nat.zero_le _
    · rw [if_neg hfirst]
      by_cases hlast : k = split.syncTasksIds.length
      · rw [if_pos hlast]
        have := h.lt _ (sync_mem (Nat.lt_of_lt_of_le (Nat.sub_one_lt hfirst) (Nat.le_of_lt_succ hk)))
        omega
      · rw [if_neg hlast]
        exact sync_le h.sorted (Nat.sub_le _ _) (by omega)
  · intro hpos
    by_cases hlast : k = split.syncTasksIds.length
    · rw [if_pos hlast]
      omega
    · rw [if_neg hlast]
      have := h.lt _ (sync_mem (Nat.lt_of_le_of_ne (Nat.le_of_lt_succ hk) hlast))
      omega
  · by_cases hfirst : k = 0
    · exact .inl (if_pos hfirst)
    · rw [if_neg hfirst]
      exact .inr (sync_mem (by omega))
  · by_cases hlast : k = split.syncTasksIds.length
    · exact .inl (if_pos hlast)
    · rw [if_neg hlast]
      exact .inr (sync_mem (by omega))

theorem fits_of_inner (h : split.WellFormed s.getNumOfTasks) {lo hi p c : ℕ}
    (hrange : split.getControlGraphBlockTaskRange s k false false = .ok (lo, hi)) (hp : lo ≤ p) (hpc : p < c) (hc : c ≤ hi) :
    split.Fits p c := by
  have hcount : split.getControlGraphBlockCount = split.syncTasksIds.length + 1 := rfl
  unfold getControlGraphBlockTaskRange at hrange
  by_cases hk : k ≥ split.getControlGraphBlockCount
  · rw [if_pos hk] at hrange
    cases hrange
  · rw [if_neg hk] at hrange
    simp only [Bool.false_eq_true, if_false, hcount, Nat.add_sub_cancel, Except.ok.injEq, Prod.mk.injEq] at hrange
    obtain ⟨hlo, hhi⟩ := hrange
    refine ⟨hpc, ?_⟩
    intro t ht hpt
    obtain ⟨j, hj, rfl⟩ := getElem_of_mem ht
    rw [← getD_eq_getElem _ 0 hj] at hpt ⊢
    by_cases hjk : j < k
    · have hle := sync_le h.sorted (Nat.le_sub_one_of_lt hjk) (by omega)
      rw [if_neg (by omega)] at hlo
      omega
    · have hlast : k ≠ split.syncTasksIds.length := by omega
      have hle := sync_le h.sorted (Nat.le_of_not_lt hjk) hj
      rw [if_neg hlast] at hhi
      omega

theorem inner_lt (h : split.WellFormed s.getNumOfTasks) (hpos : 0 < s.getNumOfTasks) {lo hi : ℕ}
    (hrange : split.getControlGraphBlockTaskRange s k false false = .ok (lo, hi)) : hi < s.getNumOfTasks := by
  have hcount : split.getControlGraphBlockCount = split.syncTasksIds.length + 1 := rfl
  unfold getControlGraphBlockTaskRange at hrange
  by_cases hk : k ≥ split.getControlGraphBlockCount
  · rw [if_pos hk] at hrange
    cases hrange
  · rw [if_neg hk] at hrange
    simp only [Bool.false_eq_true, if_false, hcount, Nat.add_sub_cancel, Except.ok.injEq, Prod.mk.injEq] at hrange
    obtain ⟨-, rfl⟩ := hrange
    by_cases hlast : k = split.syncTasksIds.length
    · rw [if_pos hlast]
      omega
    · rw [if_neg hlast]
      have := h.lt _ (sync_mem (Nat.lt_of_le_of_ne (Nat.le_of_lt_succ (Nat.lt_of_not_le hk)) hlast))
      omega

end

section
variable {config : OptimizeConfig} {s : FifoBarrierInfo} {k lo hi : ℕ} {blockStart blockEnd updateBarriers : Bool}

structure BlockBarriers (s : FifoBarrierInfo) (lo hi : ℕ) (barriers : ℕ → TaskSet) (l : List ℕ) : Prop where
  sorted : l.Pairwise (· < ·)
  lt : ∀ b ∈ l, b < s.numOfBarrierOps + s.fifoDependencies.length
  used : ∀ b ∈ l, ∃ t, lo ≤ t ∧ t ≤ hi ∧ b ∈ barriers t
  complete : ∀ t, lo ≤ t → t ≤ hi → ∀ b ∈ barriers t, b < s.numOfBarrierOps + s.fifoDependencies.length → b ∈ l

theorem getBarriersForTaskBlock_spec
    (hrange : config.split.getControlGraphBlockTaskRange s.maps k blockStart blockEnd = .ok (lo, hi)) :
    ∃ l, s.getBarriersForTaskBlock config k blockStart blockEnd updateBarriers = .ok l ∧
      BlockBarriers s lo hi (fun t => if updateBarriers then s.maps.getUpdateBarriers t else s.maps.getWaitBarriers t) l := by
  unfold FifoBarrierInfo.getBarriersForTaskBlock
  rw [hrange]
  refine ⟨_, rfl, pairwise_lt_range.filter _, ?_, ?_, ?_⟩
  · intro b hb
    exact mem_range.mp (mem_filter.mp hb).1
  · intro b hb
    obtain ⟨t, ht, hmem⟩ := any_eq_true.mp (mem_filter.mp hb).2
    rw [mem_tasksFrom] at ht
    exact ⟨t, ht.1, Nat.le_of_lt_succ ht.2, of_decide_eq_true hmem⟩
  · intro t hlo hhi b hb hlt
    apply mem_filter.mpr
    refine ⟨mem_range.mpr hlt, any_eq_true.mpr ⟨t, ?_, decide_eq_true hb⟩⟩
    exact mem_tasksFrom.mpr ⟨hlo, Nat.lt_succ_of_le hhi⟩

theorem head_le_of_sorted {l : List ℕ} (hsorted : l.Pairwise (· < ·)) {b : ℕ} (hb : b ∈ l) :
    l.headD 0 ≤ b ∧ b ≤ l.getLastD 0 := by
  constructor
  · cases l with
    | nil => exact absurd hb not_mem_nil
    | cons x l =>
      cases mem_cons.mp hb with
      | inl heq => exact Nat.le_of_eq heq.symm
      | inr hb => exact Nat.le_of_lt ((pairwise_cons.mp hsorted).1 b hb)
  · have hne := ne_nil_of_mem hb
    rw [getLastD_eq_getLast?, getLast?_eq_some_getLast hne, Option.getD_some]
    rw [← dropLast_append_getLast hne, mem_append, mem_singleton] at hb
    rw [← dropLast_append_getLast hne, pairwise_append] at hsorted
    cases hb with
    | inl hb => exact Nat.le_of_lt (hsorted.2.2 b hb _ (mem_singleton_self _))
    | inr hb => exact Nat.le_of_eq hb

end

end NpuCompiler.Barrier
