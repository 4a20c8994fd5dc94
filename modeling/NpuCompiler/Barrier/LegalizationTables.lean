import NpuCompiler.Barrier.BarrierLegalization
import NpuCompiler.Barrier.SimulatorRuns

namespace NpuCompiler.Barrier.Simulator

open BarrierState Simulator List

def dropFree : ℕ → List (Option ℕ) → List (Option ℕ)
  | 0, toVirtual => toVirtual
  | _ + 1, [] => []
  | k + 1, none :: toVirtual => dropFree k toVirtual
  | k + 1, some v :: toVirtual => some v :: dropFree (k + 1) toVirtual

def shifted (k : ℕ) (toVirtual : List (Option ℕ)) (p : ℕ) : ℕ := p - min ((toVirtual.take p).count none) k

section
variable {toVirtual : List (Option ℕ)} {k p q v : ℕ}

@[simp]
theorem dropFree_zero : dropFree 0 toVirtual = toVirtual := by
  unfold dropFree
  rfl

@[simp]
theorem dropFree_nil : dropFree k [] = [] := by cases k <;> rfl

@[simp]
theorem dropFree_none : dropFree (k + 1) (none :: toVirtual) = dropFree k toVirtual := rfl

@[simp]
theorem dropFree_some : dropFree k (some v :: toVirtual) = some v :: dropFree k toVirtual := by
  cases k with
  | zero => rw [dropFree_zero, dropFree_zero]
  | succ k => rfl

theorem dropFree_one_dropFree : dropFree k (dropFree 1 toVirtual) = dropFree (k + 1) toVirtual := by
  induction toVirtual with
  | nil => rw [dropFree_nil, dropFree_nil, dropFree_nil]
  | cons entry toVirtual ih =>
    cases entry with
    | none => rw [dropFree_none, dropFree_none, dropFree_zero]
    | some v => rw [dropFree_some, dropFree_some, dropFree_some, ih]

theorem dropFree_of_count (h : toVirtual.count none = 0) : dropFree k toVirtual = toVirtual := by
  induction toVirtual with
  | nil => exact dropFree_nil
  | cons entry toVirtual ih =>
    cases entry with
    | none =>
      rw [count_cons_self] at h
      cases h
    | some v =>
      rw [count_cons_of_ne (by simp)] at h
      rw [dropFree_some, ih h]

theorem eraseIdx_findIdx : toVirtual.eraseIdx (toVirtual.findIdx (· = none)) = dropFree 1 toVirtual := by
  induction toVirtual with
  | nil => rfl
  | cons entry toVirtual ih =>
    cases entry with
    | none =>
      rw [dropFree_none, dropFree_zero, findIdx_cons]
      rfl
    | some v =>
      rw [dropFree_some, ← ih, findIdx_cons]
      rfl

theorem findIdx_lt_iff : toVirtual.findIdx (· = none) < toVirtual.length ↔ 0 < toVirtual.count none := by
  rw [findIdx_lt_length, count_pos_iff]
  simp

theorem count_dropFree : (dropFree k toVirtual).count none = toVirtual.count none - k := by
  induction toVirtual generalizing k with
  | nil => rw [dropFree_nil, count_nil, Nat.zero_sub]
  | cons entry toVirtual ih =>
    cases k with
    | zero => rw [dropFree_zero, Nat.sub_zero]
    | succ k =>
      cases entry with
      | none =>
        change (dropFree k toVirtual).count none = _
        rw [ih, count_cons_self, Nat.add_sub_add_right]
      | some v =>
        change (some v :: dropFree (k + 1) toVirtual).count none = _
        rw [count_cons_of_ne (by simp), count_cons_of_ne (by simp), ih]

theorem length_dropFree : (dropFree k toVirtual).length = toVirtual.length - min (toVirtual.count none) k := by
  induction toVirtual generalizing k with
  | nil => rw [dropFree_nil, length_nil, Nat.zero_sub]
  | cons entry toVirtual ih =>
    cases k with
    | zero => rw [dropFree_zero, Nat.min_zero, Nat.sub_zero]
    | succ k =>
      cases entry with
      | none =>
        change (dropFree k toVirtual).length = _
        rw [ih, count_cons_self, length_cons, Nat.add_min_add_right, Nat.add_sub_add_right]
      | some v =>
        have hle : toVirtual.count none ≤ toVirtual.length := count_le_length
        change (dropFree (k + 1) toVirtual).length + 1 = _
        rw [count_cons_of_ne (by simp), ih, length_cons]
        omega

theorem getElem?_dropFree_shifted (h : toVirtual[p]? = some (some v)) :
    (dropFree k toVirtual)[shifted k toVirtual p]? = some (some v) := by
  unfold shifted
  induction toVirtual generalizing k p with
  | nil => cases h
  | cons entry toVirtual ih =>
    cases k with
    | zero =>
      rw [Nat.min_zero, Nat.sub_zero]
      exact h
    | succ k =>
      cases p with
      | zero =>
        rw [getElem?_cons_zero, Option.some.injEq] at h
        subst h
        rfl
      | succ p =>
        rw [getElem?_cons_succ] at h
        cases entry with
        | none =>
          change (dropFree k toVirtual)[_]? = _
          rw [take_succ_cons, count_cons_self, Nat.add_min_add_right, Nat.add_sub_add_right]
          exact ih h
        | some w =>
          have hle : (toVirtual.take p).count none ≤ p := Nat.le_trans count_le_length (length_take_le p toVirtual)
          change (some w :: dropFree (k + 1) toVirtual)[_]? = _
          rw [take_succ_cons, count_cons_of_ne (by simp)]
          have hindex : p + 1 - min ((toVirtual.take p).count none) (k + 1) =
              p - min ((toVirtual.take p).count none) (k + 1) + 1 := by omega
          rw [hindex, getElem?_cons_succ]
          exact ih h

theorem exists_of_getElem?_dropFree (h : (dropFree k toVirtual)[q]? = some (some v)) :
    ∃ p, toVirtual[p]? = some (some v) ∧ q = shifted k toVirtual p := by
  unfold shifted
  induction toVirtual generalizing k q with
  | nil => cases k <;> cases h
  | cons entry toVirtual ih =>
    cases k with
    | zero =>
      refine ⟨q, h, ?_⟩
      rw [Nat.min_zero, Nat.sub_zero]
    | succ k =>
      cases entry with
      | none =>
        obtain ⟨p, hp, hq⟩ := ih (k := k) h
        refine ⟨p + 1, hp, ?_⟩
        rw [take_succ_cons, count_cons_self, Nat.add_min_add_right, Nat.add_sub_add_right]
        exact hq
      | some w =>
        cases q with
        | zero =>
          refine ⟨0, h, ?_⟩
          rw [Nat.zero_sub]
        | succ q =>
          obtain ⟨p, hp, hq⟩ := ih (k := k + 1) h
          have hle : (toVirtual.take p).count none ≤ p := Nat.le_trans count_le_length (length_take_le p toVirtual)
          refine ⟨p + 1, hp, ?_⟩
          rw [take_succ_cons, count_cons_of_ne (by simp)]
          omega

end

section
variable {toVirtual : List (Option ℕ)} {removed : List ℕ} {limit n k : ℕ}

theorem removeFree_fst (hn : toVirtual.count none ≤ n) :
    (removeFree limit n toVirtual removed).1 = dropFree (toVirtual.length - limit) toVirtual := by
  induction n generalizing toVirtual removed with
  | zero => exact (dropFree_of_count (Nat.le_zero.mp hn)).symm
  | succ n ih =>
    unfold removeFree
    dsimp only
    by_cases hgo : toVirtual.findIdx (· = none) < toVirtual.length ∧ toVirtual.length > limit
    · have hfree := findIdx_lt_iff.mp hgo.1
      have hlength : (dropFree 1 toVirtual).length = toVirtual.length - 1 := by
        rw [length_dropFree, Nat.min_eq_right hfree]
      have hsucc : toVirtual.length - limit = toVirtual.length - 1 - limit + 1 := by omega
      rw [if_pos hgo, eraseIdx_findIdx, ih, hlength, hsucc, dropFree_one_dropFree]
      rw [count_dropFree]
      omega
    · rw [if_neg hgo]
      by_cases hlimit : toVirtual.length ≤ limit
      · rw [Nat.sub_eq_zero_of_le hlimit, dropFree_zero]
      · have hnone : toVirtual.count none = 0 := by
          have hindex : ¬ toVirtual.findIdx (· = none) < toVirtual.length := fun h => hgo ⟨h, Nat.lt_of_not_le hlimit⟩
          rw [findIdx_lt_iff] at hindex
          exact Nat.eq_zero_of_not_pos hindex
        exact (dropFree_of_count hnone).symm

theorem removeFree_snd (hsorted : removed.Pairwise (· < ·)) (hlt : ∀ i ∈ removed, i < k)
    (hk : toVirtual.length ≤ k) :
    (removeFree limit n toVirtual removed).2.Pairwise (· < ·) ∧ (∀ i ∈ (removeFree limit n toVirtual removed).2, i < k) ∧
      (removeFree limit n toVirtual removed).2.length + (removeFree limit n toVirtual removed).1.length ≤
        removed.length + toVirtual.length := by
  induction n generalizing toVirtual removed with
  | zero => exact ⟨hsorted, hlt, Nat.le_refl _⟩
  | succ n ih =>
    unfold removeFree
    dsimp only
    split_ifs with hgo
    · obtain ⟨hindex, -⟩ := hgo
      have hlength := length_eraseIdx_of_lt hindex
      obtain ⟨hsorted', hlt', hcount⟩ := ih (pairwise_insertSorted hsorted _)
        (fun i hi => by
          cases mem_insertSorted.mp hi with
          | inl heq => exact heq ▸ Nat.lt_of_lt_of_le hindex hk
          | inr hi => exact hlt i hi)
        (Nat.le_trans (length_eraseIdx_le _ _) hk)
      have hinsert := @length_insertSorted_le ℕ _ (toVirtual.findIdx (· = none)) removed hsorted
      exact ⟨hsorted', hlt', by omega⟩
    · exact ⟨hsorted, hlt, Nat.le_refl _⟩

theorem removeIndex_foldlM {prev : List (Option ℕ)} {indices : List ℕ} (hsorted : indices.Pairwise (· > ·))
    (hlt : ∀ i ∈ indices, i < prev.length) :
    ∃ prev', indices.foldlM removeIndex prev = .ok prev' ∧ prev'.length + indices.length = prev.length := by
  induction indices generalizing prev with
  | nil => exact ⟨prev, rfl, rfl⟩
  | cons index indices ih =>
    obtain ⟨hindex, hlt⟩ := forall_mem_cons.mp hlt
    obtain ⟨hfirst, hsorted⟩ := pairwise_cons.mp hsorted
    have hlength := length_eraseIdx_of_lt hindex
    obtain ⟨prev', hprev', hcount⟩ := @ih (prev.eraseIdx index) hsorted (fun i hi => by
      have hless := hfirst i hi
      omega)
    refine ⟨prev', ?_, ?_⟩
    · rw [foldlM_cons]
      unfold removeIndex
      rw [if_neg (Nat.not_le.mpr hindex)]
      exact hprev'
    · rw [length_cons]
      omega

end

section
variable {toVirtual : List (Option ℕ)} {barriers : List BarrierConfig} {limit p : ℕ}

structure Remapped (toVirtual : List (Option ℕ)) (limit p : ℕ) (barriers barriers' : List BarrierConfig) : Prop where
  length : barriers'.length = barriers.length
  counts : ∀ v, (barriers'.getD v default).producerCount = (barriers.getD v default).producerCount ∧
    (barriers'.getD v default).consumerCount = (barriers.getD v default).consumerCount
  others : ∀ v, (∀ q < p, toVirtual[q]? ≠ some (some v)) →
    (barriers'.getD v default).realId = (barriers.getD v default).realId
  realId : ∀ q < p, ∀ v, toVirtual[q]? = some (some v) →
    (barriers'.getD v default).realId = some (shifted (toVirtual.length - limit) toVirtual q)

theorem remapBarrier_spec (hinj : ∀ q q' v : ℕ, toVirtual[q]? = some (some v) → toVirtual[q']? = some (some v) → q = q')
    (hlt : ∀ q v : ℕ, toVirtual[q]? = some (some v) → v < barriers.length) (hp : p ≤ toVirtual.length) :
    Remapped toVirtual limit p barriers ((List.range p).foldl (remapBarrier limit toVirtual) (barriers, 0)).1 ∧
      ((List.range p).foldl (remapBarrier limit toVirtual) (barriers, 0)).2 =
        min ((toVirtual.take p).count none) (toVirtual.length - limit) := by
  induction p with
  | zero =>
    refine ⟨⟨rfl, fun _ => ⟨rfl, rfl⟩, fun _ _ => rfl, fun q hq => absurd hq (Nat.not_lt_zero q)⟩, ?_⟩
    rw [take_zero, count_nil, Nat.zero_min]
    rfl
  | succ p ih =>
    obtain ⟨hremapped, hcount⟩ := ih (Nat.le_of_succ_le hp)
    rw [range_succ, foldl_append, foldl_cons, foldl_nil, take_add_one]
    generalize (List.range p).foldl (remapBarrier limit toVirtual) (barriers, 0) = state at hremapped hcount ⊢
    have hget : toVirtual[p]? = some (toVirtual.getD p none) := by
      rw [getElem?_eq_getElem hp, getD_eq_getElem _ _ hp]
    unfold remapBarrier
    rw [hget]
    cases hslot : toVirtual.getD p none with
    | none =>
      rw [hslot] at hget
      dsimp only
      have hsame : Remapped toVirtual limit (p + 1) barriers state.1 := by
        refine ⟨hremapped.length, hremapped.counts, fun v hv => ?_, fun q hq v hv => ?_⟩
        · exact hremapped.others v (fun q hq => hv q (Nat.lt_succ_of_lt hq))
        · apply hremapped.realId q _ v hv
          apply Nat.lt_of_le_of_ne (Nat.le_of_lt_succ hq)
          intro heq
          rw [heq, hget] at hv
          cases hv
      rw [Option.toList_some, count_append, count_singleton_self]
      split_ifs with hmore
      · refine ⟨hsame, ?_⟩
        dsimp only
        omega
      · refine ⟨hsame, ?_⟩
        omega
    | some w =>
      rw [hslot] at hget
      dsimp only
      have hw := hremapped.length.symm ▸ hlt p w hget
      rw [Option.toList_some, count_append, count_singleton, beq_false_of_ne (by simp), if_neg Bool.false_ne_true,
        Nat.add_zero]
      refine ⟨⟨?_, fun v => ?_, fun v hv => ?_, fun q hq v hv => ?_⟩, hcount⟩
      · exact (length_modify ..).trans hremapped.length
      · rw [getD_modify _ hw, ← (hremapped.counts v).1, ← (hremapped.counts v).2]
        split_ifs
        · exact ⟨rfl, rfl⟩
        · exact ⟨rfl, rfl⟩
      · rw [getD_modify _ hw, if_neg]
        · exact hremapped.others v (fun q hq => hv q (Nat.lt_succ_of_lt hq))
        · intro heq
          exact hv p (Nat.lt_succ_self p) (heq ▸ hget)
      · rw [getD_modify _ hw]
        by_cases heq : w = v
        · rw [if_pos heq]
          have hq : q = p := hinj q p v hv (heq ▸ hget)
          unfold shifted
          rw [hq, hcount]
        · rw [if_neg heq]
          apply hremapped.realId q _ v hv
          apply Nat.lt_of_le_of_ne (Nat.le_of_lt_succ hq)
          intro hq
          rw [hq, hget] at hv
          exact heq (Option.some.inj (Option.some.inj hv))

theorem updateNextReal_freeRing : FreeRing toVirtual.length toVirtual (updateNextReal toVirtual) := by
  have hlength : (freeIds toVirtual).length ≤ toVirtual.length := by
    apply Nat.le_trans (length_filter_le _ _)
    rw [length_range]
  obtain ⟨hwellFormed, hcapacity, hlist⟩ := RingBuffer.foldl_push hlength
  refine ⟨hwellFormed, hcapacity, ?_, ?_⟩
  · rw [updateNextReal, hlist]
    exact nodup_range.filter _
  · intro r
    rw [updateNextReal, hlist, freeIds, mem_filter, mem_range, decide_eq_true_eq]
    exact ⟨fun h => h.2, fun h => ⟨(List.getElem?_eq_some_iff.mp h).1, h⟩⟩

variable {isDynamicBarriers : Bool} {kept : ℕ → Prop} {n size limit : ℕ} {s : SimState}

theorem Invariant.getElem?_realId (h : Invariant isDynamicBarriers kept n size s) {v : ℕ} (hv : v < s.bar)
    (hinUse : InUse kept s.toBarrierState v) : ∃ r < size, s.realId v = some r ∧ s.toVirtual[r]? = some (some v) := by
  obtain ⟨r, hr, hreal⟩ := h.mapped.assigned v hv hinUse
  exact ⟨r, hr, hreal, (h.mapped.slot r v).mpr ⟨hv, hreal, hinUse⟩⟩

theorem reduceBarriers_spec (h : Invariant isDynamicBarriers kept n size s)
    (hprev : s.toVirtual.length ≤ s.prevVidOfPhysBar.length) :
    ∃ s', reduceBarriers limit s = .ok s' ∧ Invariant isDynamicBarriers kept n s'.toVirtual.length s' ∧
      s'.toVirtual.length ≤ s'.prevVidOfPhysBar.length ∧ s'.bar = s.bar ∧ s'.queues = s.queues ∧
      s'.toVirtual = (removeFree limit s.toVirtual.length s.toVirtual []).1 ∧
      (removeFree limit s.toVirtual.length s.toVirtual []).2.reverse.foldlM removeIndex s.prevVidOfPhysBar =
        .ok s'.prevVidOfPhysBar := by
  obtain ⟨hsorted, hlt, hcount⟩ := @removeFree_snd s.toVirtual [] limit s.toVirtual.length s.toVirtual.length .nil
    (fun i hi => absurd hi not_mem_nil) (Nat.le_refl _)
  have hfst := @removeFree_fst s.toVirtual [] limit s.toVirtual.length count_le_length
  obtain ⟨prev', hprev', hlength⟩ := @removeIndex_foldlM s.prevVidOfPhysBar
    (removeFree limit s.toVirtual.length s.toVirtual []).2.reverse (pairwise_reverse.mpr hsorted)
    (fun i hi => Nat.lt_of_lt_of_le (hlt i (mem_reverse.mp hi)) hprev)
  have hinj : ∀ q q' v : ℕ, s.toVirtual[q]? = some (some v) → s.toVirtual[q']? = some (some v) → q = q' := by
    intro q q' v hq hq'
    have hreal := ((h.mapped.slot q v).mp hq).2.1
    rw [((h.mapped.slot q' v).mp hq').2.1, Option.some.injEq] at hreal
    exact hreal.symm
  have hbarriers : ∀ q v : ℕ, s.toVirtual[q]? = some (some v) → v < s.barriers.length := by
    intro q v hq
    rw [h.mapped.length]
    exact Nat.lt_of_lt_of_le ((h.mapped.slot q v).mp hq).1 h.bar_le
  obtain ⟨hremapped, -⟩ := @remapBarrier_spec s.toVirtual s.barriers limit s.toVirtual.length hinj hbarriers (Nat.le_refl _)
  unfold reduceBarriers
  dsimp only
  rw [hprev']
  refine ⟨_, rfl, ?_, ?_, rfl, rfl, rfl, rfl⟩
  · generalize (List.range s.toVirtual.length).foldl (remapBarrier limit s.toVirtual) (s.barriers, 0) = remapped at hremapped
    dsimp only
    rw [hfst]
    have hinUse : ∀ v, InUse kept ⟨remapped.1, dropFree (s.toVirtual.length - limit) s.toVirtual,
        updateNextReal (dropFree (s.toVirtual.length - limit) s.toVirtual)⟩ v ↔ InUse kept s.toBarrierState v := by
      intro v
      unfold InUse BarrierState.consumerCount
      rw [(hremapped.counts v).2]
    -- the new id of a barrier in use
    have hreal : ∀ r v, s.toVirtual[r]? = some (some v) → (remapped.1.getD v default).realId =
        some (shifted (s.toVirtual.length - limit) s.toVirtual r) := fun r v hr =>
      hremapped.realId r (List.getElem?_eq_some_iff.mp hr).1 v hr
    refine ⟨h.bar_le, ⟨?_, rfl, ?_, ?_, ?_, fun _ => updateNextReal_freeRing⟩, ?_, ?_, h.pending.users_lt, ?_,
      h.pending.unused⟩
    · exact hremapped.length.trans h.mapped.length
    · intro v hv hused
      obtain ⟨r, -, -, hslot⟩ := h.getElem?_realId hv ((hinUse v).mp hused)
      refine ⟨_, ?_, hreal r v hslot⟩
      exact (List.getElem?_eq_some_iff.mp (getElem?_dropFree_shifted hslot)).1
    · intro hdynamic v hv
      refine (hremapped.others v (fun q _ hq => ?_)).trans (h.mapped.unassigned hdynamic v hv)
      exact Nat.not_lt_of_le hv ((h.mapped.slot q v).mp hq).1
    · intro q v
      rw [hinUse]
      constructor
      · intro hq
        obtain ⟨p, hp, heq⟩ := exists_of_getElem?_dropFree hq
        have hslot := (h.mapped.slot p v).mp hp
        refine ⟨hslot.1, ?_, hslot.2.2⟩
        rw [heq]
        exact hreal p v hp
      · rintro ⟨hv, hq, hused⟩
        obtain ⟨r, -, -, hslot⟩ := h.getElem?_realId hv hused
        have heq := (hreal r v hslot).symm.trans hq
        rw [Option.some.injEq] at heq
        rw [← heq]
        exact getElem?_dropFree_shifted hslot
    · intro v hv
      exact (hremapped.counts v).1.trans (h.pending.producers v hv)
    · intro v hv
      exact (hremapped.counts v).2.trans (h.pending.consumers v hv)
    · intro v hv hor
      rw [hinUse]
      apply h.pending.waiting v hv
      apply hor.imp_right
      exact fun hpos => Nat.lt_of_lt_of_eq hpos (hremapped.counts v).1
  · rw [length_reverse] at hlength
    rw [length_nil] at hcount
    dsimp only
    omega

theorem increaseBarriers_spec (h : Invariant isDynamicBarriers kept n size s) :
    Invariant isDynamicBarriers kept n (increaseBarriers s).toVirtual.length (increaseBarriers s) := by
  have hget : ∀ r v : ℕ, (s.toVirtual ++ [none])[r]? = some (some v) ↔ s.toVirtual[r]? = some (some v) := by
    intro r v
    cases Nat.lt_or_ge r s.toVirtual.length with
    | inl hlt => rw [getElem?_append_left hlt]
    | inr hge =>
      rw [getElem?_append_right hge, getElem?_eq_none hge]
      cases r - s.toVirtual.length with
      | zero => simp
      | succ k => simp
  refine ⟨h.bar_le, ⟨h.mapped.length, rfl, ?_, h.mapped.unassigned, ?_, fun _ => updateNextReal_freeRing⟩,
    h.pending.producers, h.pending.consumers, h.pending.users_lt, h.pending.waiting, h.pending.unused⟩
  · intro v hv hinUse
    obtain ⟨r, hr, hreal⟩ := h.mapped.assigned v hv hinUse
    refine ⟨r, ?_, hreal⟩
    change r < (s.toVirtual ++ [none]).length
    rw [length_append, h.mapped.slots]
    exact Nat.lt_succ_of_lt hr
  · intro r v
    exact (hget r v).trans (h.mapped.slot r v)

end

end NpuCompiler.Barrier.Simulator
