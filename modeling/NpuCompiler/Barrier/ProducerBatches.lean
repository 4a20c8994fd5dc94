import Mathlib.Data.Nat.Find
import NpuCompiler.Barrier.SingleWait

namespace NpuCompiler.Barrier

open List SmallSet

structure BatchesOf (batches : List TaskSet) (tasks : ℕ → Prop) : Prop where
  members : ∀ t, (∃ batch ∈ batches, t ∈ batch) ↔ tasks t
  increasing : batches.Pairwise (fun batch later => ∀ t ∈ batch, ∀ u ∈ later, t < u)

def Inhabited (batches : List TaskSet) : Prop := ∀ batch ∈ batches, ∃ t, t ∈ batch

section
variable {batches later : List TaskSet} {batch : TaskSet} {tasks laterTasks : ℕ → Prop}

theorem batchesOf_nil : BatchesOf [] (fun _ => False) := ⟨by simp, .nil⟩

theorem batchesOf_single : BatchesOf [batch] (· ∈ batch) := ⟨by simp, pairwise_singleton _ _⟩

theorem BatchesOf.append (h : BatchesOf batches tasks) (hlater : BatchesOf later laterTasks)
    (hlt : ∀ t, tasks t → ∀ u, laterTasks u → t < u) :
    BatchesOf (batches ++ later) (fun t => tasks t ∨ laterTasks t) := by
  constructor
  · intro t
    rw [← h.members, ← hlater.members]
    simp only [mem_append, or_and_right, exists_or]
  · rw [pairwise_append]
    refine ⟨h.increasing, hlater.increasing, ?_⟩
    intro batch hbatch batch' hbatch' t ht u hu
    exact hlt t ((h.members t).mp ⟨batch, hbatch, ht⟩) u ((hlater.members u).mp ⟨batch', hbatch', hu⟩)

theorem BatchesOf.extendLast {last extended : TaskSet} (h : BatchesOf (batches ++ [last]) tasks)
    (hextended : ∀ t, t ∈ extended ↔ t ∈ last ∨ laterTasks t) (hlt : ∀ t, tasks t → ∀ u, laterTasks u → t < u) :
    BatchesOf (batches ++ [extended]) (fun t => tasks t ∨ laterTasks t) := by
  obtain ⟨hbatches, -, hpair⟩ := pairwise_append.mp h.increasing
  constructor
  · intro t
    rw [← h.members]
    simp only [mem_append, mem_singleton, or_and_right, exists_or, exists_eq_left, hextended, or_assoc]
  · rw [pairwise_append]
    refine ⟨hbatches, pairwise_singleton _ _, ?_⟩
    intro batch hbatch batch' hbatch' t ht u hu
    rw [mem_singleton.mp hbatch', hextended] at hu
    cases hu with
    | inl hu => exact hpair batch hbatch last (mem_singleton_self _) t ht u hu
    | inr hu => exact hlt t ((h.members t).mp ⟨batch, mem_append_left _ hbatch, ht⟩) u hu

theorem BatchesOf.congr (h : BatchesOf batches tasks) (heq : ∀ t, tasks t ↔ laterTasks t) :
    BatchesOf batches laterTasks := ⟨fun t => (h.members t).trans (heq t), h.increasing⟩

theorem inhabited_append (h : Inhabited batches) (hlater : Inhabited later) : Inhabited (batches ++ later) := by
  intro batch hbatch
  cases mem_append.mp hbatch with
  | inl hmem => exact h batch hmem
  | inr hmem => exact hlater batch hmem

theorem inhabited_single {t : ℕ} (h : t ∈ batch) : Inhabited [batch] := by
  intro batch' hbatch'
  rw [mem_singleton.mp hbatch']
  exact ⟨t, h⟩

variable {config : LegalizationConfig}

structure LegalSoFar (batches : VariantBatches) (tasks : ℕ → Prop) : Prop where
  batchesOf : BatchesOf (batches.legalBatches ++ [batches.curBatch]) tasks
  inhabited : Inhabited (batches.legalBatches ++ [batches.curBatch])

theorem LegalSoFar.addToBatches {batches : VariantBatches} {tasks : ℕ → Prop} (h : LegalSoFar batches tasks) {t : ℕ}
    (hlt : ∀ u, tasks u → u < t) : LegalSoFar (addToBatches config batches t) (fun u => tasks u ∨ u = t) := by
  have hlater : ∀ u, tasks u → ∀ v, v = t → u < v := fun u hu v hv => hv ▸ hlt u hu
  unfold Barrier.addToBatches
  dsimp only
  split_ifs with hnew
  · have hsingle : BatchesOf [(∅ : TaskSet).insert t] (· = t) :=
      batchesOf_single.congr (fun u => by simp)
    exact ⟨h.batchesOf.append hsingle hlater,
      inhabited_append h.inhabited (inhabited_single (mem_insert.mpr (.inl rfl)))⟩
  · constructor
    · exact h.batchesOf.extendLast (fun u => by rw [mem_insert, or_comm]) hlater
    · apply inhabited_append
      · exact fun batch hbatch => h.inhabited batch (mem_append_left _ hbatch)
      · exact inhabited_single (mem_insert.mpr (.inl rfl))

theorem LegalSoFar.foldl {orderedTasks : List ℕ} (hsorted : orderedTasks.Pairwise (· < ·)) {batches : VariantBatches}
    {tasks : ℕ → Prop} (h : LegalSoFar batches tasks) (hlt : ∀ u, tasks u → ∀ t ∈ orderedTasks, u < t) :
    LegalSoFar (orderedTasks.foldl (Barrier.addToBatches config) batches) (fun u => tasks u ∨ u ∈ orderedTasks) := by
  induction orderedTasks generalizing batches tasks with
  | nil => exact ⟨h.batchesOf.congr (by simp), h.inhabited⟩
  | cons t orderedTasks ih =>
    obtain ⟨hhead, hsorted⟩ := pairwise_cons.mp hsorted
    have hstep : LegalSoFar (Barrier.addToBatches config batches t) (fun u => tasks u ∨ u = t) :=
      h.addToBatches (fun u hu => hlt u hu t mem_cons_self)
    have hrest := ih hsorted hstep (by
      rintro u (hu | rfl) v hv
      · exact hlt u hu v (mem_cons_of_mem _ hv)
      · exact hhead v hv)
    rw [foldl_cons]
    exact ⟨hrest.batchesOf.congr (fun u => by rw [mem_cons, or_assoc]), hrest.inhabited⟩

/-- A batch within the limit, or of one task. -/
def SmallBatch (config : LegalizationConfig) (batch : TaskSet) : Prop :=
  slotCount config batch ≤ config.availableSlots ∨ ∃ t, batch.toList = [t]

structure SmallSoFar (config : LegalizationConfig) (batches : VariantBatches) : Prop where
  total : batches.totalSlotCount = slotCount config batches.curBatch
  small : ∀ batch ∈ batches.legalBatches ++ [batches.curBatch], SmallBatch config batch

theorem slotCount_insert {batch : TaskSet} {t : ℕ} (ht : t ∉ batch) :
    slotCount config (batch.insert t) = slotCount config batch + (config.taskOp t).numOfSlotsUsed := by
  have hperm : (batch.insert t).toList.Perm (t :: batch.toList) := by
    apply (perm_ext_iff_of_nodup (toList_nodup _) (nodup_cons.mpr ⟨ht, toList_nodup _⟩)).mpr
    intro u
    rw [mem_cons]
    exact mem_insert
  unfold slotCount
  rw [(hperm.map _).sum_nat, map_cons, sum_cons, Nat.add_comm]

theorem smallSoFar_first {legalBatches : List TaskSet} (hlegal : ∀ batch ∈ legalBatches, SmallBatch config batch) (t : ℕ) (kind : ExecutorKind) :
    SmallSoFar config ⟨legalBatches, (∅ : TaskSet).insert t, (config.taskOp t).numOfSlotsUsed, kind⟩ := by
  refine ⟨?_, ?_⟩
  · rw [slotCount_insert (not_mem_empty)]
    exact (Nat.zero_add _).symm
  · intro batch hbatch
    rcases mem_append.mp hbatch with hbatch | hbatch
    · exact hlegal batch hbatch
    · rw [mem_singleton.mp hbatch]
      exact .inr ⟨t, rfl⟩

theorem SmallSoFar.addToBatches {batches : VariantBatches} (h : SmallSoFar config batches) {t : ℕ} (ht : t ∉ batches.curBatch) :
    SmallSoFar config (addToBatches config batches t) := by
  unfold Barrier.addToBatches
  dsimp only
  split_ifs with hnew
  · exact smallSoFar_first h.small t _
  · refine ⟨(congrArg (· + _) h.total).trans (slotCount_insert ht).symm, fun batch hbatch => ?_⟩
    rcases mem_append.mp hbatch with hbatch | hbatch
    · exact h.small batch (mem_append_left _ hbatch)
    · rw [mem_singleton.mp hbatch]
      left
      rw [slotCount_insert ht, ← h.total]
      exact not_lt.mp (not_or.mp hnew).1

theorem SmallSoFar.foldl {orderedTasks : List ℕ} (hsorted : orderedTasks.Pairwise (· < ·)) {batches : VariantBatches}
    (h : SmallSoFar config batches) (hlt : ∀ u ∈ batches.curBatch, ∀ t ∈ orderedTasks, u < t) :
    SmallSoFar config (orderedTasks.foldl (Barrier.addToBatches config) batches) := by
  induction orderedTasks generalizing batches with
  | nil => exact h
  | cons t orderedTasks ih =>
    obtain ⟨hhead, hsorted⟩ := pairwise_cons.mp hsorted
    have hnew : t ∉ batches.curBatch := fun ht => absurd (hlt t ht t mem_cons_self) (Nat.lt_irrefl t)
    refine ih hsorted (h.addToBatches hnew) (fun u hu v hv => ?_)
    unfold Barrier.addToBatches at hu
    dsimp only at hu
    split_ifs at hu
    · rw [mem_insert] at hu
      rcases hu with rfl | hu
      · exact hhead v hv
      · exact absurd hu not_mem_empty
    · rw [mem_insert] at hu
      rcases hu with rfl | hu
      · exact hhead v hv
      · exact hlt u hu v (mem_cons_of_mem _ hv)

theorem mem_legalBatches_foldl {orderedTasks : List ℕ} {batches : VariantBatches} {batch : TaskSet} (h : batch ∈ batches.legalBatches) :
    batch ∈ (orderedTasks.foldl (addToBatches config) batches).legalBatches := by
  induction orderedTasks generalizing batches with
  | nil => exact h
  | cons t orderedTasks ih =>
    apply ih
    unfold addToBatches
    dsimp only
    split_ifs
    · exact mem_append_left _ h
    · exact h

structure LegalBatches (config : LegalizationConfig) (tasks : TaskSet) (batches : List TaskSet) : Prop where
  concat : (batches.map fun batch => sortedOf batch.toList).flatten = sortedOf tasks.toList
  inhabited : Inhabited batches
  small : ∀ batch ∈ batches, SmallBatch config batch

theorem BatchesOf.concat {batches : List TaskSet} {tasks : TaskSet} (h : BatchesOf batches (· ∈ tasks)) :
    (batches.map fun batch => sortedOf batch.toList).flatten = sortedOf tasks.toList := by
  have hsorted : (batches.map fun batch => sortedOf batch.toList).flatten.Pairwise (· < ·) := by
    rw [pairwise_flatten]
    constructor
    · intro l hl
      obtain ⟨batch, -, rfl⟩ := mem_map.mp hl
      exact pairwise_sortedOf _
    · rw [pairwise_map]
      apply h.increasing.imp
      intro batch later hlt t ht u hu
      exact hlt t (mem_sortedOf.mp ht) u (mem_sortedOf.mp hu)
  have hmem : ∀ t, t ∈ (batches.map fun batch => sortedOf batch.toList).flatten ↔ t ∈ sortedOf tasks.toList := by
    intro t
    rw [mem_sortedOf, ← mem_iff, ← h.members]
    simp only [mem_flatten, mem_map, exists_exists_and_eq_and, mem_sortedOf, mem_iff]
  have hperm := (perm_ext_iff_of_nodup (hsorted.imp ne_of_lt) ((pairwise_sortedOf _).imp ne_of_lt)).mpr hmem
  exact hperm.eq_of_pairwise (fun _ _ _ _ hab hba => absurd hab (lt_asymm hba)) hsorted (pairwise_sortedOf _)

theorem createLegalVariantBatches_legal {tasks : TaskSet} {t : ℕ} (ht : t ∈ tasks) (hleast : ∀ u ∈ tasks, t ≤ u)
    (hslots : (config.taskOp t).numOfSlotsUsed ≤ config.availableSlots) :
    LegalBatches config tasks (createLegalVariantBatches config tasks) ∧
      BatchesOf (createLegalVariantBatches config tasks) (· ∈ tasks) := by
  unfold createLegalVariantBatches
  have hmem : ∀ u, u ∈ sortedOf tasks.toList ↔ u ∈ tasks := fun u => mem_sortedOf
  have hsorted := pairwise_sortedOf tasks.toList
  cases hordered : sortedOf tasks.toList with
  | nil =>
    rw [← hmem, hordered] at ht
    exact absurd ht not_mem_nil
  | cons first orderedTasks =>
    rw [hordered] at hmem hsorted
    obtain ⟨hhead, hlater⟩ := pairwise_cons.mp hsorted
    have hfirstLe := hleast first ((hmem first).mp mem_cons_self)
    obtain rfl : t = first := by
      rcases mem_cons.mp ((hmem t).mpr ht) with heq | hbehind
      · exact heq
      · exact absurd (hhead t hbehind) (not_lt.mpr hfirstLe)
    have hfirst : addToBatches config ⟨[], ∅, 0, (config.taskOp t).executorKind⟩ t =
        ⟨[], (∅ : TaskSet).insert t, (config.taskOp t).numOfSlotsUsed, (config.taskOp t).executorKind⟩ := by
      unfold addToBatches
      rw [if_neg]
      · simp
      · simpa using hslots
    have hinit : LegalSoFar ⟨[], (∅ : TaskSet).insert t, (config.taskOp t).numOfSlotsUsed, (config.taskOp t).executorKind⟩ (· = t) :=
      ⟨batchesOf_single.congr (fun u => by simp), inhabited_single (mem_insert.mpr (.inl rfl))⟩
    have hall := @LegalSoFar.foldl config orderedTasks hlater _ _ hinit (by rintro u rfl v hv; exact hhead v hv)
    have hsmall := (@smallSoFar_first config [] (by simp) t (config.taskOp t).executorKind).foldl hlater (by
      intro u hu v hv
      rcases mem_insert.mp hu with rfl | hu
      · exact hhead v hv
      · exact absurd hu not_mem_empty)
    have hof := @BatchesOf.congr _ _ (· ∈ tasks) hall.batchesOf (fun u => by rw [← hmem, mem_cons])
    dsimp only [headD_cons, foldl_cons]
    rw [hfirst]
    exact ⟨⟨hof.concat, hall.inhabited, hsmall.small⟩, hof⟩

theorem createLegalVariantBatches_spec {tasks : TaskSet} {t : ℕ} (ht : t ∈ tasks)
    (hslots : ∀ t ∈ tasks, (config.taskOp t).numOfSlotsUsed ≤ config.availableSlots) :
    BatchesOf (createLegalVariantBatches config tasks) (· ∈ tasks) ∧
      Inhabited (createLegalVariantBatches config tasks) := by
  have hexists : ∃ t, t ∈ tasks := ⟨t, ht⟩
  obtain ⟨hlegal, hof⟩ := @createLegalVariantBatches_legal config _ _ (Nat.find_spec hexists)
    (fun u hu => Nat.find_min' hexists hu) (hslots _ (Nat.find_spec hexists))
  exact ⟨hof, hlegal.inhabited⟩

theorem createLegalVariantBatches_iff (config : LegalizationConfig) (tasks : TaskSet) :
    LegalBatches config tasks (createLegalVariantBatches config tasks) ↔
      ∃ t ∈ tasks, (∀ u ∈ tasks, t ≤ u) ∧ (config.taskOp t).numOfSlotsUsed ≤ config.availableSlots := by
  refine ⟨fun h => ?_, fun ⟨t, ht, hleast, hslots⟩ => (createLegalVariantBatches_legal ht hleast hslots).1⟩
  have hmem : ∀ u, u ∈ sortedOf tasks.toList ↔ u ∈ tasks := fun u => mem_sortedOf
  have hsorted := pairwise_sortedOf tasks.toList
  have hinhabited := h.inhabited
  unfold createLegalVariantBatches at hinhabited
  cases hordered : sortedOf tasks.toList with
  | nil =>
    rw [hordered] at hinhabited
    obtain ⟨t, ht⟩ := hinhabited ∅ (by simp)
    exact absurd ht not_mem_empty
  | cons first orderedTasks =>
    rw [hordered] at hmem hsorted hinhabited
    refine ⟨first, (hmem first).mp mem_cons_self, fun u hu => ?_, ?_⟩
    · rcases mem_cons.mp ((hmem u).mpr hu) with rfl | hlater
      · exact Nat.le_refl _
      · exact Nat.le_of_lt ((pairwise_cons.mp hsorted).1 u hlater)
    · by_contra hslots
      have hfirst : addToBatches config ⟨[], ∅, 0, (config.taskOp first).executorKind⟩ first =
          ⟨[∅], (∅ : TaskSet).insert first, (config.taskOp first).numOfSlotsUsed, (config.taskOp first).executorKind⟩ := by
        unfold addToBatches
        rw [if_pos]
        · rfl
        · left
          dsimp only
          omega
      dsimp only [headD_cons, foldl_cons] at hinhabited
      rw [hfirst] at hinhabited
      obtain ⟨t, ht⟩ := hinhabited ∅ (mem_append_left _ (mem_legalBatches_foldl (mem_singleton_self _)))
      exact absurd ht not_mem_empty

/-- The first of three tasks uses more slots than there are. -/
theorem createLegalVariantBatches_emptyBatch : ¬LegalBatches ⟨fun _ => ⟨5, .dpu⟩, 4, false, false⟩ (SmallSet.ofList [0, 1, 2])
    (createLegalVariantBatches ⟨fun _ => ⟨5, .dpu⟩, 4, false, false⟩ (SmallSet.ofList [0, 1, 2])) := by
  intro h
  obtain ⟨t, ht⟩ := h.inhabited ∅ (by decide)
  exact absurd ht not_mem_empty

variable {entries : TaskSet} {t : ℕ}

theorem getMinEntry_le (h : t ∈ entries) : getMinEntry entries ≤ t := by
  unfold getMinEntry
  cases hmin : entries.toList.min? with
  | none =>
    rw [mem_iff, min?_eq_none_iff.mp hmin] at h
    exact absurd h not_mem_nil
  | some m => exact (min?_eq_some_iff.mp hmin).2 t h

theorem le_getMaxEntry (h : t ∈ entries) : t ≤ getMaxEntry entries := by
  unfold getMaxEntry
  cases hmax : entries.toList.max? with
  | none =>
    rw [mem_iff, max?_eq_none_iff.mp hmax] at h
    exact absurd h not_mem_nil
  | some m => exact (max?_eq_some_iff.mp hmax).2 t h

theorem exists_mem_of_getMinEntry_pos (h : 0 < getMinEntry entries) : ∃ t, t ∈ entries := by
  by_contra hempty
  have hnil := toList_eq_nil.mpr (not_exists.mp hempty)
  unfold getMinEntry at h
  rw [hnil] at h
  exact absurd h (Nat.lt_irrefl 0)

variable {s : BarrierInfo} {b : ℕ}

structure ProducersSoFar (legalBatches : List TaskSet) (producers : ℕ → Prop) : Prop where
  batchesOf : BatchesOf legalBatches producers
  inhabited : Inhabited legalBatches.tail

theorem inhabited_tail_append {batches later : List TaskSet} (h : Inhabited batches.tail) (hlater : Inhabited later) :
    Inhabited (batches ++ later).tail := by
  cases batches with
  | nil => exact fun batch hbatch => hlater batch (mem_of_mem_tail hbatch)
  | cons first batches => exact inhabited_append h hlater

theorem inhabited_tail_dropLast {batches : List TaskSet} (h : Inhabited batches.tail) :
    Inhabited batches.dropLast.tail := by
  intro batch hbatch
  rw [tail_dropLast] at hbatch
  exact h batch (dropLast_subset _ hbatch)

theorem barrierBatches_spec (hslots : ∀ t ∈ s.getBarrierProducers b, (config.taskOp t).numOfSlotsUsed ≤ config.availableSlots)
    {batches : List TaskSet} (hbatches : batches =
      if canMergeBarriersForTasks config (s.getBarrierProducers b) config.availableSlots then [s.getBarrierProducers b]
      else createLegalVariantBatches config (s.getBarrierProducers b)) :
    ProducersSoFar batches (· ∈ s.getBarrierProducers b) ∧
      ∀ t ∈ s.getBarrierProducers b, Inhabited batches := by
  by_cases hmerge : canMergeBarriersForTasks config (s.getBarrierProducers b) config.availableSlots = true
  · rw [if_pos hmerge] at hbatches
    subst hbatches
    refine ⟨⟨batchesOf_single, ?_⟩, fun t ht => inhabited_single ht⟩
    exact fun batch hbatch => absurd hbatch not_mem_nil
  · rw [if_neg hmerge] at hbatches
    subst hbatches
    by_cases hempty : ∃ t, t ∈ s.getBarrierProducers b
    · obtain ⟨t, ht⟩ := hempty
      obtain ⟨hof, hinhabited⟩ := createLegalVariantBatches_spec ht hslots
      exact ⟨⟨hof, fun batch hbatch => hinhabited batch (mem_of_mem_tail hbatch)⟩, fun _ _ => hinhabited⟩
    · have hnil := toList_eq_nil.mpr (not_exists.mp hempty)
      apply absurd _ hmerge
      unfold canMergeBarriersForTasks slotCount
      rw [hnil]
      simp

section
variable {legalBatches : List TaskSet} {producers : ℕ → Prop} {u : ℕ}

theorem ProducersSoFar.first (h : ProducersSoFar [] producers) {batches : List TaskSet}
    (hbatches : ProducersSoFar batches (· ∈ s.getBarrierProducers b)) :
    (∀ t, ¬ producers t) ∧ ProducersSoFar batches (fun t => producers t ∨ t ∈ s.getBarrierProducers b) := by
  have hnone : ∀ t, ¬ producers t := by
    intro t ht
    obtain ⟨batch, hbatch, -⟩ := (h.batchesOf.members t).mpr ht
    exact absurd hbatch not_mem_nil
  exact ⟨hnone, hbatches.batchesOf.congr (fun t => by simp [hnone t]), hbatches.inhabited⟩

theorem ProducersSoFar.append (h : ProducersSoFar legalBatches producers) {batches : List TaskSet}
    (hbatches : BatchesOf batches (· ∈ s.getBarrierProducers b)) (hinhabited : Inhabited batches)
    (hlt : ∀ t, producers t → ∀ v, v ∈ s.getBarrierProducers b → t < v) :
    ProducersSoFar (legalBatches ++ batches) (fun t => producers t ∨ t ∈ s.getBarrierProducers b) :=
  ⟨h.batchesOf.append hbatches hlt, inhabited_tail_append h.inhabited hinhabited⟩

theorem ProducersSoFar.extendLast (h : ProducersSoFar legalBatches producers) (hnil : legalBatches ≠ [])
    (hu : u ∈ s.getBarrierProducers b) (hlt : ∀ t, producers t → ∀ v, v ∈ s.getBarrierProducers b → t < v) :
    ProducersSoFar (legalBatches.dropLast ++ [(legalBatches.getLastD ∅).union (s.getBarrierProducers b)])
      (fun t => producers t ∨ t ∈ s.getBarrierProducers b) := by
  have hgetLast : legalBatches.getLastD ∅ = legalBatches.getLast hnil := by
    rw [getLastD_eq_getLast?, getLast?_eq_some_getLast hnil]
    rfl
  constructor
  · have hsoFar := h.batchesOf
    rw [← dropLast_concat_getLast hnil] at hsoFar
    apply hsoFar.extendLast _ hlt
    intro t
    rw [mem_union, hgetLast]
  · apply inhabited_tail_append (inhabited_tail_dropLast h.inhabited)
    exact inhabited_single (mem_union.mpr (.inr hu))

end

theorem producerBatches_spec {waitBarriers : List ℕ}
    (hslots : ∀ b ∈ waitBarriers, ∀ t ∈ s.getBarrierProducers b, (config.taskOp t).numOfSlotsUsed ≤ config.availableSlots)
    {legalBatches : List TaskSet} {producers : ℕ → Prop} (h : ProducersSoFar legalBatches producers)
    {prevLastUserInd : ℕ} (hprev : ∀ t, producers t → t ≤ prevLastUserInd)
    (hresult : producerBatches config s waitBarriers legalBatches prevLastUserInd ≠ []) :
    ProducersSoFar (producerBatches config s waitBarriers legalBatches prevLastUserInd)
      (fun t => producers t ∨ ∃ b ∈ waitBarriers, t ∈ s.getBarrierProducers b) := by
  induction waitBarriers generalizing legalBatches producers prevLastUserInd with
  | nil => exact ⟨h.batchesOf.congr (by simp), h.inhabited⟩
  | cons b waitBarriers ih =>
    obtain ⟨hslot, hslots⟩ := forall_mem_cons.mp hslots
    have hbarrier := @barrierBatches_spec config s b hslot
    -- The rest of the loop, from the batches that include those of `b`.
    have hrest : ∀ {batches}, ProducersSoFar batches (fun t => producers t ∨ t ∈ s.getBarrierProducers b) →
        (∀ t, producers t → t ≤ getMaxEntry (s.getBarrierProducers b)) →
        producerBatches config s waitBarriers batches (getMaxEntry (s.getBarrierProducers b)) ≠ [] →
        ProducersSoFar (producerBatches config s waitBarriers batches (getMaxEntry (s.getBarrierProducers b)))
          (fun t => producers t ∨ ∃ b' ∈ b :: waitBarriers, t ∈ s.getBarrierProducers b') := by
      intro batches hbatches hle hresult
      have hsoFar := ih hslots hbatches (fun t ht => ht.elim (hle t) le_getMaxEntry) hresult
      refine ⟨hsoFar.batchesOf.congr (fun t => ?_), hsoFar.inhabited⟩
      simp only [mem_cons, or_and_right, exists_or, exists_eq_left, or_assoc]
    unfold producerBatches at hresult ⊢
    dsimp only at hresult ⊢
    generalize hbatches : (if canMergeBarriersForTasks config (s.getBarrierProducers b) config.availableSlots = true then
      [s.getBarrierProducers b] else createLegalVariantBatches config (s.getBarrierProducers b)) = batches at hresult ⊢
    obtain ⟨hof, hinhabited⟩ := hbarrier hbatches.symm
    by_cases hnil : legalBatches = []
    · subst hnil
      rw [if_pos rfl] at hresult ⊢
      obtain ⟨hnone, hfirst⟩ := h.first hof
      exact hrest hfirst (fun t ht => absurd ht (hnone t)) hresult
    · rw [if_neg hnil] at hresult ⊢
      by_cases horder : prevLastUserInd ≥ getMinEntry (s.getBarrierProducers b)
      · rw [if_pos horder] at hresult
        exact absurd rfl hresult
      · rw [if_neg horder] at hresult ⊢
        have horder := Nat.lt_of_not_le horder
        obtain ⟨u, hu⟩ := exists_mem_of_getMinEntry_pos (Nat.lt_of_le_of_lt (Nat.zero_le _) horder)
        have hlt : ∀ t, producers t → ∀ v, v ∈ s.getBarrierProducers b → t < v := fun t ht v hv =>
          Nat.lt_of_le_of_lt (hprev t ht) (Nat.lt_of_lt_of_le horder (getMinEntry_le hv))
        have hle : ∀ t, producers t → t ≤ getMaxEntry (s.getBarrierProducers b) := fun t ht =>
          Nat.le_trans (Nat.le_of_lt (hlt t ht u hu)) (le_getMaxEntry hu)
        by_cases hplus : canMergeBarriersForTasks config
            ((legalBatches.getLastD ∅).union (s.getBarrierProducers b)) config.availableSlots = true
        · rw [if_pos hplus] at hresult ⊢
          exact hrest (h.extendLast hnil hu hlt) hle hresult
        · rw [if_neg hplus] at hresult ⊢
          exact hrest (h.append hof.batchesOf (hinhabited u hu) hlt) hle hresult

end

end NpuCompiler.Barrier
