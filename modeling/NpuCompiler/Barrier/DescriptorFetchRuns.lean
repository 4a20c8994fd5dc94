import NpuCompiler.Barrier.DescriptorFetch
import NpuCompiler.Barrier.ExplicitDependencies

namespace NpuCompiler.Barrier

open BarrierInfo FifoBarrierInfo GraphSplit Relation TransitiveReduction AddedEdges List

def Precedes (config : OptimizeConfig) (s : BarrierInfo) (x y : ℕ) : Prop := s.Edge x y ∨ QueueOrder config.getTaskQueueType x y

section
variable {config : OptimizeConfig} {maps maps' : BarrierInfo} {k p c W : ℕ}

theorem SameMaps.precedes (h : SameMaps maps maps') : Precedes config maps' = Precedes config maps := by
  unfold Precedes
  rw [SameMaps.edge h]

theorem precedes_addProducer (hW : W < maps.getNumOfBarrierOps) :
    Precedes config (maps.addProducer W p) = WithEdges (Precedes config maps) p (· ∈ maps.getBarrierConsumers W) := by
  funext x y
  apply propext
  have hedge : (maps.addProducer W p).Edge x y ↔ maps.Edge x y ∨ x = p ∧ y ∈ maps.getBarrierConsumers W := by
    constructor
    · rintro ⟨b, hx, hy⟩
      rw [consumers_addProducer] at hy
      rcases (mem_producers_addProducer hW).mp hx with ⟨rfl, rfl⟩ | hx
      · exact .inr ⟨rfl, hy⟩
      · exact .inl ⟨b, hx, hy⟩
    · rintro (⟨b, hx, hy⟩ | ⟨rfl, hy⟩)
      · exact ⟨b, (mem_producers_addProducer hW).mpr (.inr hx), by rwa [consumers_addProducer]⟩
      · exact ⟨W, (mem_producers_addProducer hW).mpr (.inl ⟨rfl, rfl⟩), by rwa [consumers_addProducer]⟩
  unfold Precedes WithEdges
  rw [hedge]
  tauto

theorem precedes_withEdge (h : WithEdge maps maps' p c) (hconsistent : maps.Consistent)
    (hqueue : QueueOrder config.getTaskQueueType p c) : Precedes config maps' = Precedes config maps := by
  funext x y
  apply propext
  unfold Precedes Edge
  simp only [h.edgeAt hconsistent]
  constructor
  · rintro (⟨b, ⟨-, rfl, rfl⟩ | hedge⟩ | hxy)
    · exact .inr hqueue
    · exact .inl ⟨b, hedge⟩
    · exact .inr hxy
  · rintro (⟨b, hedge⟩ | hxy)
    · exact .inl ⟨b, .inr hedge⟩
    · exact .inr hxy

theorem BlockSplit.addProducer (h : BlockSplit config maps) (hp : p < maps.getNumOfTasks) (hc : c ∈ maps.getBarrierConsumers W)
    (hblock : blockOf config.split.syncTasksIds (p + 1) = blockOf config.split.syncTasksIds c) :
    BlockSplit config (maps.addProducer W p) := by
  have hW := (h.consistent.consumer_lt hc).1
  refine ⟨h.consistent.addProducer hW hp, by simpa using h.split, by simpa using h.pos, h.queues, ?_⟩
  intro b
  obtain ⟨k, hproducers, hconsumers⟩ := h.blocks b
  refine ⟨k, ?_, ?_⟩
  · intro x hx
    rcases (mem_producers_addProducer hW).mp hx with ⟨rfl, rfl⟩ | hx
    · exact hblock.trans (hconsumers c hc)
    · exact hproducers x hx
  · intro y hy
    rw [consumers_addProducer] at hy
    exact hconsumers y hy

theorem BlockSplit.withEdge (h : BlockSplit config maps) (hnew : WithEdge maps maps' p c)
    (hblock : blockOf config.split.syncTasksIds (p + 1) = blockOf config.split.syncTasksIds c) : BlockSplit config maps' := by
  refine ⟨hnew.consistent, hnew.tasks.symm ▸ h.split, hnew.tasks.symm ▸ h.pos, h.queues, ?_⟩
  intro b
  by_cases hb : b = maps.getNumOfBarrierOps
  · refine ⟨blockOf config.split.syncTasksIds c, ?_, ?_⟩
    · intro x hx
      rcases (hnew.producers b x).mp hx with ⟨-, rfl⟩ | hx
      · exact hblock
      · exact absurd hb (Nat.ne_of_lt (h.consistent.producer_lt hx).1)
    · intro y hy
      rcases (hnew.consumers b y).mp hy with ⟨-, rfl⟩ | hy
      · rfl
      · exact absurd hb (Nat.ne_of_lt (h.consistent.consumer_lt hy).1)
  · obtain ⟨k, hproducers, hconsumers⟩ := h.blocks b
    refine ⟨k, ?_, ?_⟩
    · intro x hx
      rcases (hnew.producers b x).mp hx with ⟨hb', -⟩ | hx
      · exact absurd hb' hb
      · exact hproducers x hx
    · intro y hy
      rcases (hnew.consumers b y).mp hy with ⟨hb', -⟩ | hy
      · exact absurd hb' hb
      · exact hconsumers y hy

end

def Reuses (config : OptimizeConfig) (blockIdx : ℕ) (fifoExecGroups : ExecutionGroupList) (st : FetchState) (grpIdx W : ℕ) : Prop :=
  ∃ found cm cm', hasBarrierDependencyRequiredForDescriptorFetch config grpIdx blockIdx fifoExecGroups false st.toControlMapState =
      .ok ((false, found), cm) ∧
    (cm.info.maps.getWaitBarriers (firstTaskInGroup fifoExecGroups (grpIdx + 1))).size ≠ 0 ∧
    findReusableWaitBarrier config (lastTaskInGroup fifoExecGroups grpIdx) (firstTaskInGroup fifoExecGroups (grpIdx + 1))
      (firstTaskInGroup fifoExecGroups (grpIdx + 2)) st.legalizationBarriers cm = .ok (some W, cm')

/-- A consumer of the updated barrier that precedes the new producer when the call begins is one that the deadlock test sees, and
none precedes it through a dependency added since then. -/
def UpdatesSafely (config : OptimizeConfig) (s : BarrierInfo) (blockIdx lo hi : ℕ) (fifoExecGroups : ExecutionGroupList) (st : FetchState)
    (grpIdx : ℕ) : Prop :=
  ∀ W, Reuses config blockIdx fifoExecGroups st grpIdx W → ∀ c ∈ st.info.maps.getBarrierConsumers W,
    (ReflTransGen (Precedes config s) c (lastTaskInGroup fifoExecGroups grpIdx) →
      SeenDep config s blockIdx lo hi c (lastTaskInGroup fifoExecGroups grpIdx)) ∧
    ¬ Through (Precedes config s) (Precedes config st.info.maps) c (lastTaskInGroup fifoExecGroups grpIdx)

def Legal (config : OptimizeConfig) (s : BarrierInfo) (blockIdx lo hi : ℕ) (st : FetchState) : Prop :=
  ∃ maps, Mapped config s blockIdx lo hi maps st.toControlMapState ∧ ∀ x y, Precedes config s x y → Precedes config maps x y

section
variable {config : OptimizeConfig} {s : BarrierInfo} {st st' : FetchState} {queueType : TaskQueueType}
  {fifoExecGroups : ExecutionGroupList} {blockIdx lo hi i b : ℕ}

theorem insert_cases : (∃ c, c ∈ st.info.maps.getBarrierConsumers b) ∧ (∃ barriers, st.insert b = .ok { st with legalizationBarriers := barriers }) ∨
    (∀ c, c ∉ st.info.maps.getBarrierConsumers b) ∧ ∃ e, st.insert b = .error e := by
  unfold FetchState.insert getBarrierLatestConsumer
  cases hmax : (st.info.maps.getBarrierConsumers b).toList.max? with
  | none => exact .inr ⟨SmallSet.toList_eq_nil.mp (max?_eq_none_iff.mp hmax), _, rfl⟩
  | some latest => exact .inl ⟨⟨latest, max?_mem hmax⟩, _, rfl⟩

def Outcome (config : OptimizeConfig) (s : BarrierInfo) (blockIdx lo hi : ℕ) (st : FetchState) (safe : Prop)
    (result : Except String FetchState) : Prop :=
  (∃ e, result = .error e) ∧ (¬ ∀ b, TwoSided st.info.maps b) ∨
    ∃ st', result = .ok st' ∧ Legal config s blockIdx lo hi st' ∧
      ((∀ b, TwoSided st.info.maps b) → ∀ b, TwoSided st'.info.maps b) ∧
      (Acyclic (Precedes config st'.info.maps) ↔ Acyclic (Precedes config st.info.maps) ∧ safe)

section
variable {maps maps' : BarrierInfo} {cm : ControlMapState} {safe : Prop} {p c W : ℕ}

theorem Mapped.maps_eq (hst : Mapped config s blockIdx lo hi maps cm) : cm.info.maps = maps := by
  rw [hst.info]
  rfl

theorem Mapped.replace (hst : Mapped config s blockIdx lo hi maps cm) (hsplit : BlockSplit config maps')
    (htasks : maps'.getNumOfTasks = maps.getNumOfTasks) : Mapped config s blockIdx lo hi maps' { cm with info := ofMaps maps' } :=
  ⟨rfl, hsplit, htasks.trans hst.tasks, hst.block, hst.offset, hst.length, hst.rows⟩

section
variable (hst : Mapped config s blockIdx lo hi maps st.toControlMapState)
  (horder : ∀ x y, Precedes config s x y → Precedes config maps x y)
include hst horder

theorem outcome_required (hsafe : safe) {found : Option ℕ} (hfound : ∀ b, found = some b → ∃ p, p ∈ maps.getBarrierProducers b) :
    Outcome config s blockIdx lo hi st safe (found.elim (.ok st) st.insert) := by
  have hacyclic : Acyclic (Precedes config st.info.maps) ↔ Acyclic (Precedes config st.info.maps) ∧ safe := (and_iff_left hsafe).symm
  cases found with
  | none => exact .inr ⟨_, rfl, ⟨maps, hst, horder⟩, id, hacyclic⟩
  | some b =>
    rcases @insert_cases st b with ⟨-, barriers, hinsert⟩ | ⟨hnone, e, hinsert⟩
    · exact .inr ⟨_, hinsert, ⟨maps, hst, horder⟩, id, hacyclic⟩
    · refine .inl ⟨⟨e, hinsert⟩, ?_⟩
      intro htwo
      obtain ⟨p, hp⟩ := hfound b rfl
      obtain ⟨c, hc⟩ := htwo b ⟨p, hst.maps_eq ▸ hp⟩
      exact hnone c hc

theorem outcome_created (hsafe : safe) (hp : p < maps.getNumOfTasks) (hc : c < maps.getNumOfTasks)
    (hqueue : QueueOrder config.getTaskQueueType p c)
    (hblock : blockOf config.split.syncTasksIds (p + 1) = blockOf config.split.syncTasksIds c) :
    Outcome config s blockIdx lo hi st safe (.ok { st with info := createNewBarrier st.info p c, newDependenciesCreated := true }) := by
  have hnew := addTemporary_withEdge hst.split.consistent hp hc
  have hprecedes := precedes_withEdge hnew hst.split.consistent hqueue
  have hcreated : createNewBarrier st.info p c = ofMaps
      ((maps.addNewBarrier.addProducer maps.getNumOfBarrierOps p).addConsumer maps.getNumOfBarrierOps c) := by
    rw [hst.info]
    exact eq_ofMaps hnew.barriers.symm rfl
  rw [hcreated]
  refine .inr ⟨_, rfl, ⟨_, hst.replace (hst.split.withEdge hnew hblock) hnew.tasks, ?_⟩, ?_, ?_⟩
  · intro x y hxy
    rw [hprecedes]
    exact horder x y hxy
  · rintro htwo b ⟨x, hx⟩
    rcases (hnew.producers b x).mp hx with ⟨rfl, -⟩ | hx
    · exact ⟨c, (hnew.consumers _ c).mpr (.inl ⟨rfl, rfl⟩)⟩
    · obtain ⟨y, hy⟩ := htwo b ⟨x, hst.maps_eq ▸ hx⟩
      exact ⟨y, (hnew.consumers b y).mpr (.inr (hst.maps_eq ▸ hy))⟩
  · rw [hst.maps_eq]
    change Acyclic (Precedes config ((maps.addNewBarrier.addProducer _ p).addConsumer _ c)) ↔ _
    rw [hprecedes]
    exact (and_iff_left hsafe).symm

theorem outcome_reused (hp : p < maps.getNumOfTasks) (hc : c ∈ maps.getBarrierConsumers W)
    (hblock : blockOf config.split.syncTasksIds (p + 1) = blockOf config.split.syncTasksIds c) :
    Outcome config s blockIdx lo hi st (∀ c ∈ maps.getBarrierConsumers W, ¬ ReflTransGen (Precedes config maps) c p)
      (FetchState.insert { st with
        info := { st.info with maps := st.info.maps.addProducer W p }
        newDependenciesCreated := true } W) := by
  have hW := (hst.split.consistent.consumer_lt hc).1
  have hupdated : { st.info with maps := st.info.maps.addProducer W p } = ofMaps (maps.addProducer W p) := by
    rw [hst.info]
    exact eq_ofMaps (numOfBarrierOps_addProducer).symm rfl
  have hprecedes := @precedes_addProducer config maps p W hW
  rw [hupdated]
  rcases @insert_cases { st with info := ofMaps (maps.addProducer W p), newDependenciesCreated := true } W with
    ⟨-, barriers, hinsert⟩ | ⟨hnone, -⟩
  · refine .inr ⟨_, hinsert, ⟨_, hst.replace (hst.split.addProducer hp hc hblock) numOfTasks_addProducer, ?_⟩, ?_, ?_⟩
    · intro x y hxy
      rw [hprecedes]
      exact .inl (horder x y hxy)
    · rintro htwo b ⟨x, hx⟩
      change ∃ y, y ∈ (maps.addProducer W p).getBarrierConsumers b
      rw [consumers_addProducer]
      rcases (mem_producers_addProducer hW).mp hx with ⟨rfl, -⟩ | hx
      · exact ⟨c, hc⟩
      · obtain ⟨y, hy⟩ := htwo b ⟨x, hst.maps_eq ▸ hx⟩
        exact ⟨y, hst.maps_eq ▸ hy⟩
    · change Acyclic (Precedes config (maps.addProducer W p)) ↔ _
      rw [hprecedes, acyclic_withEdges, hst.maps_eq]
  · refine absurd ?_ (hnone c)
    change c ∈ (maps.addProducer W p).getBarrierConsumers W
    rw [consumers_addProducer]
    exact hc

end

/-- The deadlock test has answered for the graph of the start, so what is left are the dependencies added since. -/
theorem notBefore_iff (hst : Mapped config s blockIdx lo hi maps cm) (horder : ∀ x y, Precedes config s x y → Precedes config maps x y)
    (hunseen : ¬ SeenDep config s blockIdx lo hi c p) :
    ¬ ReflTransGen (Precedes config maps) c p ↔
      (ReflTransGen (Precedes config s) c p → SeenDep config s blockIdx lo hi c p) ∧
        ¬ Through (Precedes config s) (Precedes config cm.info.maps) c p := by
  rw [hst.maps_eq]
  constructor
  · intro hnot
    exact ⟨fun hpath => absurd (ReflTransGen.mono horder c p hpath) hnot, fun hthrough => hnot hthrough.reflTransGen⟩
  · rintro ⟨hseen, hnot⟩ hpath
    rcases reflTransGen_or_through (Precedes config s) hpath with hold | hthrough
    · exact hunseen (hseen hold)
    · exact hnot hthrough

end

theorem legalizeGroup_outcome (hk : BlockRange config.split s blockIdx lo hi) (hlegal : Legal config s blockIdx lo hi st)
    (hgroups : GroupsOf config s.getNumOfTasks queueType fifoExecGroups) (hi' : i + 1 < fifoExecGroups.length) :
    Outcome config s blockIdx lo hi st (UpdatesSafely config s blockIdx lo hi fifoExecGroups st i)
      (legalizeGroup config blockIdx fifoExecGroups st i) := by
  obtain ⟨maps, hst, horder⟩ := hlegal
  have hgroups' : GroupsOf config maps.getNumOfTasks queueType fifoExecGroups := hst.tasks.symm ▸ hgroups
  obtain ⟨required, found, hrequired, hfound, hmissing⟩ := hasBarrierDependencyRequiredForDescriptorFetch_spec hk hst hgroups' hi'
  have hi₀ : i < fifoExecGroups.length := Nat.lt_of_succ_lt hi'
  have hlast := (hgroups'.mem hi₀ (hgroups'.last_mem hi₀)).1
  have hfirst := (hgroups'.mem hi' (hgroups'.first_mem hi')).1
  have hqueue := hgroups'.queueOrder hi'
  unfold legalizeGroup
  rw [hrequired]
  cases required with
  | true =>
    have hsafe : UpdatesSafely config s blockIdx lo hi fifoExecGroups st i := by
      rintro W ⟨found', cm', cm'', hmissing', -⟩
      rw [hrequired, Except.ok.injEq, Prod.mk.injEq, Prod.mk.injEq] at hmissing'
      exact absurd hmissing'.1.1 Bool.true_eq_false.mp
    have houtcome := outcome_required hst horder hsafe (fun b heq => ⟨_, hfound b heq⟩)
    cases found with
    | none => exact houtcome
    | some b => exact houtcome
  | false =>
    obtain ⟨hgrand, hlastBlock, hfirstBlock⟩ := hmissing rfl
    have hblock : blockOf config.split.syncTasksIds (lastTaskInGroup fifoExecGroups i + 1) =
        blockOf config.split.syncTasksIds (firstTaskInGroup fifoExecGroups (i + 1)) :=
      (blockOf_succ_eq hqueue.1 hlastBlock hfirstBlock).trans hfirstBlock.symm
    have hgrandFirst := (hgroups'.mem hgrand (hgroups'.first_mem hgrand)).1
    change Outcome config s blockIdx lo hi st _ (if _ then _ else if ¬ i + 2 < fifoExecGroups.length then _ else _)
    by_cases hnoWait : (st.info.maps.getWaitBarriers (firstTaskInGroup fifoExecGroups (i + 1))).size = 0
    · rw [if_pos hnoWait]
      refine outcome_created hst horder ?_ hlast hfirst hqueue hblock
      rintro W ⟨found', cm', cm'', hmissing', hwaits, -⟩
      rw [hrequired, Except.ok.injEq, Prod.mk.injEq] at hmissing'
      exact absurd (hmissing'.2 ▸ hnoWait) hwaits
    · rw [if_neg hnoWait, if_neg (not_not.mpr hgrand)]
      obtain ⟨reusable, hreusable, hspec⟩ := findReusableWaitBarrier_spec hk hst hlast hlastBlock hfirstBlock hgrandFirst
        st.legalizationBarriers
      change Outcome config s blockIdx lo hi st _ (Except.bind (findReusableWaitBarrier config _ _ _ st.legalizationBarriers
        st.toControlMapState) _)
      rw [hreusable]
      -- the run has one barrier to reuse, or none
      have hreuses (W : ℕ) : Reuses config blockIdx fifoExecGroups st i W ↔ reusable = some W := by
        constructor
        · rintro ⟨found', cm₁, cm₂, hmissing', -, hreusable'⟩
          rw [hrequired, Except.ok.injEq, Prod.mk.injEq] at hmissing'
          rw [← hmissing'.2, hreusable, Except.ok.injEq, Prod.mk.injEq] at hreusable'
          exact hreusable'.1
        · rintro rfl
          exact ⟨found, _, _, hrequired, hnoWait, hreusable⟩
      cases reusable with
      | none =>
        refine outcome_created hst horder ?_ hlast hfirst hqueue hblock
        intro W hW
        exact absurd ((hreuses W).mp hW) (Option.some_ne_none _).symm
      | some W =>
        obtain ⟨hconsumer, hunseen⟩ := hspec W rfl
        have hsafe : UpdatesSafely config s blockIdx lo hi fifoExecGroups st i ↔ ∀ c ∈ maps.getBarrierConsumers W,
            ¬ ReflTransGen (Precedes config maps) c (lastTaskInGroup fifoExecGroups i) := by
          constructor
          · intro hsafe c hc
            exact (notBefore_iff hst horder (hunseen c hc)).mpr (hsafe W ((hreuses W).mpr rfl) c (hst.maps_eq.symm ▸ hc))
          · intro hnot W' hreuse c hc
            obtain rfl := Option.some.inj ((hreuses W').mp hreuse)
            rw [hst.maps_eq] at hc
            exact (notBefore_iff hst horder (hunseen c hc)).mp (hnot c hc)
        rw [hsafe]
        exact outcome_reused hst horder hlast hconsumer hblock

end

def Handles (config : OptimizeConfig) (blockIdx : ℕ) (executionGroups : List (TaskQueueType × ExecutionGroupList))
    (start : FetchState) (fifoExecGroups : ExecutionGroupList) (grpIdx : ℕ) (st : FetchState) : Prop :=
  ∃ before queueType after st₀, executionGroups = before ++ (queueType, fifoExecGroups) :: after ∧
    before.foldlM (legalizeQueue config blockIdx) start = .ok st₀ ∧ grpIdx + 1 < fifoExecGroups.length ∧
    (List.range grpIdx).foldlM (legalizeGroup config blockIdx fifoExecGroups) { st₀ with legalizationBarriers := [] } = .ok st

section
variable {config : OptimizeConfig} {s : BarrierInfo} {st st' : FetchState} {safe : Prop} {result : Except String FetchState}
  {blockIdx lo hi : ℕ} {executionGroups : List (TaskQueueType × ExecutionGroupList)}

theorem Outcome.ok (h : Outcome config s blockIdx lo hi st safe result) (htwo : ∀ b, TwoSided st.info.maps b) :
    ∃ st', result = .ok st' ∧ Legal config s blockIdx lo hi st' ∧ ∀ b, TwoSided st'.info.maps b := by
  rcases h with ⟨-, hnot⟩ | ⟨st', hresult, hlegal, hsides, -⟩
  · exact absurd htwo hnot
  · exact ⟨st', hresult, hlegal, hsides htwo⟩

theorem Outcome.acyclic_iff (h : Outcome config s blockIdx lo hi st safe result) (hresult : result = .ok st') :
    Legal config s blockIdx lo hi st' ∧ (Acyclic (Precedes config st'.info.maps) ↔ Acyclic (Precedes config st.info.maps) ∧ safe) := by
  rcases h with ⟨⟨e, herror⟩, -⟩ | ⟨st'', hok, hlegal, -, hacyclic⟩
  · rw [herror] at hresult
    cases hresult
  · rw [hok, Except.ok.injEq] at hresult
    exact hresult ▸ ⟨hlegal, hacyclic⟩

section
variable (hk : BlockRange config.split s blockIdx lo hi)
include hk

theorem legalizeQueue_ok {entry : TaskQueueType × ExecutionGroupList} (hlegal : Legal config s blockIdx lo hi st)
    (hgroups : GroupsOf config s.getNumOfTasks entry.1 entry.2) (htwo : ∀ b, TwoSided st.info.maps b) :
    ∃ st', legalizeQueue config blockIdx st entry = .ok st' ∧ Legal config s blockIdx lo hi st' ∧ ∀ b, TwoSided st'.info.maps b := by
  unfold legalizeQueue
  by_cases hshort : entry.2.length ≤ 1
  · exact ⟨_, if_pos hshort, hlegal, htwo⟩
  · dsimp only
    rw [if_neg hshort]
    obtain ⟨st', hrun, hst', -⟩ := @foldlM_establishes _ _ _ (fun st => Legal config s blockIdx lo hi st ∧ ∀ b, TwoSided st.info.maps b)
      (fun _ _ => True) (List.range (entry.2.length - 1)) { st with legalizationBarriers := [] }
      (legalizeGroup config blockIdx entry.2) ⟨hlegal, htwo⟩ (by
        rintro i hi st ⟨hlegal, htwo⟩
        have hlt : i + 1 < entry.2.length := Nat.add_lt_of_lt_sub (mem_range.mp hi)
        obtain ⟨st', hstep, hlegal', htwo'⟩ := (legalizeGroup_outcome hk hlegal hgroups hlt).ok htwo
        exact ⟨st', hstep, ⟨hlegal', htwo'⟩, trivial, fun _ _ => trivial⟩)
    exact ⟨st', hrun, hst'⟩

theorem legalizeQueue_acyclic_iff {entry : TaskQueueType × ExecutionGroupList} (hlegal : Legal config s blockIdx lo hi st)
    (hgroups : GroupsOf config s.getNumOfTasks entry.1 entry.2) (hrun : legalizeQueue config blockIdx st entry = .ok st') :
    Legal config s blockIdx lo hi st' ∧ (Acyclic (Precedes config st'.info.maps) ↔ Acyclic (Precedes config st.info.maps) ∧
      ∀ i st₁, i + 1 < entry.2.length → (List.range i).foldlM (legalizeGroup config blockIdx entry.2)
        { st with legalizationBarriers := [] } = .ok st₁ → UpdatesSafely config s blockIdx lo hi entry.2 st₁ i) := by
  unfold legalizeQueue at hrun
  by_cases hshort : entry.2.length ≤ 1
  · dsimp only at hrun
    rw [if_pos hshort, Except.ok.injEq] at hrun
    rw [← hrun]
    refine ⟨hlegal, (and_iff_left ?_).symm⟩
    intro i st₁ hi
    omega
  · dsimp only at hrun
    rw [if_neg hshort] at hrun
    have hlegal₀ : Legal config s blockIdx lo hi { st with legalizationBarriers := [] } := hlegal
    obtain ⟨hlegal', hacyclic⟩ := @foldlM_traces _ _ _ (Legal config s blockIdx lo hi) (List.range (entry.2.length - 1))
      { st with legalizationBarriers := [] } (legalizeGroup config blockIdx entry.2)
      (fun st => Acyclic (Precedes config st.info.maps)) (fun st i => UpdatesSafely config s blockIdx lo hi entry.2 st i) st' hlegal₀ (by
        intro i hi st st' hlegal hstep
        exact (legalizeGroup_outcome hk hlegal hgroups (Nat.add_lt_of_lt_sub (mem_range.mp hi))).acyclic_iff hstep) hrun
    refine ⟨hlegal', hacyclic.trans (and_congr_right' ?_)⟩
    constructor
    · intro hall i st₁ hi hprefix
      obtain ⟨after, hrange⟩ := exists_range_eq_append (show i < entry.2.length - 1 by omega)
      exact hall _ i after st₁ hrange hprefix
    · intro hall before i after st₁ hrange hprefix
      obtain ⟨rfl, hi⟩ := range_eq_append hrange
      exact hall i st₁ (by omega) hprefix

end

theorem beginLegalization_spec (h : BlockSplit config s) (hk : BlockRange config.split s blockIdx lo hi) :
    ∃ st maps, beginLegalization config blockIdx (ofMaps s) = .ok st ∧ Mapped config s blockIdx lo hi maps st.toControlMapState ∧
      SameMaps s maps := by
  obtain ⟨m, restored, hbuild, hconsistent, hsame, hlength, hrows⟩ := @buildTaskControlMap_rows config s blockIdx lo hi true
    h.consistent h.split h.pos h.queues hk (h.closed hk)
  have hmap : buildTaskQueueTypeMap config s.getNumOfTasks ≠ [] := fun hnil => h.queues (map_eq_nil_iff.mp hnil)
  unfold beginLegalization
  rw [if_neg (show ¬ buildTaskQueueTypeMap config (ofMaps s).maps.getNumOfTasks = [] from hmap), hbuild]
  exact ⟨_, restored, rfl, ⟨rfl, h.sameMaps hsame hconsistent, hsame.tasks, rfl, rfl, hlength, hrows⟩, hsame⟩

theorem legal_start {maps : BarrierInfo} (hst : Mapped config s blockIdx lo hi maps st.toControlMapState) (hsame : SameMaps s maps) :
    Legal config s blockIdx lo hi st ∧ Precedes config st.info.maps = Precedes config s ∧
      ((∀ b, TwoSided s b) → ∀ b, TwoSided st.info.maps b) := by
  have hprecedes : Precedes config maps = Precedes config s := SameMaps.precedes hsame
  refine ⟨⟨maps, hst, fun x y hxy => by rwa [hprecedes]⟩, by rw [hst.maps_eq, hprecedes], ?_⟩
  rintro htwo b ⟨p, hp⟩
  rw [hst.maps_eq] at hp ⊢
  obtain ⟨c, hc⟩ := htwo b ⟨p, (hsame.producers b p).mp hp⟩
  exact ⟨c, (hsame.consumers b c).mpr hc⟩

/-- The call keeps the order, and there is no cycle behind it exactly when no update meets a path that the control map of the start
does not have. It ends without an exception where each updated barrier has consumers. -/
theorem createBarrierDependenciesForDescriptorFetchInNonWlm_acyclic_iff (h : BlockSplit config s)
    (hacyclic : ∀ t, ¬ s.OrderedBy (QueueOrder config.getTaskQueueType) t t)
    (hk : BlockRange config.split s blockIdx lo hi)
    (hgroups : ∀ entry ∈ executionGroups, GroupsOf config s.getNumOfTasks entry.1 entry.2) :
    ((∀ b, TwoSided s b) → ∃ result,
      createBarrierDependenciesForDescriptorFetchInNonWlm config blockIdx executionGroups (ofMaps s) = .ok result) ∧
    ∀ s' created, createBarrierDependenciesForDescriptorFetchInNonWlm config blockIdx executionGroups (ofMaps s) =
        .ok (s', created) →
      (∀ x y, s.OrderedBy (QueueOrder config.getTaskQueueType) x y → s'.maps.OrderedBy (QueueOrder config.getTaskQueueType) x y) ∧
      ((∀ t, ¬ s'.maps.OrderedBy (QueueOrder config.getTaskQueueType) t t) ↔
        ∀ start, beginLegalization config blockIdx (ofMaps s) = .ok start → ∀ fifoExecGroups grpIdx st,
          Handles config blockIdx executionGroups start fifoExecGroups grpIdx st →
            UpdatesSafely config s blockIdx lo hi fifoExecGroups st grpIdx) := by
  obtain ⟨start, maps, hstart, hmapped, hsame⟩ := beginLegalization_spec h hk
  obtain ⟨hlegal, hprecedes, hsides⟩ := legal_start hmapped hsame
  unfold createBarrierDependenciesForDescriptorFetchInNonWlm
  rw [hstart]
  constructor
  · intro htwo
    obtain ⟨st, hrun, -⟩ := @foldlM_establishes _ _ _ (fun st => Legal config s blockIdx lo hi st ∧ ∀ b, TwoSided st.info.maps b)
      (fun _ _ => True) executionGroups start (legalizeQueue config blockIdx) ⟨hlegal, hsides htwo⟩ (by
        rintro entry hentry st ⟨hlegal, htwo⟩
        obtain ⟨st', hstep, hst'⟩ := legalizeQueue_ok hk hlegal (hgroups entry hentry) htwo
        exact ⟨st', hstep, hst', trivial, fun _ _ => trivial⟩)
    refine ⟨(st.info, st.newDependenciesCreated), ?_⟩
    change Except.bind (executionGroups.foldlM (legalizeQueue config blockIdx) start) _ = _
    rw [hrun]
    rfl
  · intro s' created hresult
    obtain ⟨st, hrun, hst⟩ := bind_eq_ok.mp (show (executionGroups.foldlM (legalizeQueue config blockIdx) start >>= fun st =>
      .ok (st.info, st.newDependenciesCreated)) = .ok (s', created) from hresult)
    cases hst
    obtain ⟨⟨maps', hst, horder⟩, hiff⟩ := @foldlM_traces _ _ _ (Legal config s blockIdx lo hi) executionGroups start
      (legalizeQueue config blockIdx) (fun st => Acyclic (Precedes config st.info.maps)) (fun st entry =>
        ∀ i st₁, i + 1 < entry.2.length → (List.range i).foldlM (legalizeGroup config blockIdx entry.2)
          { st with legalizationBarriers := [] } = .ok st₁ → UpdatesSafely config s blockIdx lo hi entry.2 st₁ i) st hlegal (by
        intro entry hentry st st' hlegal hstep
        exact legalizeQueue_acyclic_iff hk hlegal (hgroups entry hentry) hstep) hrun
    constructor
    · intro x y hxy
      change TransGen (Precedes config st.info.maps) x y
      rw [hst.maps_eq]
      exact TransGen.mono horder x y hxy
    · refine hiff.trans ?_
      rw [hprecedes, and_iff_right (show Acyclic (Precedes config s) from hacyclic)]
      constructor
      · rintro hall start' hstart' fifoExecGroups i st₁ ⟨before, queueType, after, st₀, hsplit, hbefore, hi, hprefix⟩
        cases hstart'
        exact hall before (queueType, fifoExecGroups) after st₀ hsplit hbefore i st₁ hi hprefix
      · rintro hall before ⟨queueType, fifoExecGroups⟩ after st₀ hsplit hbefore i st₁ hi hprefix
        exact hall start rfl fifoExecGroups i st₁ ⟨before, queueType, after, st₀, hsplit, hbefore, hi, hprefix⟩

/-- The queues of the tasks: two DMA queues with the tasks 0, 1 and 2, and two DPU queues that take turns. -/
def crossingConfig : OptimizeConfig where
  split := ⟨[], []⟩
  taskOp := fun _ => ⟨1, .dmaNN⟩
  getTaskQueueType := fun taskInd =>
    if taskInd < 2 then ⟨.dmaNN, 0⟩ else if taskInd = 2 then ⟨.dmaNN, 1⟩ else if taskInd % 2 = 1 then ⟨.dpu, 0⟩ else ⟨.dpu, 1⟩
  taskQueueTypes := [⟨.dmaNN, 0⟩, ⟨.dmaNN, 1⟩, ⟨.dpu, 0⟩, ⟨.dpu, 1⟩]
  taskQueueTypes_nodup := by decide
  barrierMaxVariantSum := 64

/-- Each of the second tasks of the DPU queues waits with a DMA task that comes before the first task of the other queue. -/
def crossing : BarrierInfo :=
  let s := (List.range 9).foldl (fun s _ => s.addNewTaskOp) BarrierInfo.empty
  let s := s.addNewBarrier.addNewBarrier.addNewBarrier.addNewBarrier
  let s := ((s.addProducer 0 0).addConsumer 0 5).addConsumer 0 1
  let s := ((s.addProducer 1 0).addConsumer 1 6).addConsumer 1 2
  let s := (s.addProducer 2 1).addConsumer 2 4
  (s.addProducer 3 2).addConsumer 3 3

def crossingGroups : List (TaskQueueType × ExecutionGroupList) :=
  [(⟨.dpu, 0⟩, [[3], [5], [7]]), (⟨.dpu, 1⟩, [[4], [6], [8]])]

theorem crossing_blockSplit : BlockSplit crossingConfig crossing := by
  have htasks : ((List.range 9).foldl (fun s _ => s.addNewTaskOp) BarrierInfo.empty).Consistent :=
    foldl_invariant consistent_empty (fun _ _ _ hs => hs.addNewTaskOp)
  have hbarriers := htasks.addNewBarrier.addNewBarrier.addNewBarrier.addNewBarrier
  have hfirst := ((hbarriers.addProducer (b := 0) (t := 0) (by decide) (by decide)).addConsumer (b := 0) (t := 5) (by decide)
    (by decide)).addConsumer (b := 0) (t := 1) (by decide) (by decide)
  have hsecond := ((hfirst.addProducer (b := 1) (t := 0) (by decide) (by decide)).addConsumer (b := 1) (t := 6) (by decide)
    (by decide)).addConsumer (b := 1) (t := 2) (by decide) (by decide)
  have hthird := (hsecond.addProducer (b := 2) (t := 1) (by decide) (by decide)).addConsumer (b := 2) (t := 4) (by decide) (by decide)
  refine ⟨(hthird.addProducer (b := 3) (t := 2) (by decide) (by decide)).addConsumer (b := 3) (t := 3) (by decide) (by decide),
    ⟨by decide, by decide, by decide, by decide⟩, by decide, by decide, ?_⟩
  exact fun b => ⟨0, fun _ _ => rfl, fun _ _ => rfl⟩

theorem crossing_acyclic (t : ℕ) : ¬ crossing.OrderedBy (QueueOrder crossingConfig.getTaskQueueType) t t := by
  have htopological : crossing.Topological := BarrierInfo.forall_edges (by decide)
  exact fun hcycle => Nat.lt_irrefl t (orderedBy_lt htopological queueOrder_lt hcycle)

theorem crossing_groupsOf : ∀ entry ∈ crossingGroups, GroupsOf crossingConfig crossing.getNumOfTasks entry.1 entry.2 := by
  intro entry hentry
  rcases mem_pair.mp hentry with rfl | rfl
  · exact ⟨by decide, by decide, by decide⟩
  · exact ⟨by decide, by decide, by decide⟩

/-- Each update alone would do no harm. -/
theorem createBarrierDependenciesForDescriptorFetchInNonWlm_closesCycle :
    BlockSplit crossingConfig crossing ∧ (∀ t, ¬ crossing.OrderedBy (QueueOrder crossingConfig.getTaskQueueType) t t) ∧
    (∀ entry ∈ crossingGroups, GroupsOf crossingConfig crossing.getNumOfTasks entry.1 entry.2) ∧
    ∃ s' created, createBarrierDependenciesForDescriptorFetchInNonWlm crossingConfig 0 crossingGroups (ofMaps crossing) =
        .ok (s', created) ∧
      s'.maps.OrderedBy (QueueOrder crossingConfig.getTaskQueueType) 3 3 := by
  refine ⟨crossing_blockSplit, crossing_acyclic, crossing_groupsOf, ?_⟩
  have hrun : (match createBarrierDependenciesForDescriptorFetchInNonWlm crossingConfig 0 crossingGroups (ofMaps crossing) with
      | .error _ => false
      | .ok (s', _) => decide ((3 ∈ s'.maps.getBarrierProducers 0 ∧ 1 ∈ s'.maps.getBarrierConsumers 0) ∧
          (1 ∈ s'.maps.getBarrierProducers 2 ∧ 4 ∈ s'.maps.getBarrierConsumers 2) ∧
          (4 ∈ s'.maps.getBarrierProducers 1 ∧ 2 ∈ s'.maps.getBarrierConsumers 1) ∧
          2 ∈ s'.maps.getBarrierProducers 3 ∧ 3 ∈ s'.maps.getBarrierConsumers 3)) = true := by
    rfl
  cases hresult : createBarrierDependenciesForDescriptorFetchInNonWlm crossingConfig 0 crossingGroups (ofMaps crossing) with
  | error e =>
    rw [hresult] at hrun
    cases hrun
  | ok result =>
    rw [hresult] at hrun
    obtain ⟨hfirst, hsecond, hthird, hlast⟩ := of_decide_eq_true hrun
    refine ⟨result.1, result.2, rfl, ?_⟩
    have h31 : result.1.maps.Edge 3 1 := ⟨0, hfirst⟩
    have h14 : result.1.maps.Edge 1 4 := ⟨2, hsecond⟩
    have h42 : result.1.maps.Edge 4 2 := ⟨1, hthird⟩
    have h23 : result.1.maps.Edge 2 3 := ⟨3, hlast⟩
    exact .head (.inl h31) (.head (.inl h14) (.head (.inl h42) (.single (.inl h23))))

/-- Without the dependencies between the queues the second task of each DPU queue waits for the first DMA task alone. -/
def parallel : BarrierInfo := chained ((List.range 9).foldl (fun s _ => s.addNewTaskOp) BarrierInfo.empty) [(0, 5), (0, 6)]

theorem parallel_blockSplit : BlockSplit crossingConfig parallel := by
  have htasks : ((List.range 9).foldl (fun s _ => s.addNewTaskOp) BarrierInfo.empty).Consistent :=
    foldl_invariant consistent_empty (fun _ _ _ hs => hs.addNewTaskOp)
  refine ⟨(consistent_chained htasks (by decide)).1, ⟨by decide, by decide, by decide, by decide⟩, by decide, by decide, ?_⟩
  exact fun b => ⟨0, fun _ _ => rfl, fun _ _ => rfl⟩

theorem parallel_topological : parallel.Topological := BarrierInfo.forall_edges (by decide)

theorem updatesSafely_of_lt {s : BarrierInfo} {st : FetchState} {fifoExecGroups : ExecutionGroupList} {blockIdx lo hi grpIdx : ℕ}
    (hs : s.Topological) (hst : st.info.maps.Topological)
    (hlt : ∀ W, ∀ c ∈ st.info.maps.getBarrierConsumers W, lastTaskInGroup fifoExecGroups grpIdx < c) :
    UpdatesSafely config s blockIdx lo hi fifoExecGroups st grpIdx := by
  intro W _ c hc
  have hnone {maps : BarrierInfo} (htopological : maps.Topological) :
      ¬ ReflTransGen (Precedes config maps) c (lastTaskInGroup fifoExecGroups grpIdx) := by
    intro hpath
    rcases reflTransGen_iff_eq_or_transGen.mp hpath with heq | hpath
    · exact Nat.ne_of_lt (hlt W c hc) heq
    · exact Nat.lt_asymm (hlt W c hc) (orderedBy_lt htopological queueOrder_lt hpath)
  exact ⟨fun hpath => absurd hpath (hnone hs), fun hthrough => hnone hst hthrough.reflTransGen⟩

theorem parallel_updatesSafely {start st : FetchState} {fifoExecGroups : ExecutionGroupList} {grpIdx : ℕ}
    (hstart : beginLegalization crossingConfig 0 (ofMaps parallel) = .ok start)
    (h : Handles crossingConfig 0 crossingGroups start fifoExecGroups grpIdx st) :
    UpdatesSafely crossingConfig parallel 0 0 8 fifoExecGroups st grpIdx := by
  -- before each queue the dependencies lead from the tasks below 5 to those above
  have hchecked : ∀ n < 2, (match beginLegalization crossingConfig 0 (ofMaps parallel) >>= fun start =>
        (crossingGroups.take n).foldlM (legalizeQueue crossingConfig 0) start with
      | .error _ => false
      | .ok st => decide ((∀ b < st.info.maps.getNumOfBarrierOps, ∀ p ∈ (st.info.maps.getBarrierProducers b).toList,
          ∀ c ∈ (st.info.maps.getBarrierConsumers b).toList, p < c) ∧
        ∀ b < st.info.maps.consume.left.length, ∀ c ∈ (st.info.maps.getBarrierConsumers b).toList, 4 < c)) = true := by
    decide
  obtain ⟨before, queueType, after, st₀, hsplit, hbefore, hi, hprefix⟩ := h
  have hlength : before.length < 2 := by
    have hall := congrArg List.length hsplit
    simp only [crossingGroups, length_append, length_cons, length_nil] at hall
    omega
  have hst := hchecked before.length hlength
  rw [hsplit, take_left, hstart] at hst
  change (match before.foldlM (legalizeQueue crossingConfig 0) start with
    | .error _ => false
    | .ok st => _) = true at hst
  rw [hbefore] at hst
  obtain ⟨hedges, hconsumers⟩ := of_decide_eq_true hst
  have hmem : (queueType, fifoExecGroups) ∈ crossingGroups := hsplit ▸ mem_append_right before mem_cons_self
  cases grpIdx with
  | zero =>
    cases hprefix
    have hlast : lastTaskInGroup fifoExecGroups 0 ≤ 4 := by
      rcases mem_pair.mp hmem with heq | heq <;> cases heq <;> decide
    have htopological : st₀.info.maps.Topological := BarrierInfo.forall_edges hedges
    refine updatesSafely_of_lt parallel_topological htopological ?_
    intro W c hc
    exact hlast.trans_lt (hconsumers W (lt_of_mem_row hc) c hc)
  | succ grpIdx =>
    -- behind the second group of three nothing is required
    rintro W ⟨found, cm, cm', hrequired, -⟩
    rcases mem_pair.mp hmem with heq | heq <;> cases heq <;>
      rw [show grpIdx = 0 from Nat.lt_one_iff.mp (Nat.lt_of_add_lt_add_right hi)] at hrequired <;> cases hrequired

/-- Both DPU queues get an update, the second one after a dependency has been added. -/
theorem createBarrierDependenciesForDescriptorFetchInNonWlm_acyclic_iff_parallel : ∃ s',
    createBarrierDependenciesForDescriptorFetchInNonWlm crossingConfig 0 crossingGroups (ofMaps parallel) = .ok (s', true) ∧
      ∀ t, ¬ s'.maps.OrderedBy (QueueOrder crossingConfig.getTaskQueueType) t t := by
  obtain ⟨hends, hkeeps⟩ := createBarrierDependenciesForDescriptorFetchInNonWlm_acyclic_iff parallel_blockSplit
    (fun t hcycle => Nat.lt_irrefl t (orderedBy_lt parallel_topological queueOrder_lt hcycle))
    (⟨by decide, by decide, by decide, by decide, by decide⟩ : BlockRange crossingConfig.split parallel 0 0 8) crossing_groupsOf
  have hcreated : (match createBarrierDependenciesForDescriptorFetchInNonWlm crossingConfig 0 crossingGroups (ofMaps parallel) with
      | .error _ => false
      | .ok (_, created) => created) = true := by
    rfl
  have htwo : ∀ b, TwoSided parallel b := by
    rintro b ⟨p, hp⟩
    have hconsumers : ∀ b < parallel.getNumOfBarrierOps, (parallel.getBarrierConsumers b).toList ≠ [] := by decide
    obtain ⟨c, hc⟩ := exists_mem_of_ne_nil _ (hconsumers b (lt_of_mem_row hp))
    exact ⟨c, SmallSet.mem_iff.mpr hc⟩
  obtain ⟨⟨s', created⟩, hresult⟩ := hends htwo
  rw [hresult] at hcreated
  obtain rfl : created = true := hcreated
  refine ⟨s', hresult, (hkeeps s' true hresult).2.mpr ?_⟩
  intro start hstart fifoExecGroups grpIdx st h
  exact parallel_updatesSafely hstart h

end

end NpuCompiler.Barrier
