import Mathlib.Data.List.GetD
import NpuCompiler.Deps.AsyncDeps

namespace NpuCompiler.Deps

open AsyncDepsInfo List

structure DepsInfo extends AsyncDepsInfo where
  allExecOps : ℕ

def DepsMap.resize (depsMap : DepsMap) (size : ℕ) : DepsMap :=
  depsMap.take size ++ List.replicate (size - depsMap.length) ∅

namespace DepsInfo

def getDepsVec (deps : Finset ℕ) : List ℕ := deps.sort (· ≤ ·)

def addExecOp (info : DepsInfo) (execInd : ℕ) (operands : List ℕ) : DepsInfo :=
  { info with
    depsMap := operands.foldl (fun depsMap argExecInd => depsMap.set execInd (insert argExecInd (DepsMap.at depsMap execInd)))
      info.depsMap }

def build (ops : List (List ℕ)) : DepsInfo :=
  ops.zipIdx.foldl (fun info op => info.addExecOp op.2 op.1)
    ⟨⟨DepsMap.resize [] ops.length, [], ops.length⟩, ops.length⟩

def addDependency (info : DepsInfo) (fromOpIdx toOpIdx : ℕ) : DepsInfo :=
  { info with
    depsMap := info.depsMap.set toOpIdx (insert fromOpIdx (info.depsMap.at toOpIdx))
    consumerMap := if info.consumerMap ≠ [] then
      info.consumerMap.set fromOpIdx (insert toOpIdx (info.consumerMap.at fromOpIdx)) else info.consumerMap }

def buildConsMap (info : DepsInfo) (visits : Visits) : DepsInfo :=
  { info with consumerMap := AsyncDepsInfo.buildConsMap visits info.depsMap info.consumerMap }

def optimizeDepsMap (info : DepsInfo) (closureVisits visits consVisits : Visits) : DepsInfo :=
  { info with toAsyncDepsInfo := info.toAsyncDepsInfo.optimizeDepsMap closureVisits visits consVisits }

def preAllocateForNewOps (info : DepsInfo) (numOfNewOps : ℕ) : DepsInfo :=
  let newSize := info.allExecOps + numOfNewOps
  { info with
    allExecOps := newSize
    depsMap := info.depsMap.resize newSize
    consumerMap := info.consumerMap.resize newSize }

def insertNewExecOpToDepsMap (info : DepsInfo) (operands : List ℕ) : Except String (DepsInfo × ℕ) :=
  let dataStructSize := info.allExecOps
  if info.execOpCount > dataStructSize then throw s!"Invalid execOp count '{info.execOpCount}'"
  else
    let info := if info.execOpCount = dataStructSize then info.preAllocateForNewOps 1 else info
    let info := info.addExecOp info.execOpCount operands
    return ({ info with execOpCount := info.execOpCount + 1 }, info.execOpCount)

def getOpDeps (info : DepsInfo) (opIdx : ℕ) : Except String (List ℕ) :=
  if opIdx ≥ info.execOpCount then throw s!"Invalid index '{opIdx}' for _depsMap"
  else return getDepsVec (info.depsMap.at opIdx)

def getConsumerOps (info : DepsInfo) (opIdx : ℕ) : Except String (List ℕ) :=
  if info.consumerMap = [] then throw "Consumer map was not build"
  else if opIdx ≥ info.execOpCount then throw s!"Invalid index '{opIdx}' for _consumerMap"
  else return getDepsVec (info.consumerMap.at opIdx)

inductive Call
  | addDependency (fromOpIdx toOpIdx : ℕ)
  | buildConsMap (visits : Visits)
  | optimizeDepsMap (closureVisits visits consVisits : Visits)
  | preAllocateForNewOps (numOfNewOps : ℕ)
  | insertNewExecOpToDepsMap (operands : List ℕ)

def call (info : DepsInfo) : Call → DepsInfo
  | .addDependency fromOpIdx toOpIdx => info.addDependency fromOpIdx toOpIdx
  | .buildConsMap visits => info.buildConsMap visits
  | .optimizeDepsMap closureVisits visits consVisits => info.optimizeDepsMap closureVisits visits consVisits
  | .preAllocateForNewOps numOfNewOps => info.preAllocateForNewOps numOfNewOps
  | .insertNewExecOpToDepsMap operands =>
    match info.insertNewExecOpToDepsMap operands with
    | .ok (info, _) => info
    | .error _ => info

def Call.Names (info : DepsInfo) : Call → Prop
  | .addDependency fromOpIdx toOpIdx => fromOpIdx < info.execOpCount ∧ toOpIdx < info.execOpCount
  | .insertNewExecOpToDepsMap operands => ∀ argExecInd ∈ operands, argExecInd < info.execOpCount
  | _ => True

def ConsumersExact (info : DepsInfo) : Prop :=
  ∀ i consumers, info.getConsumerOps i = .ok consumers →
    ∀ j, j ∈ consumers ↔ ∃ deps, info.getOpDeps j = .ok deps ∧ i ∈ deps

def Empty (info : DepsInfo) : Prop := ∀ i, info.depsMap.at i = ∅

/-- A call that adds slots must not turn a consumer map that was never built into one that looks built, and a new
operation must not depend on anything. -/
def Call.Keeps (info : DepsInfo) : Call → Prop
  | .preAllocateForNewOps _ => info.consumerMap ≠ [] ∨ info.Empty
  | .insertNewExecOpToDepsMap operands => operands = [] ∧ (info.consumerMap ≠ [] ∨ info.Empty)
  | _ => True

def Along (p : DepsInfo → Call → Prop) : DepsInfo → List Call → Prop
  | _, [] => True
  | info, c :: calls => p info c ∧ Along p (info.call c) calls

def states : DepsInfo → List Call → List DepsInfo
  | info, [] => [info]
  | info, c :: calls => info :: states (info.call c) calls

end DepsInfo

section
variable {depsMap consumerMap : DepsMap} {i j : ℕ}

theorem resize_length (depsMap : DepsMap) (size : ℕ) : (depsMap.resize size).length = size := by
  unfold DepsMap.resize
  rw [length_append, length_take, length_replicate]
  omega

theorem resize_at {size : ℕ} (h : depsMap.length ≤ size) (i : ℕ) : (depsMap.resize size).at i = depsMap.at i := by
  unfold DepsMap.resize DepsMap.at
  rw [take_of_length_le h]
  by_cases hi : i < depsMap.length
  · rw [getD_append _ _ _ _ hi]
  · rw [getD_append_right _ _ _ _ (not_lt.mp hi), getD_eq_default depsMap _ (not_lt.mp hi)]
    by_cases hsize : i - depsMap.length < size - depsMap.length
    · rw [getD_replicate _ hsize]
    · rw [getD_eq_default _ _ (by simpa using hsize)]

theorem mem_set_insert {k x : ℕ} (hk : k < depsMap.length) :
    x ∈ DepsMap.at (depsMap.set k (insert j (depsMap.at k))) i ↔ x ∈ depsMap.at i ∨ i = k ∧ x = j := by
  by_cases he : k = i
  · subst he
    rw [at_set_self _ hk, Finset.mem_insert]
    simp [or_comm]
  · rw [at_set_of_ne _ he]
    simp [Ne.symm he]

theorem foldl_insert_length (k : ℕ) (operands : List ℕ) (depsMap : DepsMap) :
    (operands.foldl (fun m a => m.set k (insert a (DepsMap.at m k))) depsMap).length = depsMap.length := by
  induction operands generalizing depsMap with
  | nil => rfl
  | cons a operands ih => rw [foldl_cons, ih, length_set]

theorem mem_foldl_insert {k x : ℕ} (operands : List ℕ) (hk : k < depsMap.length) :
    x ∈ DepsMap.at (operands.foldl (fun m a => m.set k (insert a (DepsMap.at m k))) depsMap) i ↔
      x ∈ depsMap.at i ∨ i = k ∧ x ∈ operands := by
  induction operands generalizing depsMap with
  | nil => simp
  | cons a operands ih =>
    rw [foldl_cons, ih (by rwa [length_set]), mem_set_insert hk, mem_cons]
    tauto

theorem buildConsMap_spec (visits : Visits) (hrange : ∀ i, ∀ j ∈ depsMap.at i, j < depsMap.length)
    (hlen : consumerMap.length ≤ depsMap.length) :
    (AsyncDepsInfo.buildConsMap visits depsMap consumerMap).length = depsMap.length ∧
      ∀ i j, j ∈ (AsyncDepsInfo.buildConsMap visits depsMap consumerMap).at i ↔
        j ∈ consumerMap.at i ∨ i ∈ depsMap.at j := by
  have hrow : ∀ (idx : ℕ) (bits : List ℕ) (m : DepsMap), (∀ b ∈ bits, b < m.length) →
      (bits.foldl (fun m bit => m.set bit (insert idx (DepsMap.at m bit))) m).length = m.length ∧
        ∀ i j, j ∈ DepsMap.at (bits.foldl (fun m bit => m.set bit (insert idx (DepsMap.at m bit))) m) i ↔
          j ∈ m.at i ∨ j = idx ∧ i ∈ bits := by
    intro idx bits
    induction bits with
    | nil => exact fun m _ => ⟨rfl, by simp⟩
    | cons b bits ih =>
      intro m hb
      obtain ⟨hb, hbits⟩ := forall_mem_cons.mp hb
      obtain ⟨hlength, hmem⟩ := ih (m.set b (insert idx (DepsMap.at m b))) (by simpa using hbits)
      rw [foldl_cons]
      refine ⟨by rw [hlength, length_set], ?_⟩
      intro i j
      rw [hmem, mem_set_insert hb, mem_cons]
      tauto
  have hall : ∀ k ≤ depsMap.length,
      ((List.range k).foldl (addConsumers visits depsMap) (consumerMap.resize depsMap.length)).length = depsMap.length ∧
        ∀ i j, j ∈ DepsMap.at ((List.range k).foldl (addConsumers visits depsMap) (consumerMap.resize depsMap.length)) i ↔
          j ∈ consumerMap.at i ∨ j < k ∧ i ∈ depsMap.at j := by
    intro k
    induction k with
    | zero =>
      intro _
      refine ⟨resize_length _ _, ?_⟩
      intro i j
      rw [range_zero, foldl_nil, resize_at hlen]
      simp
    | succ k ih =>
      intro hk
      obtain ⟨hlength, hmem⟩ := ih (by omega)
      rw [range_succ, foldl_concat]
      obtain ⟨hlength', hmem'⟩ := hrow k (visits.order k none (depsMap.at k)) _ (by
        intro b hb
        rw [hlength]
        exact hrange k b ((visits.mem_order _ _ _ _).mp hb))
      refine ⟨hlength'.trans hlength, ?_⟩
      intro i j
      apply (hmem' i j).trans
      rw [hmem, visits.mem_order]
      constructor
      · rintro ((h | ⟨h1, h2⟩) | ⟨rfl, h⟩)
        · exact .inl h
        · exact .inr ⟨by omega, h2⟩
        · exact .inr ⟨by omega, h⟩
      · rintro (h | ⟨h1, h2⟩)
        · exact .inl (.inl h)
        · by_cases he : j = k
          · exact .inr ⟨he, he ▸ h2⟩
          · exact .inl (.inr ⟨by omega, h2⟩)
  obtain ⟨hlength, hmem⟩ := hall depsMap.length (le_refl _)
  refine ⟨hlength, ?_⟩
  intro i j
  unfold AsyncDepsInfo.buildConsMap
  change j ∈ DepsMap.at ((List.range depsMap.length).foldl (addConsumers visits depsMap)
    (consumerMap.resize depsMap.length)) i ↔ _
  rw [hmem]
  constructor
  · exact fun h => h.imp_right And.right
  · rintro (h | h)
    · exact .inl h
    · exact .inr ⟨DependsOn.lt_length h, h⟩

theorem reduceDeps_subset (visits : Visits) (depsMapClosure : DepsMap) (i : ℕ) (s : Finset ℕ) :
    reduceDeps visits depsMapClosure i s ⊆ s := by
  have hinner (z : ℕ) (l : List ℕ) (cur : Finset ℕ) :
      l.foldl (fun cur dep => if DepsMapClosure.hasDependency depsMapClosure z dep then cur.erase dep else cur) cur ⊆ cur := by
    intro x hx
    exact (mem_foldl_erase.mp hx).1
  have houter (l : List ℕ) (cur : Finset ℕ) :
      l.foldl (fun cur z => (visits.order i (some z) cur).foldl
        (fun cur dep => if DepsMapClosure.hasDependency depsMapClosure z dep then cur.erase dep else cur) cur) cur ⊆ cur := by
    induction l generalizing cur with
    | nil => exact subset_refl _
    | cons z l ih => exact (ih _).trans (hinner z _ cur)
  unfold reduceDeps
  split_ifs
  · exact subset_refl _
  · exact houter _ _

theorem reduceDepsMap_length (visits : Visits) (depsMapClosure depsMap : DepsMap) :
    (reduceDepsMap visits depsMapClosure depsMap).length = depsMap.length := by
  have hfold (l : List ℕ) (m : DepsMap) :
      (l.foldl (fun m depInd => m.set depInd (reduceDeps visits depsMapClosure depInd (m.at depInd))) m).length =
        m.length := by
    induction l generalizing m with
    | nil => rfl
    | cons depInd l ih => rw [foldl_cons, ih, length_set]
  exact hfold _ _

end

namespace DepsInfo

structure Valid (info : DepsInfo) : Prop where
  size : info.depsMap.length = info.allExecOps
  count : info.execOpCount ≤ info.allExecOps
  unbuilt : info.consumerMap = [] → info.execOpCount = info.allExecOps
  built : info.consumerMap ≠ [] → info.consumerMap.length = info.depsMap.length
  deps : ∀ i, ∀ j ∈ info.depsMap.at i, i < info.execOpCount ∧ j < info.execOpCount
  consumers : ∀ i, ∀ j ∈ info.consumerMap.at i, i < info.execOpCount ∧ j < info.execOpCount

def Mirrored (info : DepsInfo) : Prop :=
  info.consumerMap = [] ∨ ∀ i j, j ∈ info.consumerMap.at i ↔ i ∈ info.depsMap.at j

section
variable {info : DepsInfo}

theorem Valid.range (h : info.Valid) : ∀ i, ∀ j ∈ info.depsMap.at i, j < info.depsMap.length := by
  intro i j hj
  have hlt := (h.deps i j hj).2
  have hcount := h.count
  have hsize := h.size
  omega

theorem Valid.consumerMap_length (h : info.Valid) : info.consumerMap.length ≤ info.depsMap.length := by
  by_cases hnone : info.consumerMap = []
  · rw [hnone]
    exact Nat.zero_le _
  · exact (h.built hnone).le

theorem mem_getOpDeps (info : DepsInfo) (i j : ℕ) :
    (∃ deps, info.getOpDeps j = .ok deps ∧ i ∈ deps) ↔ j < info.execOpCount ∧ i ∈ info.depsMap.at j := by
  unfold getOpDeps getDepsVec
  by_cases hj : j < info.execOpCount
  · rw [if_neg (not_le.mpr hj)]
    constructor
    · rintro ⟨deps, hdeps, hmem⟩
      obtain rfl := Except.ok.inj hdeps
      exact ⟨hj, (Finset.mem_sort _).mp hmem⟩
    · rintro ⟨-, hmem⟩
      exact ⟨_, rfl, (Finset.mem_sort _).mpr hmem⟩
  · rw [if_pos (not_lt.mp hj)]
    constructor
    · rintro ⟨deps, hdeps, -⟩
      cases hdeps
    · exact fun h => absurd h.1 hj

theorem Valid.consumersExact_iff_mirrored (hvalid : info.Valid) : info.ConsumersExact ↔ info.Mirrored := by
  unfold ConsumersExact Mirrored
  simp only [mem_getOpDeps]
  unfold getConsumerOps getDepsVec
  by_cases hnone : info.consumerMap = []
  · simp [hnone]
  · simp only [hnone, if_false, false_or]
    constructor
    · intro h i j
      by_cases hi : i < info.execOpCount
      · have hget := h i (info.consumerMap.at i |>.sort (· ≤ ·)) (by rw [if_neg (not_le.mpr hi)]; rfl) j
        rw [Finset.mem_sort] at hget
        exact hget.trans (and_iff_right_of_imp (fun hmem => (hvalid.deps j i hmem).1))
      · constructor
        · exact fun hmem => absurd (hvalid.consumers i j hmem).1 hi
        · exact fun hmem => absurd (hvalid.deps j i hmem).2 hi
    · intro h i consumers hget j
      by_cases hi : i < info.execOpCount
      · rw [if_neg (not_le.mpr hi)] at hget
        obtain rfl := Except.ok.inj hget
        rw [Finset.mem_sort, h]
        exact (and_iff_right_of_imp (fun hmem => (hvalid.deps j i hmem).1)).symm
      · rw [if_pos (not_lt.mp hi)] at hget
        cases hget

theorem Valid.preAllocate (h : info.Valid) (n : ℕ) :
    (info.preAllocateForNewOps n).Valid ∧
      ((info.preAllocateForNewOps n).Mirrored ↔
        info.Mirrored ∧ (info.consumerMap ≠ [] ∨ info.Empty)) ∧
      (∀ i, (info.preAllocateForNewOps n).depsMap.at i = info.depsMap.at i) ∧
      ∀ i, (info.preAllocateForNewOps n).consumerMap.at i = info.consumerMap.at i := by
  have hsize := h.size
  have hdeps : ∀ i, (info.preAllocateForNewOps n).depsMap.at i = info.depsMap.at i := by
    apply resize_at
    omega
  have hcons : ∀ i, (info.preAllocateForNewOps n).consumerMap.at i = info.consumerMap.at i := by
    apply resize_at
    have hlen := h.consumerMap_length
    omega
  have hlength : (info.preAllocateForNewOps n).consumerMap.length = info.allExecOps + n := resize_length _ _
  have hcount := h.count
  refine ⟨⟨resize_length _ _, ?_, ?_, ?_, ?_, ?_⟩, ?_, hdeps, hcons⟩
  · exact hcount.trans (Nat.le_add_right _ _)
  · intro hnone
    rw [hnone, length_nil] at hlength
    change info.execOpCount = info.allExecOps + n
    omega
  · intro _
    exact hlength.trans (resize_length _ _).symm
  · intro i j hj
    rw [hdeps] at hj
    exact h.deps i j hj
  · intro i j hj
    rw [hcons] at hj
    exact h.consumers i j hj
  · unfold Mirrored
    simp only [hdeps, hcons]
    constructor
    · intro hmirror
      by_cases hnone : info.consumerMap = []
      · refine ⟨.inl hnone, .inr ?_⟩
        have hat : ∀ i, info.consumerMap.at i = ∅ := by
          intro i
          rw [hnone]
          rfl
        intro i
        rcases hmirror with hnil | hmirror
        · rw [hnil, length_nil] at hlength
          apply at_of_length_le
          omega
        · apply Finset.eq_empty_of_forall_notMem
          intro j hj
          have hmem := (hmirror j i).mpr hj
          rw [hat] at hmem
          exact Finset.notMem_empty i hmem
      · refine ⟨.inr ?_, .inl hnone⟩
        rcases hmirror with hnil | hmirror
        · rw [hnil, length_nil] at hlength
          have hbuilt := h.built hnone
          have hpos := length_pos_iff.mpr hnone
          omega
        · exact hmirror
    · rintro ⟨hmirror, hbuilt | hempty⟩
      · exact .inr (hmirror.resolve_left hbuilt)
      · apply Or.inr
        intro i j
        have hrow : info.depsMap.at j = ∅ := hempty j
        rw [hrow]
        rcases hmirror with hnil | hmirror
        · rw [hnil]
          simp [DepsMap.at]
        · rw [hmirror, hrow]

theorem Valid.addDependency (h : info.Valid) {fromOpIdx toOpIdx : ℕ} (hfrom : fromOpIdx < info.execOpCount)
    (hto : toOpIdx < info.execOpCount) :
    (info.addDependency fromOpIdx toOpIdx).Valid ∧ (info.Mirrored → (info.addDependency fromOpIdx toOpIdx).Mirrored) := by
  have hsize := h.size
  have hcount := h.count
  have hdeps : ∀ i j, j ∈ (info.addDependency fromOpIdx toOpIdx).depsMap.at i ↔
      j ∈ info.depsMap.at i ∨ i = toOpIdx ∧ j = fromOpIdx := by
    intro i j
    exact mem_set_insert (by omega)
  by_cases hnone : info.consumerMap = []
  · have hcons : (info.addDependency fromOpIdx toOpIdx).consumerMap = [] := by
      simp [DepsInfo.addDependency, hnone]
    refine ⟨⟨?_, hcount, fun _ => h.unbuilt hnone, fun hbuilt => absurd hcons hbuilt, ?_, ?_⟩, fun _ => .inl hcons⟩
    · exact (length_set ..).trans hsize
    · intro i j hj
      rcases (hdeps i j).mp hj with hold | ⟨rfl, rfl⟩
      · exact h.deps i j hold
      · exact ⟨hto, hfrom⟩
    · intro i j hj
      rw [hcons] at hj
      exact absurd hj (Finset.notMem_empty j)
  · have hbuilt := h.built hnone
    have hset : (info.addDependency fromOpIdx toOpIdx).consumerMap =
        info.consumerMap.set fromOpIdx (insert toOpIdx (info.consumerMap.at fromOpIdx)) := if_pos hnone
    have hcons : ∀ i j, j ∈ (info.addDependency fromOpIdx toOpIdx).consumerMap.at i ↔
        j ∈ info.consumerMap.at i ∨ i = fromOpIdx ∧ j = toOpIdx := by
      intro i j
      rw [hset]
      exact mem_set_insert (by omega)
    refine ⟨⟨?_, hcount, ?_, ?_, ?_, ?_⟩, ?_⟩
    · exact (length_set ..).trans hsize
    · intro hnil
      rw [hset, set_eq_nil_iff] at hnil
      exact absurd hnil hnone
    · intro _
      rw [hset, length_set, hbuilt]
      exact (length_set ..).symm
    · intro i j hj
      rcases (hdeps i j).mp hj with hold | ⟨rfl, rfl⟩
      · exact h.deps i j hold
      · exact ⟨hto, hfrom⟩
    · intro i j hj
      rcases (hcons i j).mp hj with hold | ⟨rfl, rfl⟩
      · exact h.consumers i j hold
      · exact ⟨hfrom, hto⟩
    · intro hmirror
      apply Or.inr
      intro i j
      rw [hdeps, hcons, hmirror.resolve_left hnone]
      tauto

theorem Valid.buildConsMap (h : info.Valid) (visits : Visits) :
    (info.buildConsMap visits).Valid ∧ (info.Mirrored → (info.buildConsMap visits).Mirrored) := by
  obtain ⟨hlength, hmem⟩ := buildConsMap_spec visits h.range h.consumerMap_length
  have hsize := h.size
  have hcount := h.count
  refine ⟨⟨hsize, hcount, ?_, fun _ => hlength, h.deps, ?_⟩, ?_⟩
  · intro hnil
    have hnil' : AsyncDepsInfo.buildConsMap visits info.depsMap info.consumerMap = [] := hnil
    rw [hnil', length_nil] at hlength
    change info.execOpCount = info.allExecOps
    omega
  · intro i j hj
    rcases (hmem i j).mp hj with hold | hnew
    · exact h.consumers i j hold
    · exact (h.deps j i hnew).symm
  · intro hmirror
    apply Or.inr
    intro i j
    apply (hmem i j).trans
    rcases hmirror with hnil | hmirror
    · rw [hnil]
      simp [DepsMap.at, DepsInfo.buildConsMap]
    · rw [hmirror, or_self]
      rfl

theorem Valid.optimizeDepsMap (h : info.Valid) (closureVisits visits consVisits : Visits) :
    (info.optimizeDepsMap closureVisits visits consVisits).Valid ∧
      (info.Mirrored → (info.optimizeDepsMap closureVisits visits consVisits).Mirrored) := by
  have hrow := reduceDepsMap_at visits (DepsMapClosure.computeTransitiveClosure closureVisits info.depsMap) info.depsMap
  have hlength : (info.optimizeDepsMap closureVisits visits consVisits).depsMap.length = info.depsMap.length :=
    reduceDepsMap_length ..
  have hsub : ∀ i, (info.optimizeDepsMap closureVisits visits consVisits).depsMap.at i ⊆ info.depsMap.at i := by
    intro i
    change (reduceDepsMap visits _ info.depsMap).at i ⊆ info.depsMap.at i
    rw [hrow]
    exact reduceDeps_subset _ _ _ _
  have hdeps : ∀ i, ∀ j ∈ (info.optimizeDepsMap closureVisits visits consVisits).depsMap.at i,
      i < info.execOpCount ∧ j < info.execOpCount := fun i j hj => h.deps i j (hsub i hj)
  by_cases hnone : info.consumerMap = []
  · have hcons : (info.optimizeDepsMap closureVisits visits consVisits).consumerMap = [] := by
      simp [DepsInfo.optimizeDepsMap, AsyncDepsInfo.optimizeDepsMap, hnone]
    refine ⟨⟨hlength.trans h.size, h.count, fun _ => h.unbuilt hnone, fun hbuilt => absurd hcons hbuilt, hdeps, ?_⟩,
      fun _ => .inl hcons⟩
    intro i j hj
    rw [hcons] at hj
    exact absurd hj (Finset.notMem_empty j)
  · have hcons : (info.optimizeDepsMap closureVisits visits consVisits).consumerMap =
        AsyncDepsInfo.buildConsMap consVisits (info.optimizeDepsMap closureVisits visits consVisits).depsMap [] :=
      if_pos hnone
    have hrange : ∀ i, ∀ j ∈ (info.optimizeDepsMap closureVisits visits consVisits).depsMap.at i,
        j < (info.optimizeDepsMap closureVisits visits consVisits).depsMap.length := by
      intro i j hj
      rw [hlength]
      exact h.range i j (hsub i hj)
    obtain ⟨hbuilt, hmem⟩ := @buildConsMap_spec _ [] consVisits hrange (Nat.zero_le _)
    rw [← hcons] at hbuilt hmem
    have hinverse : ∀ i j, j ∈ (info.optimizeDepsMap closureVisits visits consVisits).consumerMap.at i ↔
        i ∈ (info.optimizeDepsMap closureVisits visits consVisits).depsMap.at j := by
      intro i j
      rw [hmem]
      simp [DepsMap.at]
    refine ⟨⟨hlength.trans h.size, h.count, ?_, fun _ => hbuilt, hdeps, ?_⟩, fun _ => .inr hinverse⟩
    · intro hnil
      rw [hnil, length_nil, hlength, ← h.built hnone] at hbuilt
      exact absurd (length_eq_zero_iff.mp hbuilt.symm) hnone
    · intro i j hj
      exact (hdeps j i ((hinverse i j).mp hj)).symm

theorem Valid.insertNew (h : info.Valid) {operands : List ℕ} (hnames : ∀ a ∈ operands, a < info.execOpCount) :
    ∃ info', info.insertNewExecOpToDepsMap operands = .ok (info', info.execOpCount) ∧ info'.Valid ∧
      (info.Mirrored → (info'.Mirrored ↔ operands = [] ∧ (info.consumerMap ≠ [] ∨ info.Empty))) := by
  have hcount := h.count
  -- the state with room for the operation, in which the consumer map looks built
  obtain ⟨room, hroom, hvalid, hfree, hbuilt, hsame, hmirror⟩ : ∃ room : DepsInfo,
      (if info.execOpCount = info.allExecOps then info.preAllocateForNewOps 1 else info) = room ∧ room.Valid ∧
        room.execOpCount < room.allExecOps ∧ room.consumerMap ≠ [] ∧ room.execOpCount = info.execOpCount ∧
        (info.Mirrored → (room.Mirrored ↔ info.consumerMap ≠ [] ∨ info.Empty)) := by
    obtain ⟨hvalid, hmirror, -, -⟩ := h.preAllocate 1
    by_cases hfull : info.execOpCount = info.allExecOps
    · refine ⟨_, if_pos hfull, hvalid, ?_, ?_, rfl, fun hold => hmirror.trans (and_iff_right hold)⟩
      · change info.execOpCount < info.allExecOps + 1
        omega
      · intro hnil
        have hlength : (info.preAllocateForNewOps 1).consumerMap.length = info.allExecOps + 1 := resize_length _ _
        rw [hnil, length_nil] at hlength
        omega
    · have hbuilt : info.consumerMap ≠ [] := fun hnil => hfull (h.unbuilt hnil)
      exact ⟨info, if_neg hfull, h, by omega, hbuilt, rfl, fun hold => iff_of_true hold (.inl hbuilt)⟩
  have hsize := hvalid.size
  have hdeps : ∀ i j, j ∈ (room.addExecOp room.execOpCount operands).depsMap.at i ↔
      j ∈ room.depsMap.at i ∨ i = room.execOpCount ∧ j ∈ operands := by
    intro i j
    exact mem_foldl_insert operands (by omega)
  have hlength : (room.addExecOp room.execOpCount operands).depsMap.length = room.depsMap.length :=
    foldl_insert_length _ _ _
  refine ⟨{ room.addExecOp room.execOpCount operands with execOpCount := room.execOpCount + 1 }, ?_, ?_, ?_⟩
  · unfold insertNewExecOpToDepsMap
    simp only [gt_iff_lt, not_lt.mpr hcount, if_false, hroom]
    rw [← hsame]
    rfl
  · refine ⟨hlength.trans hsize, hfree, fun hnil => absurd hnil hbuilt, fun _ => (hvalid.built hbuilt).trans hlength.symm,
      ?_, ?_⟩
    · intro i j hj
      rcases (hdeps i j).mp hj with hold | ⟨rfl, hnew⟩
      · obtain ⟨h1, h2⟩ := hvalid.deps i j hold
        exact ⟨Nat.lt_succ_of_lt h1, Nat.lt_succ_of_lt h2⟩
      · have hlt := hnames j hnew
        exact ⟨Nat.lt_succ_self _, Nat.lt_succ_of_lt (by omega)⟩
    · intro i j hj
      obtain ⟨h1, h2⟩ := hvalid.consumers i j hj
      exact ⟨Nat.lt_succ_of_lt h1, Nat.lt_succ_of_lt h2⟩
  · intro hold
    rw [← hmirror hold]
    unfold Mirrored
    simp only [hbuilt, false_or]
    have hsame' : (room.addExecOp room.execOpCount operands).consumerMap = room.consumerMap := rfl
    rw [hsame', or_iff_right hbuilt]
    constructor
    · intro hnew
      have hnone : operands = [] := by
        apply eq_nil_iff_forall_not_mem.mpr
        intro a ha
        have hmem : room.execOpCount ∈ room.consumerMap.at a :=
          (hnew a room.execOpCount).mpr ((hdeps _ _).mpr (.inr ⟨rfl, ha⟩))
        exact lt_irrefl _ (hvalid.consumers a _ hmem).2
      refine ⟨hnone, ?_⟩
      intro i j
      apply (hnew i j).trans
      apply (hdeps j i).trans
      simp [hnone]
    · rintro ⟨hnone, hroom'⟩
      intro i j
      apply (hroom' i j).trans
      apply Iff.symm
      apply (hdeps j i).trans
      simp [hnone]

theorem Valid.call (h : info.Valid) {c : Call} (hnames : c.Names info) :
    (info.call c).Valid ∧ (info.Mirrored → ((info.call c).Mirrored ↔ c.Keeps info)) := by
  cases c with
  | addDependency fromOpIdx toOpIdx =>
    obtain ⟨hvalid, hkeeps⟩ := h.addDependency hnames.1 hnames.2
    exact ⟨hvalid, fun hold => iff_of_true (hkeeps hold) trivial⟩
  | buildConsMap visits =>
    obtain ⟨hvalid, hkeeps⟩ := h.buildConsMap visits
    exact ⟨hvalid, fun hold => iff_of_true (hkeeps hold) trivial⟩
  | optimizeDepsMap closureVisits visits consVisits =>
    obtain ⟨hvalid, hkeeps⟩ := h.optimizeDepsMap closureVisits visits consVisits
    exact ⟨hvalid, fun hold => iff_of_true (hkeeps hold) trivial⟩
  | preAllocateForNewOps n =>
    obtain ⟨hvalid, hmirror, -, -⟩ := h.preAllocate n
    exact ⟨hvalid, fun hold => hmirror.trans (and_iff_right hold)⟩
  | insertNewExecOpToDepsMap operands =>
    obtain ⟨info', heq, hvalid, hmirror⟩ := h.insertNew hnames
    have hcall : info.call (.insertNewExecOpToDepsMap operands) = info' := by
      simp only [DepsInfo.call, heq]
    rw [hcall]
    exact ⟨hvalid, hmirror⟩

end

theorem build_spec {ops : List (List ℕ)} (hops : ∀ operands ∈ ops, ∀ a ∈ operands, a < ops.length) :
    (build ops).Valid ∧ (build ops).Mirrored := by
  have hfold : ∀ (l : List (List ℕ × ℕ)) (info : DepsInfo), (∀ op ∈ l, op.2 < ops.length ∧ ∀ a ∈ op.1, a < ops.length) →
      info.Valid ∧ info.consumerMap = [] ∧ info.execOpCount = ops.length →
        (l.foldl (fun info op => info.addExecOp op.2 op.1) info).Valid ∧
          (l.foldl (fun info op => info.addExecOp op.2 op.1) info).consumerMap = [] ∧
            (l.foldl (fun info op => info.addExecOp op.2 op.1) info).execOpCount = ops.length := by
    intro l
    induction l with
    | nil => exact fun _ _ h => h
    | cons op l ih =>
      rintro info hl ⟨hvalid, hnone, hcount⟩
      obtain ⟨⟨hind, hop⟩, hl⟩ := forall_mem_cons.mp hl
      have hsize := hvalid.size
      have hfree := hvalid.count
      apply ih _ hl
      refine ⟨⟨(foldl_insert_length _ _ _).trans hsize, hfree, hvalid.unbuilt, ?_, ?_, hvalid.consumers⟩, hnone, hcount⟩
      · exact fun hbuilt => absurd hnone hbuilt
      · intro i j hj
        rcases (mem_foldl_insert op.1 (by omega)).mp hj with hold | ⟨rfl, hnew⟩
        · exact hvalid.deps i j hold
        · have hlt := hop j hnew
          change op.2 < info.execOpCount ∧ j < info.execOpCount
          omega
  have hempty : ∀ i, DepsMap.at (DepsMap.resize [] ops.length) i = ∅ := by
    intro i
    rw [resize_at (Nat.zero_le _)]
    rfl
  obtain ⟨hvalid, hnone, -⟩ := hfold ops.zipIdx ⟨⟨DepsMap.resize [] ops.length, [], ops.length⟩, ops.length⟩ (by
    intro op hop
    obtain ⟨-, hlt, hget⟩ := mem_zipIdx hop
    refine ⟨by simpa using hlt, ?_⟩
    rw [hget]
    exact hops _ (getElem_mem _)) (by
    refine ⟨⟨resize_length _ _, le_refl _, fun _ => rfl, fun hbuilt => absurd rfl hbuilt, ?_, ?_⟩, rfl, rfl⟩
    · intro i j hj
      change j ∈ DepsMap.at (DepsMap.resize [] ops.length) i at hj
      rw [hempty] at hj
      exact absurd hj (Finset.notMem_empty j)
    · intro i j hj
      exact absurd hj (Finset.notMem_empty j))
  exact ⟨hvalid, .inl hnone⟩

theorem consumersExact_run {info : DepsInfo} (hvalid : info.Valid) (hmirror : info.Mirrored) {calls : List Call}
    (hnames : Along (fun info c => c.Names info) info calls) :
    (∀ state ∈ states info calls, state.ConsumersExact) ↔ Along (fun info c => c.Keeps info) info calls := by
  induction calls generalizing info with
  | nil => simp [states, Along, hvalid.consumersExact_iff_mirrored, hmirror]
  | cons c calls ih =>
    obtain ⟨hname, hnames⟩ := hnames
    obtain ⟨hvalid', hstep⟩ := hvalid.call hname
    unfold states Along
    rw [forall_mem_cons, hvalid.consumersExact_iff_mirrored]
    constructor
    · rintro ⟨-, hall⟩
      have hnext : (info.call c).Mirrored := by
        apply hvalid'.consumersExact_iff_mirrored.mp
        apply hall
        cases calls <;> exact mem_cons_self ..
      exact ⟨(hstep hmirror).mp hnext, (ih hvalid' hnext hnames).mp hall⟩
    · rintro ⟨hkeeps, hrest⟩
      have hnext := (hstep hmirror).mpr hkeeps
      exact ⟨hmirror, (ih hvalid' hnext hnames).mpr hrest⟩

/-- After the constructor, too. -/
theorem consumersExact_iff {ops : List (List ℕ)} (hops : ∀ operands ∈ ops, ∀ a ∈ operands, a < ops.length)
    {calls : List Call} (hnames : Along (fun info c => c.Names info) (build ops) calls) :
    (∀ info ∈ states (build ops) calls, info.ConsumersExact) ↔ Along (fun info c => c.Keeps info) (build ops) calls :=
  consumersExact_run (build_spec hops).1 (build_spec hops).2 hnames

theorem consumersExact_iff_two :
    (∀ info ∈ states (build [[], [0]]) [.buildConsMap ascending, .preAllocateForNewOps 1], info.ConsumersExact) ↔
      Along (fun info c => c.Keeps info) (build [[], [0]]) [.buildConsMap ascending, .preAllocateForNewOps 1] :=
  consumersExact_iff (by decide) ⟨trivial, trivial, trivial⟩

/-- The consumer map is built, and then an operation that depends on the first one is inserted. -/
theorem consumers_missed : ¬ ∀ (ops : List (List ℕ)) (calls : List Call), (∀ operands ∈ ops, ∀ a ∈ operands, a < ops.length) →
      Along (fun info c => c.Names info) (build ops) calls → ∀ info ∈ states (build ops) calls, info.ConsumersExact := by
  intro hall
  have hops : ∀ operands ∈ [[]], ∀ a ∈ operands, a < [([] : List ℕ)].length := by decide
  have hnames : Along (fun info c => c.Names info) (build [[]])
      [.buildConsMap ascending, .insertNewExecOpToDepsMap [0]] := by
    refine ⟨trivial, ?_, trivial⟩
    exact show ∀ a ∈ [0], a < 1 by decide
  have hkeeps := (consumersExact_run (build_spec hops).1 (build_spec hops).2 hnames).mp (hall _ _ hops hnames)
  exact absurd hkeeps.2.1.1 (cons_ne_nil 0 [])

end DepsInfo

end NpuCompiler.Deps
