import NpuCompiler.Const.MemPermute

namespace NpuCompiler.Const.MemIndices

open MixedRadix

/-- The coordinates and what is left of the index. Both loops go from the minor dimension to the major one. -/
def getMemIndexNDLoop : List ℤ → ℤ → Option (List ℤ × ℤ)
  | [], tempIndex1D => some ([], tempIndex1D)
  | mdSize :: memShape, tempIndex1D => do
    let (memIndexND, tempIndex1D) ← getMemIndexNDLoop memShape tempIndex1D
    let mdInd := tempIndex1D.tmod mdSize
    let tempIndex1D := (tempIndex1D - mdInd).tdiv mdSize
    if 0 ≤ tempIndex1D then some (mdInd :: memIndexND, tempIndex1D) else none

def getMemIndexND (memIndex1D : ℤ) (memShape : List ℤ) : Option (List ℤ) := do
  let (memIndexND, tempIndex1D) ← getMemIndexNDLoop memShape memIndex1D
  if tempIndex1D = 0 then some memIndexND else none

def getMemIndex1DLoop : List ℤ → List ℤ → Option (ℤ × ℤ)
  | mdInd :: memIndexND, mdSize :: memShape => do
    let (memIndex1D, tempSize) ← getMemIndex1DLoop memIndexND memShape
    if mdInd < mdSize then some (memIndex1D + mdInd * tempSize, tempSize * mdSize) else none
  | _, _ => some (0, 1)

def getMemIndex1D (memIndexND memShape : List ℤ) : Option ℤ :=
  if memIndexND.length = memShape.length then (getMemIndex1DLoop memIndexND memShape).map Prod.fst else none

namespace Subspace

def getCoordLoop : List ℤ → ℤ → List ℤ × ℤ
  | [], numSections => ([], numSections)
  | dimVal :: dims, numSections =>
    let (subspaceCoord, numSections) := getCoordLoop dims numSections
    let nUpSubspace := numSections.tdiv dimVal
    ((numSections - nUpSubspace * dimVal) :: subspaceCoord, nUpSubspace)

def getCoord (dims : List ℤ) (numSections : ℤ) : List ℤ := (getCoordLoop dims numSections).1

/-- One more in the last dimension from index `index` on that is not skipped and has room; the flag is the loop's `break`. -/
def incrementLoop (skip : ℕ → Bool) : ℕ → List ℤ → List ℤ → List ℤ × Bool
  | index, coord :: subspaceCoord, dim :: dims =>
    let (subspaceCoord, stopped) := incrementLoop skip (index + 1) subspaceCoord dims
    if stopped then (coord :: subspaceCoord, true)
    else if skip index then (coord :: subspaceCoord, false)
    else if coord < dim - 1 then ((coord + 1) :: subspaceCoord, true)
    else (0 :: subspaceCoord, false)
  | _, _, _ => ([], false)

def increment1Coord (subspaceCoord dims : List ℤ) : List ℤ := (incrementLoop (fun _ => false) 0 subspaceCoord dims).1

def incrementNLoop : List ℤ → List ℤ → ℤ → List ℤ × ℤ
  | coord :: subspaceCoord, dim :: dims, inc =>
    let (subspaceCoord, inc) := incrementNLoop subspaceCoord dims inc
    let inc := inc + coord
    let coord := inc.tmod dim
    (coord :: subspaceCoord, (inc - coord).tdiv dim)
  | _, _, inc => ([], inc)

def incrementNCoord (subspaceCoord dims : List ℤ) (inc : ℤ) : List ℤ := (incrementNLoop subspaceCoord dims inc).1

def incrementLine (lineCoord dims : List ℤ) (axis : ℕ) : List ℤ :=
  (incrementLoop (fun d => d = axis) 0 lineCoord dims).1

def incrementPlane (planeCoord dims : List ℤ) (axis0 axis1 : ℕ) : List ℤ :=
  (incrementLoop (fun d => d = axis0 ∨ d = axis1) 0 planeCoord dims).1

def getTotalLines (dims : List ℤ) (axis : ℕ) : ℤ :=
  if entry dims axis ≠ 0 then dims.prod.tdiv (entry dims axis) else 0

def getTotalPlanes (dims : List ℤ) (axis0 axis1 : ℕ) : ℤ :=
  if entry dims axis0 * entry dims axis1 ≠ 0 then dims.prod.tdiv (entry dims axis0 * entry dims axis1) else 0

end Subspace

variable {dims c : List ℤ} {x n : ℤ} {axis axis0 axis1 : ℕ}

theorem splitIndex {d p : ℤ} (hd : 0 < d) (hp : 0 < p) (hx : 0 ≤ x) :
    (x / p).tmod d = x / p % d ∧ (x / p - x / p % d).tdiv d = x / (d * p) ∧ (x / p).tdiv d = x / (d * p) ∧
      0 ≤ x / (d * p) := by
  have hq : 0 ≤ x / p := Int.ediv_nonneg hx hp.le
  have hsub : x / p - x / p % d = d * (x / p / d) := by linarith [Int.emod_add_mul_ediv (x / p) d]
  have hnext : x / p / d = x / (d * p) := by
    rw [mul_comm]
    exact Int.ediv_ediv_of_nonneg hp.le
  refine ⟨Int.tmod_eq_emod_of_nonneg hq, ?_, ?_, Int.ediv_nonneg hx (mul_pos hd hp).le⟩
  · rw [hsub, Int.mul_tdiv_cancel_left _ hd.ne', hnext]
  · rw [Int.tdiv_eq_ediv_of_nonneg hq, hnext]

section
variable (h : ∀ d ∈ dims, 0 < d)
include h

theorem getMemIndexNDLoop_eq (hx : 0 ≤ x) :
    getMemIndexNDLoop dims x = some (decode dims x, x / dims.prod) := by
  induction dims with
  | nil => simp [getMemIndexNDLoop, decode]
  | cons d dims ih =>
    have hd := h d List.mem_cons_self
    have ht : ∀ e ∈ dims, 0 < e := fun e he => h e (List.mem_cons_of_mem d he)
    have hp := prod_pos ht
    obtain ⟨hmod, hsub, _, hnonneg⟩ := splitIndex (x := x) hd hp hx
    rw [getMemIndexNDLoop, ih ht]
    simp only [Option.bind_eq_bind, Option.bind_some]
    rw [hmod, hsub, if_pos hnonneg, List.prod_cons]
    rfl

theorem getCoordLoop_eq (hx : 0 ≤ x) :
    Subspace.getCoordLoop dims x = (decode dims x, x / dims.prod) := by
  induction dims with
  | nil => simp [Subspace.getCoordLoop, decode]
  | cons d dims ih =>
    have hd := h d List.mem_cons_self
    have ht : ∀ e ∈ dims, 0 < e := fun e he => h e (List.mem_cons_of_mem d he)
    have hp := prod_pos ht
    obtain ⟨_, _, hdiv, _⟩ := splitIndex (x := x) hd hp hx
    have hcoord : x / dims.prod - x / (d * dims.prod) * d = x / dims.prod % d := by
      rw [← hdiv, Int.tdiv_eq_ediv_of_nonneg (Int.ediv_nonneg hx hp.le)]
      linarith [Int.emod_add_mul_ediv (x / dims.prod) d]
    simp only [Subspace.getCoordLoop, ih ht, hdiv, hcoord, List.prod_cons]
    rfl

theorem getCoord_eq (hx : 0 ≤ x) : Subspace.getCoord dims x = decode dims x := by
  rw [Subspace.getCoord, getCoordLoop_eq h hx]

theorem getMemIndexNDLoop_neg (hne : dims ≠ []) (hx : x < 0) :
    (-dims.getLast hne < x → ∃ c, getMemIndexNDLoop dims x = some (c, 0)) ∧
      (x ≤ -dims.getLast hne → getMemIndexNDLoop dims x = none) := by
  induction dims with
  | nil => exact absurd rfl hne
  | cons d dims ih =>
    have hd := h d List.mem_cons_self
    by_cases hlast : dims = []
    · subst hlast
      simp only [List.getLast_singleton, getMemIndexNDLoop, Option.bind_eq_bind, Option.bind_some]
      have hquot : (x - x.tmod d).tdiv d = -(-x / d) := by
        have hsub : x - x.tmod d = d * x.tdiv d := by linarith [Int.mul_tdiv_add_tmod x d]
        have hneg : (- -x).tdiv d = -(-x / d) := by
          rw [Int.neg_tdiv, Int.tdiv_eq_ediv_of_nonneg (by omega)]
        rw [hsub, Int.mul_tdiv_cancel_left _ hd.ne', ← hneg, neg_neg]
      rw [hquot]
      constructor
      · intro hlt
        rw [Int.ediv_eq_zero_of_lt (by omega) (by omega)]
        exact ⟨_, rfl⟩
      · intro hle
        have hone : 1 ≤ -x / d := (Int.le_ediv_iff_mul_le hd).mpr (by omega)
        rw [if_neg (by omega)]
    · obtain ⟨hin, hout⟩ := ih (fun e he => h e (List.mem_cons_of_mem d he)) hlast
      rw [List.getLast_cons hlast]
      constructor
      · intro hlt
        obtain ⟨c, hc⟩ := hin hlt
        refine ⟨0 :: c, ?_⟩
        simp [getMemIndexNDLoop, hc]
      · intro hle
        simp [getMemIndexNDLoop, hout hle]

theorem getMemIndexND_eq (hx : 0 ≤ x) (hlt : x < dims.prod) :
    getMemIndexND x dims = some (decode dims x) := by
  rw [getMemIndexND, getMemIndexNDLoop_eq h hx]
  simp [Int.ediv_eq_zero_of_lt hx hlt]

theorem getMemIndexND_eq_none_iff (hx : ¬(0 ≤ x ∧ x < dims.prod)) :
    getMemIndexND x dims = none ↔ ¬(-dims.getLastD 0 < x ∧ x < 0) := by
  by_cases h0 : 0 ≤ x
  · have hp := prod_pos h
    have hone : 1 ≤ x / dims.prod := (Int.le_ediv_iff_mul_le hp).mpr (by omega)
    rw [getMemIndexND, getMemIndexNDLoop_eq h h0]
    simp only [Option.bind_eq_bind, Option.bind_some]
    rw [if_neg (by omega)]
    simp only [true_iff]
    omega
  · by_cases hne : dims = []
    · subst hne
      simp only [getMemIndexND, getMemIndexNDLoop, Option.bind_eq_bind, Option.bind_some, List.getLastD_nil]
      rw [if_neg (by omega)]
      simp only [true_iff]
      omega
    · obtain ⟨hin, hout⟩ := getMemIndexNDLoop_neg h hne (by omega : x < 0)
      rw [List.getLastD_eq_getLast?, List.getLast?_eq_some_getLast hne, Option.getD_some]
      constructor
      · rintro hnone ⟨hlt, _⟩
        obtain ⟨c, hc⟩ := hin hlt
        simp [getMemIndexND, hc] at hnone
      · intro hle
        simp [getMemIndexND, hout (by omega)]

end

theorem getMemIndex1DLoop_eq (hlen : c.length = dims.length) : getMemIndex1DLoop c dims =
    if ∀ i < dims.length, entry c i < entry dims i then some (encode dims c, dims.prod) else none := by
  induction dims generalizing c with
  | nil =>
    rw [List.length_eq_zero_iff.mp hlen]
    simp [getMemIndex1DLoop, encode]
  | cons d dims ih =>
    cases c with
    | nil => cases hlen
    | cons y c =>
      have hforall : (∀ i < (d :: dims).length, entry (y :: c) i < entry (d :: dims) i) ↔
          y < d ∧ ∀ i < dims.length, entry c i < entry dims i := by
        constructor
        · intro h
          exact ⟨h 0 (by simp), fun i hi => h (i + 1) (by simpa using hi)⟩
        · rintro ⟨h0, h⟩ i hi
          cases i with
          | zero => exact h0
          | succ i => exact h i (by simpa using hi)
      rw [getMemIndex1DLoop, ih (by simpa using hlen)]
      by_cases hrest : ∀ i < dims.length, entry c i < entry dims i
      · rw [if_pos hrest]
        simp only [Option.bind_eq_bind, Option.bind_some]
        by_cases hy : y < d
        · rw [if_pos hy, if_pos (hforall.mpr ⟨hy, hrest⟩), encode, List.prod_cons, mul_comm d, add_comm]
        · rw [if_neg hy, if_neg fun h => hy (hforall.mp h).1]
      · rw [if_neg hrest, if_neg fun h => hrest (hforall.mp h).2]
        rfl

theorem getMemIndex1D_eq (h : InBox dims c) : getMemIndex1D c dims = some (encode dims c) := by
  obtain ⟨hlen, hin⟩ := inBox_iff.mp h
  rw [getMemIndex1D, if_pos hlen, getMemIndex1DLoop_eq hlen, if_pos fun i hi => (hin i hi).2]
  rfl

theorem getMemIndex1D_eq_none_iff (h : ¬InBox dims c) : getMemIndex1D c dims = none ↔
    ¬(c.length = dims.length ∧ (∀ i < dims.length, entry c i < entry dims i) ∧ ∃ i < dims.length, entry c i < 0) := by
  have hnot : ¬(c.length = dims.length ∧ ∀ i < dims.length, 0 ≤ entry c i ∧ entry c i < entry dims i) :=
    fun hin => h (inBox_iff.mpr hin)
  unfold getMemIndex1D
  by_cases hlen : c.length = dims.length
  · rw [if_pos hlen, getMemIndex1DLoop_eq hlen]
    by_cases hlt : ∀ i < dims.length, entry c i < entry dims i
    · have hneg : ∃ i < dims.length, entry c i < 0 := by
        by_contra hno
        push Not at hno
        exact hnot ⟨hlen, fun i hi => ⟨hno i hi, hlt i hi⟩⟩
      rw [if_pos hlt]
      simpa [hlen] using ⟨hlt, hneg⟩
    · rw [if_neg hlt]
      simp only [Option.map_none, true_iff]
      exact fun hall => hlt hall.2.1
  · rw [if_neg hlen]
    simp [hlen]

section
variable {skip : ℕ → Bool} {index : ℕ}

def frozen (skip : ℕ → Bool) : ℕ → List ℤ → List ℤ
  | _, [] => []
  | index, d :: dims => (if skip index then 1 else d) :: frozen skip (index + 1) dims

@[simp] theorem length_frozen : (frozen skip index dims).length = dims.length := by
  induction dims generalizing index with
  | nil => rfl
  | cons d dims ih => simp [frozen, ih]

theorem frozen_pos (h : ∀ d ∈ dims, 0 < d) : ∀ d ∈ frozen skip index dims, 0 < d := by
  induction dims generalizing index with
  | nil => exact h
  | cons d dims ih =>
    intro e he
    rcases List.mem_cons.mp he with rfl | he
    · split
      · exact Int.one_pos
      · exact h d List.mem_cons_self
    · exact ih (fun e he => h e (List.mem_cons_of_mem d he)) e he

theorem entry_frozen {i : ℕ} (hi : i < dims.length) :
    entry (frozen skip index dims) i = if skip (index + i) then 1 else entry dims i := by
  induction dims generalizing index i with
  | nil => simp at hi
  | cons d dims ih =>
    cases i with
    | zero => rfl
    | succ i =>
      change entry (frozen skip (index + 1) dims) i = _
      rw [ih (by simpa using hi), show index + 1 + i = index + (i + 1) by omega]
      rfl

theorem frozen_eq (h : ∀ i, index ≤ i → skip i = false) : frozen skip index dims = dims := by
  induction dims generalizing index with
  | nil => rfl
  | cons d dims ih => rw [frozen, h index (le_refl _), ih fun i hi => h i (by omega), if_neg Bool.false_ne_true]

section
variable (h : ∀ d ∈ dims, 0 < d)
include h

theorem inBox_frozen : InBox (frozen skip 0 dims) c ↔
    InBox dims c ∧ ∀ i < dims.length, skip i = true → entry c i = 0 := by
  rw [inBox_iff, inBox_iff, length_frozen]
  constructor
  · rintro ⟨hlen, hin⟩
    refine ⟨⟨hlen, fun i hi => ?_⟩, fun i hi hs => ?_⟩
    · have hd := h _ (entry_mem hi)
      obtain ⟨hlow, hhigh⟩ := hin i hi
      rw [entry_frozen hi] at hhigh
      split at hhigh
      · exact ⟨hlow, by omega⟩
      · exact ⟨hlow, hhigh⟩
    · obtain ⟨hlow, hhigh⟩ := hin i hi
      rw [entry_frozen hi, Nat.zero_add, if_pos hs] at hhigh
      omega
  · rintro ⟨⟨hlen, hin⟩, hzero⟩
    refine ⟨hlen, fun i hi => ?_⟩
    rw [entry_frozen hi, Nat.zero_add]
    split
    · rename_i hs
      rw [hzero i hi hs]
      omega
    · exact hin i hi

theorem incrementLoop_decode : ∃ stopped : Bool,
    Subspace.incrementLoop skip index (decode (frozen skip index dims) x) dims =
      (decode (frozen skip index dims) (x + 1), stopped) ∧
    (stopped = true ↔ ¬(frozen skip index dims).prod ∣ x + 1) := by
  induction dims generalizing index with
  | nil => exact ⟨false, rfl, by simp [frozen]⟩
  | cons d dims ih =>
    have hd := h d List.mem_cons_self
    have ht : ∀ e ∈ dims, 0 < e := fun e he => h e (List.mem_cons_of_mem d he)
    have hp := prod_pos (@frozen_pos _ skip (index + 1) ht)
    obtain ⟨stopped, hloop, hstopped⟩ := @ih (index + 1) ht
    simp only [frozen, decode, Subspace.incrementLoop, hloop, List.prod_cons]
    generalize (frozen skip (index + 1) dims).prod = p at hp hstopped
    generalize decode (frozen skip (index + 1) dims) (x + 1) = minor
    cases stopped with
    | true =>
      have hdvd := hstopped.mp rfl
      rw [ediv_add_one_of_not_dvd hp hdvd]
      exact ⟨true, rfl, fun _ hall => hdvd (dvd_of_mul_left_dvd hall), fun _ => rfl⟩
    | false =>
      have hdvd : p ∣ x + 1 := by
        by_contra hnot
        exact Bool.false_ne_true (hstopped.mpr hnot)
      rw [mul_dvd_iff hp hdvd, ediv_add_one_of_dvd hp hdvd]
      by_cases hs : skip index = true
      · exact ⟨false, by simp [hs], by simp [hs]⟩
      · simp only [hs, Bool.false_eq_true, ↓reduceIte]
        by_cases hroom : x / p % d < d - 1
        · obtain ⟨hmod, hnot⟩ := emod_add_one_of_lt hd hroom
          rw [if_pos hroom, hmod]
          exact ⟨true, rfl, fun _ => hnot, fun _ => rfl⟩
        · have hcarry := dvd_add_one_of_not_lt hd hroom
          rw [if_neg hroom, Int.emod_eq_zero_of_dvd hcarry]
          exact ⟨false, rfl, fun hf => absurd hf Bool.false_ne_true, fun hnot => absurd hcarry hnot⟩

theorem increment1Coord_getCoord (hx : 0 ≤ x) :
    Subspace.increment1Coord (Subspace.getCoord dims x) dims = Subspace.getCoord dims (x + 1) := by
  obtain ⟨stopped, hloop, _⟩ := @incrementLoop_decode dims x (fun _ => false) 0 h
  rw [frozen_eq fun _ _ => rfl] at hloop
  rw [getCoord_eq h hx, getCoord_eq h (by omega), Subspace.increment1Coord, hloop]

theorem incrementNLoop_decode (hn : 0 ≤ n) :
    Subspace.incrementNLoop (decode dims x) dims n = (decode dims (x + n), (x % dims.prod + n) / dims.prod) := by
  induction dims with
  | nil => simp [Subspace.incrementNLoop, decode]
  | cons d dims ih =>
    have hd := h d List.mem_cons_self
    have ht : ∀ e ∈ dims, 0 < e := fun e he => h e (List.mem_cons_of_mem d he)
    have hp := prod_pos ht
    simp only [decode, Subspace.incrementNLoop, ih ht, List.prod_cons]
    generalize dims.prod = p at hp
    have hinc : 0 ≤ (x % p + n) / p + x / p % d :=
      add_nonneg (Int.ediv_nonneg (add_nonneg (Int.emod_nonneg x hp.ne') hn) hp.le) (Int.emod_nonneg _ hd.ne')
    have hcoord : ((x % p + n) / p + x / p % d).tmod d = (x + n) / p % d := by
      rw [Int.tmod_eq_emod_of_nonneg hinc, Int.add_emod_emod, ediv_add (x := x) hp, add_comm]
    have hcarry : (x % (d * p) + n) / (d * p) = ((x % p + n) / p + x / p % d) / d := by
      have hmod : x % (d * p) % p = x % p := Int.emod_emod_of_dvd x (Dvd.intro_left d rfl)
      rw [mul_comm d p, ← Int.ediv_ediv_of_nonneg hp.le, ediv_add hp, mul_comm p d, hmod, emod_mul_ediv hd hp, add_comm]
    rw [hcoord, hcarry]
    congr 1
    have hsub : (x % p + n) / p + x / p % d - (x + n) / p % d = d * (((x % p + n) / p + x / p % d) / d) := by
      rw [← hcoord, Int.tmod_eq_emod_of_nonneg hinc]
      linarith [Int.emod_add_mul_ediv ((x % p + n) / p + x / p % d) d]
    rw [hsub, Int.mul_tdiv_cancel_left _ hd.ne']

theorem incrementNCoord_getCoord (hx : 0 ≤ x) (hn : 0 ≤ n) :
    Subspace.incrementNCoord (Subspace.getCoord dims x) dims n = Subspace.getCoord dims (x + n) := by
  rw [getCoord_eq h hx, getCoord_eq h (by omega), Subspace.incrementNCoord, incrementNLoop_decode h hn]

end

/-- Repeated from zero, the step goes in `steps` steps through each coordinate that is zero in the fixed dimensions, and
comes to none of them twice. -/
structure VisitsOnce (step : List ℤ → List ℤ) (dims : List ℤ) (fixed : ℕ → Prop) (steps : ℤ) : Prop where
  nodup : ((List.range steps.toNat).map fun t => step^[t] (List.replicate dims.length 0)).Nodup
  mem : ∀ c, c ∈ (List.range steps.toNat).map (fun t => step^[t] (List.replicate dims.length 0)) ↔
    InBox dims c ∧ ∀ i < dims.length, fixed i → entry c i = 0

theorem decode_zero : decode dims 0 = List.replicate dims.length 0 := by
  induction dims with
  | nil => rfl
  | cons d dims ih => rw [decode, ih, List.length_cons, List.replicate_succ, Int.zero_ediv, Int.zero_emod]

theorem iterate_incrementLoop (h : ∀ d ∈ dims, 0 < d) (t : ℕ) :
    (fun c => (Subspace.incrementLoop skip 0 c dims).1)^[t] (List.replicate dims.length 0) =
      decode (frozen skip 0 dims) t := by
  induction t with
  | zero =>
    rw [Nat.cast_zero, decode_zero, length_frozen]
    rfl
  | succ t ih =>
    obtain ⟨stopped, hloop, _⟩ := @incrementLoop_decode dims t skip 0 h
    rw [Function.iterate_succ_apply', ih, hloop, Nat.cast_succ]

theorem visitsOnce_iff (h : ∀ d ∈ dims, 0 < d) {steps : ℤ} (h0 : 0 ≤ steps) (hle : steps ≤ (frozen skip 0 dims).prod) :
    VisitsOnce (fun c => (Subspace.incrementLoop skip 0 c dims).1) dims (fun i => skip i = true) steps ↔
      steps = (frozen skip 0 dims).prod := by
  have hpos : ∀ d ∈ frozen skip 0 dims, 0 < d := frozen_pos h
  have hmem : ∀ c, c ∈ (List.range steps.toNat).map (fun t =>
      (fun c => (Subspace.incrementLoop skip 0 c dims).1)^[t] (List.replicate dims.length 0)) ↔
      ∃ x, 0 ≤ x ∧ x < steps ∧ decode (frozen skip 0 dims) x = c := by
    intro c
    simp only [List.mem_map, List.mem_range, iterate_incrementLoop h]
    constructor
    · rintro ⟨t, ht, rfl⟩
      exact ⟨t, by omega, by omega, rfl⟩
    · rintro ⟨x, hx, hlt, rfl⟩
      exact ⟨x.toNat, by omega, by rw [Int.toNat_of_nonneg hx]⟩
  constructor
  · intro hvisits
    by_contra hne
    -- the coordinate after the last visited one
    have hnext : InBox (frozen skip 0 dims) (decode (frozen skip 0 dims) steps) := inBox_decode hpos
    obtain ⟨x, hx, hlt, he⟩ := (hmem _).mp ((hvisits.mem _).mpr ((inBox_frozen h).mp hnext))
    have hsame := congrArg (encode (frozen skip 0 dims)) he
    rw [encode_decode hpos hx (by omega), encode_decode hpos h0 (by omega)] at hsame
    omega
  · rintro rfl
    constructor
    · apply List.Nodup.map_on _ List.nodup_range
      intro s hs t ht he
      simp only [iterate_incrementLoop h] at he
      have hslt := List.mem_range.mp hs
      have htlt := List.mem_range.mp ht
      have hsame := congrArg (encode (frozen skip 0 dims)) he
      rw [encode_decode hpos (by omega) (by omega), encode_decode hpos (by omega) (by omega)] at hsame
      omega
    · intro c
      rw [hmem, ← inBox_frozen h]
      constructor
      · rintro ⟨x, _, _, rfl⟩
        exact inBox_decode hpos
      · intro hc
        obtain ⟨hlow, hhigh⟩ := encode_bounds hc
        exact ⟨encode (frozen skip 0 dims) c, hlow, hhigh, decode_encode hc⟩

theorem prod_frozen_axis {index : ℕ} (hlt : axis < dims.length) :
    (frozen (fun d => d = index + axis) index dims).prod * entry dims axis = dims.prod := by
  induction dims generalizing index axis with
  | nil => simp at hlt
  | cons d dims ih =>
    cases axis with
    | zero =>
      have hrest : frozen (fun d => decide (d = index + 0)) (index + 1) dims = dims :=
        frozen_eq fun i hi => decide_eq_false (by omega)
      rw [frozen, hrest]
      simp [mul_comm]
    | succ axis =>
      have hrest := @ih axis (index + 1) (by simpa using hlt)
      rw [show index + 1 + axis = index + (axis + 1) by omega] at hrest
      rw [frozen, List.prod_cons, List.prod_cons, entry_cons_succ, mul_assoc, hrest]
      simp

theorem frozen_or (skip' : ℕ → Bool) :
    frozen (fun d => skip d || skip' d) index dims = frozen skip' index (frozen skip index dims) := by
  induction dims generalizing index with
  | nil => rfl
  | cons d dims ih =>
    simp only [frozen, ih]
    by_cases hs : skip' index = true
    · simp [hs]
    · simp [hs]

end

theorem getTotalLines_eq (h : ∀ d ∈ dims, 0 < d) (hlt : axis < dims.length) :
    Subspace.getTotalLines dims axis = (frozen (fun d => d = axis) 0 dims).prod := by
  have hd := h _ (entry_mem hlt)
  have hprod := @prod_frozen_axis dims axis 0 hlt
  rw [Nat.zero_add] at hprod
  rw [Subspace.getTotalLines, if_pos hd.ne', ← hprod, Int.mul_tdiv_cancel _ hd.ne']

theorem incrementLine_visitsOnce (h : ∀ d ∈ dims, 0 < d) (hlt : axis < dims.length) :
    VisitsOnce (fun c => Subspace.incrementLine c dims axis) dims (fun i => i = axis) (Subspace.getTotalLines dims axis) := by
  have hp := prod_pos (@frozen_pos _ (fun d => decide (d = axis)) 0 h)
  have hiff := @visitsOnce_iff dims (fun d => decide (d = axis)) h _ hp.le (le_refl _)
  simp only [decide_eq_true_eq] at hiff
  rw [getTotalLines_eq h hlt]
  exact hiff.mpr trivial

theorem frozen_plane : frozen (fun d => d = axis0 ∨ d = axis1) 0 dims =
    frozen (fun d => d = axis1) 0 (frozen (fun d => d = axis0) 0 dims) := by
  rw [← frozen_or]
  congr 1
  funext d
  simp

theorem prod_frozen_plane (hlt0 : axis0 < dims.length) (hlt1 : axis1 < dims.length) (hne : axis0 ≠ axis1) :
    (frozen (fun d => d = axis0 ∨ d = axis1) 0 dims).prod * (entry dims axis0 * entry dims axis1) = dims.prod := by
  have hprod0 := @prod_frozen_axis dims axis0 0 hlt0
  have hprod1 := @prod_frozen_axis (frozen (fun d => d = axis0) 0 dims) axis1 0 (by simpa using hlt1)
  rw [Nat.zero_add] at hprod0 hprod1
  rw [entry_frozen hlt1, if_neg (by simpa using hne.symm)] at hprod1
  rw [frozen_plane, mul_comm (entry dims axis0), ← mul_assoc, hprod1, hprod0]

theorem incrementPlane_visitsOnce_iff (h : ∀ d ∈ dims, 0 < d) (hlt0 : axis0 < dims.length) (hlt1 : axis1 < dims.length) :
    VisitsOnce (fun c => Subspace.incrementPlane c dims axis0 axis1) dims (fun i => i = axis0 ∨ i = axis1)
      (Subspace.getTotalPlanes dims axis0 axis1) ↔ (axis0 = axis1 → entry dims axis0 = 1) := by
  have hd0 := h _ (entry_mem hlt0)
  have hd1 := h _ (entry_mem hlt1)
  have hne := (mul_pos hd0 hd1).ne'
  have hp := prod_pos (@frozen_pos _ (fun d => decide (d = axis0 ∨ d = axis1)) 0 h)
  have hvisits := fun steps => @visitsOnce_iff dims (fun d => decide (d = axis0 ∨ d = axis1)) h steps
  simp only [decide_eq_true_eq] at hvisits
  rw [Subspace.getTotalPlanes, if_pos hne]
  by_cases hax : axis0 = axis1
  · subst hax
    have hprod := @prod_frozen_axis dims axis0 0 hlt0
    rw [Nat.zero_add] at hprod
    simp only [or_self, Subspace.incrementPlane] at hvisits hp ⊢
    have hsteps : dims.prod.tdiv (entry dims axis0 * entry dims axis0) =
        (frozen (fun d => d = axis0) 0 dims).prod / entry dims axis0 := by
      rw [← hprod, Int.mul_tdiv_mul_of_pos_left _ _ hd0, Int.tdiv_eq_ediv_of_nonneg hp.le]
    rw [hsteps]
    have hle := Int.ediv_le_self (entry dims axis0) hp.le
    apply (hvisits _ (Int.ediv_nonneg hp.le hd0.le) hle).trans
    constructor
    · intro he _
      have hmul := Int.ediv_mul_le (frozen (fun d => decide (d = axis0)) 0 dims).prod hd0.ne'
      rw [he] at hmul
      nlinarith
    · intro hone
      rw [hone trivial, Int.ediv_one]
  · rw [← prod_frozen_plane hlt0 hlt1 hax, Int.mul_tdiv_cancel _ hne]
    constructor
    · intro _ he
      exact absurd he hax
    · intro _
      exact (hvisits _ hp.le (le_refl _)).mpr rfl

/-- Indices and coordinates of the shape `dims`: both conversions, the counters, and the walks over lines and planes. -/
structure MemIndexing (dims : List ℤ) (x : ℤ) (c : List ℤ) (axis0 axis1 : ℕ) : Prop where
  index : 0 ≤ x → x < dims.prod →
    ∃ c, getMemIndexND x dims = some c ∧ InBox dims c ∧ getMemIndex1D c dims = some x
  index_outside : ¬(0 ≤ x ∧ x < dims.prod) → getMemIndexND x dims = none
  coord : InBox dims c →
    ∃ x, getMemIndex1D c dims = some x ∧ 0 ≤ x ∧ x < dims.prod ∧ getMemIndexND x dims = some c
  coord_outside : ¬InBox dims c → getMemIndex1D c dims = none
  getCoord : 0 ≤ x → x < dims.prod → getMemIndexND x dims = some (Subspace.getCoord dims x)
  increment1 : 0 ≤ x → x + 1 < dims.prod →
    Subspace.increment1Coord (Subspace.getCoord dims x) dims = Subspace.getCoord dims (x + 1)
  incrementN : ∀ n, 0 ≤ n → 0 ≤ x → x + n < dims.prod →
    Subspace.incrementNCoord (Subspace.getCoord dims x) dims n = Subspace.getCoord dims (x + n)
  lines : axis0 < dims.length → VisitsOnce (fun c => Subspace.incrementLine c dims axis0) dims (fun i => i = axis0)
    (Subspace.getTotalLines dims axis0)
  planes : axis0 < dims.length → axis1 < dims.length →
    VisitsOnce (fun c => Subspace.incrementPlane c dims axis0 axis1) dims (fun i => i = axis0 ∨ i = axis1)
      (Subspace.getTotalPlanes dims axis0 axis1)

/-- What a shape does not meet: a negative index that the last dimension takes for a coordinate, a coordinate with a
negative entry and none too large, and one axis of more than one element given twice for a plane. -/
theorem memIndexing_iff (h : ∀ d ∈ dims, 0 < d) : MemIndexing dims x c axis0 axis1 ↔
    ¬(-dims.getLastD 0 < x ∧ x < 0) ∧
    ¬(c.length = dims.length ∧ (∀ i < dims.length, entry c i < entry dims i) ∧ ∃ i < dims.length, entry c i < 0) ∧
    (axis0 = axis1 → axis0 < dims.length → entry dims axis0 = 1) := by
  constructor
  · intro hall
    refine ⟨?_, ?_, ?_⟩
    · intro hneg
      have hout : ¬(0 ≤ x ∧ x < dims.prod) := fun hin => by omega
      exact (getMemIndexND_eq_none_iff h hout).mp (hall.index_outside hout) hneg
    · rintro ⟨hlen, hlt, i, hi, hneg⟩
      have hout : ¬InBox dims c := fun hin => by
        have := ((inBox_iff.mp hin).2 i hi).1
        omega
      exact (getMemIndex1D_eq_none_iff hout).mp (hall.coord_outside hout) ⟨hlen, hlt, i, hi, hneg⟩
    · intro hax hlt
      exact (incrementPlane_visitsOnce_iff h hlt (hax ▸ hlt)).mp (hall.planes hlt (hax ▸ hlt)) hax
  · rintro ⟨hindex, hcoord, hplane⟩
    constructor
    · intro hx hlt
      exact ⟨_, getMemIndexND_eq h hx hlt, inBox_decode h,
        (getMemIndex1D_eq (inBox_decode h)).trans (congrArg some (encode_decode h hx hlt))⟩
    · intro hout
      exact (getMemIndexND_eq_none_iff h hout).mpr hindex
    · intro hin
      obtain ⟨hlow, hhigh⟩ := encode_bounds hin
      exact ⟨_, getMemIndex1D_eq hin, hlow, hhigh,
        (getMemIndexND_eq h hlow hhigh).trans (congrArg some (decode_encode hin))⟩
    · intro hout
      exact (getMemIndex1D_eq_none_iff hout).mpr hcoord
    · intro hx hlt
      rw [getMemIndexND_eq h hx hlt, getCoord_eq h hx]
    · intro hx _
      exact increment1Coord_getCoord h hx
    · intro n hn hx _
      exact incrementNCoord_getCoord h hx hn
    · exact incrementLine_visitsOnce h
    · intro hlt0 hlt1
      exact (incrementPlane_visitsOnce_iff h hlt0 hlt1).mpr fun hax => hplane hax hlt0

theorem memIndexing_iff_threeDims : MemIndexing [2, 3, 4] 17 [1, 1, 1] 0 2 := by
  exact (memIndexing_iff (by decide)).mpr ⟨by decide, by decide, by decide⟩

/-- The index `-1` is converted to a coordinate and that coordinate back, and the walk over the planes given by one axis
twice makes two steps of six. -/
theorem memIndexing_outside : getMemIndexND (-1) [2, 3] = some [0, -1] ∧ getMemIndex1D [0, -1] [2, 3] = some (-1) ∧
    Subspace.getTotalPlanes [3, 6] 0 0 = 2 ∧
    ¬∀ (dims : List ℤ) (x : ℤ) (c : List ℤ) (axis0 axis1 : ℕ), (∀ d ∈ dims, 0 < d) →
      MemIndexing dims x c axis0 axis1 := by
  refine ⟨rfl, rfl, rfl, ?_⟩
  intro hall
  have hout := (hall [2, 3] (-1) [] 0 1 (by decide)).index_outside (by decide)
  revert hout
  decide

end NpuCompiler.Const.MemIndices
