import NpuCompiler.Memory.GapInvariant

namespace NpuCompiler.Memory

open List

structure AlignedBlock (g : Gap) (size alignment addr : ℕ) : Prop where
  aligned : alignment ∣ addr
  begin_le : g.begin_ ≤ addr
  le_end : addr + size ≤ g.end_

def Fits (size alignment : ℕ) (g : Gap) : Prop := ∃ addr, AlignedBlock g size alignment addr

def Outermost (g : Gap) (size alignment addr : ℕ) : Direction → Prop
  | .up => ∀ other, AlignedBlock g size alignment other → addr ≤ other
  | .down => ∀ other, AlignedBlock g size alignment other → other ≤ addr

structure Validated (gaps : List Gap) : Prop where
  valid : ∀ g ∈ gaps, g.begin_ < g.end_ ∧ g.begin_ ≠ invalidAddress ∧ g.end_ ≠ invalidAddress
  ordered : gaps.Pairwise (fun g g' => g.end_ ≤ g'.begin_)

namespace Partitioner

theorem roundUp_least {val align y : ℕ} (h0 : 0 < align) (hdvd : align ∣ y) (h : val ≤ y) : roundUp val align ≤ y := by
  obtain ⟨k, rfl⟩ := hdvd
  unfold roundUp
  have hlt : (val + (align - 1)) / align < k + 1 := by
    apply (Nat.div_lt_iff_lt_mul h0).mpr
    rw [Nat.add_mul, Nat.one_mul, Nat.mul_comm]
    omega
  rw [Nat.mul_comm]
  exact Nat.mul_le_mul_left align (Nat.lt_succ_iff.mp hlt)

section
variable {g : Gap} {size alignment addr : ℕ} {dir : Direction}

theorem size_le_of_alignedBlock (h : AlignedBlock g size alignment addr) : size ≤ g.end_ - g.begin_ := by
  have hb := h.begin_le
  have he := h.le_end
  omega

section
variable (hg : g.begin_ < g.end_) (ha : 0 < alignment) (h : g.end_ + alignment < 2 ^ 64)
include hg ha h

theorem size_eq : g.size = g.end_ - g.begin_ := addrSub_eq (by omega) hg.le

theorem getAddrFromGap_small (hsize : g.end_ - g.begin_ < size) : getAddrFromGap g size alignment dir = invalidAddress := by
  unfold getAddrFromGap
  rw [size_eq hg ha h, if_pos hsize]

theorem getAddrFromGap_up (hsize : size ≤ g.end_ - g.begin_) : getAddrFromGap g size alignment .up =
      if g.end_ < roundUp g.begin_ alignment + size then invalidAddress else roundUp g.begin_ alignment := by
  have hle := roundUp_le g.begin_ alignment
  have hbegin : alignValUp g.begin_ alignment = roundUp g.begin_ alignment :=
    alignValUp_eq ha (by omega) (by omega)
  have hsum : addrAdd (roundUp g.begin_ alignment) size = roundUp g.begin_ alignment + size :=
    addrAdd_eq (by omega)
  unfold getAddrFromGap
  rw [size_eq hg ha h, if_neg (by omega)]
  dsimp only
  rw [hbegin, hsum]

theorem getAddrFromGap_down (hsize : size ≤ g.end_ - g.begin_) : getAddrFromGap g size alignment .down =
      if g.end_ < roundUp (g.end_ - size) alignment + size then
        if roundUp (g.end_ - size) alignment < g.begin_ + alignment then invalidAddress
        else roundUp (g.end_ - size) alignment - alignment
      else roundUp (g.end_ - size) alignment := by
  have hle := roundUp_le (g.end_ - size) alignment
  have hsub : addrSub g.end_ size = g.end_ - size := addrSub_eq (by omega) (by omega)
  have hround : alignValUp (g.end_ - size) alignment = roundUp (g.end_ - size) alignment :=
    alignValUp_eq ha (by omega) (by omega)
  unfold getAddrFromGap
  rw [size_eq hg ha h, if_neg (by omega)]
  dsimp only
  rw [hsub, hround]
  generalize roundUp (g.end_ - size) alignment = r at hle
  have hsum : addrAdd r size = r + size := addrAdd_eq (by omega)
  have hbegin : addrAdd g.begin_ alignment = g.begin_ + alignment := addrAdd_eq (by omega)
  rw [hsum, hbegin]
  by_cases hend : g.end_ < r + size
  · rw [if_pos hend, if_pos hend]
    by_cases hlow : r < g.begin_ + alignment
    · rw [if_pos hlow, if_pos hlow]
    · have hlowered : addrSub r alignment = r - alignment := addrSub_eq (by omega) (by omega)
      have hlast : addrAdd (r - alignment) size = r - alignment + size := addrAdd_eq (by omega)
      rw [if_neg hlow, if_neg hlow, hlowered, hlast, if_neg (by omega)]
  · rw [if_neg hend, if_neg hend]

end

theorem add_le_of_dvd {r y : ℕ} (hr : alignment ∣ r) (hy : alignment ∣ y) (h : y < r) : y + alignment ≤ r := by
  have hd := Nat.le_of_dvd (by omega) (Nat.dvd_sub hr hy)
  omega

theorem getAddrFromGap_spec (hg : g.begin_ < g.end_) (hs : 0 < size) (ha : 0 < alignment)
    (h : g.end_ + alignment < 2 ^ 64) :
    (getAddrFromGap g size alignment dir = invalidAddress ∧ ¬Fits size alignment g) ∨
      getAddrFromGap g size alignment dir ≠ invalidAddress ∧
        AlignedBlock g size alignment (getAddrFromGap g size alignment dir) ∧
          Outermost g size alignment (getAddrFromGap g size alignment dir) dir := by
  have hinvalid : invalidAddress = 2 ^ 64 - 1 := rfl
  by_cases hsize : size ≤ g.end_ - g.begin_
  · cases dir with
    | up =>
      rw [getAddrFromGap_up hg ha h hsize]
      have hle := le_roundUp g.begin_ ha
      have hleast : ∀ other, AlignedBlock g size alignment other → roundUp g.begin_ alignment ≤ other :=
        fun other hother => roundUp_least ha hother.aligned hother.begin_le
      by_cases hend : g.end_ < roundUp g.begin_ alignment + size
      · left
        rw [if_pos hend]
        refine ⟨rfl, ?_⟩
        rintro ⟨other, hother⟩
        have hlow := hleast other hother
        have hhigh := hother.le_end
        omega
      · right
        rw [if_neg hend]
        exact ⟨by omega, ⟨dvd_roundUp _ _, hle, by omega⟩, hleast⟩
    | down =>
      rw [getAddrFromGap_down hg ha h hsize]
      have hle := le_roundUp (g.end_ - size) ha
      have hle' := roundUp_le (g.end_ - size) alignment
      have hdvd := dvd_roundUp (g.end_ - size) alignment
      generalize roundUp (g.end_ - size) alignment = r at hle hle' hdvd
      by_cases hend : g.end_ < r + size
      · have hbelow : ∀ other, AlignedBlock g size alignment other → other + alignment ≤ r := by
          intro other hother
          have hhigh := hother.le_end
          exact add_le_of_dvd hdvd hother.aligned (by omega)
        rw [if_pos hend]
        by_cases hlow : r < g.begin_ + alignment
        · left
          rw [if_pos hlow]
          refine ⟨rfl, ?_⟩
          rintro ⟨other, hother⟩
          have hhigh := hbelow other hother
          have hbegin := hother.begin_le
          have hend' := hother.le_end
          omega
        · right
          rw [if_neg hlow]
          refine ⟨by omega, ⟨Nat.dvd_sub hdvd (dvd_refl _), by omega, by omega⟩, ?_⟩
          intro other hother
          have hhigh := hbelow other hother
          omega
      · right
        rw [if_neg hend]
        refine ⟨by omega, ⟨hdvd, by omega, by omega⟩, ?_⟩
        intro other hother
        have hhigh := hother.le_end
        omega
  · left
    refine ⟨getAddrFromGap_small hg ha h (by omega), ?_⟩
    rintro ⟨other, hother⟩
    exact hsize (size_le_of_alignedBlock hother)

end

section
variable {gaps : List Gap} {size alignment : ℕ} {dir : Direction}

structure BestOf (gaps : List Gap) (size alignment : ℕ) (seen : List ℕ) (best : Option ℕ × ℕ) : Prop where
  ofNone : best.1 = none → best.2 = 2 ^ 64 - 1 ∧ ∀ i ∈ seen, ∀ g, gaps[i]? = some g → ¬Fits size alignment g
  ofSome : ∀ i, best.1 = some i → i ∈ seen ∧ ∃ g, gaps[i]? = some g ∧ Fits size alignment g ∧ best.2 = g.size ∧
    ∀ j ∈ seen, ∀ g', gaps[j]? = some g' → Fits size alignment g' → g.size ≤ g'.size

theorem getAddrFromGap_ne_iff {g : Gap} (hg : g.begin_ < g.end_) (hs : 0 < size) (ha : 0 < alignment)
    (h : g.end_ + alignment < 2 ^ 64) :
    getAddrFromGap g size alignment dir ≠ invalidAddress ↔ Fits size alignment g := by
  obtain ⟨hinvalid, hno⟩ | ⟨hne, hblock, -⟩ := @getAddrFromGap_spec g size alignment dir hg hs ha h
  · exact iff_of_false (fun hne => hne hinvalid) hno
  · exact iff_of_true hne ⟨_, hblock⟩

theorem considerGap_bestOf {seen : List ℕ} {best : Option ℕ × ℕ} {i : ℕ} (hv : ∀ g ∈ gaps, g.begin_ < g.end_)
    (hs : 0 < size) (ha : 0 < alignment) (hno : ∀ g ∈ gaps, g.end_ + alignment < 2 ^ 64)
    (hb : BestOf gaps size alignment seen best) :
    BestOf gaps size alignment (seen ++ [i]) (considerGap gaps size alignment dir best i) := by
  have hkeep : (∀ g, gaps[i]? = some g → Fits size alignment g → best.2 ≤ g.size) →
      (best.1 = none → ∀ g, gaps[i]? = some g → ¬Fits size alignment g) →
        BestOf gaps size alignment (seen ++ [i]) best := by
    intro hle hnone
    constructor
    · intro hbest
      obtain ⟨hmax, hall⟩ := hb.ofNone hbest
      refine ⟨hmax, fun j hj => ?_⟩
      rcases mem_append.mp hj with hj | hj
      · exact hall j hj
      · rw [mem_singleton.mp hj]
        exact hnone hbest
    · intro k hk
      obtain ⟨hseen, g, hg, hfit, hsize, hall⟩ := hb.ofSome k hk
      refine ⟨mem_append_left _ hseen, g, hg, hfit, hsize, fun j hj g' hg' hfit' => ?_⟩
      rcases mem_append.mp hj with hj | hj
      · exact hall j hj g' hg' hfit'
      · rw [mem_singleton.mp hj] at hg'
        exact hsize ▸ hle g' hg' hfit'
  unfold considerGap
  cases hg : gaps[i]? with
  | none => exact hkeep (fun g h => by rw [hg] at h; cases h) (fun _ g h => by rw [hg] at h; cases h)
  | some g =>
    have hmem := mem_of_getElem? hg
    have hfits := @getAddrFromGap_ne_iff size alignment dir g (hv g hmem) hs ha (hno g hmem)
    have honly : ∀ g', gaps[i]? = some g' → g' = g := fun g' h => Option.some.inj (h.symm.trans hg)
    dsimp only
    by_cases hvalid : getAddrFromGap g size alignment dir ≠ invalidAddress
    · rw [if_pos hvalid]
      by_cases hless : g.size < best.2
      · rw [if_pos hless]
        constructor
        · exact nofun
        · rintro _ ⟨⟩
          refine ⟨mem_append_right _ (mem_singleton_self i), g, hg, hfits.mp hvalid, rfl, ?_⟩
          intro j hj g' hg' hfit'
          rcases mem_append.mp hj with hj | hj
          · cases hbest : best.1 with
            | none => exact absurd hfit' ((hb.ofNone hbest).2 j hj g' hg')
            | some k =>
              obtain ⟨-, gk, -, -, hsize, hall⟩ := hb.ofSome k hbest
              exact hless.le.trans (hsize ▸ hall j hj g' hg' hfit')
          · rw [mem_singleton.mp hj] at hg'
            rw [honly g' hg']
      · rw [if_neg hless]
        apply hkeep
        · intro g' hg' _
          rw [honly g' hg']
          exact not_lt.mp hless
        · intro hbest
          have hmax := (hb.ofNone hbest).1
          have hsize := size_eq (hv g hmem) ha (hno g hmem)
          have hend := hno g hmem
          omega
    · rw [if_neg hvalid]
      have hnot : ∀ g', gaps[i]? = some g' → ¬Fits size alignment g' := by
        intro g' hg' hfit'
        rw [honly g' hg'] at hfit'
        exact hvalid (hfits.mpr hfit')
      exact hkeep (fun g' hg' hfit' => absurd hfit' (hnot g' hg')) (fun _ => hnot)

theorem foldl_considerGap_bestOf {seen order : List ℕ} {best : Option ℕ × ℕ} (hv : ∀ g ∈ gaps, g.begin_ < g.end_)
    (hs : 0 < size) (ha : 0 < alignment) (hno : ∀ g ∈ gaps, g.end_ + alignment < 2 ^ 64)
    (hb : BestOf gaps size alignment seen best) :
    BestOf gaps size alignment (seen ++ order) (order.foldl (considerGap gaps size alignment dir) best) := by
  induction order generalizing seen best with
  | nil => rwa [append_nil]
  | cons i order ih =>
    have hnext := ih (@considerGap_bestOf gaps size alignment dir seen best i hv hs ha hno hb)
    rwa [append_assoc] at hnext

theorem mem_searchOrder {n i : ℕ} : i ∈ searchOrder n dir ↔ i < n ∧ i ≠ lastGap n dir := by
  cases dir with
  | up =>
    simp only [searchOrder, lastGap, mem_range]
    omega
  | down =>
    simp only [searchOrder, lastGap, mem_reverse, mem_range'_1]
    omega

structure Chosen (gaps : List Gap) (size alignment : ℕ) (dir : Direction) (i : ℕ) (g : Gap) : Prop where
  at_ : gaps[i]? = some g
  fits : Fits size alignment g
  smallest : i ≠ lastGap gaps.length dir → ∀ j g', gaps[j]? = some g' → j ≠ lastGap gaps.length dir →
    Fits size alignment g' → g.size ≤ g'.size
  last : i = lastGap gaps.length dir → ∀ j g', gaps[j]? = some g' → j ≠ i → ¬Fits size alignment g'

theorem minGapInd_spec (hv : ∀ g ∈ gaps, g.begin_ < g.end_) (hs : 0 < size) (ha : 0 < alignment)
    (hno : ∀ g ∈ gaps, g.end_ + alignment < 2 ^ 64) :
    (minGapInd gaps size alignment dir = none ∧ ∀ g ∈ gaps, ¬Fits size alignment g) ∨
      ∃ i g, minGapInd gaps size alignment dir = some i ∧ Chosen gaps size alignment dir i g := by
  have hstart : BestOf gaps size alignment [] (none, 2 ^ 64 - 1) := ⟨fun _ => ⟨rfl, nofun⟩, nofun⟩
  have hbest := @foldl_considerGap_bestOf gaps size alignment dir [] (searchOrder gaps.length dir) _ hv hs ha hno hstart
  rw [nil_append] at hbest
  have hindex : ∀ {j : ℕ} {g : Gap}, gaps[j]? = some g → j ≠ lastGap gaps.length dir →
      j ∈ searchOrder gaps.length dir :=
    fun hg hj => mem_searchOrder.mpr ⟨(List.getElem?_eq_some_iff.mp hg).1, hj⟩
  unfold minGapInd
  cases hfound : ((searchOrder gaps.length dir).foldl (considerGap gaps size alignment dir) (none, 2 ^ 64 - 1)).1 with
  | some i =>
    right
    obtain ⟨hseen, g, hg, hfit, -, hall⟩ := hbest.ofSome i hfound
    have hne := (mem_searchOrder.mp hseen).2
    exact ⟨i, g, rfl, hg, hfit, fun _ j g' hg' hj => hall j (hindex hg' hj) g' hg', fun hlast => absurd hlast hne⟩
  | none =>
    obtain ⟨-, hnone⟩ := hbest.ofNone hfound
    dsimp only
    cases hg : gaps[lastGap gaps.length dir]? with
    | none =>
      left
      refine ⟨rfl, fun g hmem => ?_⟩
      obtain ⟨j, hj⟩ := getElem?_of_mem hmem
      apply hnone j (hindex hj _) g hj
      rintro rfl
      rw [hg] at hj
      cases hj
    | some g =>
      have hmem := mem_of_getElem? hg
      have hfits := @getAddrFromGap_ne_iff size alignment dir g (hv g hmem) hs ha (hno g hmem)
      dsimp only
      by_cases hvalid : getAddrFromGap g size alignment dir ≠ invalidAddress
      · right
        rw [if_pos hvalid]
        refine ⟨_, g, rfl, hg, hfits.mp hvalid, fun hne => absurd rfl hne, fun _ j g' hg' hj => ?_⟩
        exact hnone j (hindex hg' hj) g' hg'
      · left
        rw [if_neg hvalid]
        refine ⟨rfl, fun g' hmem' => ?_⟩
        obtain ⟨j, hj⟩ := getElem?_of_mem hmem'
        by_cases hlast : j = lastGap gaps.length dir
        · rw [hlast, hg] at hj
          cases hj
          exact fun hfit => hvalid (hfits.mpr hfit)
        · exact hnone j (hindex hj hlast) g' hj

end

/-- `alloc` fails exactly when no gap has room for an aligned block; else it takes the outermost block of the gap it
is to use. -/
theorem alloc_exact {p : Partitioner} {size alignment : ℕ} {dir : Direction} (h : Validated p.gaps) (hs : 0 < size)
    (ha : 0 < alignment) (hno : ∀ g ∈ p.gaps, g.end_ + alignment < 2 ^ 64) :
    (p.alloc size alignment dir = (invalidAddress, p) ↔ ∀ g ∈ p.gaps, ¬Fits size alignment g) ∧
      ((∃ g ∈ p.gaps, Fits size alignment g) → ∃ addr i g,
        p.alloc size alignment dir = (addr, { p with gaps := useGap p.gaps i addr size }) ∧ addr ≠ invalidAddress ∧
          Chosen p.gaps size alignment dir i g ∧ AlignedBlock g size alignment addr ∧
            Outermost g size alignment addr dir) := by
  have hv : ∀ g ∈ p.gaps, g.begin_ < g.end_ := fun g hg => (h.valid g hg).1
  unfold alloc chooseMinimalGap
  obtain ⟨hnone, hall⟩ | ⟨i, g, hi, hchosen⟩ := @minGapInd_spec p.gaps size alignment dir hv hs ha hno
  · rw [hnone]
    refine ⟨iff_of_true rfl hall, ?_⟩
    rintro ⟨g, hg, hfit⟩
    exact absurd hfit (hall g hg)
  · have hmem := mem_of_getElem? hchosen.at_
    have hsome : ∃ g ∈ p.gaps, Fits size alignment g := ⟨g, hmem, hchosen.fits⟩
    obtain ⟨-, hnot⟩ | ⟨hne, hblock, houter⟩ :=
      @getAddrFromGap_spec g size alignment dir (hv g hmem) hs ha (hno g hmem)
    · exact absurd hchosen.fits hnot
    · rw [hi]
      dsimp only
      rw [hchosen.at_]
      constructor
      · apply iff_of_false
        · intro he
          exact hne (congrArg Prod.fst he)
        · intro hall
          exact hall g hmem hchosen.fits
      · intro _
        exact ⟨_, i, g, rfl, hne, hchosen, hblock, houter⟩

theorem alloc_exact_twoGaps : (alloc ⟨[⟨3, 9⟩, ⟨16, 40⟩], 64⟩ 4 4 .up = (invalidAddress, ⟨[⟨3, 9⟩, ⟨16, 40⟩], 64⟩) ↔
        ∀ g ∈ [Gap.mk 3 9, ⟨16, 40⟩], ¬Fits 4 4 g) ∧
      ((∃ g ∈ [Gap.mk 3 9, ⟨16, 40⟩], Fits 4 4 g) → ∃ addr i g,
        alloc ⟨[⟨3, 9⟩, ⟨16, 40⟩], 64⟩ 4 4 .up = (addr, ⟨useGap [⟨3, 9⟩, ⟨16, 40⟩] i addr 4, 64⟩) ∧
          addr ≠ invalidAddress ∧ Chosen [⟨3, 9⟩, ⟨16, 40⟩] 4 4 .up i g ∧ AlignedBlock g 4 4 addr ∧
            Outermost g 4 4 addr .up) :=
  @alloc_exact ⟨[⟨3, 9⟩, ⟨16, 40⟩], 64⟩ 4 4 .up ⟨by decide, by decide⟩ (by decide) (by decide) (by decide)

end Partitioner

end NpuCompiler.Memory
