import NpuCompiler.Const.Transformations

namespace NpuCompiler.Const

open MixedRadix

def Paired (reshapeInput reshapeOutput : List ℤ) (inputDim outputDim : ℕ) : Prop :=
  inputDim < reshapeInput.length ∧ entry reshapeInput inputDim = entry reshapeOutput outputDim ∧
    weight reshapeInput inputDim = weight reshapeOutput outputDim

section
variable {reshapeInput : List ℤ} {outputSize outputLowerDimsSize lower lower' : ℤ} {c c' i : ℕ}

theorem seekInputDim_spec (hc : c ≤ reshapeInput.length) (hl : lower = (reshapeInput.drop c).prod)
    (h : seekInputDim reshapeInput outputSize outputLowerDimsSize c lower = (c', lower')) :
    c' ≤ c ∧ lower' = (reshapeInput.drop c').prod ∧
      (∀ i, c' = i + 1 → entry reshapeInput i = outputSize ∧ weight reshapeInput i = outputLowerDimsSize) ∧
      ∀ i < c, c' ≤ i → ¬(entry reshapeInput i = outputSize ∧ weight reshapeInput i = outputLowerDimsSize) := by
  induction c generalizing lower with
  | zero =>
    simp only [seekInputDim, Prod.mk.injEq] at h
    obtain ⟨rfl, rfl⟩ := h
    exact ⟨le_refl _, hl, fun i hi => by omega, fun i hi => by omega⟩
  | succ c ih =>
    rw [seekInputDim] at h
    by_cases hm : entry reshapeInput c = outputSize ∧ lower = outputLowerDimsSize
    · rw [if_pos hm] at h
      simp only [Prod.mk.injEq] at h
      obtain ⟨rfl, rfl⟩ := h
      refine ⟨le_refl _, hl, fun i hi => ?_, fun i hi hle => by omega⟩
      obtain rfl : c = i := by omega
      exact ⟨hm.1, hl.symm.trans hm.2⟩
    · rw [if_neg hm] at h
      have hnext : lower * entry reshapeInput c = (reshapeInput.drop c).prod := by
        rw [prod_drop (by omega), hl]
        rfl
      obtain ⟨h1, h2, h3, h4⟩ := ih (by omega) hnext h
      refine ⟨by omega, h2, h3, fun i hi hle => ?_⟩
      by_cases hic : i = c
      · subst hic
        intro he
        exact hm ⟨he.1, hl.trans he.2⟩
      · exact h4 i (by omega) hle

theorem weight_lt_of_lt {dims : List ℤ} {i j : ℕ} (h : ∀ d ∈ dims, 0 < d) (hj : j < dims.length) (h2 : 2 ≤ entry dims j)
    (hij : i < j) : weight dims j < weight dims i := by
  have hle : (dims.drop j).prod ≤ weight dims i := prod_drop_le h hij
  have hp : 0 < weight dims j := drop_pos h
  rw [prod_drop hj] at hle
  nlinarith

end

section
variable {reshapeInput reshapeOutput subViewOffset subViewShape : List ℤ} {st st' : SliceState} {i j k : ℕ}

theorem two_le_of_sliced (hfit : Fits reshapeOutput subViewOffset subViewShape) (hj : j < reshapeOutput.length)
    (h : isDimSliced reshapeOutput subViewOffset subViewShape j) : 2 ≤ entry reshapeOutput j := by
  have hf := (fits_iff.mp hfit).2.2 j hj
  cases h with
  | inl ho => omega
  | inr hs => omega

theorem not_sliced (hfit : Fits reshapeOutput subViewOffset subViewShape) (hj : j < reshapeOutput.length)
    (h : ¬isDimSliced reshapeOutput subViewOffset subViewShape j) :
    entry subViewOffset j = 0 ∧ entry subViewShape j = entry reshapeOutput j := by
  have hf := (fits_iff.mp hfit).2.2 j hj
  unfold isDimSliced at h
  push Not at h
  omega

variable (reshapeInput reshapeOutput subViewOffset subViewShape) in
structure SliceInvariant (k : ℕ) (st : SliceState) : Prop where
  lower_out : st.outputLowerDimsSize = (reshapeOutput.drop k).prod
  inputDims_le : st.inputDims ≤ reshapeInput.length
  lower_in : st.inputLowerDimsSize = (reshapeInput.drop st.inputDims).prod
  length_offset : st.newOffset.length = reshapeInput.length
  length_shape : st.newShape.length = reshapeInput.length
  matched : ∀ i j, k ≤ j → j < reshapeOutput.length → isDimSliced reshapeOutput subViewOffset subViewShape j →
    Paired reshapeInput reshapeOutput i j →
      entry st.newOffset i = entry subViewOffset j ∧ entry st.newShape i = entry subViewShape j
  full : ∀ i < reshapeInput.length,
    (∀ j, k ≤ j → j < reshapeOutput.length → isDimSliced reshapeOutput subViewOffset subViewShape j →
      ¬Paired reshapeInput reshapeOutput i j) →
      entry st.newOffset i = 0 ∧ entry st.newShape i = entry reshapeInput i
  found : ∀ j, k ≤ j → j < reshapeOutput.length → isDimSliced reshapeOutput subViewOffset subViewShape j →
    ∃ i, Paired reshapeInput reshapeOutput i j
  passed : st.inputDims = reshapeInput.length ∨ ∃ i j, st.inputDims = i + 1 ∧ k ≤ j ∧ j < reshapeOutput.length ∧
    isDimSliced reshapeOutput subViewOffset subViewShape j ∧ Paired reshapeInput reshapeOutput i j

theorem SliceInvariant.init (reshapeInput reshapeOutput subViewOffset subViewShape : List ℤ) :
    SliceInvariant reshapeInput reshapeOutput subViewOffset subViewShape reshapeOutput.length
      ⟨reshapeInput.length, 1, 1, List.replicate reshapeInput.length 0, reshapeInput⟩ where
  lower_out := by simp
  inputDims_le := le_refl _
  lower_in := by simp
  length_offset := by simp
  length_shape := rfl
  matched := fun i j hk hj => by omega
  full := fun i hi _ => ⟨by rw [entry_of_lt (by simpa using hi)]; simp, rfl⟩
  found := fun j hk hj => by omega
  passed := Or.inl rfl

theorem paired_unique (hfit : Fits reshapeOutput subViewOffset subViewShape) (hpos : ∀ d ∈ reshapeInput, 0 < d)
    {a b : ℕ} (hj : j < reshapeOutput.length) (hs : isDimSliced reshapeOutput subViewOffset subViewShape j)
    (ha : Paired reshapeInput reshapeOutput a j) (hb : Paired reshapeInput reshapeOutput b j) : a = b := by
  have h2 := two_le_of_sliced hfit hj hs
  apply weight_inj hpos ha.1 hb.1
  · rw [ha.2.1]
    exact h2
  · rw [hb.2.1]
    exact h2
  · exact ha.2.2.trans hb.2.2.symm

theorem paired_output_unique (hfit : Fits reshapeOutput subViewOffset subViewShape) {a b : ℕ}
    (ha : a < reshapeOutput.length) (hb : b < reshapeOutput.length)
    (hsa : isDimSliced reshapeOutput subViewOffset subViewShape a)
    (hsb : isDimSliced reshapeOutput subViewOffset subViewShape b)
    (hpa : Paired reshapeInput reshapeOutput i a) (hpb : Paired reshapeInput reshapeOutput i b) : a = b := by
  apply weight_inj hfit.dims_pos ha hb (two_le_of_sliced hfit ha hsa) (two_le_of_sliced hfit hb hsb)
  exact hpa.2.2.symm.trans hpb.2.2

theorem SliceInvariant.skip (h : SliceInvariant reshapeInput reshapeOutput subViewOffset subViewShape (k + 1) st)
    (hk : k < reshapeOutput.length) (hs : ¬isDimSliced reshapeOutput subViewOffset subViewShape k) :
    SliceInvariant reshapeInput reshapeOutput subViewOffset subViewShape k
      { st with outputLowerDimsSize := st.outputLowerDimsSize * entry reshapeOutput k } := by
  have hlater : ∀ j, k ≤ j → isDimSliced reshapeOutput subViewOffset subViewShape j → k + 1 ≤ j := by
    intro j hkj hj
    by_cases he : j = k
    · subst he
      exact absurd hj hs
    · omega
  exact {
    lower_out := by
      rw [prod_drop hk, h.lower_out]
      rfl
    inputDims_le := h.inputDims_le
    lower_in := h.lower_in
    length_offset := h.length_offset
    length_shape := h.length_shape
    matched := fun i j hkj hj hsj => h.matched i j (hlater j hkj hsj) hj hsj
    full := fun i hi hnone => h.full i hi fun j hkj => hnone j (by omega)
    found := fun j hkj hj hsj => h.found j (hlater j hkj hsj) hj hsj
    passed := by
      cases h.passed with
      | inl hp => exact Or.inl hp
      | inr hp =>
        obtain ⟨i, j, hi, hj, hrest⟩ := hp
        exact Or.inr ⟨i, j, hi, by omega, hrest⟩ }

theorem SliceInvariant.match (hfit : Fits reshapeOutput subViewOffset subViewShape) (hpos : ∀ d ∈ reshapeInput, 0 < d)
    (h : SliceInvariant reshapeInput reshapeOutput subViewOffset subViewShape (k + 1) st)
    (hk : k < reshapeOutput.length) (hs : isDimSliced reshapeOutput subViewOffset subViewShape k)
    (hpair : Paired reshapeInput reshapeOutput i k) :
    SliceInvariant reshapeInput reshapeOutput subViewOffset subViewShape k
      ⟨i + 1, (reshapeInput.drop (i + 1)).prod, st.outputLowerDimsSize * entry reshapeOutput k,
        st.newOffset.set i (entry subViewOffset k), st.newShape.set i (entry subViewShape k)⟩ where
  lower_out := by
    rw [prod_drop hk]
    simp only [h.lower_out]
    rfl
  inputDims_le := hpair.1
  lower_in := rfl
  length_offset := by simp [h.length_offset]
  length_shape := by simp [h.length_shape]
  matched := by
    intro a j hkj hj hsj hp
    dsimp only
    rw [entry_set _ (h.length_offset ▸ hpair.1), entry_set _ (h.length_shape ▸ hpair.1)]
    by_cases hjk : j = k
    · subst hjk
      rw [if_pos (paired_unique hfit hpos hj hsj hp hpair), if_pos (paired_unique hfit hpos hj hsj hp hpair)]
      exact ⟨rfl, rfl⟩
    · have hne : ¬a = i := by
        intro he
        subst he
        exact hjk (paired_output_unique hfit hj hk hsj hs hp hpair)
      rw [if_neg hne, if_neg hne]
      exact h.matched a j (by omega) hj hsj hp
  full := by
    intro a ha hnone
    have hne : ¬a = i := by
      intro he
      subst he
      exact hnone k (le_refl _) hk hs hpair
    dsimp only
    rw [entry_set _ (h.length_offset ▸ hpair.1), entry_set _ (h.length_shape ▸ hpair.1),
      if_neg hne, if_neg hne]
    exact h.full a ha fun j hkj => hnone j (by omega)
  found := by
    intro j hkj hj hsj
    by_cases hjk : j = k
    · subst hjk
      exact ⟨i, hpair⟩
    · exact h.found j (by omega) hj hsj
  passed := Or.inr ⟨i, k, rfl, le_refl _, hk, hs, hpair⟩

theorem sliceInputDim_skip (hs : ¬isDimSliced reshapeOutput subViewOffset subViewShape k) :
    sliceInputDim reshapeInput reshapeOutput subViewOffset subViewShape k st =
      some { st with outputLowerDimsSize := st.outputLowerDimsSize * entry reshapeOutput k } := if_pos hs

theorem sliceInputDim_sliced
    (h : SliceInvariant reshapeInput reshapeOutput subViewOffset subViewShape (k + 1) st)
    (hs : isDimSliced reshapeOutput subViewOffset subViewShape k) :
    (sliceInputDim reshapeInput reshapeOutput subViewOffset subViewShape k st = none ∧
      ∀ i < st.inputDims, ¬Paired reshapeInput reshapeOutput i k) ∨
    ∃ i, Paired reshapeInput reshapeOutput i k ∧
      sliceInputDim reshapeInput reshapeOutput subViewOffset subViewShape k st =
        some ⟨i + 1, (reshapeInput.drop (i + 1)).prod, st.outputLowerDimsSize * entry reshapeOutput k,
          st.newOffset.set i (entry subViewOffset k), st.newShape.set i (entry subViewShape k)⟩ := by
  unfold sliceInputDim
  rw [if_neg (not_not.mpr hs)]
  rcases hseek : seekInputDim reshapeInput (entry reshapeOutput k) st.outputLowerDimsSize st.inputDims
    st.inputLowerDimsSize with ⟨c, lower⟩
  obtain ⟨hc, hl, hhit, hmiss⟩ := seekInputDim_spec h.inputDims_le h.lower_in hseek
  cases c with
  | zero =>
    left
    refine ⟨rfl, fun i hi hp => ?_⟩
    apply hmiss i hi (Nat.zero_le _)
    refine ⟨hp.2.1, hp.2.2.trans ?_⟩
    rw [h.lower_out]
    rfl
  | succ i =>
    right
    have hi := hhit i rfl
    have hle := h.inputDims_le
    have hpair : Paired reshapeInput reshapeOutput i k := by
      refine ⟨by omega, hi.1, hi.2.trans ?_⟩
      rw [h.lower_out]
      rfl
    refine ⟨i, hpair, ?_⟩
    subst hl
    apply if_neg
    push Not
    exact hi

section
variable (hfit : Fits reshapeOutput subViewOffset subViewShape) (hpos : ∀ d ∈ reshapeInput, 0 < d)
  (h : SliceInvariant reshapeInput reshapeOutput subViewOffset subViewShape (k + 1) st)
include hfit hpos h

theorem sliceInputDim_preserves (hk : k < reshapeOutput.length)
    (hst : sliceInputDim reshapeInput reshapeOutput subViewOffset subViewShape k st = some st') :
    SliceInvariant reshapeInput reshapeOutput subViewOffset subViewShape k st' := by
  by_cases hs : isDimSliced reshapeOutput subViewOffset subViewShape k
  · cases sliceInputDim_sliced h hs with
    | inl hn =>
      rw [hn.1] at hst
      cases hst
    | inr hp =>
      obtain ⟨i, hpair, he⟩ := hp
      rw [he] at hst
      cases hst
      exact h.match hfit hpos hk hs hpair
  · rw [sliceInputDim_skip hs] at hst
    cases hst
    exact h.skip hk hs

theorem SliceInvariant.paired_lt (hpair : Paired reshapeInput reshapeOutput i k) : i < st.inputDims := by
  cases h.passed with
  | inl hp =>
    rw [hp]
    exact hpair.1
  | inr hp =>
    obtain ⟨a, j, ha, hkj, hj, hsj, hpa⟩ := hp
    by_contra hlt
    have hia : a + 1 ≤ i := by omega
    have hle : weight reshapeInput i ≤ weight reshapeInput a := prod_drop_le hpos (by omega)
    have hw := weight_lt_of_lt hfit.dims_pos hj (two_le_of_sliced hfit hj hsj) (show k < j by omega)
    rw [hpair.2.2, hpa.2.2] at hle
    omega

theorem sliceInputDim_isSome (hall : isDimSliced reshapeOutput subViewOffset subViewShape k → ∃ i, Paired reshapeInput reshapeOutput i k) :
    ∃ st', sliceInputDim reshapeInput reshapeOutput subViewOffset subViewShape k st = some st' := by
  by_cases hs : isDimSliced reshapeOutput subViewOffset subViewShape k
  · obtain ⟨i, hpair⟩ := hall hs
    cases sliceInputDim_sliced h hs with
    | inl hn => exact absurd hpair (hn.2 i (h.paired_lt hfit hpos hpair))
    | inr hp =>
      obtain ⟨i, -, he⟩ := hp
      exact ⟨_, he⟩
  · exact ⟨_, sliceInputDim_skip hs⟩

end

section
variable (hfit : Fits reshapeOutput subViewOffset subViewShape) (hpos : ∀ d ∈ reshapeInput, 0 < d)
  (hk : k ≤ reshapeOutput.length) (h : SliceInvariant reshapeInput reshapeOutput subViewOffset subViewShape k st)
include hfit hpos hk h

theorem sliceInputDims_preserves (hst : sliceInputDims reshapeInput reshapeOutput subViewOffset subViewShape k st = some st') :
    SliceInvariant reshapeInput reshapeOutput subViewOffset subViewShape 0 st' := by
  induction k generalizing st with
  | zero =>
    cases hst
    exact h
  | succ k ih =>
    rw [sliceInputDims] at hst
    obtain ⟨next, hnext, hrest⟩ := Option.bind_eq_some_iff.mp hst
    exact ih (by omega) (sliceInputDim_preserves hfit hpos h hk hnext) hrest

theorem sliceInputDims_isSome (hall : ∀ j < reshapeOutput.length, isDimSliced reshapeOutput subViewOffset subViewShape j →
      ∃ i, Paired reshapeInput reshapeOutput i j) :
    ∃ st', sliceInputDims reshapeInput reshapeOutput subViewOffset subViewShape k st = some st' := by
  induction k generalizing st with
  | zero => exact ⟨st, rfl⟩
  | succ k ih =>
    obtain ⟨next, hnext⟩ := sliceInputDim_isSome hfit hpos h (hall k hk)
    rw [sliceInputDims, hnext]
    exact ih (by omega) (sliceInputDim_preserves hfit hpos h hk hnext)

end

variable (reshapeInput reshapeOutput subViewOffset subViewShape) in
/-- What a successful call returns: the ranges of the sliced dimensions stand at the dimensions paired with them. -/
structure SliceResult (newOffset newShape : List ℤ) : Prop where
  length_offset : newOffset.length = reshapeInput.length
  length_shape : newShape.length = reshapeInput.length
  matched : ∀ i j, j < reshapeOutput.length → isDimSliced reshapeOutput subViewOffset subViewShape j →
    Paired reshapeInput reshapeOutput i j →
      entry newOffset i = entry subViewOffset j ∧ entry newShape i = entry subViewShape j
  full : ∀ i < reshapeInput.length,
    (∀ j < reshapeOutput.length, isDimSliced reshapeOutput subViewOffset subViewShape j →
      ¬Paired reshapeInput reshapeOutput i j) → entry newOffset i = 0 ∧ entry newShape i = entry reshapeInput i
  found : ∀ j < reshapeOutput.length, isDimSliced reshapeOutput subViewOffset subViewShape j →
    ∃ i, Paired reshapeInput reshapeOutput i j

theorem sliceInputShape_spec (hfit : Fits reshapeOutput subViewOffset subViewShape) (hpos : ∀ d ∈ reshapeInput, 0 < d)
    {newOffset newShape : List ℤ}
    (h : sliceInputShape reshapeInput reshapeOutput subViewOffset subViewShape = some (newOffset, newShape)) :
    SliceResult reshapeInput reshapeOutput subViewOffset subViewShape newOffset newShape := by
  unfold sliceInputShape at h
  obtain ⟨st, hst, he⟩ := Option.map_eq_some_iff.mp h
  simp only [Prod.mk.injEq] at he
  obtain ⟨rfl, rfl⟩ := he
  have hinv := sliceInputDims_preserves hfit hpos (le_refl _) (SliceInvariant.init _ _ _ _) hst
  exact {
    length_offset := hinv.length_offset
    length_shape := hinv.length_shape
    matched := fun i j => hinv.matched i j (Nat.zero_le _)
    full := fun i hi hnone => hinv.full i hi fun j _ => hnone j
    found := fun j => hinv.found j (Nat.zero_le _) }

theorem sliceInputShape_isSome_iff (hfit : Fits reshapeOutput subViewOffset subViewShape)
    (hpos : ∀ d ∈ reshapeInput, 0 < d) :
    (∃ result, sliceInputShape reshapeInput reshapeOutput subViewOffset subViewShape = some result) ↔
      ∀ j < reshapeOutput.length, isDimSliced reshapeOutput subViewOffset subViewShape j →
        ∃ i, Paired reshapeInput reshapeOutput i j := by
  constructor
  · rintro ⟨⟨newOffset, newShape⟩, h⟩
    exact (sliceInputShape_spec hfit hpos h).found
  · intro hall
    obtain ⟨st, hst⟩ := sliceInputDims_isSome hfit hpos (le_refl _) (SliceInvariant.init _ _ _ _) hall
    unfold sliceInputShape
    rw [hst]
    exact ⟨_, rfl⟩

variable {newOffset newShape : List ℤ}

section
variable (hfit : Fits reshapeOutput subViewOffset subViewShape) (hpos : ∀ d ∈ reshapeInput, 0 < d)
  (h : SliceResult reshapeInput reshapeOutput subViewOffset subViewShape newOffset newShape)
include hfit hpos h

theorem SliceResult.fits : Fits reshapeInput newOffset newShape := by
  apply fits_iff.mpr
  refine ⟨h.length_offset, h.length_shape, fun i hi => ?_⟩
  by_cases hp : ∃ j, j < reshapeOutput.length ∧ isDimSliced reshapeOutput subViewOffset subViewShape j ∧
      Paired reshapeInput reshapeOutput i j
  · obtain ⟨j, hj, hs, hp⟩ := hp
    obtain ⟨ho, hsh⟩ := h.matched i j hj hs hp
    rw [ho, hsh, hp.2.1]
    exact (fits_iff.mp hfit).2.2 j hj
  · obtain ⟨ho, hsh⟩ := h.full i hi fun j hj hs hpair => hp ⟨j, hj, hs, hpair⟩
    rw [ho, hsh]
    have hd := hpos _ (entry_mem hi)
    omega

theorem SliceResult.selected_iff (x : ℤ) :
    Selected reshapeOutput subViewOffset subViewShape x ↔ Selected reshapeInput newOffset newShape x := by
  have hdigit : ∀ {i j}, j < reshapeOutput.length → Paired reshapeInput reshapeOutput i j →
      entry (decode reshapeInput x) i = entry (decode reshapeOutput x) j := by
    intro i j hj hp
    rw [entry_decode hp.1, entry_decode hj, hp.2.1, hp.2.2]
  constructor
  · intro hsel i hi
    by_cases hp : ∃ j, j < reshapeOutput.length ∧ isDimSliced reshapeOutput subViewOffset subViewShape j ∧
        Paired reshapeInput reshapeOutput i j
    · obtain ⟨j, hj, hs, hp⟩ := hp
      obtain ⟨ho, hsh⟩ := h.matched i j hj hs hp
      rw [ho, hsh, hdigit hj hp]
      exact hsel j hj
    · obtain ⟨ho, hsh⟩ := h.full i hi fun j hj hs hpair => hp ⟨j, hj, hs, hpair⟩
      have hb := (inBox_iff.mp (inBox_decode (x := x) hpos)).2 i hi
      rw [ho, hsh, zero_add]
      exact hb
  · intro hsel j hj
    by_cases hs : isDimSliced reshapeOutput subViewOffset subViewShape j
    · obtain ⟨i, hp⟩ := h.found j hj hs
      obtain ⟨ho, hsh⟩ := h.matched i j hj hs hp
      rw [← ho, ← hsh, ← hdigit hj hp]
      exact hsel i hp.1
    · obtain ⟨ho, hsh⟩ := not_sliced hfit hj hs
      have hb := (inBox_iff.mp (inBox_decode (x := x) hfit.dims_pos)).2 j hj
      rw [ho, hsh, zero_add]
      exact hb

end

end

end NpuCompiler.Const
