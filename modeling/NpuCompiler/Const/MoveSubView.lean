import NpuCompiler.Const.SwappedReshape

namespace NpuCompiler.Const

open MixedRadix TransformAttr List Option

def Applicable : List TransformAttr → NDType → Prop
  | [], _ => True
  | attr :: rest, input => attr.InRange input ∧
      ∃ output, attr.inferOutputType input = some output ∧ Applicable rest output

def SameConstant (chain other : List TransformAttr) (baseType : NDType) : Prop :=
  ∀ (α : Type) (zero : α) (value : List ℤ → α), ∃ content content',
    Content.fold zero chain ⟨baseType, value⟩ = some content ∧
      Content.fold zero other ⟨baseType, value⟩ = some content' ∧ content.Same content'

def Denotes (chain : List TransformAttr) (input output : NDType) (source : List ℤ → Option (List ℤ)) : Prop :=
  ∀ (α : Type) (zero : α) (value : List ℤ → α),
    Content.fold zero chain ⟨input, value⟩ = some ⟨output, fun coord => ((source coord).map value).getD zero⟩

section
variable {chain other : List TransformAttr} {input mid output output' : NDType} {t : TransformAttr}
  {src src' : List ℤ → Option (List ℤ)}

theorem denotes_nil : Denotes [] input input some := by
  intro α zero value
  rfl

theorem denotes_cons (ht : t.inferOutputType input = some mid) (h : Denotes chain mid output src) :
    Denotes (t :: chain) input output (fun coord => (src coord).bind (t.source input mid)) := by
  intro α zero value
  have hstep : Content.transform zero ⟨input, value⟩ t =
      some ⟨mid, fun coord => ((t.source input mid coord).map value).getD zero⟩ := by
    unfold Content.transform
    rw [ht]
    rfl
  unfold Content.fold
  rw [foldlM_cons, hstep]
  refine (h α zero _).trans ?_
  congr 2
  funext coord
  cases hs : src coord with
  | none => simp [hs]
  | some c => simp [hs]

theorem denotes_one (ht : t.inferOutputType input = some mid) : Denotes [t] input mid (t.source input mid) := by
  have h := denotes_cons ht (@denotes_nil mid)
  simpa only [bind_some] using h

theorem sameConstant_iff (h : Denotes chain input output src) (h' : Denotes other input output' src') :
    SameConstant chain other input ↔ output = output' ∧ ∀ coord, InBox output.shape coord → src coord = src' coord := by
  constructor
  · intro hsame
    obtain ⟨content, content', hc, hc', hout, hval⟩ := hsame (Option (List ℤ)) none some
    rw [h] at hc
    rw [h'] at hc'
    cases hc
    cases hc'
    refine ⟨hout, fun coord hcoord => ?_⟩
    have he := hval coord hcoord
    have hid : ∀ x : Option (List ℤ), (x.map some).getD none = x := by
      intro x
      cases x with
      | none => rfl
      | some c => rfl
    simpa only [hid] using he
  · rintro ⟨rfl, hsrc⟩ α zero value
    refine ⟨_, _, h α zero value, h' α zero value, rfl, fun coord hcoord => ?_⟩
    exact congrArg (fun x => (Option.map value x).getD zero) (hsrc coord hcoord)

end

section
variable {input mid : NDType} {offset shape newOffset newShape : List ℤ} {t t' : TransformAttr}

theorem denotes_original (ht : t.inferOutputType input = some mid) (hfit : Fits mid.shape offset shape) :
    Denotes [t, subView offset shape] input (mid.tile hfit)
      (fun coord => t.source input mid (shift coord offset)) := denotes_cons ht (denotes_one (subView_infer hfit))

theorem denotes_swapped {hfit : Fits mid.shape offset shape} (h : Swaps input mid hfit t' newOffset newShape) :
    Denotes [subView newOffset newShape, t'] input (mid.tile hfit)
      (fun coord => (t'.source (input.tile h.fits) (mid.tile hfit) coord).map fun c => shift c newOffset) := by
  have hd := denotes_cons (subView_infer h.fits) (denotes_one h.infer)
  have hs : ∀ x : Option (List ℤ), x.bind ((subView newOffset newShape).source input (input.tile h.fits)) =
      x.map fun c => shift c newOffset := by
    intro x
    cases x with
    | none => rfl
    | some c => rfl
  simpa only [hs] using hd

theorem swapped_applicable {hfit : Fits mid.shape offset shape} (h : Swaps input mid hfit t' newOffset newShape) :
    Applicable [subView newOffset newShape, t'] input :=
  ⟨h.fits, _, subView_infer h.fits, h.inRange, _, h.infer, trivial⟩

theorem swapped_same_iff (ht : t.inferOutputType input = some mid) {hfit : Fits mid.shape offset shape}
    (h : Swaps input mid hfit t' newOffset newShape) :
    SameConstant [subView newOffset newShape, t'] [t, subView offset shape] input ↔
      ReadsSame input mid hfit h.fits t t' := by
  rw [sameConstant_iff (denotes_swapped h) (denotes_original ht hfit)]
  constructor
  · intro hs
    exact hs.2
  · intro hs
    exact ⟨rfl, hs⟩

theorem offset_eq_zero (hnew : Fits input.shape newOffset newShape) (he : input.tile hnew = input) (i : ℕ) :
    entry newOffset i = 0 := by
  have hs : newShape = input.shape := congrArg NDType.shape he
  by_cases hi : i < input.shape.length
  · have hf := (fits_iff.mp hnew).2.2 i hi
    rw [hs] at hf
    omega
  · exact entry_of_le (by rw [hnew.length_offset]; omega)

theorem shift_zero {c : List ℤ} (hl : c.length = newOffset.length) (h0 : ∀ i, entry newOffset i = 0) :
    shift c newOffset = c := by
  apply ext_entry (length_shift hl)
  intro i hi
  rw [entry_shift hl, h0, add_zero]

variable {padBefore padAfter : List ℤ}

theorem pad_source_length {type out : NDType} {coord c : List ℤ} (hp : padBefore.length = coord.length)
    (h : (padWithZero padBefore padAfter).source type out coord = some c) : c.length = coord.length := by
  simp only [source] at h
  split at h
  · cases h
    simp [hp]
  · cases h

theorem pad_eq_zero {type : NDType} (hrange : (padWithZero padBefore padAfter).InRange type)
    (h : (padWithZero padBefore padAfter).inferOutputType input = some input) (i : ℕ) :
    entry padBefore i = 0 ∧ entry padAfter i = 0 := by
  obtain ⟨hb, ha, hs, -⟩ := pad_eq_some.mp h
  by_cases hi : i < input.shape.length
  · have he := congrArg (fun v => entry v i) hs
    simp only [entry_shift (show (shift input.shape padBefore).length = padAfter.length by
      rw [length_shift hb.symm, ha]), entry_shift hb.symm] at he
    have h1 := hrange.1 _ (entry_mem (hb ▸ hi))
    have h2 := hrange.2 _ (entry_mem (ha ▸ hi))
    omega
  · exact ⟨entry_of_le (by omega), entry_of_le (by omega)⟩

theorem pad_zero_infer {type : NDType} (hb : padBefore.length = type.shape.length)
    (ha : padAfter.length = type.shape.length) (h0 : ∀ i, entry padBefore i = 0 ∧ entry padAfter i = 0) :
    (padWithZero padBefore padAfter).inferOutputType type = some type := by
  apply pad_eq_some.mpr
  refine ⟨hb, ha, ?_, rfl⟩
  rw [shift_zero hb.symm fun i => (h0 i).1, shift_zero ha.symm fun i => (h0 i).2]

theorem pad_zero_source {type : NDType} {coord : List ℤ} (hb : padBefore.length = type.shape.length)
    (h0 : ∀ i, entry padBefore i = 0) (hc : InBox type.shape coord) :
    (padWithZero padBefore padAfter).source type type coord = some coord := by
  simp only [source]
  have hbox := (inBox_iff.mp hc).2
  have hl := hc.length
  rw [if_pos]
  · congr 1
    apply ext_getElem
    · simp [hb, hl]
    · intro i h1 h2
      have hz := h0 i
      rw [entry_of_lt (show i < padBefore.length by omega)] at hz
      rw [getElem_zipWith, hz, sub_zero]
  · intro i hi
    rw [h0, zero_add]
    exact hbox i hi

variable {before after : List TransformAttr}

/-- The rewritten list holds an applicable chain with the constant of the original pair in place of the pair. -/
def Rewritten (input : NDType) (t : TransformAttr) (offset shape : List ℤ)
    (before after transformations : List TransformAttr) : Prop :=
  ∃ pair, transformations = before ++ pair ++ after ∧ Applicable pair input ∧
    SameConstant pair [t, subView offset shape] input

theorem rewritten_swapped {t' : TransformAttr} {newOffset newShape : List ℤ} (ht : t.inferOutputType input = some mid)
    {hfit : Fits mid.shape offset shape} (h : Swaps input mid hfit t' newOffset newShape)
    (hr : ReadsSame input mid hfit h.fits t t') :
    Rewritten input t offset shape before after (before ++ subView newOffset newShape :: t' :: after) :=
  ⟨[subView newOffset newShape, t'], by simp, swapped_applicable h, (swapped_same_iff ht h).mpr hr⟩

variable {padBefore padAfter newOffset newShape : List ℤ}

section
variable (ht : t.inferOutputType input = some mid) {hfit : Fits mid.shape offset shape}
  (h : Swaps input mid hfit (padWithZero padBefore padAfter) newOffset newShape)
  (hr : ReadsSame input mid hfit h.fits t (padWithZero padBefore padAfter))

include hr

theorem pad_redundant (hzero : (padWithZero padBefore padAfter).inferOutputType input = some input) :
    mid.tile hfit = input.tile h.fits ∧ ∀ coord, InBox (mid.tile hfit).shape coord →
      some (shift coord newOffset) = t.source input mid (shift coord offset) := by
  have h0 := pad_eq_zero h.inRange hzero
  obtain ⟨hb, ha, -, -⟩ := pad_eq_some.mp h.infer
  have htile := pad_zero_infer hb ha h0
  rw [h.infer] at htile
  have he := Option.some.inj htile
  refine ⟨he, fun coord hc => ?_⟩
  have hsame := hr coord hc
  rw [he] at hsame hc
  rw [pad_zero_source hb (fun i => (h0 i).1) hc, map_some] at hsame
  exact hsame

include ht

theorem rewritten_pad (he : input.tile h.fits = input) :
    Rewritten input t offset shape before after (before ++ padWithZero padBefore padAfter :: after) := by
  have hinfer : (padWithZero padBefore padAfter).inferOutputType input = some (mid.tile hfit) := by
    rw [← h.infer, he]
  refine ⟨[padWithZero padBefore padAfter], by simp, ⟨he ▸ h.inRange, _, hinfer, trivial⟩, ?_⟩
  rw [sameConstant_iff (denotes_one hinfer) (denotes_original ht hfit)]
  refine ⟨rfl, fun coord hc => ?_⟩
  have hlen : padBefore.length = coord.length := by
    obtain ⟨hb, -, hs, -⟩ := pad_eq_some.mp hinfer
    have hm := congrArg List.length hs
    rw [length_shift (by rw [length_shift hb.symm, (pad_eq_some.mp hinfer).2.1]), length_shift hb.symm] at hm
    rw [hb, hc.length, hm]
  have hsame := hr coord hc
  rw [← hsame, he]
  cases hsrc : (padWithZero padBefore padAfter).source input (mid.tile hfit) coord with
  | none => rfl
  | some c =>
    have hcl : c.length = newOffset.length := by
      rw [pad_source_length hlen hsrc, ← hlen, (pad_eq_some.mp hinfer).1, h.fits.length_offset]
    exact congrArg some (shift_zero hcl (offset_eq_zero h.fits he)).symm

theorem rewritten_subView (hzero : (padWithZero padBefore padAfter).inferOutputType input = some input) :
    Rewritten input t offset shape before after (before ++ subView newOffset newShape :: after) := by
  obtain ⟨he, hsrc⟩ := pad_redundant h hr hzero
  refine ⟨[subView newOffset newShape], by simp, ⟨h.fits, _, subView_infer h.fits, trivial⟩, ?_⟩
  rw [sameConstant_iff (denotes_one (subView_infer h.fits)) (denotes_original ht hfit)]
  refine ⟨he.symm, fun coord hc => ?_⟩
  rw [← he] at hc
  exact hsrc coord hc

theorem rewritten_nil (he : input.tile h.fits = input)
    (hzero : (padWithZero padBefore padAfter).inferOutputType input = some input) :
    Rewritten input t offset shape before after (before ++ after) := by
  obtain ⟨hm, hsrc⟩ := pad_redundant h hr hzero
  refine ⟨[], by simp, trivial, ?_⟩
  rw [sameConstant_iff denotes_nil (denotes_original ht hfit)]
  refine ⟨(hm.trans he).symm, fun coord hc => ?_⟩
  rw [← hm.trans he] at hc
  have hcl : coord.length = newOffset.length := by
    rw [hc.length, hm, h.fits.length_offset]
    exact h.fits.length_shape
  rw [← hsrc coord hc, shift_zero hcl (offset_eq_zero h.fits he)]

end

theorem moveSubViewBefore_eq {baseType : NDType} (hbase : inferOutputTypes before baseType = some input)
    (hsub : ∀ o s, t ≠ subView o s) :
    moveSubViewBefore (before ++ t :: subView offset shape :: after) (before.length + 1) baseType =
      (prepareSwap t offset shape input).bind fun result => match result with
        | none => some (before ++ t :: subView offset shape :: after, before.length + 1, false)
        | some (newTransformation, newSubView) =>
          if isPadWithZero t then
            removeRedundantSwap (before ++ newSubView :: newTransformation :: after) (before.length + 1) input
          else some (before ++ newSubView :: newTransformation :: after, before.length, true) := by
  have hpos : ¬(before.length + 1 = 0 ∨
      before.length + 1 = (before ++ t :: subView offset shape :: after).length) := by simp
  have hprev : (before ++ t :: subView offset shape :: after)[before.length]? = some t := by simp
  have hcurr : (before ++ t :: subView offset shape :: after)[before.length + 1]? = some (subView offset shape) := by
    simp
  have htake : (before ++ t :: subView offset shape :: after).take before.length = before := by simp
  have hset : ∀ a b, ((before ++ t :: subView offset shape :: after).set before.length a).set (before.length + 1) b =
      before ++ a :: b :: after := by
    intro a b
    simp
  unfold moveSubViewBefore
  rw [if_neg hpos]
  simp only [Nat.add_sub_cancel, hprev, hcurr, htake, hbase, hset]
  cases t with
  | subView o s => exact absurd rfl (hsub o s)
  | _ => rfl

theorem removeRedundantSwap_eq {a b : TransformAttr} :
    removeRedundantSwap (before ++ a :: b :: after) (before.length + 1) input =
      (a.inferOutputType input).bind fun tileType => (b.inferOutputType input).bind fun outputType =>
        if tileType = input then
          let rest := if outputType = input then before ++ after else before ++ b :: after
          some (rest, rest.length, true)
        else some (if outputType = input then before ++ a :: after else before ++ a :: b :: after, before.length, true) := by
  have ha : (before ++ a :: b :: after)[before.length]? = some a := by simp
  have hb : (before ++ a :: b :: after)[before.length + 1]? = some b := by simp
  have hb' : (before ++ b :: after)[before.length]? = some b := by simp
  have herase : ∀ (c : TransformAttr) (l : List TransformAttr),
      (before ++ c :: l).eraseIdx before.length = before ++ l := by
    intro c l
    simp [eraseIdx_append_of_length_le]
  have herase' : (before ++ a :: b :: after).eraseIdx (before.length + 1) = before ++ a :: after := by
    simp [eraseIdx_append_of_length_le]
  unfold removeRedundantSwap
  simp only [Nat.add_sub_cancel, ha, bind_eq_bind, bind_some]
  cases htile : a.inferOutputType input with
  | none => rfl
  | some tileType =>
    simp only [bind_some]
    by_cases hi : tileType = input
    · simp only [hi, decide_true, if_true, herase, hb', bind_some]
    · simp only [hi, decide_false, Bool.false_eq_true, if_false, hb, herase', bind_some, Nat.add_sub_cancel]

/-- ChangeShapeAndElemType is rewritten on the logical shapes, while its buffer is read in the order of memory:
either some sliced dimension has no partner, or both readings of the ranges keep the same positions. -/
def KeepsPositions (t : TransformAttr) (offset shape : List ℤ) (input : NDType) : Prop :=
  match t with
  | changeShapeAndElemType _ => ∀ output, t.inferOutputType input = some output →
      (∀ d < output.getRank, isDimSliced output.shape offset shape d → ∃ i, Paired input.shape output.shape i d) →
        SlicesSamePositions input output offset shape
  | _ => True

theorem prepareSwap_swaps (hrange : t.InRange input) (ht : t.inferOutputType input = some mid)
    (hfit : Fits mid.shape offset shape) {pair : SwappedPair}
    (h : prepareSwap t offset shape input = some (some pair)) :
    ∃ t' newOffset newShape, pair = (t', subView newOffset newShape) ∧ isPadWithZero t = isPadWithZero t' ∧
      ∃ hs : Swaps input mid hfit t' newOffset newShape,
        KeepsPositions t offset shape input ↔ ReadsSame input mid hfit hs.fits t t' := by
  have htrue : ∀ {P : Prop}, P → (True ↔ P) := fun hp => ⟨fun _ => hp, fun _ => trivial⟩
  cases t with
  | reorder order =>
    cases h
    exact ⟨_, _, _, rfl, rfl, reorder_swaps ht hfit, htrue (reorder_readsSame hfit _)⟩
  | transpose order =>
    obtain ⟨-, hs, -⟩ := transpose_infer ht
    have hl : mid.shape.length = order.numDims := by rw [hs, DimsOrder.length_toMemoryOrder]
    simp only [prepareSwap, Option.some.injEq] at h
    rw [prepareTransposeSwap_eq (hfit.length_offset.trans hl) (hfit.length_shape.trans hl)] at h
    exact ⟨_, _, _, h.symm, rfl, transpose_swaps ht hfit, htrue (transpose_readsSame ht hfit _)⟩
  | memPermute dstOrder memPerm =>
    obtain ⟨hn, hm, -, hs⟩ := memPermute_infer ht
    have hl : shape.length = dstOrder.numDims := by
      rw [hfit.length_shape, hs, DimsOrder.length_toLogicalOrder]
    simp only [prepareSwap, prepareMemPermuteSwap, Option.some.injEq, hl, combined_eq hn hm] at h
    exact ⟨_, _, _, h.symm, rfl, memPermute_swaps ht hfit, htrue (memPermute_readsSame ht hfit _)⟩
  | reshape target =>
    obtain ⟨type, htype, h⟩ := bind_eq_some_iff.mp h
    rw [ht] at htype
    cases htype
    dsimp only at h
    split at h
    · cases h
    · next newMemOffset newMemShape hslice =>
      cases h
      obtain ⟨hs, hr⟩ := reshape_swaps ht hrange hfit hslice
      exact ⟨_, _, _, rfl, rfl, hs, htrue hr⟩
  | changeShapeAndElemType target =>
    simp only [prepareSwap, prepareChangeShapeSwap] at h
    split at h
    · cases h
    · next newOffset newShape hslice =>
      obtain ⟨type, htype, h⟩ := bind_eq_some_iff.mp h
      rw [ht] at htype
      cases htype
      obtain ⟨tileType, htile, h⟩ := bind_eq_some_iff.mp h
      rw [subView_infer hfit] at htile
      cases htile
      cases h
      obtain ⟨hs, hiff⟩ := changeShape_readsSame_iff ht hrange hfit hslice
      refine ⟨_, _, _, rfl, rfl, hs, Iff.trans ?_ hiff.symm⟩
      have htarget : mid.shape = target := (changeShape_eq_some.mp ht).2
      constructor
      · intro hk
        apply hk mid ht
        rw [← htarget] at hslice
        exact (sliceInputShape_isSome_iff hfit input.shape_pos).mp ⟨_, hslice⟩
      · intro hsame output hout _
        rw [ht] at hout
        cases hout
        exact hsame
  | padWithZero padBefore padAfter =>
    simp only [prepareSwap, Option.some.injEq] at h
    obtain ⟨newBefore, newAfter, newOffset, newShape, rfl, hs, hr⟩ := pad_swaps ht hfit h
    exact ⟨_, _, _, rfl, rfl, hs, htrue hr⟩
  | subView o s => cases h

theorem redundant_rewritten {padBefore padAfter newOffset newShape : List ℤ} {transformations : List TransformAttr}
    {pos : ℕ} (ht : t.inferOutputType input = some mid) {hfit : Fits mid.shape offset shape}
    (h : Swaps input mid hfit (padWithZero padBefore padAfter) newOffset newShape)
    (hr : ReadsSame input mid hfit h.fits t (padWithZero padBefore padAfter))
    (hres : removeRedundantSwap (before ++ subView newOffset newShape :: padWithZero padBefore padAfter :: after)
      (before.length + 1) input = some (transformations, pos, true)) :
    Rewritten input t offset shape before after transformations := by
  rw [removeRedundantSwap_eq, subView_infer h.fits, bind_some] at hres
  obtain ⟨outputType, hout, hres⟩ := bind_eq_some_iff.mp hres
  by_cases hfold : input.tile h.fits = input
  · rw [if_pos hfold] at hres
    by_cases hzero : outputType = input
    · subst hzero
      simp only [if_true, Option.some.injEq, Prod.mk.injEq] at hres
      rw [← hres.1]
      exact rewritten_nil ht h hr hfold hout
    · simp only [if_neg hzero, Option.some.injEq, Prod.mk.injEq] at hres
      rw [← hres.1]
      exact rewritten_pad ht h hr hfold
  · rw [if_neg hfold] at hres
    by_cases hzero : outputType = input
    · subst hzero
      simp only [if_true, Option.some.injEq, Prod.mk.injEq] at hres
      rw [← hres.1]
      exact rewritten_subView ht h hr hout
    · simp only [if_neg hzero, Option.some.injEq, Prod.mk.injEq] at hres
      rw [← hres.1]
      exact rewritten_swapped ht h hr

/-- Moving a SubView before a geometric transformation keeps the constant in exactly the cases where
the ranges of a changed shape keep their positions. -/
theorem moveSubViewBefore_iff {baseType : NDType} (hbase : inferOutputTypes before baseType = some input)
    (hpair : Applicable [t, subView offset shape] input) :
    (∀ transformations pos, moveSubViewBefore (before ++ t :: subView offset shape :: after) (before.length + 1)
        baseType = some (transformations, pos, true) →
      Rewritten input t offset shape before after transformations) ↔ KeepsPositions t offset shape input := by
  obtain ⟨hrange, mid, ht, hfit, -⟩ := hpair
  by_cases hsub : ∃ o s, t = subView o s
  · obtain ⟨o, s, rfl⟩ := hsub
    constructor
    · exact fun _ => trivial
    · intro _ transformations pos h
      unfold moveSubViewBefore at h
      rw [if_neg (by simp)] at h
      simp at h
  · have hsub : ∀ o s, t ≠ subView o s := fun o s he => hsub ⟨o, s, he⟩
    rw [moveSubViewBefore_eq hbase hsub]
    constructor
    · intro hall
      cases t with
      | changeShapeAndElemType target =>
        intro output hout hpaired
        rw [ht] at hout
        cases hout
        -- every sliced dimension has a partner, so the rewriting goes through
        obtain ⟨⟨newOffset, newShape⟩, hslice⟩ := (sliceInputShape_isSome_iff hfit input.shape_pos).mpr hpaired
        have htarget : mid.shape = target := (changeShape_eq_some.mp ht).2
        rw [htarget] at hslice
        obtain ⟨hs, hiff⟩ := changeShape_readsSame_iff ht hrange hfit hslice
        have hprep : prepareSwap (changeShapeAndElemType target) offset shape input =
            some (some (changeShapeAndElemType shape, subView newOffset newShape)) := by
          simp only [prepareSwap, prepareChangeShapeSwap, hslice, ht, subView_infer hfit, bind_eq_bind,
            bind_some]
          rfl
        obtain ⟨pair, hlist, -, hsame⟩ := hall _ _ (by rw [hprep]; rfl)
        have hpair : pair = [subView newOffset newShape, changeShapeAndElemType shape] := by
          have hl : before ++ ([subView newOffset newShape, changeShapeAndElemType shape] ++ after) =
              before ++ (pair ++ after) := by
            rw [← append_assoc before pair after, ← hlist]
            rfl
          exact (append_cancel_right (append_cancel_left hl)).symm
        subst hpair
        exact hiff.mp ((swapped_same_iff ht hs).mp hsame)
      | _ => exact trivial
    · intro hkeep transformations pos h
      obtain ⟨result, hprep, h⟩ := bind_eq_some_iff.mp h
      cases result with
      | none => cases h
      | some pair =>
        obtain ⟨t', newOffset, newShape, rfl, hpad, hs, hiff⟩ := prepareSwap_swaps hrange ht hfit hprep
        have hr := hiff.mp hkeep
        dsimp only at h
        by_cases hz : isPadWithZero t = true
        · rw [if_pos hz] at h
          rw [hpad] at hz
          cases t' with
          | padWithZero padBefore padAfter => exact redundant_rewritten ht hs hr h
          | _ => cases hz
        · rw [if_neg hz] at h
          simp only [Option.some.injEq, Prod.mk.injEq] at h
          rw [← h.1]
          exact rewritten_swapped ht hs hr

end

section
variable {input : NDType} {t : TransformAttr} {offset shape : List ℤ}

theorem keepsPositions_of_pairedInMemory (h : ∀ output, t.inferOutputType input = some output →
    Fits output.shape offset shape ∧ PairedInMemory input output offset shape) : KeepsPositions t offset shape input := by
  cases t with
  | changeShapeAndElemType target =>
    intro output hout hpaired
    exact (h output hout).2.slicesSamePositions (h output hout).1 hpaired
  | _ => exact trivial

/-- In the order of the logical dimensions ChangeShapeAndElemType is rewritten as Reshape is. -/
theorem keepsPositions_of_isIdentity (hid : input.dimsOrder.isIdentity)
    (hfit : ∀ output, t.inferOutputType input = some output → Fits output.shape offset shape) :
    KeepsPositions t offset shape input := by
  cases t with
  | changeShapeAndElemType target =>
    apply keepsPositions_of_pairedInMemory
    intro output hout
    obtain ⟨horder, -⟩ := changeShape_eq_some.mp hout
    obtain horder' := Option.some.inj ((if_pos hid).symm.trans horder)
    exact ⟨hfit output hout, pairedInMemory_of_isIdentity hid (horder' ▸ DimsOrder.isIdentity_fromNumDims _)⟩
  | _ => exact trivial

end

def constantHWC : NDType := ⟨[2, 6, 4], ⟨[1, 2, 0], by decide⟩, by decide, by decide⟩

theorem constantHWC_applicable : Applicable [changeShapeAndElemType [3, 4, 4], subView [0, 0, 0] [3, 4, 2]] constantHWC := by
  have hprod : ([3, 4, 4] : List ℤ).prod = constantHWC.shape.prod := by decide
  refine ⟨hprod, ⟨[3, 4, 4], ⟨[1, 2, 0], by decide⟩, by decide, by decide⟩, rfl, ?_, _, rfl, trivial⟩
  apply fits_iff.mpr
  decide

/-- The last logical dimension is sliced, but in memory three elements stand below it after the change, not two. -/
theorem moveSubViewBefore_changeShape :
    Applicable [changeShapeAndElemType [3, 4, 4], subView [0, 0, 0] [3, 4, 2]] constantHWC ∧
      ¬∀ transformations pos, moveSubViewBefore
          [changeShapeAndElemType [3, 4, 4], subView [0, 0, 0] [3, 4, 2]] 1 constantHWC =
            some (transformations, pos, true) →
        Rewritten constantHWC (changeShapeAndElemType [3, 4, 4]) [0, 0, 0] [3, 4, 2] [] [] transformations := by
  refine ⟨constantHWC_applicable, fun h => ?_⟩
  obtain ⟨pair, hlist, -, hsame⟩ :=
    h [subView [0, 0, 0] [2, 6, 2], changeShapeAndElemType [3, 4, 2]] 0 rfl
  rw [nil_append, append_nil] at hlist
  subst hlist
  obtain ⟨content, content', hc, hc', -, hval⟩ := hsame ℤ 0 (fun coord => entry coord 2)
  cases hc
  cases hc'
  have hat := hval [0, 1, 0] (inBox_iff.mpr (by decide))
  revert hat
  decide

/-- The first logical dimension is the innermost one in memory, before the change of shape and after it. -/
theorem moveSubViewBefore_iff_innermost :
    moveSubViewBefore [reorder constantHWC.dimsOrder, changeShapeAndElemType [2, 3, 8], subView [1, 0, 0] [1, 3, 8]] 2 constantHWC =
        some ([reorder constantHWC.dimsOrder, subView [1, 0, 0] [1, 6, 4], changeShapeAndElemType [1, 3, 8]], 1, true) ∧
      Rewritten constantHWC (changeShapeAndElemType [2, 3, 8]) [1, 0, 0] [1, 3, 8] [reorder constantHWC.dimsOrder] []
        [reorder constantHWC.dimsOrder, subView [1, 0, 0] [1, 6, 4], changeShapeAndElemType [1, 3, 8]] := by
  have hfit : Fits [2, 3, 8] [1, 0, 0] [1, 3, 8] := by
    apply fits_iff.mpr
    decide
  have hout : (changeShapeAndElemType [2, 3, 8]).inferOutputType constantHWC =
      some ⟨[2, 3, 8], constantHWC.dimsOrder, by decide, by decide⟩ := rfl
  have hpair : Applicable [changeShapeAndElemType [2, 3, 8], subView [1, 0, 0] [1, 3, 8]] constantHWC :=
    ⟨(by decide : ([2, 3, 8] : List ℤ).prod = constantHWC.shape.prod), _, hout, hfit, _, rfl, trivial⟩
  have hkeep : KeepsPositions (changeShapeAndElemType [2, 3, 8]) [1, 0, 0] [1, 3, 8] constantHWC := by
    apply keepsPositions_of_pairedInMemory
    intro output hout'
    obtain rfl := Option.some.inj (hout.symm.trans hout')
    refine ⟨hfit, fun i d hd hs hp => ?_⟩
    have hfirst : ∀ d < 3, isDimSliced [2, 3, 8] [1, 0, 0] [1, 3, 8] d → d = 0 := by decide
    obtain rfl := hfirst d hd hs
    have hpartner : ∀ i < 3, entry constantHWC.shape i = 2 → i = 0 := by decide
    obtain rfl := hpartner i hp.1 hp.2.1
    rfl
  have hmove : moveSubViewBefore ([reorder constantHWC.dimsOrder] ++
      changeShapeAndElemType [2, 3, 8] :: subView [1, 0, 0] [1, 3, 8] :: []) 2 constantHWC =
        some ([reorder constantHWC.dimsOrder, subView [1, 0, 0] [1, 6, 4], changeShapeAndElemType [1, 3, 8]], 1, true) := rfl
  exact ⟨hmove, (moveSubViewBefore_iff rfl hpair).mpr hkeep _ _ hmove⟩

end NpuCompiler.Const
