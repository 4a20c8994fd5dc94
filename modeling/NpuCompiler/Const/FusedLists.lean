import NpuCompiler.Const.DroppedTransforms

namespace NpuCompiler.Const

open MixedRadix TensorType TransformAttrInterface DimsOrder

section
variable {R : Type} {input mid output baseType : TensorType} {prev curr attr : TransformAttrInterface R}
  {before after : List (TransformAttrInterface R)}

def FusesSoundly : TransformAttrInterface R → TransformAttrInterface R → TensorType → Prop
  | add first, add second, _ => first.getBias.isSome ∧ second.getBias.isSome
  | reshape first, reshape second, input => ReshapesDirectly input first second
  | _, _, _ => True

def FoldsSoundly : TransformAttrInterface R → TensorType → Prop
  | transpose order, input => order.isIdentity →
      (transpose order : TransformAttrInterface R).inferOutputType input = some input →
        KeepsLayout input.toNDType (.transpose order)
  | _, _ => True

theorem fromAffineMap_eq {perm : List ℕ} {order : DimsOrder} (h : order.perm = perm) :
    DimsOrder.fromAffineMap perm = some order := by
  rw [← h]
  exact fromAffineMap_perm order

theorem Reaches.pair (h : Reaches input [prev, curr] output) :
    ∃ mid, prev.InRange input ∧ prev.inferOutputType input = some mid ∧ curr.InRange mid ∧
      curr.inferOutputType mid = some output := by
  cases h with
  | cons hrange hinfer h =>
    cases h with
    | cons hrange' hinfer' h =>
      cases h
      exact ⟨_, hrange, hinfer, hrange', hinfer'⟩

variable [CommRing R]

def Preserves (rewrite : List (TransformAttrInterface R) → ℕ → TensorType → Except Fault (Rewriting R))
    (transformations : List (TransformAttrInterface R)) (currPos : ℕ) (baseType : TensorType) : Prop :=
  ∃ result, rewrite transformations currPos baseType = .ok result ∧ SameFold transformations result.1 baseType

theorem fuse_memPermute_reorder {dstOrder memPerm order : DimsOrder}
    (hprev : (memPermute dstOrder memPerm : TransformAttrInterface R).inferOutputType input = some mid)
    (hcurr : (reorder order : TransformAttrInterface R).inferOutputType mid = some output) :
    ∃ new : TransformAttrInterface R, fuseMemPermuteAndReorder input dstOrder memPerm order = .ok new ∧
      SameFold [memPermute dstOrder memPerm, reorder order] [new] input := by
  obtain ⟨⟨hrank, hrank'⟩, -, ho, -⟩ := memPermute_infer_iff.mp hprev
  obtain ⟨horder, -⟩ := reorder_infer_iff.mp hcurr
  have hdst : mid.dimsOrder.numDims = order.numDims := by
    rw [horder]
    exact mid.numDims_eq
  have hmem : (DimsOrder.between mid.dimsOrder order hdst).numDims = memPerm.numDims := by
    rw [numDims_between, ← hdst, ho, hrank, hrank']
  have hmap := @fromAffineMap_eq (compose (getPermutationFromOrders mid.dimsOrder order) memPerm.perm)
    ((DimsOrder.between mid.dimsOrder order hdst).comp memPerm hmem)
    (congrArg (fun perm => compose perm memPerm.perm) (between_perm hdst))
  refine ⟨memPermute order ((DimsOrder.between mid.dimsOrder order hdst).comp memPerm hmem), ?_,
    memPermute_reorder hdst hmem rfl hprev hcurr⟩
  unfold fuseMemPermuteAndReorder
  rw [hprev]
  change (orThrow (DimsOrder.fromAffineMap _) >>= _) = _
  rw [hmap]
  rfl

theorem fuse_reorder_memPermute {dstOrder memPerm order : DimsOrder}
    (hprev : (reorder order : TransformAttrInterface R).inferOutputType input = some mid)
    (hcurr : (memPermute dstOrder memPerm : TransformAttrInterface R).inferOutputType mid = some output) :
    ∃ new : TransformAttrInterface R, fuseReorderAndMemPermute input order dstOrder memPerm = .ok new ∧
      SameFold [reorder order, memPermute dstOrder memPerm] [new] input := by
  obtain ⟨horder, hshape, -⟩ := reorder_infer_iff.mp hprev
  obtain ⟨⟨-, hrank'⟩, -⟩ := memPermute_infer_iff.mp hcurr
  have hin : input.dimsOrder.numDims = order.numDims := by
    rw [horder]
    exact input.numDims_eq
  have hmem : memPerm.numDims = (DimsOrder.between input.dimsOrder order hin).numDims := by
    rw [numDims_between, hrank', horder]
    exact congrArg List.length hshape
  have hmap := @fromAffineMap_eq (compose memPerm.perm (getPermutationFromOrders input.dimsOrder order))
    (memPerm.comp (DimsOrder.between input.dimsOrder order hin) hmem)
    (congrArg (compose memPerm.perm) (between_perm hin))
  refine ⟨memPermute dstOrder (memPerm.comp (DimsOrder.between input.dimsOrder order hin) hmem), ?_,
    reorder_memPermute hin hmem rfl hprev hcurr⟩
  unfold fuseReorderAndMemPermute
  dsimp only
  rw [hmap]
  rfl

theorem fuseTransformations_sound (h : Reaches input [prev, curr] output) (hsound : FusesSoundly prev curr input) :
    ∃ fused, fuseTransformations (some input) prev curr = .ok fused ∧
      ∀ new ∈ fused, SameFold [prev, curr] [new] input := by
  obtain ⟨mid, hrange, hprev, hrange', hcurr⟩ := h.pair
  have hskip : fuseTransformations (some input) prev curr = .ok none →
      ∃ fused, fuseTransformations (some input) prev curr = .ok fused ∧
        ∀ new ∈ fused, SameFold [prev, curr] [new] input := fun hnone => ⟨none, hnone, nofun⟩
  have hone : ∀ new, fuseTransformations (some input) prev curr = .ok (some new) → SameFold [prev, curr] [new] input →
      ∃ fused, fuseTransformations (some input) prev curr = .ok fused ∧
        ∀ new ∈ fused, SameFold [prev, curr] [new] input := by
    intro new hnew hsame
    refine ⟨some new, hnew, ?_⟩
    rintro _ ⟨⟩
    exact hsame
  cases prev with
  | subView offset shape =>
    cases curr with
    | subView newOffset newShape =>
      have hshape : mid.shape = shape := congrArg NDType.shape ((subView_infer_iff hrange).mp hprev).1
      have hfit : Fits shape newOffset newShape := hshape ▸ hrange'
      exact hone _ rfl (subView_subView hrange hfit hprev hcurr)
    | _ => exact hskip rfl
  | add first =>
    cases curr with
    | add second =>
      obtain ⟨hfirst, hsecond⟩ := hsound
      cases first with
      | biasArray values => cases hfirst
      | bias value =>
        cases second with
        | biasArray values => cases hsecond
        | bias value' => exact hone _ rfl add_add
    | _ => exact hskip rfl
  | rescale first =>
    cases curr with
    | rescale second =>
      cases first with
      | values scales => exact hskip rfl
      | splat scale =>
        cases second with
        | values scales => exact hskip rfl
        | splat scale' => exact hone _ rfl rescale_rescale
    | _ => exact hskip rfl
  | reshape first =>
    cases curr with
    | reshape second => exact hone _ rfl ((reshape_reshape_iff hprev hcurr).mpr hsound)
    | _ => exact hskip rfl
  | reorder order =>
    cases curr with
    | reorder order' => exact hone _ rfl (reorder_reorder hprev hcurr)
    | memPermute dstOrder memPerm =>
      obtain ⟨new, hnew, hsame⟩ := fuse_reorder_memPermute hprev hcurr
      apply hone new _ hsame
      rw [fuseTransformations]
      exact congrArg (fun fused => fused >>= fun new => Except.ok (some new)) hnew
    | _ => exact hskip rfl
  | memPermute dstOrder memPerm =>
    cases curr with
    | reorder order =>
      obtain ⟨new, hnew, hsame⟩ := fuse_memPermute_reorder hprev hcurr
      apply hone new _ hsame
      rw [fuseTransformations]
      exact congrArg (fun fused => fused >>= fun new => Except.ok (some new)) hnew
    | _ => exact hskip rfl
  | castElemType first =>
    cases curr with
    | castElemType second =>
      by_cases hquantized : second.isQuantized ∨ first.isQuantized
      · apply hskip
        rw [fuseTransformations, tryFusingConsecutiveCasts, if_pos hquantized]
      · apply hone (castElemType second) _ (cast_cast hprev hcurr)
        rw [fuseTransformations, tryFusingConsecutiveCasts, if_neg hquantized]
    | _ => exact hskip rfl
  | transpose order | other methods =>
    cases curr with
    | _ => exact hskip rfl

theorem fuseTransformations_unsound (h : Reaches input [prev, curr] output) (hsound : ¬FusesSoundly prev curr input) :
    (∃ fault, fuseTransformations (some input) prev curr = .error fault) ∨
      ∃ new, fuseTransformations (some input) prev curr = .ok (some new) ∧ ¬SameFold [prev, curr] [new] input := by
  obtain ⟨mid, -, hprev, -, hcurr⟩ := h.pair
  cases prev with
  | add first =>
    cases curr with
    | add second =>
      left
      cases first with
      | biasArray values => exact ⟨_, rfl⟩
      | bias value =>
        cases second with
        | biasArray values => exact ⟨_, rfl⟩
        | bias value' => exact absurd ⟨rfl, rfl⟩ hsound
    | _ => exact absurd trivial hsound
  | reshape first =>
    cases curr with
    | reshape second => exact Or.inr ⟨_, rfl, fun hsame => hsound ((reshape_reshape_iff hprev hcurr).mp hsame)⟩
    | _ => exact absurd trivial hsound
  | _ => exact absurd trivial hsound

theorem SameFold.refl {chain : List (TransformAttrInterface R)} : SameFold chain chain baseType :=
  ⟨rfl, fun _ _ _ => rfl⟩

theorem fuseConsecutiveTransformations_eq (h : Reaches baseType before input) :
    fuseConsecutiveTransformations (before ++ prev :: curr :: after) (before.length + 1) baseType =
      (do
        match ← fuseTransformations (some input) prev curr with
        | some new => .ok (before ++ new :: after, before.length, true)
        | none => .ok (before ++ prev :: curr :: after, before.length + 1, false)) := by
  have hedge : ¬(before.length + 1 = 0 ∨ before.length + 1 = (before ++ prev :: curr :: after).length) := by
    simp
  have hprev : (before ++ prev :: curr :: after)[before.length + 1 - 1]? = some prev := by simp
  have hcurr : (before ++ prev :: curr :: after)[before.length + 1]? = some curr := by simp
  have htake : (before ++ prev :: curr :: after).take (before.length + 1 - 1) = before := by simp
  have hlist : ∀ new, ((before ++ prev :: curr :: after).set (before.length + 1 - 1) new).eraseIdx (before.length + 1) =
      before ++ new :: after := by
    intro new
    rw [Nat.add_sub_cancel, List.set_append_right _ _ le_rfl, Nat.sub_self, List.set_cons_zero,
      List.eraseIdx_append_of_length_le (by omega), Nat.add_sub_cancel_left]
    rfl
  unfold fuseConsecutiveTransformations
  rw [if_neg hedge, hprev, hcurr]
  dsimp only
  rw [htake, h.infer]
  cases fuseTransformations (some input) prev curr with
  | error fault => rfl
  | ok fused =>
    cases fused with
    | none => rfl
    | some new => exact congrArg (fun list => Except.ok (list, before.length, true)) (hlist new)

theorem preserves_fuse_iff (h : Reaches input [prev, curr] output) :
    (∀ baseType before after, Reaches baseType before input →
      Preserves fuseConsecutiveTransformations (before ++ prev :: curr :: after) (before.length + 1) baseType) ↔
      FusesSoundly prev curr input := by
  constructor
  · intro hall
    by_contra hsound
    obtain ⟨result, hresult, hsame⟩ := hall input [] [] Reaches.nil
    rw [fuseConsecutiveTransformations_eq Reaches.nil] at hresult
    obtain ⟨fault, hfault⟩ | ⟨new, hnew, hdiffers⟩ := fuseTransformations_unsound h hsound
    · rw [hfault] at hresult
      cases hresult
    · rw [hnew] at hresult
      cases hresult
      exact hdiffers hsame
  · intro hsound baseType before after hbefore
    obtain ⟨fused, hfused, hsame⟩ := fuseTransformations_sound h hsound
    unfold Preserves
    rw [fuseConsecutiveTransformations_eq hbefore, hfused]
    cases fused with
    | none => exact ⟨_, rfl, SameFold.refl⟩
    | some new => exact ⟨_, rfl, SameFold.congr hbefore (hsame new rfl)⟩

theorem foldTransformation_eq (h : Reaches baseType before input) :
    foldTransformation (before ++ attr :: after) before.length baseType =
      (do
        if ← isFoldable (some input) attr then .ok (before ++ after, before.length, true)
        else .ok (before ++ attr :: after, before.length, false)) := by
  have hattr : (before ++ attr :: after)[before.length]? = some attr := by simp
  have htake : (before ++ attr :: after).take before.length = before := by simp
  have hlist : (before ++ attr :: after).eraseIdx before.length = before ++ after := by
    rw [List.eraseIdx_append_of_length_le le_rfl, Nat.sub_self]
    rfl
  unfold foldTransformation
  rw [hattr]
  dsimp only
  rw [htake, h.infer, hlist]

theorem isFoldable_spec (hout : attr.inferOutputType input = some output) :
    ∃ foldable, isFoldable (some input) attr = .ok foldable ∧
      (foldable = true → (SameFold [attr] [] input ∨ ∃ order, attr = transpose order) ∧ output = input ∧
        ∀ order, attr = transpose order → order.isIdentity) ∧
      ∀ order, attr = transpose order → order.isIdentity → output = input → foldable = true := by
  cases attr with
  | reorder order =>
    refine ⟨decide (output = input), ?_, fun hfold => ?_, nofun⟩
    · change (orThrow ((reorder order : TransformAttrInterface R).inferOutputType input) >>=
        fun outType => Except.ok (decide (outType = input))) = _
      rw [hout]
      rfl
    · have he : output = input := of_decide_eq_true hfold
      rw [he] at hout
      exact ⟨Or.inl (sameFold_nil hout (copiesAll_reorder hout) fun coord _ => rfl), he, nofun⟩
  | memPermute dstOrder memPerm =>
    refine ⟨decide (output = input ∧ memPerm.isIdentity), ?_, fun hfold => ?_, nofun⟩
    · change (orThrow ((memPermute dstOrder memPerm : TransformAttrInterface R).inferOutputType input) >>=
        fun outType => Except.ok (decide (outType = input ∧ memPerm.isIdentity))) = _
      rw [hout]
      rfl
    · obtain ⟨he, hid⟩ := of_decide_eq_true hfold
      rw [he] at hout
      exact ⟨Or.inl (memPermute_dropped hid hout), he, nofun⟩
  | transpose order =>
    refine ⟨decide (output = input ∧ order.isIdentity), ?_, fun hfold => ?_, ?_⟩
    · change (orThrow ((transpose order : TransformAttrInterface R).inferOutputType input) >>=
        fun outType => Except.ok (decide (outType = input ∧ order.isIdentity))) = _
      rw [hout]
      rfl
    · obtain ⟨he, hid⟩ := of_decide_eq_true hfold
      refine ⟨Or.inr ⟨_, rfl⟩, he, ?_⟩
      rintro _ ⟨⟩
      exact hid
    · rintro _ ⟨⟩ hid he
      exact decide_eq_true ⟨he, hid⟩
  | _ => exact ⟨false, rfl, nofun, nofun⟩

variable [CharZero R]

theorem preserves_fold_iff (h : Reaches input [attr] output) :
    (∀ baseType before after, Reaches baseType before input →
      Preserves foldTransformation (before ++ attr :: after) before.length baseType) ↔ FoldsSoundly attr input := by
  have hout : attr.inferOutputType input = some output := by
    cases h with
    | cons hrange hinfer h =>
      cases h
      exact hinfer
  obtain ⟨foldable, hfoldable, hdrop, htranspose⟩ := isFoldable_spec hout
  constructor
  · intro hall
    cases attr with
    | transpose order =>
      intro hid hkeep
      cases hout.symm.trans hkeep
      obtain ⟨result, hresult, hsame⟩ := hall input [] [] Reaches.nil
      rw [foldTransformation_eq Reaches.nil, hfoldable, htranspose _ rfl hid rfl] at hresult
      cases hresult
      exact (transpose_dropped_iff hid hout).mp hsame
    | _ => exact trivial
  · intro hsound baseType before after hbefore
    unfold Preserves
    rw [foldTransformation_eq hbefore, hfoldable]
    cases foldable with
    | false => exact ⟨_, rfl, SameFold.refl⟩
    | true =>
      obtain ⟨hsame, rfl, hid⟩ := hdrop rfl
      have hsame : SameFold [attr] [] output := by
        obtain hsame | ⟨order, rfl⟩ := hsame
        · exact hsame
        · exact (transpose_dropped_iff (hid _ rfl) hout).mpr (hsound (hid _ rfl) hout)
      exact ⟨_, rfl, SameFold.congr hbefore hsame⟩

/-- Which pairs are fused to the same constant, and which transformations may be dropped. At the ends of the list
nothing is rewritten. -/
theorem rewriting_preserves_iff :
    (∀ (prev curr : TransformAttrInterface R) (input output : TensorType), Reaches input [prev, curr] output →
      ((∀ baseType before after, Reaches baseType before input →
        Preserves fuseConsecutiveTransformations (before ++ prev :: curr :: after) (before.length + 1) baseType) ↔
        FusesSoundly prev curr input)) ∧
    (∀ (attr : TransformAttrInterface R) (input output : TensorType), Reaches input [attr] output →
      ((∀ baseType before after, Reaches baseType before input →
        Preserves foldTransformation (before ++ attr :: after) before.length baseType) ↔ FoldsSoundly attr input)) ∧
    ∀ (transformations : List (TransformAttrInterface R)) (baseType : TensorType),
      Preserves fuseConsecutiveTransformations transformations 0 baseType ∧
      Preserves fuseConsecutiveTransformations transformations transformations.length baseType ∧
      Preserves foldTransformation transformations transformations.length baseType := by
  refine ⟨fun _ _ _ _ => preserves_fuse_iff, fun _ _ _ => preserves_fold_iff, fun transformations baseType => ?_⟩
  have hlast : transformations[transformations.length]? = none := List.getElem?_eq_none le_rfl
  refine ⟨⟨_, if_pos (Or.inl rfl), SameFold.refl⟩, ⟨_, if_pos (Or.inr rfl), SameFold.refl⟩, ?_⟩
  unfold Preserves foldTransformation
  rw [hlast]
  exact ⟨_, rfl, SameFold.refl⟩

end

def vectorType : TensorType :=
  ⟨⟨[2], DimsOrder.fromNumDims 1, by decide, by decide⟩, .number "f32", by decide⟩

def rotated : DimsOrder := ⟨[2, 0, 1], by decide⟩

def rotatedType : TensorType := ⟨⟨[2, 3, 4], rotated, by decide, by decide⟩, .number "f32", by decide⟩

/-- Two biases, two permutations and two changes of shape, the last two in a permuted dims order. -/
theorem rewriting_preserves_iff_pairs :
    Preserves fuseConsecutiveTransformations [add (.bias (1 : ℚ)), add (.bias 2)] 1 vectorType ∧
      Preserves fuseConsecutiveTransformations [(transpose rotated : TransformAttrInterface ℚ), transpose rotated] 1 rotatedType ∧
        Preserves fuseConsecutiveTransformations [(reshape [3, 2, 4] : TransformAttrInterface ℚ), reshape [1, 4, 2, 3]] 1
          rotatedType := by
  have hbiases : Reaches vectorType [add (.bias (1 : ℚ)), add (.bias 2)] vectorType :=
    Reaches.cons trivial rfl (Reaches.cons trivial rfl Reaches.nil)
  have htransposes : Reaches rotatedType [(transpose rotated : TransformAttrInterface ℚ), transpose rotated] _ :=
    Reaches.cons trivial rfl (Reaches.cons trivial rfl Reaches.nil)
  have hreshapes : Reaches rotatedType [(reshape [3, 2, 4] : TransformAttrInterface ℚ), reshape [1, 4, 2, 3]] _ :=
    Reaches.cons rfl rfl (Reaches.cons rfl rfl Reaches.nil)
  refine ⟨?_, ?_, ?_⟩
  · exact ((rewriting_preserves_iff.1 _ _ _ _ hbiases).mpr ⟨rfl, rfl⟩) vectorType [] [] Reaches.nil
  · exact ((rewriting_preserves_iff.1 _ _ _ _ htransposes).mpr trivial) rotatedType [] [] Reaches.nil
  · have hdirect : ReshapesDirectly rotatedType [3, 2, 4] [1, 4, 2, 3] := by decide
    exact ((rewriting_preserves_iff.1 _ _ _ _ hreshapes).mpr hdirect) rotatedType [] [] Reaches.nil

/-- A bias and an array of biases: the fusion asks the array for its single bias. -/
theorem fuse_biasArray : foldContent [add (.bias (1 : ℚ)), add (.biasArray [2, 3])] ⟨vectorType, false, 4, [some 0, some 0]⟩ =
        some ⟨vectorType, false, 4, [some 3, some 4]⟩ ∧
      fuseConsecutiveTransformations [add (.bias (1 : ℚ)), add (.biasArray [2, 3])] 1 vectorType =
        .error .nullAttribute := by
  refine ⟨?_, rfl⟩
  rw [foldContent_two, transform_add, Option.bind_some, transform_add]
  simp only [addBias, sizeOfFloat, List.map_cons, List.map_nil, List.mapIdx_cons, List.mapIdx_nil]
  norm_num

end NpuCompiler.Const
