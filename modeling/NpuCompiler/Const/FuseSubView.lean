import NpuCompiler.Const.FuseOverlap

namespace NpuCompiler.Const

open MixedRadix Chunks List

namespace FuseWeights

def operandStart (fuse : FuseWeights FusedConstant) : FusedOperand → ℤ
  | .weightsTable => 0
  | .weights => fuse.operandSize .weightsTable
  | _ => fuse.operandSize .weightsTable + fuse.operandSize .weights

structure Packed (fuse : FuseWeights FusedConstant) (length : ℤ) : Prop where
  sparsity : fuse.constant .sparsity = none
  fusedShape : fuse.fusedShape = [1, 1, 1, length]
  elemTypeSize_pos : 0 < fuse.fusedElemTypeSize
  size : fuse.operandSize .weightsTable + fuse.operandSize .weights + fuse.operandSize .activations =
    length * fuse.fusedElemTypeSize

/-- Of every constant, what is converted to `int` for the SubView of `count` elements from `offset` on fits. -/
def Converts (fuse : FuseWeights FusedConstant) (offset count : ℤ) : Prop :=
  ∀ operand c, fuse.constant operand = some c →
    FitsInt (offset * fuse.fusedElemTypeSize) (offset * fuse.fusedElemTypeSize + count * fuse.fusedElemTypeSize)
      (fuse.operandStart operand) c

def Fills (fuse : FuseWeights FusedConstant) (raw : FusedOperand → List Bool) : Prop :=
  ∀ operand c, fuse.constant operand = some c → (raw operand).length = (c.byteSize * 8).toNat

def Correct (fuse : FuseWeights FusedConstant) (subViewOffset subViewShape : List ℤ) : Prop :=
  ∀ newFuse, fuse.moveSubViewIntoFuse subViewOffset subViewShape = some (some newFuse) →
    ∀ raw, fuse.Fills raw →
      newFuse.transform (fun operand c => foldConstant (raw operand) c) =
        (fuse.transform fun operand _ => raw operand).map
          (cut (entry subViewOffset 3 * fuse.fusedElemTypeSize * 8).toNat
            ((entry subViewOffset 3 + entry subViewShape 3) * fuse.fusedElemTypeSize * 8).toNat)

section
variable {γ : Type} (fuse : FuseWeights γ) (content : FusedOperand → γ → List Bool)

def operandBits (operand : FusedOperand) : List Bool := (fuse.constant operand).elim [] (content operand)

variable {fuse content}

theorem appendOperand_eq {done : List Bool} {operand : FusedOperand} {n : ℕ}
    (h : done.length + (fuse.operandBits content operand).length ≤ n) :
    fuse.appendOperand content (done.map some ++ List.replicate (n - done.length) none, done.length) operand =
      some ((done ++ fuse.operandBits content operand).map some ++
          List.replicate (n - (done ++ fuse.operandBits content operand).length) none,
        (done ++ fuse.operandBits content operand).length) := by
  unfold appendOperand operandBits at *
  cases hc : fuse.constant operand with
  | none => simp
  | some c =>
    rw [hc] at h
    have hlen : done.length + (content operand c).length ≤
        (done.map some ++ List.replicate (n - done.length) none).length := by
      rw [length_append, length_map, length_replicate]
      change done.length + (content operand c).length ≤ n at h
      omega
    change appendContentToVector _ (content operand c) = _
    rw [appendContentToVector, if_pos hlen]
    have hdone : done.length = (done.map some).length := by rw [length_map]
    change some (_ ++ _ ++ _, _) = some ((done ++ content operand c).map some ++ _, _)
    dsimp only
    rw [map_append, length_append, ← Nat.sub_sub]
    congr 3
    · congr 1
      rw [hdone, take_left]
    · rw [← drop_drop]
      nth_rewrite 1 [hdone]
      rw [drop_left, drop_replicate]
      rfl

theorem transform_eq (h : ((fuse.operandBits content .weightsTable).length + (fuse.operandBits content .weights).length +
      (fuse.operandBits content .sparsity).length + (fuse.operandBits content .activations).length) ≤ fuse.fusedBits) :
    fuse.transform content = some
      ((fuse.operandBits content .weightsTable ++ fuse.operandBits content .weights ++
        fuse.operandBits content .sparsity ++ fuse.operandBits content .activations).map some ++
      List.replicate (fuse.fusedBits - (fuse.operandBits content .weightsTable ++ fuse.operandBits content .weights ++
        fuse.operandBits content .sparsity ++ fuse.operandBits content .activations).length) none) := by
  have hstart : (List.replicate fuse.fusedBits none, 0) =
      (([] : List Bool).map some ++ List.replicate (fuse.fusedBits - ([] : List Bool).length) none,
        ([] : List Bool).length) := rfl
  rw [transform, hstart, foldlM_cons, appendOperand_eq (by rw [length_nil]; omega)]
  change Option.map _ (List.foldlM _ _ _) = _
  rw [foldlM_cons, appendOperand_eq (by rw [length_append, length_nil]; omega)]
  change Option.map _ (List.foldlM _ _ _) = _
  rw [foldlM_cons, appendOperand_eq (by rw [length_append, length_append, length_nil]; omega)]
  change Option.map _ (List.foldlM _ _ _) = _
  rw [foldlM_cons, appendOperand_eq
    (by rw [length_append, length_append, length_append, length_nil]; omega)]
  rfl

end

section
variable {α : Type}

theorem map_some_append_none {new old : List α} {n : ℕ}
    (h : new.map some ++ List.replicate n none = old.map some) : new = old := by
  have hn : n = 0 := by
    by_contra hne
    have hmem : none ∈ old.map some := by
      rw [← h]
      apply mem_append_right
      rw [mem_replicate]
      exact ⟨hne, rfl⟩
    obtain ⟨v, _, hv⟩ := mem_map.1 hmem
    cases hv
  rw [hn, replicate_zero, append_nil] at h
  exact map_injective_iff.2 (Option.some_injective α) h

theorem append_three_eq {a b c a' b' c' : List α} (ha : a.length ≤ a'.length) (hb : b.length ≤ b'.length)
    (hc : c.length ≤ c'.length) : a ++ b ++ c = a' ++ b' ++ c' ↔ a = a' ∧ b = b' ∧ c = c' := by
  constructor
  · intro h
    have hlen := congrArg List.length h
    simp only [length_append] at hlen
    have hab := append_inj h (by rw [length_append, length_append]; omega)
    have hab' := append_inj hab.1 (by omega)
    exact ⟨hab'.1, hab'.2, hab.2⟩
  · rintro ⟨rfl, rfl, rfl⟩
    rfl

variable {fuse : FuseWeights FusedConstant} {length offset count : ℤ}

def newOperand (fuse : FuseWeights FusedConstant) (subViewStart subViewEnd : ℤ) (operand : FusedOperand) :
    Option (FusedConstant × List TransformAttr) :=
  (fuse.getNewOperand subViewStart subViewEnd operand (fuse.operandStart operand)).join

section
variable (h : fuse.Packed length) (h0 : 0 ≤ offset) (hcount : 0 < count)
include h h0 hcount

theorem Packed.inBuffer {operand : FusedOperand} {c : FusedConstant} (hc : fuse.constant operand = some c) :
    InBuffer (offset * fuse.fusedElemTypeSize)
      (offset * fuse.fusedElemTypeSize + count * fuse.fusedElemTypeSize) (fuse.operandStart operand) c := by
  have hnonneg (op : FusedOperand) : 0 ≤ fuse.operandSize op := by
    unfold operandSize
    cases fuse.constant op with
    | none => exact le_rfl
    | some c => exact c.byteSize_pos.le
  have h1 := hnonneg .weightsTable
  have h2 := hnonneg .weights
  refine ⟨mul_nonneg h0 h.elemTypeSize_pos.le, ?_, ?_⟩
  · have := mul_pos hcount h.elemTypeSize_pos
    linarith
  · cases operand with
    | weightsTable => exact le_rfl
    | weights => exact h1
    | sparsity => exact add_nonneg h1 h2
    | activations => exact add_nonneg h1 h2

theorem Packed.getNewOperand_eq (hint : fuse.Converts offset count) (operand : FusedOperand) :
    fuse.getNewOperand (offset * fuse.fusedElemTypeSize)
      (offset * fuse.fusedElemTypeSize + count * fuse.fusedElemTypeSize) operand (fuse.operandStart operand) =
      some (fuse.newOperand (offset * fuse.fusedElemTypeSize)
        (offset * fuse.fusedElemTypeSize + count * fuse.fusedElemTypeSize) operand) := by
  unfold newOperand getNewOperand
  cases hc : fuse.constant operand with
  | none => rfl
  | some c =>
    obtain ⟨result, hresult⟩ := (newBits_iff (h.inBuffer h0 hcount hc) (hint operand c hc)).1
    dsimp only
    rw [hresult]
    rfl

def slicedFuse (fuse : FuseWeights FusedConstant) (offset count : ℤ) : FuseWeights (FusedConstant × List TransformAttr) :=
  let subViewStart := offset * fuse.fusedElemTypeSize
  let subViewEnd := subViewStart + count * fuse.fusedElemTypeSize
  ⟨[1, 1, 1, count], fuse.fusedElemTypeSize, nonSparse (fuse.newOperand subViewStart subViewEnd .weightsTable)
    (fuse.newOperand subViewStart subViewEnd .weights) (fuse.newOperand subViewStart subViewEnd .activations)⟩

theorem Packed.moveSubViewIntoFuse_eq (hint : fuse.Converts offset count) :
    fuse.moveSubViewIntoFuse [0, 0, 0, offset] [1, 1, 1, count] = some (some (fuse.slicedFuse offset count)) := by
  have hflat : ¬ ∃ dim < 3, entry fuse.fusedShape dim ≠ 1 ∨ entry [0, 0, 0, offset] dim ≠ 0 ∨
      entry [1, 1, 1, count] dim ≠ 1 := by
    rintro ⟨dim, hdim, hne⟩
    rw [h.fusedShape] at hne
    obtain rfl | rfl | rfl : dim = 0 ∨ dim = 1 ∨ dim = 2 := by omega
    all_goals simp [entry] at hne
  have hlen : ¬ (fuse.fusedShape.length ≠ 4 ∨ [0, 0, 0, offset].length ≠ 4 ∨ [1, 1, 1, count].length ≠ 4) := by
    rw [h.fusedShape]
    simp
  have hwt := h.getNewOperand_eq h0 hcount hint .weightsTable
  have hw := h.getNewOperand_eq h0 hcount hint .weights
  have hact := h.getNewOperand_eq h0 hcount hint .activations
  rw [moveSubViewIntoFuse, h.sparsity, if_neg (by simp), if_neg hlen, if_neg hflat]
  change fuse.getNewOperand (offset * fuse.fusedElemTypeSize)
    (offset * fuse.fusedElemTypeSize + count * fuse.fusedElemTypeSize) .weightsTable
      (fuse.operandStart .weightsTable) >>= _ = _
  rw [hwt]
  change fuse.getNewOperand (offset * fuse.fusedElemTypeSize)
    (offset * fuse.fusedElemTypeSize + count * fuse.fusedElemTypeSize) .weights
      (fuse.operandStart .weights) >>= _ = _
  rw [hw]
  change fuse.getNewOperand (offset * fuse.fusedElemTypeSize)
    (offset * fuse.fusedElemTypeSize + count * fuse.fusedElemTypeSize) .activations
      (fuse.operandStart .activations) >>= _ = _
  rw [hact]
  rfl

end

variable {raw : FusedOperand → List Bool}

theorem slicedFuse_bits (hs : fuse.constant .sparsity = none) (offset count : ℤ) (raw : FusedOperand → List Bool)
    (operand : FusedOperand) :
    (fuse.slicedFuse offset count).operandBits (fun operand c => foldConstant (raw operand) c) operand =
      (fuse.constant operand).elim [] fun c => newBits (offset * fuse.fusedElemTypeSize)
        (offset * fuse.fusedElemTypeSize + count * fuse.fusedElemTypeSize) (fuse.operandStart operand) c (raw operand) := by
  have hnew (op : FusedOperand) :
      (fuse.newOperand (offset * fuse.fusedElemTypeSize)
        (offset * fuse.fusedElemTypeSize + count * fuse.fusedElemTypeSize) op).elim [] (foldConstant (raw op)) =
      (fuse.constant op).elim [] fun c => newBits (offset * fuse.fusedElemTypeSize)
        (offset * fuse.fusedElemTypeSize + count * fuse.fusedElemTypeSize) (fuse.operandStart op) c (raw op) := by
    unfold newOperand getNewOperand
    cases fuse.constant op with
    | none => rfl
    | some c =>
      simp only [Option.elim_some, newBits]
      cases getNewConstant (offset * fuse.fusedElemTypeSize)
        (offset * fuse.fusedElemTypeSize + count * fuse.fusedElemTypeSize) c (fuse.operandStart op) with
      | none => rfl
      | some result => cases result <;> rfl
  cases operand with
  | sparsity => rw [hs]; rfl
  | weightsTable => exact hnew .weightsTable
  | weights => exact hnew .weights
  | activations => exact hnew .activations

def keptOperandBits (fuse : FuseWeights FusedConstant) (offset count : ℤ) (raw : FusedOperand → List Bool)
    (operand : FusedOperand) : List Bool :=
  (fuse.constant operand).elim [] fun _ => keptBits (offset * fuse.fusedElemTypeSize)
    (offset * fuse.fusedElemTypeSize + count * fuse.fusedElemTypeSize) (fuse.operandStart operand) (raw operand)

theorem keptOperandBits_eq_cut {operand : FusedOperand} :
    fuse.keptOperandBits offset count raw operand =
      cut ((offset * fuse.fusedElemTypeSize - fuse.operandStart operand) * 8).toNat
        ((offset * fuse.fusedElemTypeSize + count * fuse.fusedElemTypeSize - fuse.operandStart operand) * 8).toNat
        (fuse.operandBits (fun operand _ => raw operand) operand) := by
  unfold keptOperandBits operandBits
  cases fuse.constant operand with
  | none => simp [cut]
  | some c => rfl

theorem length_operandBits (hraw : fuse.Fills raw) (operand : FusedOperand) :
    (fuse.operandBits (fun operand _ => raw operand) operand).length = (fuse.operandSize operand * 8).toNat := by
  unfold operandBits operandSize
  cases hc : fuse.constant operand with
  | none => rfl
  | some c => exact hraw operand c hc

theorem operandSize_nonneg (fuse : FuseWeights FusedConstant) (operand : FusedOperand) :
    0 ≤ fuse.operandSize operand := by
  unfold operandSize
  cases fuse.constant operand with
  | none => exact le_rfl
  | some c => exact c.byteSize_pos.le

theorem Packed.transform_cut (h : fuse.Packed length) (hraw : fuse.Fills raw) (h0 : 0 ≤ offset) :
    (fuse.transform fun operand _ => raw operand).map
        (cut (offset * fuse.fusedElemTypeSize * 8).toNat ((offset + count) * fuse.fusedElemTypeSize * 8).toNat) =
      some ((fuse.keptOperandBits offset count raw .weightsTable ++ fuse.keptOperandBits offset count raw .weights ++
        fuse.keptOperandBits offset count raw .activations).map some) := by
  have hlen := length_operandBits hraw
  have hsize := h.size
  have h1 := fuse.operandSize_nonneg .weightsTable
  have h2 := fuse.operandSize_nonneg .weights
  have h3 := fuse.operandSize_nonneg .activations
  have hsparse : fuse.operandBits (fun operand _ => raw operand) .sparsity = [] := by
    rw [operandBits, h.sparsity]
    rfl
  have hbits : fuse.fusedBits = (length * fuse.fusedElemTypeSize * 8).toNat := by
    rw [fusedBits, h.fusedShape]
    simp
  have hprod := mul_nonneg h0 h.elemTypeSize_pos.le
  rw [transform_eq (by rw [hsparse, hlen, hlen, hlen, length_nil, hbits]; omega), hsparse, Option.map_some,
    append_nil]
  have hfull : fuse.fusedBits - (fuse.operandBits (fun operand _ => raw operand) .weightsTable ++
      fuse.operandBits (fun operand _ => raw operand) .weights ++
      fuse.operandBits (fun operand _ => raw operand) .activations).length = 0 := by
    rw [length_append, length_append, hlen, hlen, hlen, hbits]
    omega
  have hend : (offset + count) * fuse.fusedElemTypeSize =
      offset * fuse.fusedElemTypeSize + count * fuse.fusedElemTypeSize := add_mul _ _ _
  have hpart (operand : FusedOperand) (a b : ℕ)
      (ha : a = ((offset * fuse.fusedElemTypeSize - fuse.operandStart operand) * 8).toNat)
      (hb : b = ((offset * fuse.fusedElemTypeSize + count * fuse.fusedElemTypeSize -
        fuse.operandStart operand) * 8).toNat) :
      cut a b (fuse.operandBits (fun operand _ => raw operand) operand) = fuse.keptOperandBits offset count raw operand := by
    rw [keptOperandBits_eq_cut, ha, hb]
  have hwt : fuse.operandStart .weightsTable = 0 := rfl
  have hw : fuse.operandStart .weights = fuse.operandSize .weightsTable := rfl
  have hact : fuse.operandStart .activations = fuse.operandSize .weightsTable + fuse.operandSize .weights := rfl
  rw [hfull, replicate_zero, append_nil, ← map_cut, cut_append, cut_append, length_append, hlen, hlen,
    hend, hpart .weightsTable _ _ (by omega) (by omega), hpart .weights _ _ (by omega) (by omega),
    hpart .activations _ _ (by omega) (by omega)]

theorem Packed.transform_iff (h : fuse.Packed length) (hraw : fuse.Fills raw) (h0 : 0 ≤ offset) (hcount : 0 < count)
    (hle : offset + count ≤ length) (hint : fuse.Converts offset count) :
    ((fuse.slicedFuse offset count).transform (fun operand c => foldConstant (raw operand) c) =
      (fuse.transform fun operand _ => raw operand).map
        (cut (offset * fuse.fusedElemTypeSize * 8).toNat ((offset + count) * fuse.fusedElemTypeSize * 8).toNat)) ↔
      ∀ operand c, fuse.constant operand = some c →
        newBits (offset * fuse.fusedElemTypeSize)
          (offset * fuse.fusedElemTypeSize + count * fuse.fusedElemTypeSize) (fuse.operandStart operand) c (raw operand) =
        keptBits (offset * fuse.fusedElemTypeSize)
          (offset * fuse.fusedElemTypeSize + count * fuse.fusedElemTypeSize) (fuse.operandStart operand) (raw operand) := by
  let new := fun operand =>
    (fuse.slicedFuse offset count).operandBits (fun operand c => foldConstant (raw operand) c) operand
  let kept := fuse.keptOperandBits offset count raw
  have hnew (operand : FusedOperand) := slicedFuse_bits h.sparsity offset count raw operand
  have hlen (operand : FusedOperand) : (new operand).length ≤ (kept operand).length := by
    change ((fuse.slicedFuse offset count).operandBits _ operand).length ≤ _
    rw [hnew]
    change _ ≤ (fuse.keptOperandBits offset count raw operand).length
    unfold keptOperandBits
    cases hc : fuse.constant operand with
    | none => exact le_rfl
    | some c => exact (newBits_iff (h.inBuffer h0 hcount hc) (hint operand c hc)).2.1 _ (hraw operand c hc)
  have hsparse : new .sparsity = [] := by
    change (fuse.slicedFuse offset count).operandBits _ .sparsity = []
    rw [hnew, h.sparsity]
    rfl
  have htotal : (kept .weightsTable).length + (kept .weights).length + (kept .activations).length =
      (fuse.slicedFuse offset count).fusedBits := by
    have hbits : (fuse.slicedFuse offset count).fusedBits = (count * fuse.fusedElemTypeSize * 8).toNat := by
      simp [slicedFuse, fusedBits]
    have hsize := h.size
    have h1 := fuse.operandSize_nonneg .weightsTable
    have h2 := fuse.operandSize_nonneg .weights
    have h3 := fuse.operandSize_nonneg .activations
    have hprod := mul_nonneg h0 h.elemTypeSize_pos.le
    have hprod' := mul_pos hcount h.elemTypeSize_pos
    have hend := mul_le_mul_of_nonneg_right hle h.elemTypeSize_pos.le
    rw [add_mul] at hend
    have hkept (operand : FusedOperand) : (kept operand).length =
        min ((offset * fuse.fusedElemTypeSize + count * fuse.fusedElemTypeSize - fuse.operandStart operand) * 8).toNat
          (fuse.operandSize operand * 8).toNat -
        ((offset * fuse.fusedElemTypeSize - fuse.operandStart operand) * 8).toNat := by
      change (fuse.keptOperandBits offset count raw operand).length = _
      rw [keptOperandBits_eq_cut, length_cut, length_operandBits hraw]
    have hwt : fuse.operandStart .weightsTable = 0 := rfl
    have hw : fuse.operandStart .weights = fuse.operandSize .weightsTable := rfl
    have hact : fuse.operandStart .activations = fuse.operandSize .weightsTable + fuse.operandSize .weights := rfl
    rw [hkept, hkept, hkept, hbits]
    omega
  have hfit : (new .weightsTable).length + (new .weights).length + (new .sparsity).length +
      (new .activations).length ≤ (fuse.slicedFuse offset count).fusedBits := by
    have h1 := hlen .weightsTable
    have h2 := hlen .weights
    have h3 := hlen .activations
    rw [hsparse, length_nil]
    omega
  have htransform := transform_eq hfit
  change _ = some ((new .weightsTable ++ new .weights ++ new .sparsity ++ new .activations).map some ++
    List.replicate (_ - (new .weightsTable ++ new .weights ++ new .sparsity ++ new .activations).length) none) at htransform
  rw [hsparse, append_nil] at htransform
  rw [h.transform_cut hraw h0, htransform]
  have hoperands : (∀ operand c, fuse.constant operand = some c →
      newBits (offset * fuse.fusedElemTypeSize)
          (offset * fuse.fusedElemTypeSize + count * fuse.fusedElemTypeSize) (fuse.operandStart operand) c (raw operand) =
        keptBits (offset * fuse.fusedElemTypeSize)
          (offset * fuse.fusedElemTypeSize + count * fuse.fusedElemTypeSize) (fuse.operandStart operand) (raw operand)) ↔
      ∀ operand, new operand = kept operand := by
    apply forall_congr'
    intro operand
    change _ ↔ (fuse.slicedFuse offset count).operandBits _ operand = fuse.keptOperandBits offset count raw operand
    rw [hnew]
    unfold keptOperandBits
    cases fuse.constant operand with
    | none => simp
    | some c => simp
  rw [hoperands]
  constructor
  · intro heq
    have hlist := (append_three_eq (hlen _) (hlen _) (hlen _)).1 (map_some_append_none (Option.some.inj heq))
    intro operand
    cases operand with
    | weightsTable => exact hlist.1
    | weights => exact hlist.2.1
    | sparsity =>
      rw [hsparse]
      change [] = fuse.keptOperandBits offset count raw .sparsity
      rw [keptOperandBits, h.sparsity]
      rfl
    | activations => exact hlist.2.2
  · intro heq
    rw [heq, heq, heq]
    have hfull : (fuse.slicedFuse offset count).fusedBits -
        (kept .weightsTable ++ kept .weights ++ kept .activations).length = 0 := by
      rw [length_append, length_append, htotal, Nat.sub_self]
    rw [hfull, replicate_zero, append_nil]

theorem Fills.replicate (fuse : FuseWeights FusedConstant) :
    fuse.Fills fun operand => List.replicate (fuse.operandSize operand * 8).toNat false := by
  intro operand c hc
  rw [length_replicate, operandSize, hc]
  rfl

/-- The slice of a fused constant is the constant of the slices exactly when each constant that the SubView meets is
cut at its elements, is not strictly inside, and holds the slice in place. -/
theorem moveSubViewIntoFuse_iff (h : fuse.Packed length) (h0 : 0 ≤ offset) (hcount : 0 < count)
    (hle : offset + count ≤ length) (hint : fuse.Converts offset count) :
    fuse.Correct [0, 0, 0, offset] [1, 1, 1, count] ↔
      ∀ operand c, fuse.constant operand = some c →
        SliceKept (offset * fuse.fusedElemTypeSize) (offset * fuse.fusedElemTypeSize + count * fuse.fusedElemTypeSize)
          (fuse.operandStart operand) c := by
  constructor
  · intro hcorrect operand c hc
    apply (newBits_iff (h.inBuffer h0 hcount hc) (hint operand c hc)).2.2.1
    intro bits hbits
    -- any memory of this constant, the others all clear
    let raw := fun op => if op = operand then bits else List.replicate (fuse.operandSize op * 8).toNat false
    have hraw : fuse.Fills raw := by
      intro op d hd
      by_cases hop : op = operand
      · subst hop
        rw [hc] at hd
        cases hd
        simpa [raw] using hbits
      · have hfill := Fills.replicate fuse op d hd
        simpa [raw, hop] using hfill
    have heq := (h.transform_iff hraw h0 hcount hle hint).1
      (hcorrect _ (h.moveSubViewIntoFuse_eq h0 hcount hint) raw hraw) operand c hc
    simpa [raw] using heq
  · intro hkept newFuse hnew raw hraw
    rw [h.moveSubViewIntoFuse_eq h0 hcount hint] at hnew
    have hfuse := Option.some.inj (Option.some.inj hnew)
    subst hfuse
    apply (h.transform_iff hraw h0 hcount hle hint).2
    intro operand c hc
    exact (newBits_iff (h.inBuffer h0 hcount hc) (hint operand c hc)).2.2.2 (hkept operand c hc) _ (hraw operand c hc)

end

def twoBytes : FusedConstant where
  type := ⟨[1, 1, 1, 2], DimsOrder.fromNumDims 4, rfl, by decide⟩
  elemBits := 8
  rank_pos := by decide
  elemBits_pos := by decide
  elemBits_dvd := by decide
  wholeBytes := by decide

def threeConstants : FuseWeights FusedConstant :=
  ⟨[1, 1, 1, 6], 1, nonSparse (some twoBytes) (some twoBytes) (some twoBytes)⟩

def largeWeights : FusedConstant where
  type := ⟨[1, 1, 1, 300000000], DimsOrder.fromNumDims 4, rfl, by decide⟩
  elemBits := 8
  rank_pos := by decide
  elemBits_pos := by decide
  elemBits_dvd := by decide
  wholeBytes := by decide

def largeConstants : FuseWeights FusedConstant :=
  ⟨[1, 1, 1, 300000004], 1, nonSparse (some twoBytes) (some largeWeights) (some twoBytes)⟩

/-- A slice across the end of the weights table, with a fused buffer of more than 2^31 bits. -/
theorem moveSubViewIntoFuse_iff_largeConstants : largeConstants.Correct [0, 0, 0, 1] [1, 1, 1, 3] := by
  have htable : ∀ d, IsSliced twoBytes.type.shape (1 + 1) d → d = 3 :=
    fun d hd => hd.unique twoBytes.type.shape_pos ⟨by decide, by decide, .inl rfl⟩
  have hweights : ∀ d, IsSliced largeWeights.type.shape (2 + 0) d → d = 3 :=
    fun d hd => hd.unique largeWeights.type.shape_pos ⟨by decide, by decide, .inl rfl⟩
  have hint : largeConstants.Converts 1 3 := by
    intro operand c hc
    cases operand with
    | sparsity => cases hc
    | weightsTable =>
      cases hc
      refine fun _ => ⟨by decide, by decide, fun d hd => ?_⟩
      obtain rfl := htable d hd
      decide
    | weights =>
      cases hc
      refine fun _ => ⟨by decide, by decide, fun d hd => ?_⟩
      obtain rfl := hweights d hd
      decide
    | activations =>
      cases hc
      exact fun hoverlap => absurd hoverlap (by decide)
  refine (moveSubViewIntoFuse_iff ⟨rfl, rfl, by decide, by decide⟩ (by decide) (by decide) (by decide) hint).mpr ?_
  intro operand c hc
  cases operand with
  | sparsity => cases hc
  | weightsTable =>
    cases hc
    refine fun _ => ⟨by decide, by decide, by decide, fun d hd => ?_⟩
    obtain rfl := htable d hd
    intro stride firstRow rows k h0 hk
    obtain rfl : k = 0 := by
      have : k < 1 := hk
      omega
    decide
  | weights =>
    cases hc
    refine fun _ => ⟨by decide, by decide, by decide, fun d hd => ?_⟩
    obtain rfl := hweights d hd
    intro stride firstRow rows k h0 hk
    obtain rfl | rfl : k = 0 ∨ k = 1 := by
      have : k < 2 := hk
      omega
    · decide
    · decide
  | activations =>
    cases hc
    exact fun hoverlap => absurd hoverlap (by decide)

/-- The SubView of the bytes from 1 to 5 loses the weights. -/
theorem threeConstants_not_correct : ¬ threeConstants.Correct [0, 0, 0, 1] [1, 1, 1, 4] := by
  intro h
  have hraw : threeConstants.Fills fun _ => List.replicate 16 true := by
    intro operand c hc
    cases operand with
    | sparsity => cases hc
    | weightsTable => cases hc; rfl
    | weights => cases hc; rfl
    | activations => cases hc; rfl
  have heq := h _ rfl _ hraw
  revert heq
  decide +kernel

end FuseWeights

end NpuCompiler.Const
