import NpuCompiler.Const.Transformations

namespace NpuCompiler.Const

open MixedRadix

def toInt (x : ℤ) : ℤ := (x + 2 ^ 31) % 2 ^ 32 - 2 ^ 31

structure FusedConstant where
  type : NDType
  elemBits : ℕ
  rank_pos : 0 < type.getRank
  elemBits_pos : 0 < elemBits
  elemBits_dvd : 8 ∣ elemBits ∨ elemBits ∣ 8
  wholeBytes : (8 : ℤ) ∣ type.shape.prod * elemBits

def getTotalAllocSize (shape : List ℤ) (elemBits : ℕ) : ℤ := (shape.prod * elemBits + 7) / 8

def FusedConstant.byteSize (c : FusedConstant) : ℤ := getTotalAllocSize c.type.shape c.elemBits

inductive FusedOperand
  | weightsTable | weights | sparsity | activations
  deriving DecidableEq

structure FuseWeights (γ : Type) where
  fusedShape : List ℤ
  fusedElemTypeSize : ℤ
  constant : FusedOperand → Option γ

structure RawConstant where
  shape : List ℤ
  bits : List Bool

def element (elemBits : ℕ) (bits : List Bool) (i : ℤ) : List Bool := (bits.drop (i.toNat * elemBits)).take elemBits

def padToByte (bits : List Bool) : List Bool := bits ++ List.replicate ((8 - bits.length % 8) % 8) false

def transformRaw (elemBits : ℕ) (order : DimsOrder) (input : RawConstant) : TransformAttr → RawConstant
  | .subView offset shape =>
    let inMemShape := order.toMemoryOrder input.shape
    let outMemShape := order.toMemoryOrder shape
    let memOffset := order.toMemoryOrder offset
    ⟨shape, padToByte ((List.range shape.prod.toNat).flatMap fun (outMemInd1D : ℕ) =>
      element elemBits input.bits
        (getMemIndex1D (shift (getMemIndexND outMemInd1D outMemShape) memOffset) inMemShape))⟩
  | .reshape shape => ⟨shape, input.bits⟩
  | _ => input

def foldConstant (bits : List Bool) (c : FusedConstant × List TransformAttr) : List Bool :=
  (c.2.foldl (transformRaw c.1.elemBits c.1.type.dimsOrder) ⟨c.1.type.shape, bits⟩).bits

def appendContentToVector (out : List (Option Bool) × ℕ) (bits : List Bool) : Option (List (Option Bool) × ℕ) :=
  if out.2 + bits.length ≤ out.1.length then
    some (out.1.take out.2 ++ bits.map some ++ out.1.drop (out.2 + bits.length), out.2 + bits.length)
  else none

namespace FuseWeights

variable {γ : Type}

def fusedBits (fuse : FuseWeights γ) : ℕ := (fuse.fusedShape.prod * fuse.fusedElemTypeSize * 8).toNat

def appendOperand (fuse : FuseWeights γ) (content : FusedOperand → γ → List Bool) (out : List (Option Bool) × ℕ)
    (operand : FusedOperand) : Option (List (Option Bool) × ℕ) :=
  match fuse.constant operand with
  | none => some out
  | some c => appendContentToVector out (content operand c)

def transform (fuse : FuseWeights γ) (content : FusedOperand → γ → List Bool) : Option (List (Option Bool)) :=
  ([.weightsTable, .weights, .sparsity, .activations].foldlM (fuse.appendOperand content)
    (List.replicate fuse.fusedBits none, 0)).map (·.1)

end FuseWeights

def getOverlapRegionBounds (constantStart constantEnd subViewStart subViewEnd : ℤ) : ℤ × ℤ :=
  if constantStart < constantEnd ∧ subViewStart < subViewEnd ∧
      (constantStart ≤ subViewStart ∧ subViewStart < constantEnd ∨
        constantStart < subViewEnd ∧ subViewEnd < constantEnd) then
    (toInt (if constantStart ≤ subViewStart then subViewStart else constantStart),
      toInt (if constantEnd ≤ subViewEnd then constantEnd else subViewEnd))
  else (0, 0)

/-- The innermost dimension, below `dims`, whose block holds `flatEnd` elements, and the size of the block below it. -/
def findDimensionToSlice (originalShape : List ℤ) (flatEnd : ℤ) : ℕ → ℤ → Option (ℕ × ℤ)
  | 0, _ => none
  | dim + 1, previousDimsStride =>
    let numOfElems := previousDimsStride * entry originalShape dim
    if flatEnd ≤ numOfElems then some (dim, previousDimsStride)
    else findDimensionToSlice originalShape flatEnd dim numOfElems

structure NonFlatSubView where
  offset : List ℤ
  shape : List ℤ
  coveredOffset : ℤ

def getNonFlatSubViewOffsetAndShape (originalShape : List ℤ) (flatOffset flatNumOfElems : ℤ) :
    Option NonFlatSubView := do
  let (dimensionToSlice, previousDimsStride) ←
    findDimensionToSlice originalShape (flatNumOfElems + flatOffset) originalShape.length 1
  let offset := flatOffset / previousDimsStride
  let coveredDims := -(-(flatNumOfElems + flatOffset) / previousDimsStride)
  return {
    offset := (List.replicate originalShape.length 0).set dimensionToSlice offset
    shape := List.replicate dimensionToSlice 1 ++ (coveredDims - offset) :: originalShape.drop (dimensionToSlice + 1)
    coveredOffset := offset * previousDimsStride }

def unsqueezed (rank : ℕ) (fill value : ℤ) : List ℤ := (List.replicate rank fill).set (rank - 1) value

/-- The transformations that leave the elements of a flat range: the rows that hold it, then the range itself where the
rows have more elements. -/
def sliceConstant (constant : FusedConstant) (flatSubViewOffset flatSubViewShape : ℤ) : Option (List TransformAttr) :=
  (getNonFlatSubViewOffsetAndShape constant.type.shape (toInt flatSubViewOffset) (toInt flatSubViewShape)).map
    fun nonFlat =>
      let subView := if nonFlat.shape = constant.type.shape then [] else [.subView nonFlat.offset nonFlat.shape]
      let flatNumOfElems :=
        toInt ((getTotalAllocSize nonFlat.shape constant.elemBits * 8).tdiv (constant.elemBits : ℤ))
      let rank := constant.type.getRank
      let flat :=
        if flatNumOfElems = flatSubViewShape ∧ flatSubViewOffset - nonFlat.coveredOffset = 0 then []
        else [.reshape (unsqueezed rank 1 flatNumOfElems),
          .subView (unsqueezed rank 0 (flatSubViewOffset - nonFlat.coveredOffset)) (unsqueezed rank 1 flatSubViewShape)]
      subView ++ flat

/-- The transformations that cut a constant at `constantStart` to the SubView. The inner option is a null constant. -/
def getNewConstant (subViewStart subViewEnd : ℤ) (constant : FusedConstant) (constantStart : ℤ) :
    Option (Option (List TransformAttr)) :=
  let bounds := getOverlapRegionBounds constantStart (constantStart + constant.byteSize) subViewStart subViewEnd
  if bounds.1 = 0 ∧ bounds.2 = 0 then some none
  else
    (sliceConstant constant (((bounds.1 - constantStart) * 8).tdiv (constant.elemBits : ℤ))
      (((bounds.2 - bounds.1) * 8).tdiv (constant.elemBits : ℤ))).map some

namespace FuseWeights

def operandSize (fuse : FuseWeights FusedConstant) (operand : FusedOperand) : ℤ :=
  (fuse.constant operand).elim 0 FusedConstant.byteSize

def getNewOperand (fuse : FuseWeights FusedConstant) (subViewStart subViewEnd : ℤ) (operand : FusedOperand)
    (constantStart : ℤ) : Option (Option (FusedConstant × List TransformAttr)) :=
  match fuse.constant operand with
  | none => some none
  | some c => (getNewConstant subViewStart subViewEnd c constantStart).map (·.map (c, ·))

def nonSparse {γ : Type} (weightsTable weights activations : Option γ) : FusedOperand → Option γ
  | .weightsTable => weightsTable
  | .weights => weights
  | .sparsity => none
  | .activations => activations

def moveSubViewIntoFuse (fuse : FuseWeights FusedConstant) (subViewOffset subViewShape : List ℤ) :
    Option (Option (FuseWeights (FusedConstant × List TransformAttr))) :=
  if (fuse.constant .sparsity).isSome then some none
  else if fuse.fusedShape.length ≠ 4 ∨ subViewOffset.length ≠ 4 ∨ subViewShape.length ≠ 4 then some none
  else if ∃ dim < 3, entry fuse.fusedShape dim ≠ 1 ∨ entry subViewOffset dim ≠ 0 ∨ entry subViewShape dim ≠ 1 then
    some none
  else do
    let subViewStart := entry subViewOffset 3 * fuse.fusedElemTypeSize
    let subViewEnd := subViewStart + entry subViewShape 3 * fuse.fusedElemTypeSize
    let weightsEnd := fuse.operandSize .weightsTable + fuse.operandSize .weights
    let newWeightsTable ← fuse.getNewOperand subViewStart subViewEnd .weightsTable 0
    let newWeights ← fuse.getNewOperand subViewStart subViewEnd .weights (fuse.operandSize .weightsTable)
    let newActivations ← fuse.getNewOperand subViewStart subViewEnd .activations weightsEnd
    return some ⟨subViewShape, fuse.fusedElemTypeSize, nonSparse newWeightsTable newWeights newActivations⟩

end FuseWeights

end NpuCompiler.Const
