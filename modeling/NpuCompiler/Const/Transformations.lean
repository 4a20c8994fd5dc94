import NpuCompiler.Const.DimsOrder

namespace NpuCompiler.Const

open MixedRadix

inductive TransformAttr
  | reorder (order : DimsOrder)
  | transpose (order : DimsOrder)
  | memPermute (dstOrder memPerm : DimsOrder)
  | reshape (shape : List ℤ)
  | changeShapeAndElemType (shape : List ℤ)
  | padWithZero (padBefore padAfter : List ℤ)
  | subView (offset shape : List ℤ)
  deriving DecidableEq

namespace TransformAttr

def inferOutputType : TransformAttr → NDType → Option NDType
  | reorder order, input => if order.numDims = input.getRank then input.changeDimsOrder order else none
  | transpose order, input =>
    if order.numDims = input.getRank then input.changeShape (order.toMemoryOrder input.shape) else none
  | memPermute dstOrder memPerm, input =>
    if dstOrder.numDims ≠ input.getRank ∨ memPerm.numDims ≠ input.getRank then none
    else do
      let outMemShape := memPerm.toMemoryOrder input.getMemShape
      let outShape := dstOrder.toLogicalOrder outMemShape
      (← input.changeDimsOrder dstOrder).changeShape outShape
  | reshape shape, input => input.changeShape shape
  | changeShapeAndElemType shape, input => input.changeShape shape
  | padWithZero padBefore padAfter, input => input.pad padBefore padAfter
  | subView _ shape, input => if shape.length = input.getRank then input.extractDenseTile shape else none

def moveBuffer (input output : NDType) (coord : List ℤ) : List ℤ :=
  let memIndex1D := getMemIndex1D (output.dimsOrder.toMemoryOrder coord) output.getMemShape
  input.dimsOrder.toLogicalOrder (getMemIndexND memIndex1D input.getMemShape)

def source : TransformAttr → NDType → NDType → List ℤ → Option (List ℤ)
  | reorder _, _, _, coord => some coord
  | transpose order, _, _, coord => some (order.toLogicalOrder coord)
  | memPermute dstOrder memPerm, input, _, coord =>
    some (input.dimsOrder.toLogicalOrder (memPerm.toLogicalOrder (dstOrder.toMemoryOrder coord)))
  | reshape _, input, output, coord => some (moveBuffer input output coord)
  | changeShapeAndElemType _, input, output, coord => some (moveBuffer input output coord)
  | padWithZero padBefore _, input, _, coord =>
    if ∀ i < input.getRank, entry padBefore i ≤ entry coord i ∧ entry coord i < entry padBefore i + entry input.shape i
    then some (List.zipWith (· - ·) coord padBefore) else none
  | subView offset _, _, _, coord => some (shift coord offset)

/-- The attribute is in range for its input: the tile lies inside, a buffer is kept whole, no padding is negative. -/
def InRange : TransformAttr → NDType → Prop
  | subView offset shape, input => Fits input.shape offset shape
  | padWithZero padBefore padAfter, _ => (∀ p ∈ padBefore, 0 ≤ p) ∧ ∀ p ∈ padAfter, 0 ≤ p
  | reshape shape, input => shape.prod = input.shape.prod
  | changeShapeAndElemType shape, input => shape.prod = input.shape.prod
  | _, _ => True

end TransformAttr

def inferOutputTypes (transformations : List TransformAttr) (baseType : NDType) : Option NDType :=
  transformations.foldlM (fun type attr => attr.inferOutputType type) baseType

structure Content (α : Type) where
  type : NDType
  value : List ℤ → α

namespace Content

variable {α : Type}

def transform (zero : α) (input : Content α) (attr : TransformAttr) : Option (Content α) :=
  (attr.inferOutputType input.type).map fun output =>
    ⟨output, fun coord => ((attr.source input.type output coord).map input.value).getD zero⟩

def fold (zero : α) (transformations : List TransformAttr) (base : Content α) : Option (Content α) :=
  transformations.foldlM (transform zero) base

def Same (content other : Content α) : Prop :=
  content.type = other.type ∧ ∀ coord, InBox content.type.shape coord → content.value coord = other.value coord

end Content

structure SliceState where
  /-- One more than the source's `inputDim`, which starts at the last dimension and ends at `-1`. -/
  inputDims : ℕ
  inputLowerDimsSize : ℤ
  outputLowerDimsSize : ℤ
  newOffset : List ℤ
  newShape : List ℤ

section
variable (reshapeInput reshapeOutput subViewOffset subViewShape : List ℤ)

def isDimSliced (outputDim : ℕ) : Prop :=
  0 < entry subViewOffset outputDim ∨ entry subViewShape outputDim < entry reshapeOutput outputDim

instance (outputDim : ℕ) : Decidable (isDimSliced reshapeOutput subViewOffset subViewShape outputDim) :=
  inferInstanceAs (Decidable (_ ∨ _))

def seekInputDim (outputSize outputLowerDimsSize : ℤ) : ℕ → ℤ → ℕ × ℤ
  | 0, inputLowerDimsSize => (0, inputLowerDimsSize)
  | inputDim + 1, inputLowerDimsSize =>
    if entry reshapeInput inputDim = outputSize ∧ inputLowerDimsSize = outputLowerDimsSize then
      (inputDim + 1, inputLowerDimsSize)
    else seekInputDim outputSize outputLowerDimsSize inputDim (inputLowerDimsSize * entry reshapeInput inputDim)

def sliceInputDim (outputDim : ℕ) (st : SliceState) : Option SliceState :=
  if ¬isDimSliced reshapeOutput subViewOffset subViewShape outputDim then
    some { st with outputLowerDimsSize := st.outputLowerDimsSize * entry reshapeOutput outputDim }
  else
    match seekInputDim reshapeInput (entry reshapeOutput outputDim) st.outputLowerDimsSize st.inputDims
      st.inputLowerDimsSize with
    | (0, _) => none
    | (inputDim + 1, inputLowerDimsSize) =>
      if entry reshapeInput inputDim ≠ entry reshapeOutput outputDim ∨
          inputLowerDimsSize ≠ st.outputLowerDimsSize then none
      else some
        { inputDims := inputDim + 1
          inputLowerDimsSize := inputLowerDimsSize
          outputLowerDimsSize := st.outputLowerDimsSize * entry reshapeOutput outputDim
          newOffset := st.newOffset.set inputDim (entry subViewOffset outputDim)
          newShape := st.newShape.set inputDim (entry subViewShape outputDim) }

def sliceInputDims : ℕ → SliceState → Option SliceState
  | 0, st => some st
  | outputDim + 1, st =>
    (sliceInputDim reshapeInput reshapeOutput subViewOffset subViewShape outputDim st).bind
      (sliceInputDims outputDim)

def sliceInputShape : Option (List ℤ × List ℤ) :=
  (sliceInputDims reshapeInput reshapeOutput subViewOffset subViewShape reshapeOutput.length
    { inputDims := reshapeInput.length
      inputLowerDimsSize := 1
      outputLowerDimsSize := 1
      newOffset := List.replicate reshapeInput.length 0
      newShape := reshapeInput }).map fun st => (st.newOffset, st.newShape)

end

open TransformAttr

abbrev SwappedPair : Type := TransformAttr × TransformAttr

def prepareTransposeSwap (order : DimsOrder) (offset shape : List ℤ) : SwappedPair :=
  let write := fun (values : List ℤ) =>
    (List.range shape.length).foldl (fun new idx => new.set (order.dimAt idx) (entry values idx))
      (List.replicate values.length 0)
  (transpose order, subView (write offset) (write shape))

def inversePermutation (map : List ℕ) : List ℕ := (List.range map.length).map fun d => map.idxOf d

def compose (f g : List ℕ) : List ℕ := f.map fun d => g.getD d 0

def prepareMemPermuteSwap (dstOrder memPerm : DimsOrder) (offset shape : List ℤ) (memPermuteInputType : NDType) :
    SwappedPair :=
  let outputLayoutPermutation := dstOrder.perm
  let reverseMemPermLayout := inversePermutation memPerm.perm
  let reverseInputLayout := inversePermutation memPermuteInputType.dimsOrder.perm
  let combinedPermutation := compose (compose reverseInputLayout reverseMemPermLayout) outputLayoutPermutation
  let read := fun (values : List ℤ) =>
    (List.range shape.length).map fun idx => entry values (combinedPermutation.getD idx 0)
  (memPermute dstOrder memPerm, subView (read offset) (read shape))

def prepareReshapeSwap (newShape offset shape : List ℤ) (reshapeInputType : NDType) : Option (Option SwappedPair) := do
  let reshapeOutputType ← (reshape newShape).inferOutputType reshapeInputType
  let reshapeInOrder := reshapeInputType.dimsOrder
  let reshapeOrder := reshapeOutputType.dimsOrder
  match sliceInputShape reshapeInputType.getMemShape reshapeOutputType.getMemShape (reshapeOrder.toMemoryOrder offset)
    (reshapeOrder.toMemoryOrder shape) with
  | none => some none
  | some (newMemOffset, newMemShape) =>
    some (some (reshape shape, subView (reshapeInOrder.toLogicalOrder newMemOffset)
      (reshapeInOrder.toLogicalOrder newMemShape)))

def prepareChangeShapeSwap (changeShapeOutput offset shape : List ℤ) (changeShapeInputType : NDType) :
    Option (Option SwappedPair) :=
  match sliceInputShape changeShapeInputType.shape changeShapeOutput offset shape with
  | none => some none
  | some (newOffset, newShape) => do
    let outputType ← (changeShapeAndElemType changeShapeOutput).inferOutputType changeShapeInputType
    let outputType ← (subView offset shape).inferOutputType outputType
    some (some (changeShapeAndElemType outputType.shape, subView newOffset newShape))

structure PadDim where
  padBefore : ℤ
  padAfter : ℤ
  offset : ℤ
  shape : ℤ

def preparePadDim (inputDim padBefore padAfter offset shape : ℤ) : Option PadDim :=
  let subviewUpperBound := offset + shape
  let subviewLowerBound := offset
  let paddedShape := padBefore + inputDim + padAfter
  if subviewLowerBound ≥ padBefore + inputDim ∨ subviewUpperBound ≤ padBefore then none
  else
    let newPadBefore := if subviewLowerBound < padBefore then padBefore - offset else 0
    let newOffset := if subviewLowerBound < padBefore then 0 else offset - padBefore
    let newPadAfter := if subviewUpperBound > padBefore + inputDim then padAfter - (paddedShape - subviewUpperBound) else 0
    some ⟨newPadBefore, newPadAfter, newOffset, shape - newPadBefore - newPadAfter⟩

def preparePadWithZeroSwap (padBefore padAfter offset shape : List ℤ) (padWithZeroInputType : NDType) :
    Option SwappedPair := do
  let dims ← (List.range shape.length).mapM fun idx =>
    preparePadDim (entry padWithZeroInputType.shape idx) (entry padBefore idx) (entry padAfter idx) (entry offset idx)
      (entry shape idx)
  some (padWithZero (dims.map PadDim.padBefore) (dims.map PadDim.padAfter),
    subView (dims.map PadDim.offset) (dims.map PadDim.shape))

def prepareSwap (prevTransformation : TransformAttr) (offset shape : List ℤ) (inType : NDType) :
    Option (Option SwappedPair) :=
  match prevTransformation with
  | reorder order => some (some (reorder order, subView offset shape))
  | transpose order => some (some (prepareTransposeSwap order offset shape))
  | memPermute dstOrder memPerm => some (some (prepareMemPermuteSwap dstOrder memPerm offset shape inType))
  | reshape newShape => prepareReshapeSwap newShape offset shape inType
  | changeShapeAndElemType newShape => prepareChangeShapeSwap newShape offset shape inType
  | padWithZero padBefore padAfter => some (preparePadWithZeroSwap padBefore padAfter offset shape inType)
  | subView _ _ => some none

def isPadWithZero : TransformAttr → Bool
  | padWithZero _ _ => true
  | _ => false

def removeRedundantSwap (transformations : List TransformAttr) (currPos : ℕ) (inType : NDType) :
    Option (List TransformAttr × ℕ × Bool) := do
  let subViewPos := currPos - 1
  let subViewAttr ← transformations[subViewPos]?
  let outputType ← subViewAttr.inferOutputType inType
  let subViewFolded := decide (outputType = inType)
  let transformations := if subViewFolded then transformations.eraseIdx subViewPos else transformations
  let padWithZeroPos := if subViewFolded then subViewPos else currPos
  let padWithZeroAttr ← transformations[padWithZeroPos]?
  let outputType ← padWithZeroAttr.inferOutputType inType
  let transformations := if outputType = inType then transformations.eraseIdx padWithZeroPos else transformations
  if subViewFolded then some (transformations, transformations.length, true)
  else some (transformations, padWithZeroPos - 1, true)

def moveSubViewBefore (transformations : List TransformAttr) (currPos : ℕ) (baseType : NDType) :
    Option (List TransformAttr × ℕ × Bool) :=
  if currPos = 0 ∨ currPos = transformations.length then some (transformations, currPos, false)
  else
    match transformations[currPos - 1]?, transformations[currPos]? with
    | some (subView _ _), some _ => some (transformations, currPos, false)
    | some prevTransformation, some (subView offset shape) => do
      let inType ← inferOutputTypes (transformations.take (currPos - 1)) baseType
      match ← prepareSwap prevTransformation offset shape inType with
      | none => some (transformations, currPos, false)
      | some (newTransformation, newSubView) =>
        let swapped := (transformations.set (currPos - 1) newSubView).set currPos newTransformation
        if isPadWithZero prevTransformation then removeRedundantSwap swapped currPos inType
        else some (swapped, currPos - 1, true)
    | _, _ => some (transformations, currPos, false)

end NpuCompiler.Const
