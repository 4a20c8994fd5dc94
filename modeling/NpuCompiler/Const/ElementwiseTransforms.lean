import NpuCompiler.Const.ContentTransforms

namespace NpuCompiler.Const

open MixedRadix TensorType

structure ElementTypes (R : Type) where
  expressedType : String → String
  /-- The conversions that `ConvertElemTypeAttr` supports. -/
  convertElement : String → String → Option (R → R)
  getValueRangeOffset : ElemType → ElemType → List R
  /-- `dequantize`, or `dequantizeDouble` of the quantile that the element selects. -/
  dequantize : String → QuantParam → R → R

def ElemType.isQuantizedType : ElemType → Bool
  | .uniformQuantized _ _ => true
  | .uniformQuantizedPerAxis _ _ _ => true
  | _ => false

def ElemType.quantizedAxis : ElemType → Option ℕ
  | .uniformQuantizedPerAxis _ quantizedDimension _ => some quantizedDimension
  | _ => none

inductive ConstTransformAttr (R : Type)
  | basic (attr : TransformAttrInterface R)
  | convertElemType (elemType : ElemType)
  | dequantize
  | changeShapeAndElemType (shape : List ℤ) (elemType : ElemType)

namespace ConstTransformAttr

variable {R : Type} (types : ElementTypes R)

def inferOutputType : ConstTransformAttr R → TensorType → Option TensorType
  | basic attr, input => attr.inferOutputType input
  | convertElemType elemType, input => input.changeElemType elemType
  | dequantize, input =>
    match input.elemType with
    | .uniformQuantized name _ => input.changeElemType (.number (types.expressedType name))
    | .uniformQuantizedPerAxis name _ _ => input.changeElemType (.number (types.expressedType name))
    | _ => none
  | changeShapeAndElemType shape elemType, input => do
    let output ← (TransformAttr.changeShapeAndElemType shape).inferOutputType input.toNDType
    withElemType output elemType

section

def getValue (content : ConstContent R) (idx : ℤ) : Option R :=
  (content.storage[if content.isSplat then 0 else idx.toNat]?).join

def dequantizePerAxis (output : TensorType) (input : ConstContent R) (name : String) (quantizedDimension : ℕ)
    (params : List QuantParam) : Option (ConstContent R) :=
  let memAxis := input.type.dimsOrder.dimPos quantizedDimension
  let memShape := input.type.getMemShape
  let innerSize := (memShape.drop (memAxis + 1)).prod
  let quantAxisSize := entry memShape memAxis
  let quantAxisTotalSize := quantAxisSize * innerSize
  let outerSize := memShape.prod / quantAxisTotalSize
  if innerSize = 0 ∨ quantAxisSize = 0 ∨ outerSize = 0 then none
  else if (params.length : ℤ) ≠ quantAxisSize then none
  else some ⟨output, false, TransformAttrInterface.sizeOfFloat,
    (natRange outerSize).flatMap fun outerInd => (natRange quantAxisSize).flatMap fun quantAxisInd =>
      (natRange innerSize).map fun innerInd => do
        let param ← params[quantAxisInd.toNat]?
        let qVal ← getValue input (outerInd * quantAxisTotalSize + quantAxisInd * innerSize + innerInd)
        some (types.dequantize name param qVal)⟩

def dequantizeContent (output : TensorType) (input : ConstContent R) : Option (ConstContent R) :=
  match input.type.elemType with
  | .uniformQuantized name param => some ⟨output, input.isSplat, TransformAttrInterface.sizeOfFloat,
      input.storage.map fun value => value.map (types.dequantize name param)⟩
  | .uniformQuantizedPerAxis name quantizedDimension params =>
    dequantizePerAxis types output input name quantizedDimension params
  | _ => none

def convertContent [CommRing R] (output : TensorType) (input : ConstContent R) : Option (ConstContent R) :=
  if input.type.elemType.isQuantizedType ∧ output.elemType.isQuantizedType then
    let bias := match types.getValueRangeOffset input.type.elemType output.elemType with
      | [offset] => AddBias.bias offset
      | offsets => AddBias.biasArray offsets
    some ⟨output, input.isSplat, TransformAttrInterface.sizeOfFloat, TransformAttrInterface.addBias input.storage bias⟩
  else
    match input.type.elemType, output.elemType with
    | .number name, .number outName => do
      let convert ← types.convertElement name outName
      some ⟨output, input.isSplat, 1, input.storage.map fun value => value.map convert⟩
    | _, _ => none

def transform [CommRing R] (attr : ConstTransformAttr R) (input : ConstContent R) : Option (ConstContent R) :=
  match attr with
  | basic attr => attr.transform input
  | attr => do
    let output ← attr.inferOutputType types input.type
    match attr with
    | basic attr => attr.transform input
    | convertElemType _ => convertContent types output input
    | dequantize => dequantizeContent types output input
    | changeShapeAndElemType _ _ => some (input.moveBuffer output)

end

def inferFinalType (baseType : TensorType) (transformations : List (ConstTransformAttr R)) : Option TensorType :=
  transformations.foldlM (fun type attr => attr.inferOutputType types type) baseType

def foldContent [CommRing R] (transformations : List (ConstTransformAttr R)) (base : ConstContent R) :
    Option (ConstContent R) :=
  transformations.foldlM (fun content attr => attr.transform types content) base

end ConstTransformAttr

section
variable {R : Type} (types : ElementTypes R)

/-- `remaining` is one more than the source's `newDim`, which starts at the last dimension and ends at `-1`. -/
def seekQuantizationDim (size inputLowerDimsSize : ℤ) (outputShape : List ℤ) : ℕ → ℤ → Option ℕ
  | 0, _ => none
  | newDim + 1, outputLowerDimsSize =>
    let outputLowerDimsSize := outputLowerDimsSize * entry outputShape newDim
    if inputLowerDimsSize ≤ outputLowerDimsSize then
      if outputLowerDimsSize = inputLowerDimsSize ∧ entry outputShape newDim = size then some newDim else none
    else seekQuantizationDim size inputLowerDimsSize outputShape newDim outputLowerDimsSize

def getNewQuantizationDim (dim : ℕ) (inputShape outputShape : List ℤ) : Option ℕ :=
  seekQuantizationDim (entry inputShape dim) (inputShape.drop dim).prod outputShape outputShape.length 1

def prepareDequantizeSwap (outputShape : List ℤ) (dequantizeInputType : TensorType) : Option (ConstTransformAttr R) :=
  match dequantizeInputType.elemType with
  | .uniformQuantizedPerAxis name dim params => do
    let newDim ← getNewQuantizationDim dim dequantizeInputType.shape outputShape
    some (.changeShapeAndElemType outputShape (.uniformQuantizedPerAxis name newDim params))
  | _ => some (.basic (.reshape outputShape))

def prepareTransformElemTypeSwap (elemType : ElemType) (inputType : TensorType) : Bool :=
  ¬ (inputType.elemType.isQuantizedType ∨ elemType.isQuantizedType)

/-- The transformation that takes the place of a Reshape in front of which it is moved, when it is moved. -/
def reshapeBefore (shape : List ℤ) (prevTransformationInType : TensorType) : ConstTransformAttr R → Option (ConstTransformAttr R)
  | .basic (.add _) => some (.basic (.reshape shape))
  | .basic (.rescale (.splat _)) => some (.basic (.reshape shape))
  | .basic (.castElemType elemType) =>
    if prepareTransformElemTypeSwap elemType prevTransformationInType then some (.basic (.reshape shape)) else none
  | .convertElemType elemType =>
    if prepareTransformElemTypeSwap elemType prevTransformationInType then some (.basic (.reshape shape)) else none
  | .dequantize => prepareDequantizeSwap shape prevTransformationInType
  | _ => none

def isMovedOver : ConstTransformAttr R → Bool
  | .basic (.add _) => true
  | .basic (.rescale _) => true
  | .basic (.castElemType _) => true
  | .convertElemType _ => true
  | .dequantize => true
  | _ => false

def moveReshapeBefore (transformations : List (ConstTransformAttr R)) (currPos : ℕ) (baseType : TensorType) :
    Option (List (ConstTransformAttr R) × ℕ × Bool) :=
  if currPos = 0 ∨ currPos = transformations.length then some (transformations, currPos, false)
  else
    match transformations[currPos - 1]?, transformations[currPos]? with
    | some prevTransformation, some (.basic (.reshape shape)) =>
      if isMovedOver prevTransformation then do
        let prevTransformationInType ← ConstTransformAttr.inferFinalType types baseType (transformations.take (currPos - 1))
        match reshapeBefore shape prevTransformationInType prevTransformation with
        | none => some (transformations, currPos, false)
        | some newReshape =>
          some ((transformations.set (currPos - 1) newReshape).set currPos prevTransformation, currPos - 1, true)
      else some (transformations, currPos, false)
    | _, _ => some (transformations, currPos, false)

/-- What happens to one element: the bias that is added, the factor, or the scale and zero point it is dequantized with. -/
inductive ElementOp (R : Type)
  | shift (bias : Option R)
  | rescale (factor : Option R)
  | convert (elemType newElemType : ElemType)
  | dequantize (name : String) (param : Option QuantParam)

def elementOp (input : TensorType) (idx : ℤ) : ConstTransformAttr R → Option (ElementOp R)
  | .basic (.add (.bias bias)) => some (.shift (some bias))
  | .basic (.add (.biasArray biasArray)) => some (.shift biasArray[idx.toNat % biasArray.length]?)
  | .basic (.rescale (.splat scale)) => some (.rescale (some scale))
  | .basic (.rescale (.values scales)) => some (.rescale scales[idx.toNat]?)
  | .convertElemType elemType => some (.convert input.elemType elemType)
  | .dequantize =>
    match input.elemType with
    | .uniformQuantized name param => some (.dequantize name (some param))
    | .uniformQuantizedPerAxis name quantizedDimension params => some (.dequantize name
        params[(idx / strideOf input.toNDType quantizedDimension % entry input.shape quantizedDimension).toNat]?)
    | _ => none
  | _ => none

def elementOps (types : ElementTypes R) (idx : ℤ) : List (ConstTransformAttr R) → TensorType → Option (List (ElementOp R))
  | [], _ => some []
  | attr :: rest, input => do
    let output ← attr.inferOutputType types input
    let ops ← elementOps types idx rest output
    some ((elementOp input idx attr).toList ++ ops)

structure SamePair [CommRing R] (types : ElementTypes R) (input : TensorType) (original rewritten : List (ConstTransformAttr R)) :
    Prop where
  finalType : ConstTransformAttr.inferFinalType types input rewritten = ConstTransformAttr.inferFinalType types input original
  ops : ∀ idx, 0 ≤ idx → idx < input.shape.prod → elementOps types idx rewritten input = elementOps types idx original input
  content : ∀ content : ConstContent R, content.type = input → content.WellSized →
    ConstTransformAttr.foldContent types rewritten content = ConstTransformAttr.foldContent types original content

end

end NpuCompiler.Const
