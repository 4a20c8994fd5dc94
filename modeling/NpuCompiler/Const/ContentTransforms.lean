import NpuCompiler.Const.LogicalLayout
import NpuCompiler.Const.TensorTypes

namespace NpuCompiler.Const

open MixedRadix TensorType

structure ConstContent (R : Type) where
  type : TensorType
  isSplat : Bool
  storageElemSize : ℕ
  storage : List (Option R)

namespace ConstContent

variable {R : Type}

def tempBufSize (isSplat : Bool) (type : TensorType) : ℕ := if isSplat then 1 else type.shape.prod.toNat

def WellSized (content : ConstContent R) : Prop :=
  content.storage.length = tempBufSize content.isSplat content.type

def moveBuffer (type : TensorType) (other : ConstContent R) : ConstContent R := { other with type := type }

end ConstContent

structure TransformMethods (R : Type) where
  inferOutputType : TensorType → Option TensorType
  transform : ConstContent R → Option (ConstContent R)
  infers : ∀ input output, transform input = some output → inferOutputType input.type = some output.type
  wellSized : ∀ input output, transform input = some output → input.WellSized → output.WellSized

/-- `getBias` is null when the attribute holds an array, and the other way round. -/
inductive AddBias (R : Type)
  | bias (value : R)
  | biasArray (values : List R)

/-- The folded scale, in the order of memory. -/
inductive RescaleScale (R : Type)
  | splat (value : R)
  | values (values : List R)

inductive TransformAttrInterface (R : Type)
  | subView (offset shape : List ℤ)
  | add (bias : AddBias R)
  | rescale (scale : RescaleScale R)
  | reshape (shape : List ℤ)
  | reorder (order : DimsOrder)
  | memPermute (dstOrder memPerm : DimsOrder)
  | transpose (order : DimsOrder)
  | castElemType (elemType : ElemType)
  | other (methods : TransformMethods R)

section

def subViewIndices (order : DimsOrder) (inShape outShape offset : List ℤ) : List ℤ :=
  let inMemShape := order.toMemoryOrder inShape
  let outMemShape := order.toMemoryOrder outShape
  let memOffset := order.toMemoryOrder offset
  (natRange outShape.prod).map fun outMemInd1D =>
    getMemIndex1D (shift (getMemIndexND outMemInd1D outMemShape) memOffset) inMemShape

def subViewStorage {α : Type} (storage : List (Option α)) (inds : List ℤ) : Option (List (Option α)) :=
  inds.mapM fun inMemInd1D => do
    let ind ← checkedIndex storage inMemInd1D
    some (storage[ind]?).join

end

namespace TransformAttrInterface

variable {R : Type}

def inferOutputType : TransformAttrInterface R → TensorType → Option TensorType
  | subView offset shape, input => do
    let output ← (TransformAttr.subView offset shape).inferOutputType input.toNDType
    withElemType output (← input.elemType.tileScalesAndZP offset shape)
  | add _, input => some input
  | rescale _, input => some input
  | reshape shape, input => do
    let output ← (TransformAttr.reshape shape).inferOutputType input.toNDType
    withElemType output (input.elemType.changeAxis (ElemType.reshapedAxis input.shape shape))
  | reorder order, input => do
    let output ← (TransformAttr.reorder order).inferOutputType input.toNDType
    withElemType output input.elemType
  | memPermute dstOrder memPerm, input => do
    let output ← (TransformAttr.memPermute dstOrder memPerm).inferOutputType input.toNDType
    withElemType output (input.elemType.changeAxis fun origAxis =>
      dstOrder.dimAt (memPerm.dimPos (input.dimsOrder.dimPos origAxis)))
  | transpose order, input => do
    let output ← (TransformAttr.transpose order).inferOutputType input.toNDType
    withElemType output (input.elemType.changeAxis fun inQuantizeDim =>
      order.dimPos (input.dimsOrder.dimAt inQuantizeDim))
  | castElemType elemType, input => input.changeElemType elemType
  | other methods, input => methods.inferOutputType input

def transformLayout (attr : TransformAttr) (output : TensorType) (input : ConstContent R) :
    Option (ConstContent R) := do
  let result ← attr.transformLayout input.storageElemSize ⟨input.type.toNDType, input.isSplat, input.storage⟩
  some ⟨output, result.isSplat, input.storageElemSize, result.storage⟩

section
variable [CommRing R]

def sizeOfFloat : ℕ := 4

def addBias (values : List (Option R)) : AddBias R → List (Option R)
  | .bias bias => values.map fun value => value.map (· + bias)
  | .biasArray biasArray => values.mapIdx fun i value => do
    let bias ← biasArray[i % biasArray.length]?
    some ((← value) + bias)

def multiplyTensorByScalar (src : List (Option R)) (splat : R) : List (Option R) :=
  src.map fun value => value.map (· * splat)

def rescaleContent (output : TensorType) (input : ConstContent R) : RescaleScale R → Option (ConstContent R)
  | .splat scale => some ⟨output, input.isSplat, sizeOfFloat, multiplyTensorByScalar input.storage scale⟩
  | .values scales =>
    if scales.length ≠ output.shape.prod.toNat then none
    else if input.isSplat then do
      let scaled := fun (scale : R) => ((input.storage[0]?).join).map (scale * ·)
      some ⟨output, false, sizeOfFloat, scales.map scaled⟩
    else if scales.length ≠ input.storage.length then none
    else some ⟨output, false, sizeOfFloat,
      List.zipWith (fun value scale => value.map (· * scale)) input.storage scales⟩

def transform (attr : TransformAttrInterface R) (input : ConstContent R) : Option (ConstContent R) := do
  let output ← attr.inferOutputType input.type
  match attr with
  | subView offset _ =>
    if input.isSplat then some (input.moveBuffer output)
    else do
      let storage ← subViewStorage input.storage
        (subViewIndices input.type.dimsOrder input.type.shape output.shape offset)
      some ⟨output, false, input.storageElemSize, storage⟩
  | add bias => some ⟨output, input.isSplat, sizeOfFloat, addBias input.storage bias⟩
  | rescale scale => rescaleContent output input scale
  | reshape _ => some (input.moveBuffer output)
  | reorder order => transformLayout (.reorder order) output input
  | memPermute dstOrder memPerm => transformLayout (.memPermute dstOrder memPerm) output input
  | transpose order => transformLayout (.transpose order) output input
  | castElemType _ => some (input.moveBuffer output)
  | other methods => methods.transform input

end

def InRange : TransformAttrInterface R → TensorType → Prop
  | subView offset shape, input => Fits input.shape offset shape
  | reshape shape, input => shape.prod = input.shape.prod
  | _, _ => True

end TransformAttrInterface

section
variable {R : Type}

def inferFinalType (baseType : TensorType) (transformations : List (TransformAttrInterface R)) : Option TensorType :=
  transformations.foldlM (fun type attr => attr.inferOutputType type) baseType

def foldContent [CommRing R] (transformations : List (TransformAttrInterface R)) (base : ConstContent R) :
    Option (ConstContent R) :=
  transformations.foldlM (fun content attr => attr.transform content) base

/-- Applied to a constant of type `baseType`, every attribute is in range, and the type becomes `finalType`. -/
inductive Reaches : TensorType → List (TransformAttrInterface R) → TensorType → Prop
  | nil {type} : Reaches type [] type
  | cons {type mid final attr rest} : attr.InRange type → attr.inferOutputType type = some mid →
      Reaches mid rest final → Reaches type (attr :: rest) final

def SameFold [CommRing R] (transformations other : List (TransformAttrInterface R)) (baseType : TensorType) : Prop :=
  inferFinalType baseType transformations = inferFinalType baseType other ∧
    ∀ base : ConstContent R, base.type = baseType → base.WellSized →
      foldContent transformations base = foldContent other base

end

end NpuCompiler.Const

namespace NpuCompiler.Const

/-- A null attribute dereferenced, or an exception. -/
inductive Fault
  | nullAttribute
  | exception
  deriving DecidableEq

def orThrow {α : Type} : Option α → Except Fault α
  | some value => .ok value
  | none => .error .exception

section
variable {R : Type}

open TransformAttrInterface

def AddBias.getBias : AddBias R → Option R
  | .bias value => some value
  | .biasArray _ => none

def getValueAsDouble : Option R → Except Fault R
  | some value => .ok value
  | none => .error .nullAttribute

def RescaleScale.getSplatValue : RescaleScale R → Option R
  | .splat value => some value
  | .values _ => none

def tryFusingConsecutiveCasts (currTransformation prevTransformation : ElemType) : Option (TransformAttrInterface R) :=
  if currTransformation.isQuantized ∨ prevTransformation.isQuantized then none
  else some (castElemType currTransformation)

def fuseMemPermuteAndReorder (inType : TensorType) (dstOrder memPerm order : DimsOrder) :
    Except Fault (TransformAttrInterface R) := do
  let reorderInType ← orThrow ((memPermute dstOrder memPerm : TransformAttrInterface R).inferOutputType inType)
  let reorderPerm := getPermutationFromOrders reorderInType.dimsOrder order
  let newMemPerm ← orThrow (DimsOrder.fromAffineMap (compose reorderPerm memPerm.perm))
  .ok (memPermute order newMemPerm)

def fuseReorderAndMemPermute (inType : TensorType) (order dstOrder memPerm : DimsOrder) :
    Except Fault (TransformAttrInterface R) := do
  let reorderPerm := getPermutationFromOrders inType.dimsOrder order
  let newMemPerm ← orThrow (DimsOrder.fromAffineMap (compose memPerm.perm reorderPerm))
  .ok (memPermute dstOrder newMemPerm)

variable [CommRing R]

def fuseTransformations (inType : Option TensorType) :
    TransformAttrInterface R → TransformAttrInterface R → Except Fault (Option (TransformAttrInterface R))
  | subView firstOffset _, subView newOffset shape =>
    .ok (some (subView (MixedRadix.shift newOffset firstOffset) shape))
  | add firstBias, add secondBias => do
    let first ← getValueAsDouble firstBias.getBias
    let second ← getValueAsDouble secondBias.getBias
    .ok (some (add (.bias (first + second))))
  | rescale firstScale, rescale secondScale =>
    match firstScale.getSplatValue, secondScale.getSplatValue with
    | some scaledValueA, some scaledValueB => .ok (some (rescale (.splat (scaledValueA * scaledValueB))))
    | _, _ => .ok none
  | reshape _, reshape shape => .ok (some (reshape shape))
  | reorder _, reorder order => .ok (some (reorder order))
  | memPermute dstOrder memPerm, reorder order => do
    let fused ← fuseMemPermuteAndReorder (← orThrow inType) dstOrder memPerm order
    .ok (some fused)
  | reorder order, memPermute dstOrder memPerm => do
    let fused ← fuseReorderAndMemPermute (← orThrow inType) order dstOrder memPerm
    .ok (some fused)
  | castElemType prevElemType, castElemType currElemType => .ok (tryFusingConsecutiveCasts currElemType prevElemType)
  | _, _ => .ok none

/-- The list, the position to go on from, and whether the list was rewritten. -/
abbrev Rewriting (R : Type) : Type := List (TransformAttrInterface R) × ℕ × Bool

def fuseConsecutiveTransformations (transformations : List (TransformAttrInterface R)) (currPos : ℕ)
    (baseType : TensorType) : Except Fault (Rewriting R) :=
  if currPos = 0 ∨ currPos = transformations.length then .ok (transformations, currPos, false)
  else
    match transformations[currPos - 1]?, transformations[currPos]? with
    | some prevTransformation, some currTransformation => do
      let inType := inferFinalType baseType (transformations.take (currPos - 1))
      match ← fuseTransformations inType prevTransformation currTransformation with
      | some newTransformation =>
        .ok ((transformations.set (currPos - 1) newTransformation).eraseIdx currPos, currPos - 1, true)
      | none => .ok (transformations, currPos, false)
    | _, _ => .ok (transformations, currPos, false)

def isFoldable (inType : Option TensorType) : TransformAttrInterface R → Except Fault Bool
  | reorder order => do
    let inType ← orThrow inType
    let outType ← orThrow ((reorder order : TransformAttrInterface R).inferOutputType inType)
    .ok (decide (outType = inType))
  | memPermute dstOrder memPerm => do
    let inType ← orThrow inType
    let outType ← orThrow ((memPermute dstOrder memPerm : TransformAttrInterface R).inferOutputType inType)
    .ok (decide (outType = inType ∧ memPerm.isIdentity))
  | transpose order => do
    let inType ← orThrow inType
    let outType ← orThrow ((transpose order : TransformAttrInterface R).inferOutputType inType)
    .ok (decide (outType = inType ∧ order.isIdentity))
  | _ => .ok false

def foldTransformation (transformations : List (TransformAttrInterface R)) (currPos : ℕ) (baseType : TensorType) :
    Except Fault (Rewriting R) :=
  match transformations[currPos]? with
  | none => .ok (transformations, currPos, false)
  | some transformation => do
    let foldable ← isFoldable (inferFinalType baseType (transformations.take currPos)) transformation
    if foldable then .ok (transformations.eraseIdx currPos, currPos, true)
    else .ok (transformations, currPos, false)

end

end NpuCompiler.Const
