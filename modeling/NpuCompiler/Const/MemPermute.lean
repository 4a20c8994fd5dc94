import NpuCompiler.Const.Transformations
import NpuCompiler.Library.FoldRules

namespace NpuCompiler.Const

open MixedRadix

namespace DimsOrder

def NCHW : DimsOrder := fromNumDims 4
def NHWC : DimsOrder := ⟨[0, 2, 3, 1], by decide⟩
def NCDHW : DimsOrder := fromNumDims 5
def NDHWC : DimsOrder := ⟨[0, 2, 3, 4, 1], by decide⟩

def fromAffineMap (map : List ℕ) : Option DimsOrder :=
  if h : map.Perm (List.range map.length) then some ⟨map, h⟩ else none

end DimsOrder

def getPermutationFromOrders (inOrder outOrder : DimsOrder) : List ℕ := outOrder.perm.map fun d => inOrder.dimPos d

def isTrivialPermute (inShape : List ℤ) (perm : DimsOrder) : Prop :=
  (perm.perm.filter fun inDim => entry inShape inDim ≠ 1).IsChain (· ≤ ·)

instance (inShape : List ℤ) (perm : DimsOrder) : Decidable (isTrivialPermute inShape perm) :=
  inferInstanceAs (Decidable (List.IsChain _ _))

structure StoredContent (α : Type) where
  type : NDType
  isSplat : Bool
  storage : List (Option α)

namespace StoredContent

variable {α : Type}

def element (content : StoredContent α) (coord : List ℤ) : Option α :=
  let ind := if content.isSplat then 0
    else getMemIndex1D (content.type.dimsOrder.toMemoryOrder coord) content.type.getMemShape
  (content.storage[ind.toNat]?).join

end StoredContent

section
variable {α : Type}

def checkedIndex (buf : List α) (ind : ℤ) : Option ℕ :=
  if 0 ≤ ind ∧ ind < buf.length then some ind.toNat else none

def copyElements (src dst : List (Option α)) (inds : List (ℤ × ℤ)) : Option (List (Option α)) :=
  inds.foldlM (fun dst ind => do
    let inInd ← checkedIndex src ind.2
    let outInd ← checkedIndex dst ind.1
    some (dst.set outInd ((src[inInd]?).join))) dst

end

def checkedMemIndex1D (memIndexND memShape : List ℤ) : Option ℤ :=
  if memIndexND.length = memShape.length ∧ ∀ i < memShape.length, entry memIndexND i < entry memShape i then
    some (getMemIndex1D memIndexND memShape)
  else none

def strideOf (type : NDType) (d : ℕ) : ℤ := weight type.getMemShape (type.dimsOrder.dimPos d)

def natRange (n : ℤ) : List ℤ := (List.range n.toNat).map fun (i : ℕ) => (i : ℤ)

theorem mem_natRange {n x : ℤ} : x ∈ natRange n ↔ 0 ≤ x ∧ x < n := by
  unfold natRange
  rw [List.mem_map]
  constructor
  · rintro ⟨i, hi, rfl⟩
    have := List.mem_range.mp hi
    omega
  · rintro ⟨h0, hn⟩
    exact ⟨x.toNat, List.mem_range.mpr (by omega), by omega⟩

def blobCopy4d (input output : NDType) : List (ℤ × ℤ) :=
  let N := entry input.shape 0
  let C := entry input.shape 1
  let H := entry input.shape 2
  let W := entry input.shape 3
  (natRange N).flatMap fun n => (natRange C).flatMap fun c => (natRange H).flatMap fun h => (natRange W).map fun w =>
    if input.dimsOrder = DimsOrder.NHWC then
      (n * strideOf output 0 + c * strideOf output 1 + (h * W + w),
        n * strideOf input 0 + c * strideOf input 1 + h * strideOf input 2 + w * strideOf input 3)
    else
      (n * strideOf output 0 + c + (h * W + w) * strideOf output 3,
        n * strideOf input 0 + c * strideOf input 1 + h * strideOf input 2 + w)

def blobCopy5d (input output : NDType) : List (ℤ × ℤ) :=
  let N := entry input.shape 0
  let C := entry input.shape 1
  let D := entry input.shape 2
  let H := entry input.shape 3
  let W := entry input.shape 4
  (natRange N).flatMap fun n => (natRange C).flatMap fun c => (natRange D).flatMap fun d =>
    (natRange H).flatMap fun h => (natRange W).map fun w =>
      if input.dimsOrder = DimsOrder.NDHWC then
        (n * strideOf output 0 + c * strideOf output 1 + d * strideOf output 2 + (h * W + w),
          n * strideOf input 0 + c * strideOf input 1 + d * strideOf input 2 + h * strideOf input 3 +
            w * strideOf input 4)
      else
        (n * strideOf output 0 + c + d * strideOf output 2 + (h * W + w) * strideOf output 4,
          n * strideOf input 0 + c * strideOf input 1 + d * strideOf input 2 + h * strideOf input 3 + w)

def isBetween (order1 order2 typeOrder1 typeOrder2 : DimsOrder) : Prop :=
  (typeOrder1 = order1 ∧ typeOrder2 = order2) ∨ (typeOrder1 = order2 ∧ typeOrder2 = order1)

instance (order1 order2 typeOrder1 typeOrder2 : DimsOrder) :
    Decidable (isBetween order1 order2 typeOrder1 typeOrder2) := inferInstanceAs (Decidable (_ ∨ _))

def isOptimizedTransformationSupported (elemSizeBytes : ℕ) (inOrder outOrder permOrder : DimsOrder) : Prop :=
  elemSizeBytes ∈ [1, 2, 4] ∧
    (isBetween DimsOrder.NHWC DimsOrder.NCHW inOrder outOrder ∨
      isBetween DimsOrder.NCDHW DimsOrder.NDHWC inOrder outOrder) ∧
    permOrder.perm = getPermutationFromOrders inOrder outOrder

instance (elemSizeBytes : ℕ) (inOrder outOrder permOrder : DimsOrder) :
    Decidable (isOptimizedTransformationSupported elemSizeBytes inOrder outOrder permOrder) :=
  inferInstanceAs (Decidable (_ ∧ _ ∧ _))

def memPermuteTransformationOptimized {α : Type} (src dst : List (Option α)) (input output : NDType) :
    Option (List (Option α)) :=
  if input.getRank = 4 then copyElements src dst (blobCopy4d input output)
  else if input.getRank = 5 then copyElements src dst (blobCopy5d input output)
  else none

def memPermuteIndices (inMemShape outMemShape : List ℤ) (permOrder : DimsOrder) : Option (List (ℤ × ℤ)) :=
  (natRange inMemShape.prod).mapM fun inMemInd1D => do
    let inMemIndND := getMemIndexND inMemInd1D inMemShape
    let outMemIndND := permOrder.toMemoryOrder inMemIndND
    let outMemInd1D ← checkedMemIndex1D outMemIndND outMemShape
    some (outMemInd1D, inMemInd1D)

def memPermuteTransformation {α : Type} (elemSizeBytes : ℕ) (input : StoredContent α) (outType : NDType)
    (memPerm : List ℕ) : Option (StoredContent α) := do
  let inOrder := input.type.dimsOrder
  let outOrder := outType.dimsOrder
  let permOrder ← DimsOrder.fromAffineMap memPerm
  if inOrder.numDims ≠ outOrder.numDims ∨ inOrder.numDims ≠ permOrder.numDims then none
  else
    let inMemShape := input.type.getMemShape
    if input.isSplat ∨ isTrivialPermute inMemShape permOrder then some ⟨outType, input.isSplat, input.storage⟩
    else
      let output := List.replicate outType.shape.prod.toNat none
      if output.length ≠ input.storage.length then none
      else if isOptimizedTransformationSupported elemSizeBytes inOrder outOrder permOrder then do
        let storage ← memPermuteTransformationOptimized input.storage output input.type outType
        some ⟨outType, input.isSplat, storage⟩
      else do
        let inds ← memPermuteIndices inMemShape outType.getMemShape permOrder
        let storage ← copyElements input.storage output inds
        some ⟨outType, input.isSplat, storage⟩

namespace TransformAttr

def transformLayout {α : Type} (elemSizeBytes : ℕ) (attr : TransformAttr) (input : StoredContent α) :
    Option (StoredContent α) := do
  let outType ← attr.inferOutputType input.type
  match attr with
  | reorder _ =>
    memPermuteTransformation elemSizeBytes input outType
      (getPermutationFromOrders input.type.dimsOrder outType.dimsOrder)
  | memPermute _ memPerm => memPermuteTransformation elemSizeBytes input outType memPerm.perm
  | transpose order =>
    memPermuteTransformation elemSizeBytes input outType (compose input.type.dimsOrder.perm order.perm)
  | _ => none

end TransformAttr

end NpuCompiler.Const
