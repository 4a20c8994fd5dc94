import NpuCompiler.Const.Transformations

namespace NpuCompiler.Const

open MixedRadix

structure QuantParam where
  scale : ℚ
  zeroPoint : ℤ
  deriving DecidableEq

/-- `name` stands for what none of the transformations changes: the storage and expressed types and the quantiles. -/
inductive ElemType
  | number (name : String)
  | quantileFloat (name : String)
  | uniformQuantized (name : String) (param : QuantParam)
  | uniformQuantizedPerAxis (name : String) (quantizedDimension : ℕ) (params : List QuantParam)
  deriving DecidableEq

def seekQuantizedAxis (sizeAtAxis fullSizeIncludingAxis : ℤ) : List ℤ → ℤ → ℕ → Option ℕ
  | [], _, _ => none
  | d :: dims, accumSize, ind =>
    if accumSize * d = fullSizeIncludingAxis ∧ d = sizeAtAxis then some ind
    else if fullSizeIncludingAxis < accumSize * d then none
    else seekQuantizedAxis sizeAtAxis fullSizeIncludingAxis dims (accumSize * d) (ind + 1)

def getQuantizedAxis (axis : ℕ) (prevShape newShape : List ℤ) : Option ℕ :=
  if prevShape.length ≤ axis ∨ entry prevShape axis = 1 then none
  else seekQuantizedAxis (entry prevShape axis) (prevShape.take (axis + 1)).prod newShape 1 0

namespace ElemType

def isQuantized : ElemType → Bool
  | number _ => false
  | _ => true

def validateQuantElemType (shape : List ℤ) : ElemType → Prop
  | uniformQuantizedPerAxis _ quantizedDimension params =>
    quantizedDimension < shape.length ∧ entry shape quantizedDimension = params.length
  | _ => True

instance (shape : List ℤ) : DecidablePred (validateQuantElemType shape)
  | number _ => inferInstanceAs (Decidable True)
  | quantileFloat _ => inferInstanceAs (Decidable True)
  | uniformQuantized _ _ => inferInstanceAs (Decidable True)
  | uniformQuantizedPerAxis _ _ _ => inferInstanceAs (Decidable (_ ∧ _))

def changeAxis (newAxis : ℕ → ℕ) : ElemType → ElemType
  | uniformQuantizedPerAxis name quantizedDimension params =>
    uniformQuantizedPerAxis name (newAxis quantizedDimension) params
  | elemType => elemType

def tileScalesAndZP (offsets shape : List ℤ) : ElemType → Option ElemType
  | uniformQuantizedPerAxis name quantizedDimension params =>
    let qSliceSize := entry shape quantizedDimension
    let qSliceOffset := entry offsets quantizedDimension
    if offsets.length ≠ shape.length ∨ shape.length < quantizedDimension ∨ qSliceSize < 0 ∨ qSliceOffset < 0 then none
    else if qSliceOffset = 0 ∧ qSliceSize = params.length then
      some (uniformQuantizedPerAxis name quantizedDimension params)
    else if qSliceOffset + qSliceSize ≤ params.length then
      some (uniformQuantizedPerAxis name quantizedDimension ((params.drop qSliceOffset.toNat).take qSliceSize.toNat))
    else none
  | elemType => some elemType

def reshapedAxis (prevShape newShape : List ℤ) (axis : ℕ) : ℕ := (getQuantizedAxis axis prevShape newShape).getD axis

end ElemType

structure TensorType extends NDType where
  elemType : ElemType
  valid : elemType.validateQuantElemType shape
  deriving DecidableEq

namespace TensorType

def withElemType (type : NDType) (elemType : ElemType) : Option TensorType :=
  if h : elemType.validateQuantElemType type.shape then some ⟨type, elemType, h⟩ else none

def changeElemType (type : TensorType) (elemType : ElemType) : Option TensorType := withElemType type.toNDType elemType

variable {type : TensorType} {ndType : NDType} {elemType : ElemType}

theorem withElemType_eq_some : withElemType ndType elemType = some type ↔
    type.toNDType = ndType ∧ type.elemType = elemType := by
  unfold withElemType
  constructor
  · intro h
    split at h
    · cases h
      exact ⟨rfl, rfl⟩
    · cases h
  · rintro ⟨rfl, rfl⟩
    exact dif_pos type.valid

end TensorType

section

def numberedParams (n : ℕ) : List QuantParam := (List.range n).map fun (i : ℕ) => ⟨1, i⟩

theorem numberedParams_inj {n x y : ℤ} (hx : 0 ≤ x ∧ x < n) (hy : 0 ≤ y ∧ y < n)
    (h : (numberedParams n.toNat)[x.toNat]? = (numberedParams n.toNat)[y.toNat]?) : x = y := by
  have hget {z : ℤ} (hz : 0 ≤ z ∧ z < n) : (numberedParams n.toNat)[z.toNat]? = some ⟨1, z⟩ := by
    unfold numberedParams
    rw [List.getElem?_map, List.getElem?_range (by omega), Option.map_some, Int.toNat_of_nonneg hz.1]
  rw [hget hx, hget hy] at h
  exact (QuantParam.mk.inj (Option.some.inj h)).2

end

end NpuCompiler.Const
