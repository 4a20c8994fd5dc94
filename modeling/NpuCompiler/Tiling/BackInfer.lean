import NpuCompiler.Tiling.OutputPartition

namespace NpuCompiler.Tiling

open MixedRadix

structure DimRange where
  begin : ℤ
  stop : ℤ
  deriving DecidableEq

def DimRange.length (range : DimRange) : ℤ := range.stop - range.begin

structure PadInfo where
  left : ℤ := 0
  right : ℤ := 0
  top : ℤ := 0
  bottom : ℤ := 0
  front : ℤ := 0
  back : ℤ := 0
  is5D : Bool := false
  deriving DecidableEq

def outputForInputDim (input kernel stride padBefore padAfter : ℤ) : ℤ :=
  (input - kernel + padBefore + padAfter).tdiv stride + 1

def spatialOutputForInputWindowSize (inputHW : ℤ × ℤ) (kernel strides : List ℤ) (pads : PadInfo) : Option (ℤ × ℤ) :=
  if kernel.length ≠ 2 ∨ strides.length ≠ 2 then none
  else if pads.top < 0 ∨ pads.bottom < 0 ∨ pads.left < 0 ∨ pads.right < 0 then none
  else
    let outputHeight := outputForInputDim inputHW.1 (entry kernel 0) (entry strides 0) pads.top pads.bottom
    let outputWidth := outputForInputDim inputHW.2 (entry kernel 1) (entry strides 1) pads.left pads.right
    if outputHeight ≤ 0 ∨ outputWidth ≤ 0 then none else some (outputHeight, outputWidth)

section

/-- The part of the input range before the initial one becomes padding; more than `padBefore` is a throw. -/
def clipBegin (begin : ℤ) (initialInputRange : DimRange) (padBefore : ℤ) : Option (ℤ × ℤ) :=
  if begin < initialInputRange.begin then
    if initialInputRange.begin - begin ≤ padBefore then
      some (initialInputRange.begin, min (initialInputRange.begin - begin) padBefore)
    else none
  else some (begin, 0)

def clipEnd (stop : ℤ) (initialInputRange : DimRange) (padAfter : ℤ) : Option (ℤ × ℤ) :=
  if initialInputRange.stop < stop then
    if stop - initialInputRange.stop ≤ padAfter then
      some (initialInputRange.stop, min (stop - initialInputRange.stop) padAfter)
    else none
  else some (stop, 0)

def inputForOutputDim (output : DimRange) (kernel stride : ℤ) (initialInputRange : DimRange) (padBefore padAfter : ℤ) :
    Option (DimRange × ℤ × ℤ) :=
  if ¬(0 < output.length ∧ 0 < initialInputRange.length ∧ 0 < kernel ∧ 0 < stride ∧ 0 ≤ padBefore ∧ 0 ≤ padAfter)
  then none
  else do
    let (begin, before) ← clipBegin (output.begin * stride - padBefore) initialInputRange padBefore
    if ¬begin < initialInputRange.stop then none
    else
      let (stop, after) ← clipEnd ((output.stop - 1) * stride + kernel - padBefore) initialInputRange padAfter
      if ¬initialInputRange.begin < stop then none
      else if ¬0 < stop - begin then none
      else some (⟨begin, stop⟩, before, after)

/-- The layouts of activation and filter the templates are instantiated with. -/
inductive Dims
  | dims4D
  | dims5D
  | dimsGroups5D
  deriving DecidableEq

namespace Dims

def actN : Dims → ℕ
  | dims4D => 0
  | dims5D => 0
  | dimsGroups5D => 1

def actC : Dims → ℕ
  | dims4D => 1
  | dims5D => 1
  | dimsGroups5D => 2

def actH : Dims → ℕ
  | dims4D => 2
  | dims5D => 3
  | dimsGroups5D => 3

def actW : Dims → ℕ
  | dims4D => 3
  | dims5D => 4
  | dimsGroups5D => 4

end Dims

def dims5DActD : ℕ := 2
def dimsGroups5DActG : ℕ := 0

structure PlaneTile where
  width : DimRange
  height : DimRange
  depth : DimRange
  is5D : Bool

structure PlaneTileSolution where
  inputTile : PlaneTile
  inputPad : PadInfo

def inputForOutputTile (dims : Dims) (output : PlaneTile) (kernelX kernelY strideX strideY : ℤ)
    (initialInputDims : List ℤ) (initialPad : PadInfo) (kernelD strideD : Option ℤ) : Option PlaneTileSolution :=
  if output.is5D then do
    let (height, top, bottom) ← inputForOutputDim output.height kernelY strideY
      ⟨0, entry initialInputDims Dims.dims5D.actH⟩ initialPad.top initialPad.bottom
    let (width, left, right) ← inputForOutputDim output.width kernelX strideX
      ⟨0, entry initialInputDims Dims.dims5D.actW⟩ initialPad.left initialPad.right
    let kernelD ← kernelD
    let strideD ← strideD
    let (depth, front, back) ← inputForOutputDim output.depth kernelD strideD
      ⟨0, entry initialInputDims dims5DActD⟩ initialPad.front initialPad.back
    some ⟨⟨width, height, depth, true⟩, ⟨left, right, top, bottom, front, back, true⟩⟩
  else do
    let (height, top, bottom) ← inputForOutputDim output.height kernelY strideY
      ⟨0, entry initialInputDims dims.actH⟩ initialPad.top initialPad.bottom
    let (width, left, right) ← inputForOutputDim output.width kernelX strideX
      ⟨0, entry initialInputDims dims.actW⟩ initialPad.left initialPad.right
    some ⟨⟨width, height, ⟨0, 0⟩, false⟩, ⟨left, right, top, bottom, 0, 0, false⟩⟩

def solutionForOutputTile (dims : Dims) (output : PlaneTile) (kernelX kernelY strideX strideY : ℤ)
    (initialInputDims : List ℤ) (initialPad : PadInfo) (kernelD strideD : Option ℤ) : Option PlaneTileSolution :=
  inputForOutputTile dims output kernelX kernelY strideX strideY initialInputDims initialPad kernelD strideD

end

def TileInfo.ofShape (shape : List ℤ) : TileInfo :=
  ⟨shape, List.replicate shape.length 0, List.replicate shape.length 1, false⟩

structure TilingInfo where
  tiles : List TileInfo
  pads : PadInfo

def restorePlanarShapeForInputTile (dims : Dims) (inputTile : TileInfo) (origInputShape : List ℤ) (planarDim : ℕ) :
    Option TileInfo :=
  if planarDim ≠ dims.actH ∧ planarDim ≠ dims.actW ∧ ¬(dims = Dims.dims5D ∧ planarDim = dims5DActD) then none
  else if entry origInputShape planarDim < entry inputTile.shape planarDim then none
  else some { inputTile with shape := inputTile.shape.set planarDim (entry origInputShape planarDim) }

def restoreUntiled (dims : Dims) (outputTile inputTile : TileInfo) (origInputShape : List ℤ) (planarDim : ℕ) :
    Option TileInfo :=
  if outputTile.isCompletedTile ∧ entry outputTile.axis planarDim = 1 then
    restorePlanarShapeForInputTile dims inputTile origInputShape planarDim
  else some inputTile

def rangeAt (outputTile : TileInfo) (dimension : ℕ) : DimRange :=
  ⟨entry outputTile.offsets dimension, entry outputTile.offsets dimension + entry outputTile.shape dimension⟩

def setRange (inputTile : TileInfo) (dimension : ℕ) (range : DimRange) : TileInfo :=
  setTile inputTile dimension range.length range.begin

section
variable (outputTile : TileInfo) (origInputShape origFilterShape origBiasShape kernelSize strides : List ℤ)
  (origPadding : PadInfo)

def backInferConvTile : Option TilingInfo := do
  let dims := Dims.dims4D
  let output : PlaneTile := ⟨rangeAt outputTile dims.actW, rangeAt outputTile dims.actH, ⟨0, 0⟩, false⟩
  let strideY := entry strides 0
  let strideX := entry strides 1
  let solution ← solutionForOutputTile dims output (entry origFilterShape 3) (entry origFilterShape 2) strideX strideY
    origInputShape origPadding none none
  let inputTile := setTile (TileInfo.ofShape origInputShape) dims.actN (entry outputTile.shape dims.actN)
    (entry outputTile.offsets dims.actN)
  let inputTile := { inputTile with axis := outputTile.axis }
  let inputTile := setRange inputTile dims.actH solution.inputTile.height
  let inputTile := setRange inputTile dims.actW solution.inputTile.width
  let inputTile ← restoreUntiled dims outputTile inputTile origInputShape dims.actH
  let inputTile ← restoreUntiled dims outputTile inputTile origInputShape dims.actW
  let filterTile := setTile (TileInfo.ofShape origFilterShape) 0 (entry outputTile.shape dims.actC)
    (entry outputTile.offsets dims.actC)
  if origBiasShape ≠ [] then
    let biasTile := setTile (TileInfo.ofShape origBiasShape) dims.actC (entry outputTile.shape dims.actC)
      (entry outputTile.offsets dims.actC)
    some ⟨[inputTile, filterTile, biasTile], solution.inputPad⟩
  else some ⟨[inputTile, filterTile], solution.inputPad⟩

def backInferGroupConvTile (groups : ℤ) : Option TilingInfo := do
  let res ← backInferConvTile outputTile origInputShape origFilterShape origBiasShape strides origPadding
  let numOutChannelsPerGroup := (entry origFilterShape 0).tdiv groups
  let startGroupForTile := (entry outputTile.offsets dimC).tdiv numOutChannelsPerGroup
  let numGroupsForTile := divUp (entry outputTile.shape dimC) numOutChannelsPerGroup
  let inputTiles ← res.tiles[0]?
  let inputTiles := setTile inputTiles dimC (numGroupsForTile * entry origFilterShape 1)
    (startGroupForTile * entry origFilterShape 1)
  some { res with tiles := res.tiles.set 0 inputTiles }

def backInferMatMulTile : Option TilingInfo := do
  let dims := Dims.dimsGroups5D
  let output : PlaneTile := ⟨rangeAt outputTile dims.actW, rangeAt outputTile dims.actH, ⟨0, 0⟩, false⟩
  let strideY := entry strides 0
  let strideX := entry strides 1
  let solution ← solutionForOutputTile dims output (entry origFilterShape 4) (entry origFilterShape 3) strideX strideY
    origInputShape origPadding none none
  let inputTile := setTile (TileInfo.ofShape origInputShape) dims.actN (entry outputTile.shape dims.actN)
    (entry outputTile.offsets dims.actN)
  let inputTile := { inputTile with axis := outputTile.axis }
  let inputTile := setRange inputTile dims.actH solution.inputTile.height
  let inputTile := setRange inputTile dims.actW solution.inputTile.width
  let inputTile := setTile inputTile dimsGroups5DActG (entry outputTile.shape dimsGroups5DActG)
    (entry outputTile.offsets dimsGroups5DActG)
  let inputTile ← restoreUntiled dims outputTile inputTile origInputShape dims.actH
  let inputTile ← restoreUntiled dims outputTile inputTile origInputShape dims.actW
  let filterTile := setTile (TileInfo.ofShape origFilterShape) 1 (entry outputTile.shape dims.actC)
    (entry outputTile.offsets dims.actC)
  let filterTile := setTile filterTile 0 (entry outputTile.shape dimsGroups5DActG)
    (entry outputTile.offsets dimsGroups5DActG)
  some ⟨[inputTile, filterTile], solution.inputPad⟩

def backInfer5DPoolTile : Option TilingInfo := do
  let dims := Dims.dims5D
  let output : PlaneTile :=
    ⟨rangeAt outputTile dims.actW, rangeAt outputTile dims.actH, rangeAt outputTile dims5DActD, true⟩
  let kernelY := entry kernelSize 1
  let kernelX := entry kernelSize 2
  let kernelD := entry kernelSize 0
  let strideY := entry strides 1
  let strideX := entry strides 2
  let strideD := entry strides 0
  let solution ← solutionForOutputTile dims output kernelX kernelY strideX strideY origInputShape origPadding
    (some kernelD) (some strideD)
  let inputTile := setTile (TileInfo.ofShape origInputShape) dims.actN (entry outputTile.shape dims.actN)
    (entry outputTile.offsets dims.actN)
  let inputTile := setTile inputTile dims.actC (entry outputTile.shape dims.actC) (entry outputTile.offsets dims.actC)
  let inputTile := setRange inputTile dims.actH solution.inputTile.height
  let inputTile := setRange inputTile dims.actW solution.inputTile.width
  let inputTile := setRange inputTile dims5DActD solution.inputTile.depth
  let inputTile ← restoreUntiled dims outputTile inputTile origInputShape dims.actH
  let inputTile ← restoreUntiled dims outputTile inputTile origInputShape dims.actW
  let inputTile ← restoreUntiled dims outputTile inputTile origInputShape dims5DActD
  some ⟨[inputTile], solution.inputPad⟩

def backInferPoolTile : Option TilingInfo :=
  if origInputShape.length = 5 then backInfer5DPoolTile outputTile origInputShape kernelSize strides origPadding
  else do
    let dims := Dims.dims4D
    let output : PlaneTile := ⟨rangeAt outputTile dims.actW, rangeAt outputTile dims.actH, ⟨0, 0⟩, false⟩
    let kernelY := entry kernelSize 0
    let kernelX := entry kernelSize 1
    let strideY := entry strides 0
    let strideX := entry strides 1
    let solution ← solutionForOutputTile dims output kernelX kernelY strideX strideY origInputShape origPadding
      none none
    let inputTile := setTile (TileInfo.ofShape origInputShape) dims.actN (entry outputTile.shape dims.actN)
      (entry outputTile.offsets dims.actN)
    let inputTile := setTile inputTile dims.actC (entry outputTile.shape dims.actC) (entry outputTile.offsets dims.actC)
    let inputTile := setRange inputTile dims.actH solution.inputTile.height
    let inputTile := setRange inputTile dims.actW solution.inputTile.width
    let inputTile ← restoreUntiled dims outputTile inputTile origInputShape dims.actH
    let inputTile ← restoreUntiled dims outputTile inputTile origInputShape dims.actW
    some ⟨[inputTile], solution.inputPad⟩

end

end NpuCompiler.Tiling

namespace NpuCompiler.Tiling

open MixedRadix
open Const (natRange mem_natRange)

def window (size kernel stride padBefore o : ℤ) : List (Option ℤ) :=
  (natRange kernel).map fun j =>
    if 0 ≤ o * stride - padBefore + j ∧ o * stride - padBefore + j < size then some (o * stride - padBefore + j) else none

structure SameWindows (size kernel stride padBefore : ℤ) (output : DimRange) (offset tileSize before after : ℤ) :
    Prop where
  inside : 0 ≤ offset ∧ 0 < tileSize ∧ offset + tileSize ≤ size
  outputSize : outputForInputDim tileSize kernel stride before after = output.length
  windows : ∀ o, output.begin ≤ o → o < output.stop →
    (window tileSize kernel stride before (o - output.begin)).map (Option.map (offset + ·)) =
      window size kernel stride padBefore o

section
variable {size kernel stride padBefore padAfter before after : ℤ} {output range : DimRange}

structure Clipped (size kernel stride padBefore padAfter : ℤ) (output range : DimRange) (before after : ℤ) : Prop where
  output_pos : output.begin < output.stop
  kernel_pos : 0 < kernel
  stride_pos : 0 < stride
  pads : 0 ≤ padBefore ∧ 0 ≤ padAfter
  begin : range.begin - before = output.begin * stride - padBefore
  before : (before = 0 ∧ 0 ≤ range.begin) ∨ (0 < before ∧ range.begin = 0)
  stop : range.stop + after = (output.stop - 1) * stride + kernel - padBefore
  after : (after = 0 ∧ range.stop ≤ size) ∨ (0 < after ∧ after ≤ padAfter ∧ range.stop = size)
  bounds : range.begin < range.stop

theorem clipBegin_spec {inputBegin begin : ℤ} (h : clipBegin inputBegin ⟨0, size⟩ padBefore = some (begin, before)) :
    begin - before = inputBegin ∧ ((before = 0 ∧ 0 ≤ begin) ∨ (0 < before ∧ begin = 0)) := by
  unfold clipBegin at h
  dsimp only at h
  split at h
  · split at h
    · cases h
      omega
    · cases h
  · cases h
    omega

theorem clipEnd_spec {inputEnd stop : ℤ} (h : clipEnd inputEnd ⟨0, size⟩ padAfter = some (stop, after)) :
    stop + after = inputEnd ∧ ((after = 0 ∧ stop ≤ size) ∨ (0 < after ∧ after ≤ padAfter ∧ stop = size)) := by
  unfold clipEnd at h
  dsimp only at h
  split at h
  · split at h
    · cases h
      omega
    · cases h
  · cases h
    omega

theorem inputForOutputDim_clipped
    (h : inputForOutputDim output kernel stride ⟨0, size⟩ padBefore padAfter = some (range, before, after)) :
    Clipped size kernel stride padBefore padAfter output range before after := by
  unfold inputForOutputDim at h
  split at h
  · cases h
  · next hcheck =>
    have hcheck := not_not.mp hcheck
    unfold DimRange.length at hcheck
    dsimp only at h hcheck
    obtain ⟨⟨begin', before'⟩, hbegin, h⟩ := Option.bind_eq_some_iff.mp h
    dsimp only at h
    split at h
    · cases h
    · next hlt =>
      obtain ⟨⟨stop', after'⟩, hstop, h⟩ := Option.bind_eq_some_iff.mp h
      dsimp only at h
      split at h
      · cases h
      · split at h
        · cases h
        · next hpos =>
          have hb := clipBegin_spec hbegin
          have hs := clipEnd_spec hstop
          cases h
          constructor
          · linarith [hcheck.1]
          · exact hcheck.2.2.1
          · exact hcheck.2.2.2.1
          · exact hcheck.2.2.2.2
          · exact hb.1
          · exact hb.2
          · exact hs.1
          · exact hs.2
          · dsimp only
            omega

theorem map_window_eq {size tileSize offset kernel stride before padBefore o o' : ℤ}
    (h : ∀ j, 0 ≤ j → j < kernel → offset + (o' * stride - before + j) = o * stride - padBefore + j ∧
      ((0 ≤ o' * stride - before + j ∧ o' * stride - before + j < tileSize) ↔
        (0 ≤ o * stride - padBefore + j ∧ o * stride - padBefore + j < size))) :
    (window tileSize kernel stride before o').map (Option.map (offset + ·)) = window size kernel stride padBefore o := by
  unfold window
  rw [List.map_map]
  apply List.map_congr_left
  intro j hj
  obtain ⟨h0, h1⟩ := mem_natRange.mp hj
  obtain ⟨he, hiff⟩ := h j h0 h1
  by_cases hin : 0 ≤ o * stride - padBefore + j ∧ o * stride - padBefore + j < size
  · rw [Function.comp_apply, if_pos (hiff.mpr hin), if_pos hin, Option.map_some, he]
  · rw [Function.comp_apply, if_neg fun hc => hin (hiff.mp hc), if_neg hin, Option.map_none]

theorem outputForInputDim_eq {input : ℤ} {n : ℤ} (hs : 0 < stride) (hn : 0 ≤ n)
    (h : n * stride ≤ input - kernel + padBefore + padAfter)
    (h' : input - kernel + padBefore + padAfter < (n + 1) * stride) :
    outputForInputDim input kernel stride padBefore padAfter = n + 1 := by
  unfold outputForInputDim
  have hnn : 0 ≤ input - kernel + padBefore + padAfter := le_trans (mul_nonneg hn hs.le) h
  rw [Int.tdiv_eq_ediv_of_nonneg hnn]
  congr 1
  apply le_antisymm
  · exact Int.lt_add_one_iff.mp (Int.ediv_lt_of_lt_mul hs h')
  · exact Int.le_ediv_of_mul_le hs h

theorem Clipped.sameWindows (h : Clipped size kernel stride padBefore padAfter output range before after) :
    SameWindows size kernel stride padBefore output range.begin range.length before after := by
  have hb := h.begin
  have hbefore := h.before
  have hs := h.stop
  have hafter := h.after
  have hbounds := h.bounds
  have hout := h.output_pos
  have hstride := h.stride_pos
  have hkernel := h.kernel_pos
  unfold DimRange.length
  constructor
  · omega
  · have he : range.stop - range.begin - kernel + before + after = (output.stop - output.begin - 1) * stride := by
      have hsum : range.stop + after - (range.begin - before) =
          (output.stop - 1) * stride + kernel - padBefore - (output.begin * stride - padBefore) := by rw [hs, hb]
      linarith
    have hn := @outputForInputDim_eq kernel stride before after (range.stop - range.begin)
      (output.stop - output.begin - 1) hstride (by omega) he.ge (by rw [he]; linarith)
    rw [hn]
    unfold DimRange.length
    ring
  · intro o ho ho'
    apply map_window_eq
    intro j hj hj'
    -- the window lies between the ends before the clipping
    have hlow : output.begin * stride ≤ o * stride := mul_le_mul_of_nonneg_right ho hstride.le
    have hhigh : o * stride ≤ (output.stop - 1) * stride := mul_le_mul_of_nonneg_right (by omega) hstride.le
    rw [sub_mul]
    constructor
    · omega
    · omega

theorem Clipped.restored (h : Clipped size kernel stride padBefore padAfter output range before after)
    (hbegin : output.begin = 0) (hstop : output.stop = outputForInputDim size kernel stride padBefore padAfter) :
    range.begin = 0 ∧ range.length ≤ size ∧
      SameWindows size kernel stride padBefore output 0 size before after := by
  have hb := h.begin
  have hbefore := h.before
  have hs := h.stop
  have hafter := h.after
  have hbounds := h.bounds
  have hout := h.output_pos
  have hstride := h.stride_pos
  have hkernel := h.kernel_pos
  have hpads := h.pads
  rw [hbegin, zero_mul] at hb
  have hzero : range.begin = 0 ∧ before = padBefore := by omega
  refine ⟨hzero.1, by unfold DimRange.length; omega, ?_⟩
  constructor
  · omega
  · have hlast : (output.stop - 1) * stride ≤ size - kernel + before + after := by omega
    have hnext : size - kernel + before + after < (output.stop - 1 + 1) * stride := by
      have hle : size - kernel + before + after ≤ size - kernel + padBefore + padAfter := by omega
      have hnn : 0 ≤ size - kernel + padBefore + padAfter := by
        have hm : 0 ≤ (output.stop - 1) * stride := mul_nonneg (by omega) hstride.le
        omega
      have hdiv : (size - kernel + padBefore + padAfter) / stride = output.stop - 1 := by
        rw [hstop]
        unfold outputForInputDim
        rw [Int.tdiv_eq_ediv_of_nonneg hnn]
        ring
      have hlt := Int.lt_ediv_add_one_mul_self (size - kernel + padBefore + padAfter) hstride
      rw [hdiv] at hlt
      exact lt_of_le_of_lt hle hlt
    rw [outputForInputDim_eq hstride (by omega) hlast hnext]
    unfold DimRange.length
    omega
  · intro o ho ho'
    apply map_window_eq
    intro j hj hj'
    rw [hbegin, sub_zero]
    constructor
    · omega
    · omega

end

end NpuCompiler.Tiling
