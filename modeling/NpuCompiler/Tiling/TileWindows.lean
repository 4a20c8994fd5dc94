import NpuCompiler.Tiling.BackInfer

namespace NpuCompiler.Tiling

open MixedRadix Option

inductive WindowOp
  | conv (input filter bias strides : List ℤ) (padding : PadInfo)
  | groupConv (input filter bias strides : List ℤ) (padding : PadInfo) (groups : ℤ)
  | pool (input kernelSize strides : List ℤ) (padding : PadInfo)
  | matMul (input filter strides : List ℤ) (padding : PadInfo)

structure PlanarDim where
  dim : ℕ
  kernel : ℤ
  stride : ℤ
  before : PadInfo → ℤ
  after : PadInfo → ℤ

namespace WindowOp

def input : WindowOp → List ℤ
  | conv input _ _ _ _ => input
  | groupConv input _ _ _ _ _ => input
  | pool input _ _ _ => input
  | matMul input _ _ _ => input

def padding : WindowOp → PadInfo
  | conv _ _ _ _ padding => padding
  | groupConv _ _ _ _ padding _ => padding
  | pool _ _ _ padding => padding
  | matMul _ _ _ padding => padding

def backInfer : WindowOp → TileInfo → Option TilingInfo
  | conv input filter bias strides padding, outputTile =>
    backInferConvTile outputTile input filter bias strides padding
  | groupConv input filter bias strides padding groups, outputTile =>
    backInferGroupConvTile outputTile input filter bias strides padding groups
  | pool input kernelSize strides padding, outputTile => backInferPoolTile outputTile input kernelSize strides padding
  | matMul input filter strides padding, outputTile => backInferMatMulTile outputTile input filter strides padding

def planeH : WindowOp → PlanarDim
  | conv _ filter _ strides _ => ⟨2, entry filter 2, entry strides 0, PadInfo.top, PadInfo.bottom⟩
  | groupConv _ filter _ strides _ _ => ⟨2, entry filter 2, entry strides 0, PadInfo.top, PadInfo.bottom⟩
  | pool input kernelSize strides _ =>
    if input.length = 5 then ⟨3, entry kernelSize 1, entry strides 1, PadInfo.top, PadInfo.bottom⟩
    else ⟨2, entry kernelSize 0, entry strides 0, PadInfo.top, PadInfo.bottom⟩
  | matMul _ filter strides _ => ⟨3, entry filter 3, entry strides 0, PadInfo.top, PadInfo.bottom⟩

def planeW : WindowOp → PlanarDim
  | conv _ filter _ strides _ => ⟨3, entry filter 3, entry strides 1, PadInfo.left, PadInfo.right⟩
  | groupConv _ filter _ strides _ _ => ⟨3, entry filter 3, entry strides 1, PadInfo.left, PadInfo.right⟩
  | pool input kernelSize strides _ =>
    if input.length = 5 then ⟨4, entry kernelSize 2, entry strides 2, PadInfo.left, PadInfo.right⟩
    else ⟨3, entry kernelSize 1, entry strides 1, PadInfo.left, PadInfo.right⟩
  | matMul _ filter strides _ => ⟨4, entry filter 4, entry strides 1, PadInfo.left, PadInfo.right⟩

def depth : WindowOp → List PlanarDim
  | pool input kernelSize strides _ =>
    if input.length = 5 then [⟨2, entry kernelSize 0, entry strides 0, PadInfo.front, PadInfo.back⟩] else []
  | _ => []

def planarDims (op : WindowOp) : List PlanarDim := op.depth ++ [op.planeH, op.planeW]

def outerDims : WindowOp → List (ℕ × ℤ)
  | conv input filter _ _ _ => [(0, entry input 0), (1, entry filter 0)]
  | groupConv input filter _ _ _ _ => [(0, entry input 0), (1, entry filter 0)]
  | pool input _ _ _ => [(0, entry input 0), (1, entry input 1)]
  | matMul input filter _ _ => [(0, entry input 0), (1, entry input 1), (2, entry filter 1)]

def outputSize (op : WindowOp) (p : PlanarDim) : ℤ :=
  outputForInputDim (entry op.input p.dim) p.kernel p.stride (p.before op.padding) (p.after op.padding)

def WellFormed : WindowOp → Prop
  | conv input filter _ _ _ => input.length = 4 ∧ filter.length = 4
  | groupConv input filter _ _ _ groups => input.length = 4 ∧ filter.length = 4 ∧ 0 < groups ∧ groups ∣ entry filter 0 ∧
      0 < entry filter 0 ∧ 0 < entry filter 1 ∧ entry input 1 = groups * entry filter 1
  | pool input _ _ _ => input.length = 4 ∨ input.length = 5
  | matMul input filter _ _ => input.length = 5 ∧ filter.length = 5

structure IsOutputTile (op : WindowOp) (tile : TileInfo) : Prop where
  planar : ∀ p ∈ op.planarDims, 0 ≤ entry tile.offsets p.dim ∧
    entry tile.offsets p.dim + entry tile.shape p.dim ≤ op.outputSize p
  outer : ∀ d ∈ op.outerDims, 0 ≤ entry tile.offsets d.1 ∧ 0 < entry tile.shape d.1 ∧
    entry tile.offsets d.1 + entry tile.shape d.1 ≤ d.2
  untiled : tile.isCompletedTile = true → ∀ p ∈ op.planarDims, entry tile.axis p.dim = 1 →
    entry tile.offsets p.dim = 0 ∧ entry tile.shape p.dim = op.outputSize p

def CoversGroups (outputTile inputTile : TileInfo) : WindowOp → Prop
  | groupConv input filter _ _ _ groups => ∀ c, 0 ≤ c → c < entry input 1 →
      ((entry inputTile.offsets 1 ≤ c ∧ c < entry inputTile.offsets 1 + entry inputTile.shape 1) ↔
        ∃ o, entry outputTile.offsets 1 ≤ o ∧ o < entry outputTile.offsets 1 + entry outputTile.shape 1 ∧
          o / (entry filter 0 / groups) = c / entry filter 1)
  | _ => True

structure ComputesTile (op : WindowOp) (outputTile : TileInfo) (tiling : TilingInfo) (inputTile : TileInfo) : Prop where
  first : tiling.tiles.head? = some inputTile
  inside : ∀ d < op.input.length, 0 ≤ entry inputTile.offsets d ∧
    entry inputTile.offsets d + entry inputTile.shape d ≤ entry op.input d
  spatialOutput : spatialOutputForInputWindowSize
    (entry inputTile.shape op.planeH.dim, entry inputTile.shape op.planeW.dim) [op.planeH.kernel, op.planeW.kernel]
    [op.planeH.stride, op.planeW.stride] tiling.pads =
      some (entry outputTile.shape op.planeH.dim, entry outputTile.shape op.planeW.dim)
  windows : ∀ p ∈ op.planarDims, SameWindows (entry op.input p.dim) p.kernel p.stride (p.before op.padding)
    (rangeAt outputTile p.dim) (entry inputTile.offsets p.dim) (entry inputTile.shape p.dim) (p.before tiling.pads)
    (p.after tiling.pads)
  groups : op.CoversGroups outputTile inputTile

def KeepsGroups (outputTile : TileInfo) : WindowOp → Prop
  | groupConv _ filter _ _ _ groups =>
      entry outputTile.offsets 1 % (entry filter 0 / groups) + entry outputTile.shape 1 ≤
        entry filter 0 / groups * divUp (entry outputTile.shape 1) (entry filter 0 / groups)
  | _ => True

end WindowOp

section
variable {dims : Dims} {outputTile inputTile restored : TileInfo} {origInputShape : List ℤ} {d : ℕ}

def Untiled (outputTile : TileInfo) (d : ℕ) : Prop := outputTile.isCompletedTile = true ∧ entry outputTile.axis d = 1

theorem restoreUntiled_spec (h : restoreUntiled dims outputTile inputTile origInputShape d = some restored)
    (hd : d < inputTile.shape.length) : restored.offsets = inputTile.offsets ∧
      restored.shape.length = inputTile.shape.length ∧ (∀ j, j ≠ d → entry restored.shape j = entry inputTile.shape j) ∧
      (Untiled outputTile d → entry restored.shape d = entry origInputShape d) ∧
      (¬Untiled outputTile d → entry restored.shape d = entry inputTile.shape d) := by
  unfold restoreUntiled at h
  split at h
  · next huntiled =>
    unfold restorePlanarShapeForInputTile at h
    split at h
    · cases h
    · split at h
      · cases h
      · cases h
        refine ⟨rfl, List.length_set, fun j hj => ?_, fun _ => ?_, fun hn => absurd huntiled hn⟩
        · exact (TileInfo.entry_set hd).trans (if_neg hj)
        · exact (TileInfo.entry_set hd).trans (if_pos rfl)
  · next huntiled =>
    cases h
    exact ⟨rfl, rfl, fun _ _ => rfl, fun hu => absurd hu huntiled, fun _ => rfl⟩

theorem Clipped.restore {size kernel stride padBefore padAfter before after tileSize : ℤ} {range : DimRange}
    (h : Clipped size kernel stride padBefore padAfter (rangeAt outputTile d) range before after)
    (hout : Untiled outputTile d → entry outputTile.offsets d = 0 ∧
      entry outputTile.shape d = outputForInputDim size kernel stride padBefore padAfter)
    (hu : Untiled outputTile d → tileSize = size) (hn : ¬Untiled outputTile d → tileSize = range.length) :
    SameWindows size kernel stride padBefore (rangeAt outputTile d) range.begin tileSize before after := by
  by_cases huntiled : Untiled outputTile d
  · obtain ⟨hoff, hshape⟩ := hout huntiled
    have hr := h.restored hoff (by
      unfold rangeAt
      dsimp only
      rw [hoff, hshape, zero_add])
    rw [hu huntiled, hr.1]
    exact hr.2.2
  · rw [hn huntiled]
    exact h.sameWindows

variable {width height depth : DimRange} {kernelX kernelY strideX strideY : ℤ} {input : List ℤ} {pad : PadInfo}
  {solution : PlaneTileSolution}

theorem solutionForOutputTile_planes
    (h : solutionForOutputTile dims ⟨width, height, depth, false⟩ kernelX kernelY strideX strideY input pad none none =
      some solution) :
    Clipped (entry input dims.actH) kernelY strideY pad.top pad.bottom height solution.inputTile.height
      solution.inputPad.top solution.inputPad.bottom ∧
    Clipped (entry input dims.actW) kernelX strideX pad.left pad.right width solution.inputTile.width
      solution.inputPad.left solution.inputPad.right := by
  unfold solutionForOutputTile inputForOutputTile at h
  simp only [Bool.false_eq_true, if_false] at h
  obtain ⟨⟨heightIn, top, bottom⟩, hheight, h⟩ := bind_eq_some_iff.mp h
  obtain ⟨⟨widthIn, left, right⟩, hwidth, h⟩ := bind_eq_some_iff.mp h
  cases h
  exact ⟨inputForOutputDim_clipped hheight, inputForOutputDim_clipped hwidth⟩

theorem solutionForOutputTile_volume {kernelD strideD : ℤ}
    (h : solutionForOutputTile dims ⟨width, height, depth, true⟩ kernelX kernelY strideX strideY input pad
      (some kernelD) (some strideD) = some solution) :
    Clipped (entry input 3) kernelY strideY pad.top pad.bottom height solution.inputTile.height
      solution.inputPad.top solution.inputPad.bottom ∧
    Clipped (entry input 4) kernelX strideX pad.left pad.right width solution.inputTile.width
      solution.inputPad.left solution.inputPad.right ∧
    Clipped (entry input 2) kernelD strideD pad.front pad.back depth solution.inputTile.depth
      solution.inputPad.front solution.inputPad.back := by
  unfold solutionForOutputTile inputForOutputTile at h
  simp only [if_true, bind_eq_bind, bind_some] at h
  obtain ⟨⟨heightIn, top, bottom⟩, hheight, h⟩ := bind_eq_some_iff.mp h
  obtain ⟨⟨widthIn, left, right⟩, hwidth, h⟩ := bind_eq_some_iff.mp h
  obtain ⟨⟨depthIn, front, back⟩, hdepth, h⟩ := bind_eq_some_iff.mp h
  cases h
  exact ⟨inputForOutputDim_clipped hheight, inputForOutputDim_clipped hwidth, inputForOutputDim_clipped hdepth⟩

theorem Clipped.pads_nonneg {size kernel stride padBefore padAfter before after : ℤ} {output range : DimRange}
    (h : Clipped size kernel stride padBefore padAfter output range before after) : 0 ≤ before ∧ 0 ≤ after := by
  have hb := h.before
  have ha := h.after
  omega

theorem spatialOutput_of_sameWindows {outputTile : TileInfo} {inputTile : ℤ × ℤ} {dimH dimW : ℕ}
    {sizeH sizeW offsetH offsetW padBeforeH padBeforeW : ℤ} (htop : 0 ≤ pad.top ∧ 0 ≤ pad.bottom)
    (hleft : 0 ≤ pad.left ∧ 0 ≤ pad.right)
    (hH : SameWindows sizeH kernelY strideY padBeforeH (rangeAt outputTile dimH) offsetH inputTile.1 pad.top pad.bottom)
    (hW : SameWindows sizeW kernelX strideX padBeforeW (rangeAt outputTile dimW) offsetW inputTile.2 pad.left pad.right)
    (hpos : 0 < entry outputTile.shape dimH ∧ 0 < entry outputTile.shape dimW) :
    spatialOutputForInputWindowSize inputTile [kernelY, kernelX] [strideY, strideX] pad =
      some (entry outputTile.shape dimH, entry outputTile.shape dimW) := by
  have hlen : ∀ d, (rangeAt outputTile d).length = entry outputTile.shape d := by
    intro d
    unfold rangeAt DimRange.length
    dsimp only
    ring
  have hh := hH.outputSize
  have hw := hW.outputSize
  rw [hlen] at hh hw
  have hpads : ¬(pad.top < 0 ∨ pad.bottom < 0 ∨ pad.left < 0 ∨ pad.right < 0) := by omega
  have hsizes : ¬(entry outputTile.shape dimH ≤ 0 ∨ entry outputTile.shape dimW ≤ 0) := by omega
  have hrank : ¬(([kernelY, kernelX] : List ℤ).length ≠ 2 ∨ ([strideY, strideX] : List ℤ).length ≠ 2) := by simp
  unfold spatialOutputForInputWindowSize
  rw [if_neg hrank, if_neg hpads]
  simp only [entry, List.getD_cons_zero, List.getD_cons_succ] at hh hw hsizes ⊢
  rw [hh, hw, if_neg hsizes]

variable {filter bias strides kernelSize : List ℤ} {padding : PadInfo} {tiling : TilingInfo}

structure PlanarTile (size kernel stride padBefore padAfter : ℤ) (outputTile : TileInfo) (d : ℕ)
    (offset tileSize before after : ℤ) : Prop where
  clipped : ∃ range, Clipped size kernel stride padBefore padAfter (rangeAt outputTile d) range before after ∧
    offset = range.begin ∧ (¬Untiled outputTile d → tileSize = range.length)
  restored : Untiled outputTile d → tileSize = size

theorem PlanarTile.sameWindows {size kernel stride padBefore padAfter offset tileSize before after : ℤ} {d : ℕ}
    (h : PlanarTile size kernel stride padBefore padAfter outputTile d offset tileSize before after)
    (hout : Untiled outputTile d → entry outputTile.offsets d = 0 ∧
      entry outputTile.shape d = outputForInputDim size kernel stride padBefore padAfter) :
    0 < entry outputTile.shape d ∧ (0 ≤ before ∧ 0 ≤ after) ∧
      SameWindows size kernel stride padBefore (rangeAt outputTile d) offset tileSize before after := by
  obtain ⟨range, hclip, rfl, hn⟩ := h.clipped
  have hpos := hclip.output_pos
  unfold rangeAt at hpos
  dsimp only at hpos
  exact ⟨by omega, hclip.pads_nonneg, hclip.restore hout h.restored hn⟩

theorem PlanarTile.of_restore {dims : Dims} {inputTile restored : TileInfo} {origInputShape : List ℤ} {d : ℕ}
    {kernel stride padBefore padAfter before after : ℤ} {range : DimRange}
    (h : restoreUntiled dims outputTile inputTile origInputShape d = some restored) (hd : d < inputTile.shape.length)
    (hclip : Clipped (entry origInputShape d) kernel stride padBefore padAfter (rangeAt outputTile d) range before after)
    (hoffset : entry inputTile.offsets d = range.begin) (hshape : entry inputTile.shape d = range.length) :
    PlanarTile (entry origInputShape d) kernel stride padBefore padAfter outputTile d (entry restored.offsets d)
      (entry restored.shape d) before after := by
  obtain ⟨hoffsets, -, -, hu, hn⟩ := restoreUntiled_spec h hd
  constructor
  · refine ⟨range, hclip, ?_, fun huntiled => ?_⟩
    · rw [hoffsets, hoffset]
    · rw [hn huntiled, hshape]
  · exact hu

theorem restorePlane_spec {dims : Dims} {tile tileH tileW : TileInfo} {origInputShape : List ℤ}
    {kernelY strideY kernelX strideX padTop padBottom padLeft padRight top bottom left right : ℤ} {height width : DimRange}
    (hH : Clipped (entry origInputShape dims.actH) kernelY strideY padTop padBottom (rangeAt outputTile dims.actH) height
      top bottom)
    (hW : Clipped (entry origInputShape dims.actW) kernelX strideX padLeft padRight (rangeAt outputTile dims.actW) width
      left right)
    (hrestoreH : restoreUntiled dims outputTile tile origInputShape dims.actH = some tileH)
    (hrestoreW : restoreUntiled dims outputTile tileH origInputShape dims.actW = some tileW)
    (hne : dims.actH ≠ dims.actW) (hlen : dims.actH < tile.shape.length ∧ dims.actW < tile.shape.length)
    (hheight : entry tile.offsets dims.actH = height.begin ∧ entry tile.shape dims.actH = height.length)
    (hwidth : entry tile.offsets dims.actW = width.begin ∧ entry tile.shape dims.actW = width.length) :
    tileW.offsets = tile.offsets ∧ tileW.shape.length = tile.shape.length ∧
      (∀ j, j ≠ dims.actH → j ≠ dims.actW → entry tileW.shape j = entry tile.shape j) ∧
      PlanarTile (entry origInputShape dims.actH) kernelY strideY padTop padBottom outputTile dims.actH
        (entry tileW.offsets dims.actH) (entry tileW.shape dims.actH) top bottom ∧
      PlanarTile (entry origInputShape dims.actW) kernelX strideX padLeft padRight outputTile dims.actW
        (entry tileW.offsets dims.actW) (entry tileW.shape dims.actW) left right := by
  obtain ⟨hoffH, hlenH, hotherH, -⟩ := restoreUntiled_spec hrestoreH hlen.1
  have hlenW' := hlen.2.trans_eq hlenH.symm
  obtain ⟨hoffW, hlenW, hotherW, -⟩ := restoreUntiled_spec hrestoreW hlenW'
  have hplaneH := PlanarTile.of_restore hrestoreH hlen.1 hH hheight.1 hheight.2
  refine ⟨hoffW.trans hoffH, hlenW.trans hlenH, fun j hjH hjW => (hotherW j hjW).trans (hotherH j hjH), ?_, ?_⟩
  · rw [hoffW, hotherW _ hne]
    exact hplaneH
  · apply PlanarTile.of_restore hrestoreW hlenW' hW
    · rw [hoffH, hwidth.1]
    · rw [hotherH _ hne.symm, hwidth.2]

theorem backInferConvTile_spec {n c h w : ℤ}
    (hinfer : backInferConvTile outputTile [n, c, h, w] filter bias strides padding = some tiling) :
    ∃ (inputTile : TileInfo) (rest : List TileInfo), tiling.tiles = inputTile :: rest ∧
      inputTile.offsets.length = 4 ∧ inputTile.shape.length = 4 ∧
      entry inputTile.offsets 0 = entry outputTile.offsets 0 ∧ entry inputTile.shape 0 = entry outputTile.shape 0 ∧
      entry inputTile.offsets 1 = 0 ∧ entry inputTile.shape 1 = c ∧
      PlanarTile h (entry filter 2) (entry strides 0) padding.top padding.bottom outputTile 2
        (entry inputTile.offsets 2) (entry inputTile.shape 2) tiling.pads.top tiling.pads.bottom ∧
      PlanarTile w (entry filter 3) (entry strides 1) padding.left padding.right outputTile 3
        (entry inputTile.offsets 3) (entry inputTile.shape 3) tiling.pads.left tiling.pads.right := by
  unfold backInferConvTile at hinfer
  obtain ⟨solution, hsolution, hinfer⟩ := bind_eq_some_iff.mp hinfer
  obtain ⟨hH, hW⟩ := solutionForOutputTile_planes hsolution
  obtain ⟨tileH, hrestoreH, hinfer⟩ := bind_eq_some_iff.mp hinfer
  obtain ⟨tileW, hrestoreW, hinfer⟩ := bind_eq_some_iff.mp hinfer
  obtain ⟨hoffsets, hlen, hother, hplaneH, hplaneW⟩ := restorePlane_spec hH hW hrestoreH hrestoreW (by decide)
    (by simp [setRange, setTile, TileInfo.ofShape, Dims.actH, Dims.actW]) ⟨rfl, rfl⟩ ⟨rfl, rfl⟩
  have hoff := fun j => congrArg (fun l => entry l j) hoffsets
  have hpads : tiling.pads = solution.inputPad ∧ ∃ rest, tiling.tiles = tileW :: rest := by
    dsimp only at hinfer
    split at hinfer
    · cases hinfer
      exact ⟨rfl, _, rfl⟩
    · cases hinfer
      exact ⟨rfl, _, rfl⟩
  obtain ⟨hpads, rest, htiles⟩ := hpads
  rw [hpads]
  exact ⟨tileW, rest, htiles, congrArg List.length hoffsets, hlen, hoff 0, hother 0 (by decide) (by decide), hoff 1,
    hother 1 (by decide) (by decide), hplaneH, hplaneW⟩

theorem backInferGroupConvTile_spec {n c h w groups : ℤ}
    (hinfer : backInferGroupConvTile outputTile [n, c, h, w] filter bias strides padding groups = some tiling) :
    ∃ (inputTile : TileInfo) (rest : List TileInfo), tiling.tiles = inputTile :: rest ∧
      entry inputTile.offsets 0 = entry outputTile.offsets 0 ∧ entry inputTile.shape 0 = entry outputTile.shape 0 ∧
      entry inputTile.offsets 1 =
        (entry outputTile.offsets 1).tdiv ((entry filter 0).tdiv groups) * entry filter 1 ∧
      entry inputTile.shape 1 = divUp (entry outputTile.shape 1) ((entry filter 0).tdiv groups) * entry filter 1 ∧
      PlanarTile h (entry filter 2) (entry strides 0) padding.top padding.bottom outputTile 2
        (entry inputTile.offsets 2) (entry inputTile.shape 2) tiling.pads.top tiling.pads.bottom ∧
      PlanarTile w (entry filter 3) (entry strides 1) padding.left padding.right outputTile 3
        (entry inputTile.offsets 3) (entry inputTile.shape 3) tiling.pads.left tiling.pads.right := by
  obtain ⟨res, hconv, hinfer⟩ := bind_eq_some_iff.mp hinfer
  obtain ⟨tile, rest, htiles, hoffLen, hlen, hoff0, hshape0, -, -, hH, hW⟩ := backInferConvTile_spec hconv
  dsimp only at hinfer
  rw [htiles] at hinfer
  cases hinfer
  have hset : ∀ (l : List ℤ) (x : ℤ), l.length = 4 → ∀ j, entry (l.set dimC x) j = if j = 1 then x else entry l j := by
    intro l x hl j
    apply TileInfo.entry_set
    rw [hl]
    decide
  refine ⟨_, rest, rfl, ?_, ?_, ?_, ?_, ?_, ?_⟩
  · exact (hset _ _ hoffLen 0).trans hoff0
  · exact (hset _ _ hlen 0).trans hshape0
  · exact hset _ _ hoffLen 1
  · exact hset _ _ hlen 1
  · have ho := hset tile.offsets
    rw [show entry (setTile tile dimC _ _).offsets 2 = entry tile.offsets 2 from hset _ _ hoffLen 2,
      show entry (setTile tile dimC _ _).shape 2 = entry tile.shape 2 from hset _ _ hlen 2]
    exact hH
  · rw [show entry (setTile tile dimC _ _).offsets 3 = entry tile.offsets 3 from hset _ _ hoffLen 3,
      show entry (setTile tile dimC _ _).shape 3 = entry tile.shape 3 from hset _ _ hlen 3]
    exact hW

theorem backInferPoolTile_spec {n c h w : ℤ}
    (hinfer : backInferPoolTile outputTile [n, c, h, w] kernelSize strides padding = some tiling) :
    ∃ inputTile : TileInfo, tiling.tiles = [inputTile] ∧
      entry inputTile.offsets 0 = entry outputTile.offsets 0 ∧ entry inputTile.shape 0 = entry outputTile.shape 0 ∧
      entry inputTile.offsets 1 = entry outputTile.offsets 1 ∧ entry inputTile.shape 1 = entry outputTile.shape 1 ∧
      PlanarTile h (entry kernelSize 0) (entry strides 0) padding.top padding.bottom outputTile 2
        (entry inputTile.offsets 2) (entry inputTile.shape 2) tiling.pads.top tiling.pads.bottom ∧
      PlanarTile w (entry kernelSize 1) (entry strides 1) padding.left padding.right outputTile 3
        (entry inputTile.offsets 3) (entry inputTile.shape 3) tiling.pads.left tiling.pads.right := by
  unfold backInferPoolTile at hinfer
  rw [if_neg (by simp)] at hinfer
  obtain ⟨solution, hsolution, hinfer⟩ := bind_eq_some_iff.mp hinfer
  obtain ⟨hH, hW⟩ := solutionForOutputTile_planes hsolution
  obtain ⟨tileH, hrestoreH, hinfer⟩ := bind_eq_some_iff.mp hinfer
  obtain ⟨tileW, hrestoreW, hinfer⟩ := bind_eq_some_iff.mp hinfer
  obtain ⟨hoffsets, -, hother, hplaneH, hplaneW⟩ := restorePlane_spec hH hW hrestoreH hrestoreW (by decide)
    (by simp [setRange, setTile, TileInfo.ofShape, Dims.actH, Dims.actW]) ⟨rfl, rfl⟩ ⟨rfl, rfl⟩
  have hoff := fun j => congrArg (fun l => entry l j) hoffsets
  cases hinfer
  exact ⟨tileW, rfl, hoff 0, hother 0 (by decide) (by decide), hoff 1, hother 1 (by decide) (by decide), hplaneH, hplaneW⟩

theorem backInferMatMulTile_spec {g n c h w : ℤ}
    (hinfer : backInferMatMulTile outputTile [g, n, c, h, w] filter strides padding = some tiling) :
    ∃ (inputTile : TileInfo) (rest : List TileInfo), tiling.tiles = inputTile :: rest ∧
      entry inputTile.offsets 0 = entry outputTile.offsets 0 ∧ entry inputTile.shape 0 = entry outputTile.shape 0 ∧
      entry inputTile.offsets 1 = entry outputTile.offsets 1 ∧ entry inputTile.shape 1 = entry outputTile.shape 1 ∧
      entry inputTile.offsets 2 = 0 ∧ entry inputTile.shape 2 = c ∧
      PlanarTile h (entry filter 3) (entry strides 0) padding.top padding.bottom outputTile 3
        (entry inputTile.offsets 3) (entry inputTile.shape 3) tiling.pads.top tiling.pads.bottom ∧
      PlanarTile w (entry filter 4) (entry strides 1) padding.left padding.right outputTile 4
        (entry inputTile.offsets 4) (entry inputTile.shape 4) tiling.pads.left tiling.pads.right := by
  unfold backInferMatMulTile at hinfer
  obtain ⟨solution, hsolution, hinfer⟩ := bind_eq_some_iff.mp hinfer
  obtain ⟨hH, hW⟩ := solutionForOutputTile_planes hsolution
  obtain ⟨tileH, hrestoreH, hinfer⟩ := bind_eq_some_iff.mp hinfer
  obtain ⟨tileW, hrestoreW, hinfer⟩ := bind_eq_some_iff.mp hinfer
  obtain ⟨hoffsets, -, hother, hplaneH, hplaneW⟩ := restorePlane_spec hH hW hrestoreH hrestoreW (by decide)
    (by simp [setRange, setTile, TileInfo.ofShape, Dims.actH, Dims.actW]) ⟨rfl, rfl⟩ ⟨rfl, rfl⟩
  have hoff := fun j => congrArg (fun l => entry l j) hoffsets
  cases hinfer
  exact ⟨tileW, _, rfl, hoff 0, hother 0 (by decide) (by decide), hoff 1, hother 1 (by decide) (by decide), hoff 2,
    hother 2 (by decide) (by decide), hplaneH, hplaneW⟩

theorem backInfer5DPoolTile_spec {n c d h w : ℤ}
    (hinfer : backInfer5DPoolTile outputTile [n, c, d, h, w] kernelSize strides padding = some tiling) :
    ∃ inputTile : TileInfo, tiling.tiles = [inputTile] ∧
      entry inputTile.offsets 0 = entry outputTile.offsets 0 ∧ entry inputTile.shape 0 = entry outputTile.shape 0 ∧
      entry inputTile.offsets 1 = entry outputTile.offsets 1 ∧ entry inputTile.shape 1 = entry outputTile.shape 1 ∧
      PlanarTile d (entry kernelSize 0) (entry strides 0) padding.front padding.back outputTile 2
        (entry inputTile.offsets 2) (entry inputTile.shape 2) tiling.pads.front tiling.pads.back ∧
      PlanarTile h (entry kernelSize 1) (entry strides 1) padding.top padding.bottom outputTile 3
        (entry inputTile.offsets 3) (entry inputTile.shape 3) tiling.pads.top tiling.pads.bottom ∧
      PlanarTile w (entry kernelSize 2) (entry strides 2) padding.left padding.right outputTile 4
        (entry inputTile.offsets 4) (entry inputTile.shape 4) tiling.pads.left tiling.pads.right := by
  unfold backInfer5DPoolTile at hinfer
  obtain ⟨solution, hsolution, hinfer⟩ := bind_eq_some_iff.mp hinfer
  obtain ⟨hH, hW, hD⟩ := solutionForOutputTile_volume hsolution
  obtain ⟨tileH, hrestoreH, hinfer⟩ := bind_eq_some_iff.mp hinfer
  obtain ⟨tileW, hrestoreW, hinfer⟩ := bind_eq_some_iff.mp hinfer
  obtain ⟨tileD, hrestoreD, hinfer⟩ := bind_eq_some_iff.mp hinfer
  obtain ⟨hoffW, hlenW, hotherW, hplaneH, hplaneW⟩ := restorePlane_spec hH hW hrestoreH hrestoreW (by decide)
    (by simp [setRange, setTile, TileInfo.ofShape, Dims.actH, Dims.actW]) ⟨rfl, rfl⟩ ⟨rfl, rfl⟩
  have hlenD : dims5DActD < tileW.shape.length := by
    rw [hlenW]
    simp [setRange, setTile, TileInfo.ofShape, dims5DActD]
  obtain ⟨hoffD, -, hotherD, -⟩ := restoreUntiled_spec hrestoreD hlenD
  have hplaneD := PlanarTile.of_restore hrestoreD hlenD hD (congrArg (fun l => entry l 2) hoffW)
    (hotherW 2 (by decide) (by decide))
  have hoff := fun j => congrArg (fun l => entry l j) (hoffD.trans hoffW)
  cases hinfer
  refine ⟨tileD, rfl, hoff 0, ?_, hoff 1, ?_, hplaneD, ?_, ?_⟩
  · exact (hotherD 0 (by decide)).trans (hotherW 0 (by decide) (by decide))
  · exact (hotherD 1 (by decide)).trans (hotherW 1 (by decide) (by decide))
  · have he := hotherD 3 (by decide)
    rw [hoffD, he]
    exact hplaneH
  · have he := hotherD 4 (by decide)
    rw [hoffD, he]
    exact hplaneW

end

end NpuCompiler.Tiling
