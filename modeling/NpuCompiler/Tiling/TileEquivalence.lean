import NpuCompiler.Tiling.TileWindows

namespace NpuCompiler.Tiling

open MixedRadix List

section
variable {off size p ic groups : ℤ}

theorem divUp_bounds (hs : 0 < size) (hp : 0 < p) : size ≤ divUp size p * p ∧ (divUp size p - 1) * p < size := by
  refine ⟨(divUp_eq hs hp).1, ?_⟩
  unfold divUp
  rw [Int.tdiv_eq_ediv_of_nonneg (by linarith)]
  have h := Int.ediv_mul_le (size + p - 1) hp.ne'
  rw [sub_mul, one_mul]
  linarith

theorem ediv_eq_iff {x g : ℤ} (hp : 0 < p) : x / p = g ↔ g * p ≤ x ∧ x < (g + 1) * p := by
  rw [Int.ediv_eq_iff_of_pos hp]
  constructor
  · rintro ⟨h1, h2⟩
    exact ⟨h1, by linarith⟩
  · rintro ⟨h1, h2⟩
    exact ⟨h1, by linarith⟩

theorem coversGroups_iff (hp : 0 < p) (hic : 0 < ic) (h0 : 0 ≤ off) (hs : 0 < size) (hle : off + size ≤ groups * p) :
    (∀ c, 0 ≤ c → c < groups * ic → ((off / p * ic ≤ c ∧ c < off / p * ic + divUp size p * ic) ↔
      ∃ o, off ≤ o ∧ o < off + size ∧ o / p = c / ic)) ↔ off % p + size ≤ p * divUp size p := by
  obtain ⟨hup, hlow⟩ := divUp_bounds hs hp
  have hoff := Int.ediv_mul_add_emod off p
  have hmod := Int.emod_nonneg off hp.ne'
  constructor
  · intro h
    -- the last group that is touched
    obtain ⟨hlast, hlast'⟩ := (@ediv_eq_iff p (off + size - 1) ((off + size - 1) / p) hp).mp rfl
    have hnn : 0 ≤ (off + size - 1) / p := Int.ediv_nonneg (by linarith) hp.le
    have hlt : (off + size - 1) / p < groups := by
      apply Int.ediv_lt_of_lt_mul hp
      linarith
    have hc := (h ((off + size - 1) / p * ic) (mul_nonneg hnn hic.le) (mul_lt_mul_of_pos_right hlt hic)).mpr
      ⟨off + size - 1, by linarith, by linarith, (Int.mul_ediv_cancel _ hic.ne').symm⟩
    rw [← add_mul] at hc
    have hg := lt_of_mul_lt_mul_right hc.2 hic.le
    have hm : ((off + size - 1) / p + 1) * p ≤ (off / p + divUp size p) * p :=
      mul_le_mul_of_nonneg_right (by linarith) hp.le
    linarith
  · intro h c hc0 hc
    obtain ⟨hcg, hcg'⟩ := (@ediv_eq_iff ic c (c / ic) hic).mp rfl
    have hleft : (off / p * ic ≤ c ∧ c < off / p * ic + divUp size p * ic) ↔
        (off / p ≤ c / ic ∧ c / ic < off / p + divUp size p) := by
      rw [← add_mul, Int.le_ediv_iff_mul_le hic, Int.ediv_lt_iff_lt_mul hic]
    rw [hleft]
    constructor
    · rintro ⟨hge, hlt⟩
      refine ⟨max off (c / ic * p), le_max_left _ _, ?_, ?_⟩
      · apply max_lt (by linarith)
        have hm : c / ic * p ≤ (off / p + divUp size p - 1) * p := mul_le_mul_of_nonneg_right (by linarith) hp.le
        linarith
      · apply (ediv_eq_iff hp).mpr
        refine ⟨le_max_right _ _, max_lt ?_ ?_⟩
        · have hm : (off / p + 1) * p ≤ (c / ic + 1) * p := mul_le_mul_of_nonneg_right (by linarith) hp.le
          have hlt := Int.emod_lt_of_pos off hp
          linarith
        · linarith
    · rintro ⟨o, ho, ho', he⟩
      rw [← he]
      constructor
      · exact Int.ediv_le_ediv hp ho
      · apply Int.ediv_lt_of_lt_mul hp
        rw [add_mul]
        linarith

end

namespace WindowOp

variable {op : WindowOp} {outputTile inputTile : TileInfo} {tiling : TilingInfo}

structure Inferred (op : WindowOp) (outputTile : TileInfo) (tiling : TilingInfo) (inputTile : TileInfo) : Prop where
  first : tiling.tiles.head? = some inputTile
  planar : ∀ p ∈ op.planarDims, PlanarTile (entry op.input p.dim) p.kernel p.stride (p.before op.padding)
    (p.after op.padding) outputTile p.dim (entry inputTile.offsets p.dim) (entry inputTile.shape p.dim)
    (p.before tiling.pads) (p.after tiling.pads)

theorem planeH_pads (op : WindowOp) (pad : PadInfo) : op.planeH.before pad = pad.top ∧ op.planeH.after pad = pad.bottom := by
  cases op with
  | pool input kernelSize strides padding =>
    rw [planeH]
    by_cases h5 : input.length = 5
    · rw [if_pos h5]
      exact ⟨rfl, rfl⟩
    · rw [if_neg h5]
      exact ⟨rfl, rfl⟩
  | conv | groupConv | matMul => exact ⟨rfl, rfl⟩

theorem planeW_pads (op : WindowOp) (pad : PadInfo) : op.planeW.before pad = pad.left ∧ op.planeW.after pad = pad.right := by
  cases op with
  | pool input kernelSize strides padding =>
    rw [planeW]
    by_cases h5 : input.length = 5
    · rw [if_pos h5]
      exact ⟨rfl, rfl⟩
    · rw [if_neg h5]
      exact ⟨rfl, rfl⟩
  | conv | groupConv | matMul => exact ⟨rfl, rfl⟩

theorem planeH_mem : op.planeH ∈ op.planarDims := mem_append_right _ mem_cons_self

theorem planeW_mem : op.planeW ∈ op.planarDims :=
  mem_append_right _ (mem_cons_of_mem _ (mem_singleton_self _))

section
variable (h : op.Inferred outputTile tiling inputTile) (hout : op.IsOutputTile outputTile)
include h hout

theorem Inferred.sameWindows {p : PlanarDim} (hp : p ∈ op.planarDims) :
    0 < entry outputTile.shape p.dim ∧ (0 ≤ p.before tiling.pads ∧ 0 ≤ p.after tiling.pads) ∧
      SameWindows (entry op.input p.dim) p.kernel p.stride (p.before op.padding) (rangeAt outputTile p.dim)
        (entry inputTile.offsets p.dim) (entry inputTile.shape p.dim) (p.before tiling.pads) (p.after tiling.pads) :=
  (h.planar p hp).sameWindows fun hu => hout.untiled hu.1 p hp hu.2

theorem Inferred.spatialOutput : spatialOutputForInputWindowSize
      (entry inputTile.shape op.planeH.dim, entry inputTile.shape op.planeW.dim) [op.planeH.kernel, op.planeW.kernel]
      [op.planeH.stride, op.planeW.stride] tiling.pads =
        some (entry outputTile.shape op.planeH.dim, entry outputTile.shape op.planeW.dim) := by
  obtain ⟨hposH, hpadsH, hH⟩ := h.sameWindows hout planeH_mem
  obtain ⟨hposW, hpadsW, hW⟩ := h.sameWindows hout planeW_mem
  obtain ⟨htop, hbottom⟩ := op.planeH_pads tiling.pads
  obtain ⟨hleft, hright⟩ := op.planeW_pads tiling.pads
  rw [htop, hbottom] at hpadsH hH
  rw [hleft, hright] at hpadsW hW
  exact spatialOutput_of_sameWindows hpadsH hpadsW hH hW ⟨hposH, hposW⟩

theorem Inferred.computesTile (hinside : ∀ d < op.input.length, (∀ p ∈ op.planarDims, p.dim ≠ d) → 0 ≤ entry inputTile.offsets d ∧
      entry inputTile.offsets d + entry inputTile.shape d ≤ entry op.input d)
    (hgroups : op.CoversGroups outputTile inputTile) : op.ComputesTile outputTile tiling inputTile where
  first := h.first
  inside := by
    intro d hd
    by_cases hplanar : ∃ p ∈ op.planarDims, p.dim = d
    · obtain ⟨p, hp, rfl⟩ := hplanar
      have hin := (h.sameWindows hout hp).2.2.inside
      exact ⟨hin.1, hin.2.2⟩
    · push Not at hplanar
      exact hinside d hd hplanar
  spatialOutput := h.spatialOutput hout
  windows := fun _ hp => (h.sameWindows hout hp).2.2
  groups := hgroups

end

theorem forall_mem_pair {α : Type} {a b : α} {p : α → Prop} (ha : p a) (hb : p b) : ∀ x ∈ [a, b], p x := by
  intro x hx
  cases mem_cons.mp hx with
  | inl hx => exact hx ▸ ha
  | inr hx => exact mem_singleton.mp hx ▸ hb

theorem conv_computesTile {input filter bias strides : List ℤ} {padding : PadInfo}
    (hwf : (conv input filter bias strides padding).WellFormed)
    (hout : (conv input filter bias strides padding).IsOutputTile outputTile)
    (hinfer : backInferConvTile outputTile input filter bias strides padding = some tiling) :
    ∃ inputTile, (conv input filter bias strides padding).ComputesTile outputTile tiling inputTile := by
  obtain ⟨n, c, h, w, rfl⟩ := length_eq_four.mp hwf.1
  obtain ⟨tile, rest, htiles, -, -, hoff0, hshape0, hoff1, hshape1, hH, hW⟩ := backInferConvTile_spec hinfer
  have hinferred : (conv [n, c, h, w] filter bias strides padding).Inferred outputTile tiling tile := by
    constructor
    · rw [htiles]
      rfl
    · exact forall_mem_pair hH hW
  refine ⟨tile, hinferred.computesTile hout ?_ trivial⟩
  have h0 := hout.outer (0, n) mem_cons_self
  change ∀ d < 4, _
  rw [forall_lt_four]
  refine ⟨fun _ => ?_, fun _ => ?_, fun hn => ?_, fun hn => ?_⟩
  · rw [hoff0, hshape0]
    exact ⟨h0.1, h0.2.2⟩
  · rw [hoff1, hshape1]
    exact ⟨le_rfl, by simp [entry, WindowOp.input]⟩
  · exact absurd rfl (hn _ planeH_mem)
  · exact absurd rfl (hn _ planeW_mem)

theorem pool_computesTile {input kernelSize strides : List ℤ} {padding : PadInfo}
    (hwf : (pool input kernelSize strides padding).WellFormed)
    (hout : (pool input kernelSize strides padding).IsOutputTile outputTile)
    (hinfer : backInferPoolTile outputTile input kernelSize strides padding = some tiling) :
    ∃ inputTile, (pool input kernelSize strides padding).ComputesTile outputTile tiling inputTile := by
  have h0 := hout.outer (0, entry input 0) mem_cons_self
  have h1 := hout.outer (1, entry input 1) (mem_cons_of_mem _ (mem_singleton_self _))
  cases hwf with
  | inl h4 =>
    obtain ⟨n, c, h, w, rfl⟩ := length_eq_four.mp h4
    obtain ⟨tile, htiles, hoff0, hshape0, hoff1, hshape1, hH, hW⟩ := backInferPoolTile_spec hinfer
    have hinferred : (pool [n, c, h, w] kernelSize strides padding).Inferred outputTile tiling tile := by
      constructor
      · rw [htiles]
        rfl
      · exact forall_mem_pair hH hW
    refine ⟨tile, hinferred.computesTile hout ?_ trivial⟩
    change ∀ d < 4, _
    rw [forall_lt_four, hoff0, hshape0, hoff1, hshape1]
    exact ⟨fun _ => ⟨h0.1, h0.2.2⟩, fun _ => ⟨h1.1, h1.2.2⟩, fun hn => absurd rfl (hn _ planeH_mem),
      fun hn => absurd rfl (hn _ planeW_mem)⟩
  | inr h5 =>
    obtain ⟨n, c, d, h, w, rfl⟩ := length_eq_five h5
    have hinfer5 : backInfer5DPoolTile outputTile [n, c, d, h, w] kernelSize strides padding = some tiling := hinfer
    obtain ⟨tile, htiles, hoff0, hshape0, hoff1, hshape1, hD, hH, hW⟩ := backInfer5DPoolTile_spec hinfer5
    have hinferred : (pool [n, c, d, h, w] kernelSize strides padding).Inferred outputTile tiling tile := by
      constructor
      · rw [htiles]
        rfl
      · intro p hp
        cases mem_cons.mp hp with
        | inl hp => exact hp ▸ hD
        | inr hp =>
          cases mem_cons.mp hp with
          | inl hp => exact hp ▸ hH
          | inr hp => exact mem_singleton.mp hp ▸ hW
    refine ⟨tile, hinferred.computesTile hout ?_ trivial⟩
    change ∀ d < 5, _
    rw [forall_lt_five, hoff0, hshape0, hoff1, hshape1]
    exact ⟨fun _ => ⟨h0.1, h0.2.2⟩, fun _ => ⟨h1.1, h1.2.2⟩, fun hn => absurd rfl (hn _ mem_cons_self),
      fun hn => absurd rfl (hn _ planeH_mem), fun hn => absurd rfl (hn _ planeW_mem)⟩

theorem matMul_computesTile {input filter strides : List ℤ} {padding : PadInfo}
    (hwf : (matMul input filter strides padding).WellFormed)
    (hout : (matMul input filter strides padding).IsOutputTile outputTile)
    (hinfer : backInferMatMulTile outputTile input filter strides padding = some tiling) :
    ∃ inputTile, (matMul input filter strides padding).ComputesTile outputTile tiling inputTile := by
  obtain ⟨g, n, c, h, w, rfl⟩ := length_eq_five hwf.1
  have h0 := hout.outer (0, g) mem_cons_self
  have h1 := hout.outer (1, n) (mem_cons_of_mem _ mem_cons_self)
  obtain ⟨tile, rest, htiles, hoff0, hshape0, hoff1, hshape1, hoff2, hshape2, hH, hW⟩ := backInferMatMulTile_spec hinfer
  have hinferred : (matMul [g, n, c, h, w] filter strides padding).Inferred outputTile tiling tile := by
    constructor
    · rw [htiles]
      rfl
    · exact forall_mem_pair hH hW
  refine ⟨tile, hinferred.computesTile hout ?_ trivial⟩
  change ∀ d < 5, _
  rw [forall_lt_five, hoff0, hshape0, hoff1, hshape1, hoff2, hshape2]
  exact ⟨fun _ => ⟨h0.1, h0.2.2⟩, fun _ => ⟨h1.1, h1.2.2⟩, fun _ => ⟨le_rfl, by simp [entry, WindowOp.input]⟩,
    fun hn => absurd rfl (hn _ planeH_mem), fun hn => absurd rfl (hn _ planeW_mem)⟩

theorem groupConv_computesTile_iff {input filter bias strides : List ℤ} {padding : PadInfo} {groups : ℤ}
    (hwf : (groupConv input filter bias strides padding groups).WellFormed)
    (hout : (groupConv input filter bias strides padding groups).IsOutputTile outputTile)
    (hinfer : backInferGroupConvTile outputTile input filter bias strides padding groups = some tiling) :
    (∃ inputTile, (groupConv input filter bias strides padding groups).ComputesTile outputTile tiling inputTile) ↔
      (groupConv input filter bias strides padding groups).KeepsGroups outputTile := by
  obtain ⟨h4, -, hgroups, ⟨p, hp⟩, hoc, hic, hchannels⟩ := hwf
  obtain ⟨n, c, h, w, rfl⟩ := length_eq_four.mp h4
  have hppos : 0 < p := by
    rw [hp] at hoc
    exact (mul_pos_iff_of_pos_left hgroups).mp hoc
  have hdiv : entry filter 0 / groups = p := by
    rw [hp]
    exact Int.mul_ediv_cancel_left _ hgroups.ne'
  have htdiv : (entry filter 0).tdiv groups = p := by
    rw [Int.tdiv_eq_ediv_of_nonneg hoc.le, hdiv]
  have h0 := hout.outer (0, n) mem_cons_self
  have h1 := hout.outer (1, entry filter 0) (mem_cons_of_mem _ (mem_singleton_self _))
  dsimp only at h1
  obtain ⟨tile, rest, htiles, hoff0, hshape0, hoff1, hshape1, hH, hW⟩ := backInferGroupConvTile_spec hinfer
  rw [htdiv] at hoff1 hshape1
  rw [Int.tdiv_eq_ediv_of_nonneg h1.1] at hoff1
  have hcover : (groupConv [n, c, h, w] filter bias strides padding groups).CoversGroups outputTile tile ↔
      (groupConv [n, c, h, w] filter bias strides padding groups).KeepsGroups outputTile := by
    unfold CoversGroups KeepsGroups
    dsimp only
    rw [hoff1, hshape1, hdiv, hchannels]
    apply coversGroups_iff hppos hic h1.1 h1.2.1
    rw [← hp]
    exact h1.2.2
  have hinferred : (groupConv [n, c, h, w] filter bias strides padding groups).Inferred outputTile tiling tile := by
    constructor
    · rw [htiles]
      rfl
    · exact forall_mem_pair hH hW
  constructor
  · rintro ⟨tile', hcomputes⟩
    have hfirst := hcomputes.first.symm.trans hinferred.first
    rw [Option.some.inj hfirst] at hcomputes
    exact hcover.mp hcomputes.groups
  · intro hkeeps
    refine ⟨tile, hinferred.computesTile hout ?_ (hcover.mpr hkeeps)⟩
    -- the groups of the tile are groups of the input
    have hend : (entry outputTile.offsets 1 / p + divUp (entry outputTile.shape 1) p) * entry filter 1 ≤ c := by
      have hlow := (divUp_bounds h1.2.1 hppos).2
      have hoff := Int.ediv_mul_le (entry outputTile.offsets 1) hppos.ne'
      have hle : entry outputTile.offsets 1 + entry outputTile.shape 1 ≤ groups * p := hp ▸ h1.2.2
      have hlt : entry outputTile.offsets 1 / p + divUp (entry outputTile.shape 1) p - 1 < groups := by
        apply lt_of_mul_lt_mul_right _ hppos.le
        linarith
      have hc : c = groups * entry filter 1 := hchannels
      rw [hc]
      exact mul_le_mul_of_nonneg_right (by linarith) hic.le
    change ∀ d < 4, _
    rw [forall_lt_four, hoff0, hshape0, hoff1, hshape1, ← add_mul]
    exact ⟨fun _ => ⟨h0.1, h0.2.2⟩, fun _ => ⟨mul_nonneg (Int.ediv_nonneg h1.1 hppos.le) hic.le, hend⟩,
      fun hn => absurd rfl (hn _ planeH_mem), fun hn => absurd rfl (hn _ planeW_mem)⟩

/-- A tile that is inferred computes the windows of the output tile, up to the groups of a grouped convolution. -/
theorem backInfer_computesTile_iff (hwf : op.WellFormed) (hout : op.IsOutputTile outputTile)
    (hinfer : op.backInfer outputTile = some tiling) :
    (∃ inputTile, op.ComputesTile outputTile tiling inputTile) ↔ op.KeepsGroups outputTile := by
  cases op with
  | conv input filter bias strides padding => exact iff_of_true (conv_computesTile hwf hout hinfer) trivial
  | groupConv input filter bias strides padding groups => exact groupConv_computesTile_iff hwf hout hinfer
  | pool input kernelSize strides padding => exact iff_of_true (pool_computesTile hwf hout hinfer) trivial
  | matMul input filter strides padding => exact iff_of_true (matMul_computesTile hwf hout hinfer) trivial

def twoGroups : WindowOp := groupConv [1, 4, 7, 7] [6, 2, 3, 3] [] [2, 2] { left := 1, right := 1, top := 1, bottom := 1 } 2

def channelTile (offset size : ℤ) : TileInfo := ⟨[1, size, 2, 4], [0, offset, 2, 0], [1, 3, 2, 1], true⟩

theorem backInfer_computesTile_iff_twoGroups : ∃ tiling, twoGroups.backInfer (channelTile 4 2) = some tiling ∧
      ∃ inputTile, twoGroups.ComputesTile (channelTile 4 2) tiling inputTile := by
  refine ⟨_, rfl, (backInfer_computesTile_iff ?_ ?_ rfl).mpr ?_⟩
  · unfold twoGroups WellFormed
    decide
  · constructor
    · exact forall_mem_pair (by decide) (by decide)
    · exact forall_mem_pair (by decide) (by decide)
    · exact fun _ => forall_mem_pair (by decide) (by decide)
  · unfold twoGroups KeepsGroups
    decide

/-- Output channels 2 and 3 lie in different groups, but the input tile has the channels of the first group only. -/
theorem twoGroups_across : ∃ tiling, twoGroups.backInfer (channelTile 2 2) = some tiling ∧
      ¬∃ inputTile, twoGroups.ComputesTile (channelTile 2 2) tiling inputTile := by
  refine ⟨_, rfl, ?_⟩
  rintro ⟨inputTile, h⟩
  have hfirst : some (⟨[1, 2, 4, 7], [0, 0, 3, 0], [1, 3, 2, 1], false⟩ : TileInfo) = some inputTile := h.first
  have hgroups := h.groups 2 (by decide) (by decide)
  rw [← Option.some.inj hfirst] at hgroups
  have hin := hgroups.mpr ⟨3, by decide, by decide, by decide⟩
  revert hin
  decide

end WindowOp

end NpuCompiler.Tiling
