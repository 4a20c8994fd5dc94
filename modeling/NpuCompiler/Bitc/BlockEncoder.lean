import NpuCompiler.Bitc.BlockFormat

namespace NpuCompiler.Bitc

open BitFields Encoder List Option

section
variable {config : BitCompactorConfig} {data prevBlk : List UInt8} {algo : EncoderAlgorithm}

theorem algorithmOverheadBits_eq (hmem : algo ∈ algorithms config) :
    algorithmOverheadBits algo = 10 + if hasMinimum (encoderToDecoderMapping algo) then 8 else 0 := by
  cases algo with
  | bincmpct =>
    unfold algorithms at hmem
    split at hmem <;> simp [encoderAlgorithms] at hmem
  | btmap =>
    unfold algorithms at hmem
    split at hmem <;> simp [encoderAlgorithms] at hmem
  | _ => rfl

theorem width_minimumFields (param : AlgorithmParam) :
    width (minimumFields param) = if hasMinimum param.decoder then 8 else 0 := by
  unfold minimumFields
  split_ifs <;> simp

theorem width_padField (config : BitCompactorConfig) (n : ℕ) :
    (padField config n).width = if config.archType = .npu27 then 0 else n := rfl

theorem width_plainFields (param : AlgorithmParam) :
    width (plainFields config param) =
      10 + (if hasMinimum param.decoder then 8 else 0) + (if config.archType = .npu27 then 0 else 6) +
        param.bitLength * param.residual.length +
          (if config.archType = .npu27 then 0 else
            byteAlign (param.bitLength * param.residual.length) - param.bitLength * param.residual.length) := by
  unfold plainFields residualFields
  simp only [width_append, width_cons, width_nil, width_minimumFields, width_padField, low_width,
    width_symbolFields_zero]
  omega

theorem width_dualFields (param : AlgorithmParam) :
    width (dualFields config param) =
      84 + (if hasMinimum param.decoder then 8 else 0) + (if config.archType = .npu27 then 0 else 4) +
        width (symbolFields param.dualBitLength param.residual param.dualBitmap) +
          (if config.archType = .npu27 then 0 else
            byteAlign (width (symbolFields param.dualBitLength param.residual param.dualBitmap)) -
              width (symbolFields param.dualBitLength param.residual param.dualBitmap)) := by
  unfold dualFields residualFields
  simp only [width_append, width_cons, width_nil, width_minimumFields, width_padField, low_width]
  omega

theorem blockParam_residual_length (hlen : data.length = blockSize)
    (hprev : algo = .prevblkprdct → prevBlk.length = data.length) :
    (algorithmEncoder config algo data prevBlk).residual.length = blockSize :=
  (algorithmEncoder_length hprev).trans hlen

theorem blockParam_residual (config : BitCompactorConfig) (data prevBlk : List UInt8) (algo : EncoderAlgorithm) :
    (blockParam config data prevBlk algo).residual = (algorithmEncoder config algo data prevBlk).residual ∧
      (blockParam config data prevBlk algo).minimum = (algorithmEncoder config algo data prevBlk).minimum ∧
      (blockParam config data prevBlk algo).bitLength = (algorithmEncoder config algo data prevBlk).bitLength ∧
      (blockParam config data prevBlk algo).decoder = encoderToDecoderMapping algo := by
  unfold blockParam addOverheadAndPadding
  split_ifs <;> exact ⟨rfl, rfl, rfl, rfl⟩

theorem width_plainFields_blockParam (hmem : algo ∈ algorithms config) (hlen : data.length = blockSize)
    (hprev : algo = .prevblkprdct → prevBlk.length = data.length) :
    width (plainFields config (blockParam config data prevBlk algo)) = (blockParam config data prevBlk algo).encodingBits := by
  obtain ⟨hres, -, hbl, hdec⟩ := blockParam_residual config data prevBlk algo
  have hresidual := @blockParam_residual_length config data prevBlk algo hlen hprev
  have hbits : (blockParam config data prevBlk algo).encodingBits =
      (algorithmEncoder config algo data prevBlk).bitLength * blockSize + algorithmOverheadBits algo +
        if config.archType = .npu27 then 0 else 6 := by
    unfold blockParam addOverheadAndPadding
    by_cases harch : config.archType = .npu27
    · simp [harch]
    · simp [harch, cmprsPad]
  have halign : byteAlign ((algorithmEncoder config algo data prevBlk).bitLength * blockSize) =
      (algorithmEncoder config algo data prevBlk).bitLength * blockSize := by
    unfold byteAlign blockSize
    omega
  rw [width_plainFields, hres, hbl, hdec, hresidual, hbits, algorithmOverheadBits_eq hmem, halign]
  split_ifs <;> omega

theorem dual_eq (hdual : isAlgoDualEncodeCompatible config algo = true) :
    (blockParam config data prevBlk algo).dualBitLength =
        (dualEncode config (algorithmEncoder config algo data prevBlk).residual).bitLength ∧
      (blockParam config data prevBlk algo).dualBitmap =
        (dualEncode config (algorithmEncoder config algo data prevBlk).residual).bitmap ∧
      (blockParam config data prevBlk algo).dualEncodingBits =
        if config.archType = .npu27 then
          (dualEncode config (algorithmEncoder config algo data prevBlk).residual).encodingBits +
            algorithmOverheadBits algo + 74
        else byteAlign ((dualEncode config (algorithmEncoder config algo data prevBlk).residual).encodingBits +
          algorithmOverheadBits algo + 74 + 4) := by
  unfold blockParam addOverheadAndPadding
  by_cases harch : config.archType = .npu27
  · simp [harch, hdual]
  · simp [harch, hdual, dualCmprsPad]

theorem width_dualFields_blockParam (hmem : algo ∈ algorithms config) (hlen : data.length = blockSize)
    (hprev : algo = .prevblkprdct → prevBlk.length = data.length)
    (hdual : isAlgoDualEncodeCompatible config algo = true) :
    width (dualFields config (blockParam config data prevBlk algo)) =
      (blockParam config data prevBlk algo).dualEncodingBits := by
  obtain ⟨hres, -, -, hdec⟩ := blockParam_residual config data prevBlk algo
  obtain ⟨hbl, hbm, hbits⟩ := @dual_eq config data prevBlk algo hdual
  have hfits := dualEncode_fits config (@blockParam_residual_length config data prevBlk algo hlen hprev)
  rw [width_dualFields, hres, hbl, hbm, hdec, hbits, hfits.width_eq, algorithmOverheadBits_eq hmem]
  unfold byteAlign
  split_ifs <;> omega

theorem keepBest_plain (b : BestAlgorithm) (p : AlgorithmParam) :
    ((keepBest b p).minEncoderBits, (keepBest b p).minParam) =
      if p.encodingBits < b.minEncoderBits then (p.encodingBits, p) else (b.minEncoderBits, b.minParam) := by
  unfold keepBest
  by_cases h1 : p.encodingBits < b.minEncoderBits
  · simp only [h1, if_true]
    split_ifs <;> rfl
  · simp only [h1, if_false]
    split_ifs <;> rfl

theorem keepBest_dual (b : BestAlgorithm) (p : AlgorithmParam) :
    ((keepBest b p).dualMinEncoderBits, (keepBest b p).dualMinParam) =
      if p.dualEncodingBits < b.dualMinEncoderBits then (p.dualEncodingBits, p)
      else (b.dualMinEncoderBits, b.dualMinParam) := by
  unfold keepBest
  by_cases h1 : p.encodingBits < b.minEncoderBits
  · simp only [h1, if_true]
    split_ifs <;> rfl
  · simp only [h1, if_false]
    split_ifs <;> rfl

theorem foldl_smallest {size : AlgorithmParam → ℕ} {kept : BestAlgorithm → ℕ × AlgorithmParam}
    (hkept : ∀ b p, kept (keepBest b p) = if size p < (kept b).1 then (size p, p) else kept b)
    (l : List AlgorithmParam) (b : BestAlgorithm) :
    (kept (l.foldl keepBest b)).1 ≤ (kept b).1 ∧ (∀ p ∈ l, (kept (l.foldl keepBest b)).1 ≤ size p) ∧
      (kept (l.foldl keepBest b) = kept b ∨
        ∃ p ∈ l, kept (l.foldl keepBest b) = (size p, p)) := by
  induction l generalizing b with
  | nil => exact ⟨le_refl _, by simp, .inl rfl⟩
  | cons p l ih =>
    obtain ⟨hle, hall, hfrom⟩ := ih (keepBest b p)
    rw [foldl_cons]
    have hstep := hkept b p
    by_cases hsmall : size p < (kept b).1
    · rw [if_pos hsmall] at hstep
      rw [hstep] at hle hfrom
      refine ⟨hle.trans hsmall.le, forall_mem_cons.mpr ⟨hle, hall⟩, .inr ?_⟩
      rcases hfrom with heq | ⟨q, hq, heq⟩
      · exact ⟨p, mem_cons_self .., heq⟩
      · exact ⟨q, mem_cons_of_mem p hq, heq⟩
    · rw [if_neg hsmall] at hstep
      rw [hstep] at hle hfrom
      refine ⟨hle, forall_mem_cons.mpr ⟨hle.trans (not_lt.mp hsmall), hall⟩, ?_⟩
      exact hfrom.imp_right (fun ⟨q, hq, heq⟩ => ⟨q, mem_cons_of_mem p hq, heq⟩)

variable {config : BitCompactorConfig} {data prevBlk : List UInt8} {blk : ℕ}

theorem noprdct_mem (config : BitCompactorConfig) (blk : ℕ) :
    EncoderAlgorithm.noprdct ∈ (algorithms config).filter (isAlgoValid · blk) := by
  unfold algorithms
  split_ifs <;> simp [encoderAlgorithms, isAlgoValid]

structure Usable (config : BitCompactorConfig) (data prevBlk : List UInt8) (algo : EncoderAlgorithm) : Prop where
  mem : algo ∈ algorithms config
  weight : algo = .minsprdct → config.weightCompressEnable = true
  prev : algo = .prevblkprdct → prevBlk.length = data.length

theorem encodingBits_eq (config : BitCompactorConfig) (data prevBlk : List UInt8) (algo : EncoderAlgorithm) :
    (blockParam config data prevBlk algo).encodingBits =
      (algorithmEncoder config algo data prevBlk).bitLength * blockSize + algorithmOverheadBits algo +
        if config.archType = .npu27 then 0 else 6 := by
  unfold blockParam addOverheadAndPadding
  by_cases harch : config.archType = .npu27
  · simp [harch]
  · simp [harch, cmprsPad]

theorem dummy_minsprdct (hweight : config.weightCompressEnable = false) :
    algorithmEncoder config .minsprdct data prevBlk = dummyprdct data := by
  rw [algorithmEncoder, hweight, if_neg Bool.false_ne_true]

theorem usable_of_mem {algo : EncoderAlgorithm} (hmem : algo ∈ (algorithms config).filter (isAlgoValid · blk))
    (hprev : blk ≠ 0 → prevBlk.length = data.length)
    (hweight : algo = .minsprdct → config.weightCompressEnable = true) : Usable config data prevBlk algo := by
  obtain ⟨hmem, hvalid⟩ := mem_filter.mp hmem
  refine ⟨hmem, hweight, ?_⟩
  rintro rfl
  apply hprev
  rintro rfl
  exact absurd hvalid (by decide)

theorem best_plain (hprev : blk ≠ 0 → prevBlk.length = data.length) :
    ∃ algo, Usable config data prevBlk algo ∧
      (getBestAlgorithm config blk data prevBlk).minParam = blockParam config data prevBlk algo ∧
      (getBestAlgorithm config blk data prevBlk).minEncoderBits = (blockParam config data prevBlk algo).encodingBits := by
  have hsearch := @foldl_smallest AlgorithmParam.encodingBits (fun b => (b.minEncoderBits, b.minParam)) keepBest_plain
    (((algorithms config).filter (isAlgoValid · blk)).map (blockParam config data prevBlk))
    ⟨2 ^ 32 - 1, emptyParam, 2 ^ 32 - 1, emptyParam⟩
  obtain ⟨-, hall, hfrom⟩ := hsearch
  have hno := hall _ (mem_map_of_mem (noprdct_mem config blk))
  rw [encodingBits_eq] at hno
  have hbits := (@algorithmEncoder_fits config .noprdct data prevBlk).2.1
  have hoverhead : algorithmOverheadBits .noprdct = 10 := rfl
  have hpad : (if config.archType = .npu27 then 0 else 6) ≤ 6 := by split_ifs <;> omega
  change (_, _) = (_, _) ∨ _ at hfrom
  simp only [Prod.mk.injEq] at hno hfrom
  unfold getBestAlgorithm
  unfold blockSize at hno
  rcases hfrom with ⟨hstart, -⟩ | ⟨p, hp, hmin, hparam⟩
  · rw [hstart] at hno
    omega
  · obtain ⟨algo, hmem, rfl⟩ := mem_map.mp hp
    refine ⟨algo, usable_of_mem hmem hprev ?_, hparam, hmin⟩
    rintro rfl
    by_contra hweight
    rw [hmin, encodingBits_eq, dummy_minsprdct (by simpa using hweight)] at hno
    have hdummy : (dummyprdct data).bitLength = 8 := rfl
    have hoverhead' : algorithmOverheadBits .minsprdct = 18 := rfl
    unfold blockSize at hno
    omega

theorem best_dual (hlen : data.length = blockSize) (hprev : blk ≠ 0 → prevBlk.length = data.length) :
    ∃ algo, Usable config data prevBlk algo ∧ isAlgoDualEncodeCompatible config algo = true ∧
      (getBestAlgorithm config blk data prevBlk).dualMinParam = blockParam config data prevBlk algo ∧
      (getBestAlgorithm config blk data prevBlk).dualMinEncoderBits =
        (blockParam config data prevBlk algo).dualEncodingBits := by
  have hsearch := @foldl_smallest AlgorithmParam.dualEncodingBits (fun b => (b.dualMinEncoderBits, b.dualMinParam))
    keepBest_dual (((algorithms config).filter (isAlgoValid · blk)).map (blockParam config data prevBlk))
    ⟨2 ^ 32 - 1, emptyParam, 2 ^ 32 - 1, emptyParam⟩
  obtain ⟨-, hall, hfrom⟩ := hsearch
  have hno := hall _ (mem_map_of_mem (noprdct_mem config blk))
  have hcompat : isAlgoDualEncodeCompatible config .noprdct = true := by simp [isAlgoDualEncodeCompatible]
  obtain ⟨-, -, hbits⟩ := @dual_eq config data prevBlk .noprdct hcompat
  have hsize := (dualEncode_fits config (show (algorithmEncoder config .noprdct data prevBlk).residual.length = _ from hlen)).size
  have hoverhead : algorithmOverheadBits .noprdct = 10 := rfl
  have hres : (algorithmEncoder config .noprdct data prevBlk).residual = data := rfl
  rw [hres] at hbits hsize
  simp only [Prod.mk.injEq] at hno hfrom
  unfold getBestAlgorithm
  have hsmall : (blockParam config data prevBlk .noprdct).dualEncodingBits < 606 := by
    rw [hbits]
    unfold byteAlign
    split_ifs <;> omega
  rcases hfrom with ⟨hstart, -⟩ | ⟨p, hp, hmin, hparam⟩
  · rw [hstart] at hno
    omega
  · obtain ⟨algo, hmem, rfl⟩ := mem_map.mp hp
    rw [hmin] at hno
    have hdual : isAlgoDualEncodeCompatible config algo = true := by
      by_contra hdual
      have hexcluded : config.archType = .npu27 ∧ algo = .minsprdct := by
        simpa [isAlgoDualEncodeCompatible] using hdual
      obtain ⟨harch, rfl⟩ := hexcluded
      have hfull : (blockParam config data prevBlk .minsprdct).dualEncodingBits = 606 := by
        simp [blockParam, addOverheadAndPadding, isAlgoDualEncodeCompatible, harch, maxBlockCompressionBits, blockSize,
          algorithmOverheadBits]
      omega
    refine ⟨algo, usable_of_mem hmem hprev ?_, hdual, hparam, hmin⟩
    rintro rfl
    by_contra hweight
    obtain ⟨-, -, hbits'⟩ := @dual_eq config data prevBlk .minsprdct hdual
    rw [dummy_minsprdct (by simpa using hweight)] at hbits'
    have hres' : (dummyprdct data).residual = data := rfl
    have hoverhead' : algorithmOverheadBits .minsprdct = 18 := rfl
    -- the stand-in leaves the same symbols as `noprdct` under a longer header
    rw [hres'] at hbits'
    rw [hbits, hbits'] at hno
    unfold byteAlign at hno
    split_ifs at hno <;> omega

theorem writeMinimum_spec {s : BitStream} {fs : List Field} {bits : ℕ} (param : AlgorithmParam) (h : Written s fs bits)
    (hle : width fs + width (minimumFields param) ≤ bits) :
    ∃ s', (if hasMinimum param.decoder then s.write param.minimum.toNat 8 else some s) = some s' ∧
      Written s' (fs ++ minimumFields param) bits := by
  unfold minimumFields at hle ⊢
  by_cases hmin : hasMinimum param.decoder = true
  · simp only [if_pos hmin] at hle ⊢
    exact h.write _ (by omega) (by simpa using hle)
  · simp only [if_neg hmin, append_nil]
    exact ⟨s, rfl, h⟩

theorem writeDual_spec {best : BestAlgorithm} (hdual : usingDualEncoder best = true)
    (hbl : best.dualMinParam.dualBitLength ≤ 8)
    (hwidth : width (dualFields config best.dualMinParam) = best.dualMinParam.dualEncodingBits)
    (hfits : best.dualMinParam.dualEncodingBits < 2 ^ 32) :
    ∃ s, writeCompressedBlk config best = some s ∧
      Written s (dualFields config best.dualMinParam) best.dualMinParam.dualEncodingBits := by
  have hstart := written_allocate best.dualMinParam.dualEncodingBits hfits
  generalize hparam : best.dualMinParam = param at *
  have hle := hwidth.le
  unfold dualFields at hle ⊢
  simp only [width_append, width_cons, width_nil, low_width, Nat.add_zero] at hle
  obtain ⟨s₁, hwrite₁, h₁⟩ := hstart.write
    (createCompressionHeader config .cmprsd { param with bitLength := param.dualBitLength } true)
    (by omega : 20 ≤ 64) (by simp; omega)
  obtain ⟨s₂, hwrite₂, h₂⟩ := @Written.pad config s₁ _ _ h₁ 4 (by omega) (by simp; omega)
  obtain ⟨s₃, hwrite₃, h₃⟩ := @writeMinimum_spec s₂ _ _ param h₂ (by simp; omega)
  obtain ⟨s₄, hwrite₄, h₄⟩ := h₃.write param.dualBitmap (le_refl 64) (by simp; omega)
  obtain ⟨s₅, hwrite₅, h₅⟩ := @writeResidual_spec config s₄ _ _ param.dualBitLength hbl param.residual param.dualBitmap h₄
    (by simp; omega)
  refine ⟨s₅, ?_, by simpa using h₅⟩
  unfold writeCompressedBlk writeDualEncodeHeader
  simp only [hdual, if_true, hparam, bind_eq_bind, hwrite₁, hwrite₂, bind_some]
  by_cases hmin : hasMinimum param.decoder = true
  · rw [if_pos hmin] at hwrite₃
    simp only [Option.pure_def, Option.bind_some, if_pos hmin, hwrite₃, hwrite₄]
    exact hwrite₅
  · rw [if_neg hmin, Option.some.injEq] at hwrite₃
    simp only [Option.pure_def, Option.bind_some, if_neg hmin, hwrite₃, hwrite₄]
    exact hwrite₅

theorem writePlain_spec {best : BestAlgorithm} (hplain : usingDualEncoder best = false)
    (hbl : best.minParam.bitLength ≤ 8)
    (hwidth : width (plainFields config best.minParam) = best.minParam.encodingBits)
    (hfits : best.minParam.encodingBits < 2 ^ 32) :
    ∃ s, writeCompressedBlk config best = some s ∧
      Written s (plainFields config best.minParam) best.minParam.encodingBits := by
  have hstart := written_allocate best.minParam.encodingBits hfits
  generalize hparam : best.minParam = param at *
  have hle := hwidth.le
  unfold plainFields at hle ⊢
  simp only [width_append, width_cons, width_nil, low_width, Nat.add_zero] at hle
  obtain ⟨s₁, hwrite₁, h₁⟩ := hstart.write (createCompressionHeader config .cmprsd param false) (by omega : 10 ≤ 64)
    (by simp; omega)
  obtain ⟨s₂, hwrite₂, h₂⟩ := @Written.pad config s₁ _ _ h₁ 6 (by omega) (by simp; omega)
  obtain ⟨s₃, hwrite₃, h₃⟩ := @writeMinimum_spec s₂ _ _ param h₂ (by simp; omega)
  obtain ⟨s₄, hwrite₄, h₄⟩ := @writeResidual_spec config s₃ _ _ param.bitLength hbl param.residual 0 h₃ (by simp; omega)
  refine ⟨s₄, ?_, by simpa using h₄⟩
  -- the header does not hold the bitmap
  have hheader : createCompressionHeader config .cmprsd { param with dualBitmap := 0 } false =
      createCompressionHeader config .cmprsd param false := by
    unfold createCompressionHeader
    rw [if_neg Bool.false_ne_true, if_neg Bool.false_ne_true]
  unfold writeCompressedBlk writeCompressedHeader
  simp only [hplain, Bool.false_eq_true, if_false, hparam, bind_eq_bind, hheader, hwrite₁, hwrite₂, bind_some]
  by_cases hmin : hasMinimum param.decoder = true
  · rw [if_pos hmin] at hwrite₃
    simp only [Option.pure_def, Option.bind_some, if_pos hmin, hwrite₃]
    exact hwrite₄
  · rw [if_neg hmin, Option.some.injEq] at hwrite₃
    simp only [Option.pure_def, Option.bind_some, if_neg hmin, hwrite₃]
    exact hwrite₄

theorem width_uncompressedFields (hlen : data.length = blockSize) :
    width (uncompressedFields config data) = maxBlockCompressionBits config := by
  unfold uncompressedFields residualFields maxBlockCompressionBits byteAlign blockSize at *
  simp only [width_append, width_cons, width_nil, low_width, width_padField, width_symbolFields_zero, hlen]
  split_ifs <;> omega

theorem writeUncompressedBlk_spec (hlen : data.length = blockSize) :
    ∃ s, writeUncompressedBlk config data = some s ∧
      Written s (uncompressedFields config data) (maxBlockCompressionBits config) := by
  have hle := (@width_uncompressedFields config data hlen).le
  have hfits : maxBlockCompressionBits config < 2 ^ 32 := by
    unfold maxBlockCompressionBits blockSize
    split_ifs <;> omega
  have hstart := written_allocate (maxBlockCompressionBits config) hfits
  unfold uncompressedFields at hle ⊢
  simp only [width_append, width_cons, width_nil, low_width, Nat.add_zero] at hle
  obtain ⟨s₁, hwrite₁, h₁⟩ := @Written.write _ _ _ hstart (headerBits .uncmprsd 0 0 0 0) 2 (by omega)
    (by rw [width_nil]; omega)
  obtain ⟨s₂, hwrite₂, h₂⟩ := @Written.pad config s₁ _ _ h₁ 6 (by omega) (by simp; omega)
  obtain ⟨s₃, hwrite₃, h₃⟩ := @writeResidual_spec config s₂ _ _ 8 (le_refl 8) data 0 h₂ (by simp; omega)
  refine ⟨s₃, ?_, by simpa using h₃⟩
  unfold writeUncompressedBlk
  simp only [bind_eq_bind, hwrite₁, hwrite₂, bind_some]
  exact hwrite₃

theorem width_lastFields (data : List UInt8) : width (lastFields data) = (data.length + 1) * 8 := by
  rw [lastFields, width_cons, low_width, width_symbolFields_zero]
  omega

theorem writeLastBlk_spec (hfits : (data.length + 1) * 8 < 2 ^ 32) :
    ∃ s, writeLastBlk data = some s ∧ Written s (lastFields data) ((data.length + 1) * 8) := by
  have hstart := written_allocate ((data.length + 1) * 8) hfits
  obtain ⟨s₁, hwrite₁, h₁⟩ := hstart.write (CompressionType.lastblk.code + 2 ^ 2 * (data.length % 2 ^ 6))
    (by omega : 8 ≤ 64) (by simp)
  have hbytes : ∀ (rest : List UInt8) {s : BitStream} {fs : List Field}, Written s fs ((data.length + 1) * 8) →
      width fs + 8 * rest.length ≤ (data.length + 1) * 8 →
      ∃ s', rest.foldlM (fun stream byte => stream.write byte.toNat 8) s = some s' ∧
        Written s' (fs ++ symbolFields 8 rest 0) ((data.length + 1) * 8) := by
    intro rest
    induction rest with
    | nil => exact fun h _ => ⟨_, rfl, by simpa [symbolFields] using h⟩
    | cons byte rest ih =>
      intro s fs h hle
      rw [length_cons] at hle
      obtain ⟨s', hwrite, h'⟩ := h.write byte.toNat (by omega : 8 ≤ 64) (by omega)
      obtain ⟨s'', heq, h''⟩ := ih h' (by simp; omega)
      refine ⟨s'', ?_, by simpa [symbolFields] using h''⟩
      rw [foldlM_cons, hwrite]
      exact heq
  obtain ⟨s₂, heq, h₂⟩ := hbytes data h₁ (by simp; omega)
  refine ⟨s₂, ?_, by simpa [lastFields] using h₂⟩
  unfold writeLastBlk
  simp only [bind_eq_bind, hwrite₁, bind_some]
  exact heq

def blockBits (config : BitCompactorConfig) (blk : ℕ) (data prevBlk : List UInt8) : ℕ :=
  let best := getBestAlgorithm config blk data prevBlk
  if isCompressionBetterThanUncompressed config best then min best.dualMinEncoderBits best.minEncoderBits
  else maxBlockCompressionBits config

theorem bits_bound {algo : EncoderAlgorithm} (hlen : data.length = blockSize) (hu : Usable config data prevBlk algo) :
    (blockParam config data prevBlk algo).encodingBits < 2 ^ 32 ∧
      (isAlgoDualEncodeCompatible config algo = true → (blockParam config data prevBlk algo).dualEncodingBits < 2 ^ 32) := by
  have hbits := (@algorithmEncoder_fits config algo data prevBlk).2.1
  have hoverhead : algorithmOverheadBits algo ≤ 90 := by cases algo <;> decide
  constructor
  · rw [encodingBits_eq]
    unfold blockSize
    split_ifs <;> omega
  · intro hdual
    have hsize := (dualEncode_fits config (@blockParam_residual_length config data prevBlk algo hlen hu.prev)).size
    rw [(@dual_eq config data prevBlk algo hdual).2.2]
    unfold byteAlign
    split_ifs <;> omega

theorem encodeBlk_spec (hlen : data.length = blockSize) (hprev : blk ≠ 0 → prevBlk.length = data.length) :
    ∃ s, (if isCompressionBetterThanUncompressed config (getBestAlgorithm config blk data prevBlk) then
        writeCompressedBlk config (getBestAlgorithm config blk data prevBlk)
      else writeUncompressedBlk config data) = some s ∧
      Written s (blockFields config (getBestAlgorithm config blk data prevBlk) data) (blockBits config blk data prevBlk) ∧
      width (blockFields config (getBestAlgorithm config blk data prevBlk) data) = blockBits config blk data prevBlk := by
  obtain ⟨algo, hu, hparam, hmin⟩ := @best_plain config data prevBlk blk hprev
  obtain ⟨algo', hu', hdual, hparam', hmin'⟩ := @best_dual config data prevBlk blk hlen hprev
  unfold blockFields blockBits
  generalize getBestAlgorithm config blk data prevBlk = best at *
  by_cases hbetter : isCompressionBetterThanUncompressed config best = true
  · simp only [if_pos hbetter]
    by_cases husing : usingDualEncoder best = true
    · have hlt : best.dualMinEncoderBits < best.minEncoderBits := of_decide_eq_true husing
      have hwidth := @width_dualFields_blockParam config data prevBlk algo' hu'.mem hlen hu'.prev hdual
      rw [if_pos husing, min_eq_left hlt.le, hmin']
      rw [← hparam'] at hwidth ⊢
      have hbl : best.dualMinParam.dualBitLength ≤ 8 := by
        rw [hparam', (@dual_eq config data prevBlk algo' hdual).1]
        exact (dualEncode_fits config (@blockParam_residual_length config data prevBlk algo' hlen hu'.prev)).le
      have hfits : best.dualMinParam.dualEncodingBits < 2 ^ 32 := by
        rw [hparam']
        exact (bits_bound hlen hu').2 hdual
      obtain ⟨s, hs, hw⟩ := writeDual_spec husing hbl hwidth hfits
      exact ⟨s, hs, hw, hwidth⟩
    · have hle : best.minEncoderBits ≤ best.dualMinEncoderBits := by
        simpa [usingDualEncoder] using husing
      have hwidth := @width_plainFields_blockParam config data prevBlk algo hu.mem hlen hu.prev
      rw [if_neg husing, min_eq_right hle, hmin]
      rw [← hparam] at hwidth ⊢
      have hbl : best.minParam.bitLength ≤ 8 := by
        rw [hparam, (blockParam_residual config data prevBlk algo).2.2.1]
        exact (@algorithmEncoder_fits config algo data prevBlk).2.1
      have hfits : best.minParam.encodingBits < 2 ^ 32 := by
        rw [hparam]
        exact (bits_bound hlen hu).1
      obtain ⟨s, hs, hw⟩ := writePlain_spec (by simpa using husing) hbl hwidth hfits
      exact ⟨s, hs, hw, hwidth⟩
  · simp only [if_neg hbetter]
    obtain ⟨s, hs, hw⟩ := @writeUncompressedBlk_spec config data hlen
    exact ⟨s, hs, hw, width_uncompressedFields hlen⟩

end

end NpuCompiler.Bitc
