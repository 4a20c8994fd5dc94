import NpuCompiler.Memory.DmaPattern

namespace NpuCompiler.Memory

open LoopNest List

section
variable {elemSize front : ℤ} {group : ℤ × ℤ} {done : List (ℤ × ℤ)} {reduction : Reduction}

theorem flush_spec (helem : 0 < elemSize) (hpos : 0 < group.1) (h : Grouped elemSize group done reduction) :
    ∃ x, flush elemSize front reduction =
      (bitDims elemSize (trimUnit (group :: done)), ((trimUnit (group :: done)).dropLast.map Prod.snd).reverse ++ [x]) := by
  unfold flush
  rw [h.accumulatedSize, h.reducedBitDims, h.reducedBitStrides]
  cases done with
  | nil => exact ⟨front, if_pos (Or.inr rfl)⟩
  | cons next rest =>
    have hne : bitDims elemSize (next :: rest) ≠ [] := by
      unfold bitDims
      exact append_ne_nil_of_right_ne_nil _ (cons_ne_nil _ _)
    rw [if_neg (cons_ne_nil _ _), trimUnit_cons_cons]
    by_cases hone : group.1 = 1
    · rw [if_pos hone, hone, Int.mul_one, if_neg (by simp [hne]), dropLast_cons_of_ne_nil (cons_ne_nil _ _), map_cons,
        reverse_cons]
      exact ⟨group.2, rfl⟩
    · have hlarger : elemSize < elemSize * group.1 := by
        have := Int.mul_lt_mul_of_pos_left (show 1 < group.1 by omega) helem
        omega
      rw [if_neg hone, if_pos (Or.inl hlarger)]
      refine ⟨front, ?_⟩
      rw [show bitDims elemSize (group :: next :: rest) = bitDims elemSize (next :: rest) ++ [elemSize * group.1] from
        congrArg (bitDims elemSize (next :: rest) ++ [·]) (if_neg (cons_ne_nil _ _)), dropLast_cons_of_ne_nil
        (cons_ne_nil _ _), map_cons, reverse_cons]

variable {memShape memStrides : List ℤ} {assumeDynamicStrides : Bool} {pattern : DMAPattern} {init : List (ℤ × ℤ)} {run : ℤ}

theorem tensorLoops_pos (hpos : ∀ d ∈ memShape, 0 < d) (helem : 0 < elemSize) :
    ∀ loop ∈ tensorLoops memShape memStrides elemSize, 0 < loop.1 := by
  intro loop hloop
  cases mem_append.mp hloop with
  | inl hdim => exact hpos _ (of_mem_zip hdim).1
  | inr helem' =>
    rw [mem_singleton.mp helem']
    exact helem

def reducedLoops (memShape memStrides : List ℤ) (elemSize : ℤ) (assumeDynamicStrides : Bool) : List (ℤ × ℤ) :=
  if assumeDynamicStrides then tensorLoops memShape memStrides elemSize
  else trimUnit (collapse (tensorLoops memShape memStrides elemSize))

theorem reducedLoops_run : ∃ init, reducedLoops memShape memStrides elemSize assumeDynamicStrides =
    init ++ [(innermostRun memShape memStrides elemSize assumeDynamicStrides, 1)] ∧
      elemSize ∣ innermostRun memShape memStrides elemSize assumeDynamicStrides := by
  unfold reducedLoops innermostRun
  cases assumeDynamicStrides with
  | true => exact ⟨_, rfl, dvd_refl _⟩
  | false =>
    obtain ⟨init, hcollapse, -, hfactor⟩ := @collapse_run elemSize (memShape.zip memStrides)
    unfold tensorLoops
    rw [if_neg Bool.false_ne_true, if_neg Bool.false_ne_true, hcollapse]
    obtain ⟨init', htrim, -⟩ := @trimUnit_append ((contiguousRun elemSize (memShape.zip memStrides)).1, 1) init
    exact ⟨init', htrim, hfactor⟩

theorem innermostRun_pos (hpos : ∀ d ∈ memShape, 0 < d) (helem : 0 < elemSize) :
    0 < innermostRun memShape memStrides elemSize assumeDynamicStrides := by
  have hloops := @tensorLoops_pos elemSize memShape memStrides hpos helem
  unfold innermostRun
  cases assumeDynamicStrides with
  | true => exact helem
  | false =>
    obtain ⟨init, hcollapse, -, -⟩ := @collapse_run elemSize (memShape.zip memStrides)
    have hall := collapse_pos hloops
    unfold tensorLoops at hall
    rw [hcollapse] at hall
    exact hall _ (mem_append_right _ mem_cons_self)

theorem groupsOf_pos {ext : List (ℤ × ℤ)} (hpos : ∀ loop ∈ loopsOf ext, 0 < loop.1) :
    ∀ group ∈ groupsOf assumeDynamicStrides ext, 0 < group.1 := by
  have hall : ∀ loop ∈ (1, stepOf ext) :: loopsOf ext, 0 < loop.1 := forall_mem_cons.mpr ⟨Int.one_pos, hpos⟩
  unfold groupsOf
  split_ifs
  · exact hall
  · exact collapse_pos hall

theorem trimUnit_groupsOf {size stride : ℤ} {sizes strides : List ℤ} (hlen : strides.length = sizes.length) :
    trimUnit (groupsOf assumeDynamicStrides ((size :: sizes ++ [elemSize]).zip (stride * size :: stride :: strides))) =
      reducedLoops (size :: sizes) (stride :: strides) elemSize assumeDynamicStrides := by
  obtain ⟨hloops, hstep⟩ := @loopsOf_zip elemSize (size :: sizes) (stride :: strides) (stride * size) (by simpa using hlen)
  have hcons : tensorLoops (size :: sizes) (stride :: strides) elemSize = (size, stride) :: tensorLoops sizes strides elemSize := rfl
  unfold groupsOf reducedLoops
  rw [hloops, hstep]
  cases assumeDynamicStrides with
  | true =>
    rw [if_pos rfl, if_pos rfl, hcons, trimUnit_cons_cons, if_pos rfl]
  | false =>
    rw [if_neg Bool.false_ne_true, if_neg Bool.false_ne_true, hcons]
    obtain ⟨next, rest, hcollapse, hspan⟩ := @collapse_cons (size, stride) (tensorLoops sizes strides elemSize)
    rw [collapse_of_cons hcollapse, hspan, if_pos (Int.mul_comm _ _), hcollapse, Int.one_mul]

theorem reduceDimsForDma_spec (hlen : memStrides.length = memShape.length) (hpos : ∀ d ∈ memShape, 0 < d) (helem : 0 < elemSize)
    (hbytes : 8 ∣ innermostRun memShape memStrides elemSize assumeDynamicStrides)
    (hreturn : reduceDimsForDma memShape memStrides elemSize assumeDynamicStrides = some pattern)
    (hloops : reducedLoops memShape memStrides elemSize assumeDynamicStrides =
      init ++ [(innermostRun memShape memStrides elemSize assumeDynamicStrides, 1)]) :
    pattern.loops = init.map (fun group => (group.1, group.2 / 8)) ++
        [(innermostRun memShape memStrides elemSize assumeDynamicStrides / 8, 1)] ∧
      ∀ group ∈ init, 8 ∣ group.2 := by
  obtain ⟨init', hloops', hfactor⟩ := @reducedLoops_run elemSize memShape memStrides assumeDynamicStrides
  generalize hrun : innermostRun memShape memStrides elemSize assumeDynamicStrides = run at *
  suffices h : ∃ x, toPattern elemSize (bitDims elemSize (init ++ [(run, 1)])) ((init.map Prod.snd).reverse ++ [x]) = some pattern by
    obtain ⟨x, hpattern⟩ := h
    obtain ⟨hdims, ⟨y, hstrides⟩, hmultiple⟩ := toPattern_spec helem hbytes hfactor hpattern
    refine ⟨?_, hmultiple⟩
    unfold DMAPattern.loops
    rw [hdims, hstrides, tail_cons, zip_append (by simp), zip_map']
    rfl
  match memShape, memStrides with
  | [], [] =>
    have hnil : reducedLoops [] [] elemSize assumeDynamicStrides = [(elemSize, 1)] := by
      unfold reducedLoops
      cases assumeDynamicStrides <;> rfl
    rw [hnil] at hloops
    have hinit : init = [] := by
      have hlength := congrArg List.length hloops
      exact eq_nil_of_length_eq_zero (by simpa using hlength.symm)
    rw [hinit, nil_append] at hloops
    injection hloops with hhead
    injection hhead with hsize
    rw [← hsize] at hbytes ⊢
    refine ⟨elemSize, ?_⟩
    rw [← hreturn, hinit]
    unfold reduceDimsForDma toPattern bitDims
    simp [bitDims, alignToByteBoundary_of_dvd hbytes, toByte_of_dvd hbytes, Int.tdiv_self helem.ne']
  | size :: sizes, stride :: strides =>
    have hlen' : strides.length = sizes.length := by simpa using hlen
    obtain ⟨group, done, hgroups, -, hgrouped⟩ := @reduce_groups elemSize assumeDynamicStrides
      ((size :: sizes ++ [elemSize]).zip (stride * size :: stride :: strides))
    have htrim := @trimUnit_groupsOf elemSize assumeDynamicStrides size stride sizes strides hlen'
    have hgroup : 0 < group.1 := by
      apply @groupsOf_pos assumeDynamicStrides ((size :: sizes ++ [elemSize]).zip (stride * size :: stride :: strides)) _ group
      · rw [hgroups]
        exact mem_cons_self
      · rw [(@loopsOf_zip elemSize (size :: sizes) (stride :: strides) (stride * size) hlen).1]
        exact tensorLoops_pos hpos helem
    obtain ⟨x, hflush⟩ := @flush_spec elemSize (stride * size) group done _ helem hgroup hgrouped
    rw [hgroups, hloops] at htrim
    rw [htrim, dropLast_concat, ← foldl_reverse] at hflush
    refine ⟨x, ?_⟩
    unfold reduceDimsForDma at hreturn
    dsimp only at hreturn
    rwa [hflush] at hreturn

theorem offsets_reducedLoops (hpos : ∀ d ∈ memShape, 0 < d) (helem : 0 < elemSize) :
    offsets (reducedLoops memShape memStrides elemSize assumeDynamicStrides) = offsets (tensorLoops memShape memStrides elemSize) := by
  unfold reducedLoops
  split_ifs
  · rfl
  · rw [offsets_trimUnit]
    apply (offsets_collapse _).1
    intro loop hloop
    exact (tensorLoops_pos hpos helem loop hloop).le

theorem bitsOfByte_offsets (hinit : ∀ group ∈ init, 8 ∣ group.2) (hrun : 8 ∣ run) :
    (offsets (init.map (fun group => (group.1, group.2 / 8)) ++ [(run / 8, 1)])).flatMap bitsOfByte = offsets (init ++ [(run, 1)]) := by
  induction init with
  | nil =>
    rw [map_nil, nil_append, nil_append, offsets_singleton, offsets_singleton]
    have hsize : run.toNat = (run / 8).toNat * 8 := by omega
    dsimp only
    rw [hsize, ← range_chunks, map_flatMap, flatMap_map]
    apply flatMap_congr
    intro i _
    unfold bitsOfByte
    rw [map_map]
    apply map_congr_left
    intro k _
    simp
  | cons group init ih =>
    obtain ⟨hgroup, hinit'⟩ := forall_mem_cons.mp hinit
    rw [map_cons, cons_append, cons_append, offsets_cons, offsets_cons, flatMap_assoc, ← ih hinit']
    apply flatMap_congr
    intro i _
    rw [map_flatMap, flatMap_map]
    apply flatMap_congr
    intro address _
    unfold bitsOfByte
    rw [map_map]
    apply map_congr_left
    intro k _
    have hstep : group.2 = group.2 / 8 * 8 := (Int.ediv_mul_cancel hgroup).symm
    dsimp only [Function.comp_apply]
    rw [Int.add_mul, Int.mul_assoc, ← hstep, Int.add_assoc]

theorem reduceDimsForDma_addresses (hlen : memStrides.length = memShape.length) (hpos : ∀ d ∈ memShape, 0 < d) (helem : 0 < elemSize)
    (hbytes : 8 ∣ innermostRun memShape memStrides elemSize assumeDynamicStrides)
    (hreturn : reduceDimsForDma memShape memStrides elemSize assumeDynamicStrides = some pattern) :
    pattern.addresses.flatMap bitsOfByte = elementBits memShape memStrides elemSize := by
  obtain ⟨init, hloops, -⟩ := @reducedLoops_run elemSize memShape memStrides assumeDynamicStrides
  obtain ⟨hpattern, hmultiple⟩ := reduceDimsForDma_spec hlen hpos helem hbytes hreturn hloops
  unfold DMAPattern.addresses
  rw [hpattern, bitsOfByte_offsets hmultiple hbytes, ← hloops, offsets_reducedLoops hpos helem, offsets_tensorLoops hlen]

theorem trimUnit_chain {nest : List (ℤ × ℤ)} {R : ℤ × ℤ → ℤ × ℤ → Prop} (h : nest.IsChain R) : (trimUnit nest).IsChain R := by
  rcases @trimUnit_cases nest with heq | ⟨outer, heq, -⟩
  · rwa [heq]
  · rw [heq] at h
    exact h.tail

theorem bytes_chain (hinit : ∀ group ∈ init, 8 ∣ group.2) (hrun : 8 ∣ run)
    (h : (init ++ [((run, 1) : ℤ × ℤ)]).IsChain Breaks) :
    (init.map (fun group : ℤ × ℤ => (group.1, group.2 / 8)) ++ [(run / 8, 1)]).IsChain Breaks := by
  induction init with
  | nil => exact isChain_singleton _
  | cons group init ih =>
    obtain ⟨⟨s, hs⟩, hinit'⟩ := forall_mem_cons.mp hinit
    obtain ⟨r, rfl⟩ := hrun
    cases init with
    | nil =>
      have hne := (isChain_cons_cons.mp h).1
      apply isChain_cons_cons.mpr
      refine ⟨?_, isChain_singleton _⟩
      dsimp only at hne ⊢
      omega
    | cons next init =>
      obtain ⟨hne, hrest⟩ := isChain_cons_cons.mp h
      obtain ⟨⟨t, ht⟩, -⟩ := forall_mem_cons.mp hinit'
      apply isChain_cons_cons.mpr
      refine ⟨?_, ih hinit' hrest⟩
      dsimp only
      rw [ht, hs, Int.mul_ediv_cancel_left _ (by decide), Int.mul_ediv_cancel_left _ (by decide)]
      intro heq
      apply hne
      have heq : next.1 * t = s := heq
      rw [ht, hs, ← heq, Int.mul_left_comm]

theorem couldMerge_loops_iff (hlen : memStrides.length = memShape.length) (hpos : ∀ d ∈ memShape, 0 < d) (helem : 0 < elemSize)
    (hbytes : 8 ∣ innermostRun memShape memStrides elemSize false)
    (hreturn : reduceDimsForDma memShape memStrides elemSize false = some pattern) :
    CouldMerge pattern.loops ↔ UnitRun (tensorLoops memShape memStrides elemSize) := by
  obtain ⟨init, hloops, -⟩ := @reducedLoops_run elemSize memShape memStrides false
  obtain ⟨hpattern, hmultiple⟩ := reduceDimsForDma_spec hlen hpos helem hbytes hreturn hloops
  have hrun := @innermostRun_pos elemSize memShape memStrides false hpos helem
  generalize innermostRun memShape memStrides elemSize false = run at *
  have htensor := @tensorLoops_pos elemSize memShape memStrides hpos helem
  have htrim : trimUnit (collapse (tensorLoops memShape memStrides elemSize)) = init ++ [(run, 1)] := hloops
  have hsizes : ∀ group ∈ init, 0 < group.1 := by
    intro group hgroup
    have hmem : group ∈ trimUnit (collapse (tensorLoops memShape memStrides elemSize)) := by
      rw [htrim]
      exact mem_append_left _ hgroup
    apply collapse_pos htensor
    rcases @trimUnit_cases (collapse (tensorLoops memShape memStrides elemSize)) with heq | ⟨outer, heq, -⟩
    · rwa [heq] at hmem
    · rw [heq]
      exact mem_cons_of_mem _ hmem
  have hchain : (init ++ [((run, 1) : ℤ × ℤ)]).IsChain Breaks := by
    rw [← htrim]
    exact trimUnit_chain collapse_chain
  have hpositive : ∀ loop ∈ pattern.loops, 0 < loop.1 := by
    intro loop hloop
    rw [hpattern] at hloop
    cases mem_append.mp hloop with
    | inl hmem =>
      obtain ⟨group, hgroup, rfl⟩ := mem_map.mp hmem
      exact hsizes group hgroup
    | inr hmem =>
      rw [mem_singleton.mp hmem]
      dsimp only
      omega
  have hnonempty : tensorLoops memShape memStrides elemSize ≠ [] := append_ne_nil_of_right_ne_nil _ (cons_ne_nil _ _)
  rw [couldMerge_iff hpositive (by rw [hpattern]; exact bytes_chain hmultiple hbytes hchain) (by rw [hpattern]; simp), exists_unit_iff,
    hpattern, dropLast_concat, ← collapse_unitInside htensor hnonempty, unitInside_iff_trimUnit, htrim, dropLast_concat]
  simp

/-- The returned pattern visits the bits of the elements in row-major order, and without dynamic strides its dimensions cannot be
merged, exactly when the tensor has no run of unit dimensions between two stride breaks. -/
theorem reduceDimsForDma_exact_iff (memShape memStrides : List ℤ) (elemSize : ℤ) (assumeDynamicStrides : Bool) (pattern : DMAPattern)
    (hlen : memStrides.length = memShape.length) (hpos : ∀ d ∈ memShape, 0 < d) (helem : 0 < elemSize)
    (hbytes : 8 ∣ elemSize ∨ 8 ∣ innermostRun memShape memStrides elemSize assumeDynamicStrides)
    (hreturn : reduceDimsForDma memShape memStrides elemSize assumeDynamicStrides = some pattern) :
    pattern.addresses.flatMap bitsOfByte = elementBits memShape memStrides elemSize ∧
    (pattern.addresses.flatMap bitsOfByte = elementBits memShape memStrides elemSize ∧
        (assumeDynamicStrides = false → ¬ CouldMerge pattern.loops) ↔
      assumeDynamicStrides = true ∨ ¬ UnitRun (tensorLoops memShape memStrides elemSize)) := by
  have hbytes' : 8 ∣ innermostRun memShape memStrides elemSize assumeDynamicStrides := by
    cases hbytes with
    | inl hdvd => exact hdvd.trans (@reducedLoops_run elemSize memShape memStrides assumeDynamicStrides).choose_spec.2
    | inr hrun => exact hrun
  have haddresses := reduceDimsForDma_addresses hlen hpos helem hbytes' hreturn
  refine ⟨haddresses, ?_⟩
  rw [and_iff_right haddresses]
  cases assumeDynamicStrides with
  | true => simp
  | false =>
    have hmerge := couldMerge_loops_iff hlen hpos helem hbytes' hreturn
    simp [hmerge]

theorem reduceDimsForDma_exact_iff_strided : ∃ pattern, reduceDimsForDma [2, 3, 4] [512, 128, 16] 16 false = some pattern ∧
    ¬ CouldMerge pattern.loops := by
  refine ⟨{ dims := [2, 3, 8], strides := [128, 64, 16] }, by decide, ?_⟩
  apply ((reduceDimsForDma_exact_iff [2, 3, 4] [512, 128, 16] 16 false { dims := [2, 3, 8], strides := [128, 64, 16] } (by decide)
    (by decide) (by decide) (Or.inl (by decide)) (by decide)).2.mpr (Or.inr _)).2 rfl
  rintro ⟨before, outer, run, inner, after, step, hnest, hrun, hunits, -⟩
  obtain ⟨loop, hloop⟩ := exists_mem_of_ne_nil _ hrun
  have hmem : loop ∈ tensorLoops [2, 3, 4] [512, 128, 16] 16 := by
    rw [hnest]
    simp [hloop]
  rw [hunits loop hloop] at hmem
  simp [tensorLoops] at hmem

theorem reduceDimsForDma_keepsUnit : ∃ pattern, reduceDimsForDma [2, 1, 4] [256, 64, 8] 8 false = some pattern ∧
    CouldMerge pattern.loops := by
  refine ⟨{ dims := [2, 1, 4], strides := [64, 32, 8] }, by decide, ?_⟩
  exact ⟨[], (2, 32), (1, 8), [(4, 1)], (2, 32), by decide, by decide, by decide⟩

end

end NpuCompiler.Memory
