import NpuCompiler.Const.PermuteCast
import NpuCompiler.Library.AxisNest

namespace NpuCompiler.Const

open AxisNest LoopNest MixedRadix List

def normalizePermutation (vec : List ℕ) : List ℕ :=
  vec.map fun v => (vec.insertionSort (· ≤ ·)).idxOf v

def mergeFrom (shapeVec : List ℤ) (rank : ℤ) (first prev : ℕ) (dimSize remainingRank : ℤ) : List ℕ → List (ℕ × ℤ)
  | [] => [(first, dimSize)]
  | d :: permVec =>
    if prev + 1 = d ∧ ¬remainingRank < rank then
      mergeFrom shapeVec rank first d (dimSize * entry shapeVec d) (remainingRank - 1) permVec
    else (first, dimSize) :: mergeFrom shapeVec rank d d (entry shapeVec d) remainingRank permVec

def mergeDims (shapeVec : List ℤ) (rank : ℤ) (permVec : List ℕ) : List (ℕ × ℤ) :=
  match permVec with
  | [] => []
  | d :: rest => mergeFrom shapeVec rank d d (entry shapeVec d) permVec.length rest

def sortKeys (axes : List (ℕ × ℤ)) : List (ℕ × ℤ) := axes.insertionSort fun a b => a.1 ≤ b.1

def getMergedPermutationAndShape (memShape : List ℤ) (permutation : DimsOrder) (rank : ℤ) : List ℕ × List ℤ :=
  let permVec := normalizePermutation (permutation.perm.filter fun d => entry memShape d ≠ 1)
  let shapeVec := memShape.filter (· ≠ 1)
  if shapeVec.length < rank then (permVec, shapeVec)
  else
    let merged := mergeDims shapeVec rank permVec
    (normalizePermutation (merged.map Prod.fst), (sortKeys merged).map Prod.snd)

def extendPermutationAndShape (permutation : List ℕ) (shape : List ℤ) (targetRank : ℤ) : List ℕ × List ℤ :=
  let padSize := targetRank - permutation.length
  if targetRank = 4 ∧ shape.length = 2 then ([0, 3, 2, 1], [1, entry shape 0, 1, entry shape 1])
  else if 0 < padSize then
    ((List.range targetRank.toNat).map fun (i : ℕ) =>
        if i < padSize then i else permutation.getD (i - padSize).toNat 0 + padSize.toNat,
      (List.range targetRank.toNat).map fun (i : ℕ) => if i < padSize then 1 else entry shape (i - padSize).toNat)
  else (permutation, shape)

structure SameMovement (perm : List ℕ) (shape : List ℤ) (perm' : List ℕ) (shape' : List ℤ) : Prop where
  permutes : Permutes perm' shape'
  volume : shape'.prod = shape.prod
  moved : ∀ x, 0 ≤ x → x < shape.prod → movedTo perm' shape' x = movedTo perm shape x

section
variable {axes sorted before : List (ℕ × ℤ)} {shapeVec : List ℤ} {rank dimSize remainingRank : ℤ} {first prev : ℕ}
  {permVec : List ℕ}

def axesOf (permVec : List ℕ) (shape : List ℤ) : List (ℕ × ℤ) := permVec.map fun d => (d, entry shape d)

structure Merges (axes merged : List (ℕ × ℤ)) : Prop where
  offsets : offsets (nest merged) = offsets (nest axes)
  volume : (merged.map Prod.snd).prod = (axes.map Prod.snd).prod
  pos : ∀ axis ∈ merged, 0 < axis.2
  keys : (merged.map Prod.fst).Sublist (axes.map Prod.fst)

theorem key_ne {d : ℕ} {x : ℤ} {after : List (ℕ × ℤ)} (hnodup : ((before ++ (d, x) :: after).map Prod.fst).Nodup) :
    ∀ axis ∈ before ++ after, axis.1 ≠ d := by
  have hmiddle := @perm_middle _ (d, x) before after
  have hcons := (hmiddle.map Prod.fst).nodup_iff.mp hnodup
  intro axis hmem he
  exact (nodup_cons.mp hcons).1 (mem_map.mpr ⟨axis, hmem, he⟩)

theorem mergeFrom_spec (hpos : ∀ axis ∈ before ++ (first, dimSize) :: axesOf permVec shapeVec, 0 < axis.2)
    (hle : first ≤ prev) (hnodup : ((before ++ (first, dimSize) :: axesOf permVec shapeVec).map Prod.fst).Nodup)
    (hrun : ∀ axis ∈ before ++ axesOf permVec shapeVec, axis.1 < first ∨ prev < axis.1) :
    Merges (before ++ (first, dimSize) :: axesOf permVec shapeVec)
      (before ++ mergeFrom shapeVec rank first prev dimSize remainingRank permVec) := by
  induction permVec generalizing before first prev dimSize remainingRank with
  | nil => exact ⟨rfl, rfl, hpos, List.Sublist.refl _⟩
  | cons d permVec ih =>
    have happend : before ++ (first, dimSize) :: axesOf (d :: permVec) shapeVec =
        (before ++ [(first, dimSize)]) ++ (d, entry shapeVec d) :: axesOf permVec shapeVec := by
      rw [append_assoc]
      rfl
    rw [happend] at hnodup
    have hne := key_ne hnodup
    unfold mergeFrom
    split
    · next hmerge =>
      obtain ⟨rfl, -⟩ := hmerge
      have hfirst : 0 < dimSize := hpos (first, dimSize) (by simp)
      have hnext : 0 < entry shapeVec (prev + 1) := hpos (prev + 1, entry shapeVec (prev + 1)) (by simp [axesOf])
      have hapart : ∀ axis ∈ before ++ axesOf permVec shapeVec, axis.1 < first ∨ prev + 1 < axis.1 := by
        intro axis hmem
        have hmem' : axis ∈ before ++ axesOf ((prev + 1) :: permVec) shapeVec := by
          rcases mem_append.mp hmem with h | h
          · exact mem_append_left _ h
          · exact mem_append_right _ (mem_cons_of_mem _ h)
        have hdiffers := hne axis (by
          rcases mem_append.mp hmem with h | h
          · simp [h]
          · simp [h])
        have := hrun axis hmem'
        omega
      have hsub : ((before ++ (first, dimSize * entry shapeVec (prev + 1)) :: axesOf permVec shapeVec).map Prod.fst).Sublist
          ((before ++ (first, dimSize) :: axesOf ((prev + 1) :: permVec) shapeVec).map Prod.fst) := by
        rw [map_append, map_append, map_cons, map_cons]
        exact (List.Sublist.refl _).append (((sublist_cons_self _ _)).cons_cons _)
      rw [← happend] at hnodup
      obtain ⟨hoffsets, hvolume, hsizes, hkeys⟩ := @ih before (dimSize * entry shapeVec (prev + 1)) (remainingRank - 1) first
        (prev + 1) (by
          intro axis hmem
          rcases mem_append.mp hmem with h | h
          · exact hpos axis (mem_append_left _ h)
          · rcases mem_cons.mp h with rfl | h
            · exact mul_pos hfirst hnext
            · exact hpos axis (mem_append_right _ (mem_cons_of_mem _ (mem_cons_of_mem _ h))))
        (by omega) (hnodup.sublist hsub) hapart
      refine ⟨?_, ?_, hsizes, hkeys.trans hsub⟩
      · rw [hoffsets]
        exact (offsets_nest_merge hfirst.le hnext.le (by omega) hapart).symm
      · rw [hvolume]
        simp [axesOf, mul_assoc]
    · have hsplit : before ++ (first, dimSize) :: mergeFrom shapeVec rank d d (entry shapeVec d) remainingRank permVec =
          (before ++ [(first, dimSize)]) ++ mergeFrom shapeVec rank d d (entry shapeVec d) remainingRank permVec := by
        rw [append_assoc]
        rfl
      rw [happend] at hpos ⊢
      rw [hsplit]
      exact ih hpos le_rfl hnodup fun axis hmem => Nat.lt_or_gt_of_ne (hne axis hmem)

theorem mergeDims_spec (hnodup : permVec.Nodup) (hpos : ∀ d ∈ permVec, 0 < entry shapeVec d) :
    Merges (axesOf permVec shapeVec) (mergeDims shapeVec rank permVec) := by
  have hkeys : (axesOf permVec shapeVec).map Prod.fst = permVec := by
    unfold axesOf
    rw [map_map]
    exact map_id _
  cases permVec with
  | nil => exact ⟨rfl, rfl, by simp [mergeDims], List.Sublist.refl _⟩
  | cons d permVec =>
    rw [← hkeys] at hnodup
    apply @mergeFrom_spec [] shapeVec rank (entry shapeVec d) _ d d permVec _ le_rfl hnodup
    · exact fun axis hmem => Nat.lt_or_gt_of_ne (@key_ne [] d _ _ hnodup axis hmem)
    · intro axis hmem
      obtain ⟨d', hd', rfl⟩ := mem_map.mp (show axis ∈ axesOf (d :: permVec) shapeVec from hmem)
      exact hpos d' hd'

variable {perm : List ℕ} {shape : List ℤ}

theorem map_idxOf_self {l : List ℕ} (h : l.Nodup) : (l.map fun v => l.idxOf v) = List.range l.length := by
  apply ext_getElem (by simp)
  intro i hi _
  rw [getElem_map, getElem_range, h.idxOf_getElem i (by simpa using hi)]

theorem map_fst_axesOf : (axesOf perm shape).map Prod.fst = perm := by
  unfold axesOf
  rw [map_map]
  exact map_id _

theorem nest_axesOf (h : Permutes perm shape) : nest (axesOf perm shape) = permNest perm shape := by
  have hnest := @permNest_idxOf (axesOf perm shape) (axesOf (List.range shape.length) shape) (h.perm.symm.map _) (by
    rw [axesOf, pairwise_map]
    exact pairwise_lt_range)
  have hsizes : (axesOf (List.range shape.length) shape).map Prod.snd = shape := by
    unfold axesOf
    rw [map_map]
    exact range_map_entry shape
  have hidx : ((axesOf perm shape).map fun axis => (List.range shape.length).idxOf axis.1) = perm := by
    unfold axesOf
    rw [map_map]
    conv_rhs => rw [← map_id perm]
    apply map_congr_left
    intro d hd
    have hlt := h.lt hd
    have hat := nodup_range.idxOf_getElem d (by simpa using hlt)
    rwa [getElem_range] at hat
  rwa [map_fst_axesOf, hsizes, hidx, eq_comm] at hnest

theorem normalized_spec (hperm : sorted.Perm axes) (hsorted : sorted.Pairwise fun a b => a.1 < b.1)
    (hpos : ∀ axis ∈ axes, 0 < axis.2) :
    Permutes (normalizePermutation (axes.map Prod.fst)) (sorted.map Prod.snd) ∧
      permNest (normalizePermutation (axes.map Prod.fst)) (sorted.map Prod.snd) = nest axes ∧
      (sorted.map Prod.snd).prod = (axes.map Prod.snd).prod := by
  have hkeys : (sorted.map Prod.fst).Pairwise (· < ·) := pairwise_map.mpr hsorted
  have hsort : (axes.map Prod.fst).insertionSort (· ≤ ·) = sorted.map Prod.fst := by
    apply List.Perm.eq_of_pairwise' (r := (· ≤ ·)) (pairwise_insertionSort _ _) (hkeys.imp fun h => h.le)
    exact (perm_insertionSort _ _).trans (hperm.symm.map _)
  have hnormalize : normalizePermutation (axes.map Prod.fst) = axes.map fun axis => (sorted.map Prod.fst).idxOf axis.1 := by
    unfold normalizePermutation
    rw [hsort, map_map]
    rfl
  refine ⟨⟨?_, ?_⟩, ?_, (hperm.map _).prod_eq⟩
  · have hidx := map_idxOf_self (hkeys.imp fun h => h.ne)
    rw [map_map] at hidx
    rw [hnormalize, length_map, ← length_map (f := Prod.fst), ← hidx]
    exact hperm.symm.map _
  · intro size hsize
    obtain ⟨axis, hmem, rfl⟩ := mem_map.mp hsize
    exact hpos axis (hperm.mem_iff.mp hmem)
  · rw [hnormalize]
    exact permNest_idxOf hperm hsorted

end

section
variable {memShape shape shape' shape'' : List ℤ} {permutation : DimsOrder} {perm perm' perm'' : List ℕ} {rank targetRank : ℤ}

theorem SameMovement.trans (h : SameMovement perm shape perm' shape') (h' : SameMovement perm' shape' perm'' shape'') :
    SameMovement perm shape perm'' shape'' := by
  refine ⟨h'.permutes, h'.volume.trans h.volume, fun x hx hlt => ?_⟩
  rw [h'.moved x hx (h.volume ▸ hlt), h.moved x hx hlt]

theorem sameMovement_of_offsets (h : Permutes perm shape) (h' : Permutes perm' shape') (hprod : shape'.prod = shape.prod)
    (hoffsets : offsets (permNest perm' shape') = offsets (permNest perm shape)) : SameMovement perm shape perm' shape' :=
  ⟨h', hprod, fun _ hx hlt => movedTo_eq h h' hprod hoffsets hx hlt⟩

theorem permutes_of_dims (hm : memShape.length = permutation.numDims) (hpos : ∀ d ∈ memShape, 0 < d) :
    Permutes permutation.perm memShape := by
  have hperm := permutation.isPermutation
  rw [show permutation.perm.length = memShape.length from hm.symm] at hperm
  exact ⟨hperm, hpos⟩

theorem axesOf_pos (h : Permutes perm shape) : ∀ axis ∈ axesOf perm shape, 0 < axis.2 := by
  intro axis hmem
  obtain ⟨d, hd, rfl⟩ := mem_map.mp hmem
  exact h.pos _ (entry_mem (h.lt hd))

theorem prod_axesOf (h : Permutes perm shape) : ((axesOf perm shape).map Prod.snd).prod = shape.prod := by
  unfold axesOf
  rw [map_map]
  exact h.prod_eq

theorem sameMovement_nonUnit (h : Permutes perm memShape) :
    SameMovement perm memShape (normalizePermutation (perm.filter fun d => entry memShape d ≠ 1)) (memShape.filter (· ≠ 1)) := by
  have haxes : (axesOf perm memShape).filter (·.2 ≠ 1) = axesOf (perm.filter fun d => entry memShape d ≠ 1) memShape :=
    filter_map
  have hsorted : (axesOf (nonUnit memShape) memShape).Perm ((axesOf perm memShape).filter (·.2 ≠ 1)) := by
    rw [haxes]
    exact ((h.perm.filter _).symm).map _
  obtain ⟨hpermutes, hnest, hprod⟩ := normalized_spec hsorted
    (by
      rw [axesOf, pairwise_map]
      exact nonUnit_pairwise)
    fun axis hmem => axesOf_pos h axis (mem_of_mem_filter hmem)
  have hsizes : (axesOf (nonUnit memShape) memShape).map Prod.snd = memShape.filter (· ≠ 1) := by
    rw [← nonUnit_sizes, axesOf, map_map]
    rfl
  rw [hsizes, haxes, map_fst_axesOf] at hpermutes hnest
  rw [hsizes, prod_filter_unit, prod_axesOf h] at hprod
  apply sameMovement_of_offsets h hpermutes hprod
  rw [hnest, ← haxes, offsets_nest_filter, nest_axesOf h]

theorem sameMovement_merged (h : Permutes perm shape) :
    SameMovement perm shape (normalizePermutation ((mergeDims shape rank perm).map Prod.fst))
      ((sortKeys (mergeDims shape rank perm)).map Prod.snd) := by
  have hnodup : perm.Nodup := h.perm.nodup_iff.mpr nodup_range
  have hmerges := @mergeDims_spec shape rank perm hnodup fun d hd => h.pos _ (entry_mem (h.lt hd))
  have hkeys : ((mergeDims shape rank perm).map Prod.fst).Nodup := by
    apply List.Nodup.sublist hmerges.keys
    rwa [map_fst_axesOf]
  have hperm : (sortKeys (mergeDims shape rank perm)).Perm (mergeDims shape rank perm) := perm_insertionSort _ _
  have hsorted : (sortKeys (mergeDims shape rank perm)).Pairwise fun a b => a.1 < b.1 := by
    have hdistinct : (sortKeys (mergeDims shape rank perm)).Pairwise fun a b => a.1 ≠ b.1 :=
      pairwise_map.mp ((hperm.map Prod.fst).nodup_iff.mpr hkeys)
    exact ((pairwise_insertionSort _ _).and hdistinct).imp fun hab => lt_of_le_of_ne hab.1 hab.2
  obtain ⟨hpermutes, hnest, hprod⟩ := normalized_spec hperm hsorted hmerges.pos
  apply sameMovement_of_offsets h hpermutes
  · rw [hprod, hmerges.volume, prod_axesOf h]
  · rw [hnest, hmerges.offsets, nest_axesOf h]

theorem sameMovement_getMerged (hm : memShape.length = permutation.numDims) (hpos : ∀ d ∈ memShape, 0 < d) :
    SameMovement permutation.perm memShape (getMergedPermutationAndShape memShape permutation rank).1
      (getMergedPermutationAndShape memShape permutation rank).2 := by
  have hunit := sameMovement_nonUnit (permutes_of_dims hm hpos)
  unfold getMergedPermutationAndShape
  dsimp only
  split
  · exact hunit
  · exact hunit.trans (sameMovement_merged hunit.permutes)

theorem offsets_units {n : ℕ} {step : ℕ → ℤ} {inner : List (ℤ × ℤ)} :
    offsets ((List.range n).map (fun i => (1, step i)) ++ inner) = offsets inner := by
  induction n generalizing inner with
  | zero => rfl
  | succ n ih =>
    rw [range_succ, map_append, append_assoc, ih]
    exact offsets_unit

theorem map_range_pad {α : Type} {n : ℕ} {padSize targetRank : ℤ} {f g : ℕ → α} (hpad : 0 < padSize)
    (hrank : padSize = targetRank - n) :
    ((List.range targetRank.toNat).map fun (i : ℕ) => if i < padSize then f i else g (i - padSize).toNat) =
      (List.range padSize.toNat).map f ++ (List.range n).map g := by
  rw [show targetRank.toNat = padSize.toNat + n by omega, range_add, map_append, map_map]
  congr 1
  · apply map_congr_left
    intro i hi
    have := mem_range.mp hi
    exact if_pos (by omega)
  · apply map_congr_left
    intro i _
    rw [Function.comp_apply, if_neg (by omega), show ((padSize.toNat + i : ℕ) - padSize).toNat = i by omega]

theorem map_range_getD {n : ℕ} (h : n = perm.length) : (List.range n).map (fun i => perm.getD i 0) = perm := by
  subst h
  apply ext_getElem (by simp)
  intro i hi hi'
  simp [hi']

theorem sameMovement_padded {padSize : ℕ} (h : Permutes perm shape) :
    SameMovement perm shape (List.range padSize ++ perm.map (· + padSize)) (List.replicate padSize 1 ++ shape) := by
  have hweight : ∀ d, weight (List.replicate padSize 1 ++ shape) (d + padSize) = weight shape d := by
    intro d
    rw [weight, weight, drop_append, length_replicate, drop_of_length_le (by simp; omega), nil_append,
      show d + padSize + 1 - padSize = d + 1 by omega]
  have hentry : ∀ d, entry (List.replicate padSize 1 ++ shape) (d + padSize) = entry shape d := by
    intro d
    unfold entry
    rw [getD_append_right _ _ _ _ (by simp), length_replicate, Nat.add_sub_cancel]
  apply sameMovement_of_offsets h
  · constructor
    · rw [length_append, length_replicate, range_add]
      apply List.Perm.append_left
      rw [map_congr_left (g := (· + padSize)) fun i _ => Nat.add_comm padSize i]
      exact h.perm.map _
    · intro size hsize
      rcases mem_append.mp hsize with hone | hsize
      · rw [eq_of_mem_replicate hone]
        exact one_pos
      · exact h.pos size hsize
  · simp
  · have hunits : ∀ i ∈ List.range padSize, entry (List.replicate padSize 1 ++ shape) i = 1 := by
      intro i hi
      have hlt := mem_range.mp hi
      rw [entry_of_lt (by simp; omega), getElem_append_left (by simpa using hlt), getElem_replicate]
    unfold permNest
    rw [map_append, map_map,
      map_congr_left (g := fun i => (1, weight (List.replicate padSize 1 ++ shape) i)) fun i hi => by rw [hunits i hi],
      offsets_units]
    congr 1
    apply map_congr_left
    intro d _
    rw [Function.comp_apply, hentry, hweight]

theorem sameMovement_exchange {a b : ℤ} (h : Permutes [1, 0] [a, b]) :
    SameMovement [1, 0] [a, b] [0, 3, 2, 1] [1, a, 1, b] := by
  have hpos := h.pos
  apply sameMovement_of_offsets h
  · refine ⟨?_, by simpa using hpos⟩
    change [0, 3, 2, 1].Perm [0, 1, 2, 3]
    decide
  · simp
  · have hnest : permNest [0, 3, 2, 1] [1, a, 1, b] = [(1, a * (1 * b)), (b, 1), (1, b), (a, 1 * b)] := by
      simp [permNest, weight]
    have horig : permNest [1, 0] [a, b] = [(b, 1), (a, b)] := by
      simp [permNest, weight]
    rw [hnest, horig, offsets_unit, one_mul]
    exact offsets_congr offsets_unit

theorem sameMovement_extend (h : Permutes perm shape) (hexchange : shape.length = 2 → perm = [1, 0]) :
    SameMovement perm shape (extendPermutationAndShape perm shape targetRank).1
      (extendPermutationAndShape perm shape targetRank).2 := by
  have hlen : perm.length = shape.length := by simpa using h.perm.length_eq
  unfold extendPermutationAndShape
  dsimp only
  split
  · next htwo =>
    obtain ⟨a, b, rfl⟩ := length_eq_two.mp htwo.2
    rw [hexchange rfl] at h ⊢
    exact sameMovement_exchange h
  · split
    · next hpad =>
      have hfirst := @map_range_pad ℕ perm.length _ targetRank id
        (fun i => perm.getD i 0 + (targetRank - perm.length).toNat) hpad rfl
      have hsecond := @map_range_pad ℤ perm.length _ targetRank (fun _ => 1) (entry shape) hpad rfl
      have hmap : (List.range perm.length).map (fun i => perm.getD i 0 + (targetRank - perm.length).toNat) =
          perm.map (· + (targetRank - perm.length).toNat) := by
        have h := congrArg (List.map (· + (targetRank - perm.length).toNat)) (@map_range_getD perm _ rfl)
        rwa [map_map] at h
      rw [map_id, hmap] at hfirst
      rw [map_const', length_range, hlen, range_map_entry, ← hlen] at hsecond
      rw [show ((List.range targetRank.toNat).map fun (i : ℕ) => if (i : ℤ) < targetRank - perm.length then i else
        perm.getD ((i : ℤ) - (targetRank - perm.length)).toNat 0 + (targetRank - perm.length).toNat) = _ from hfirst, hsecond]
      exact sameMovement_padded h
    · exact ⟨h, rfl, fun _ _ _ => rfl⟩

theorem perm_range_two (h : perm.Perm (List.range 2)) : perm = List.range 2 ∨ perm = [1, 0] := by
  obtain ⟨a, b, rfl⟩ := length_eq_two.mp h.length_eq
  have ha := mem_range.mp (h.subset (mem_cons_self (a := a)))
  have hb := mem_range.mp (h.subset (mem_cons_of_mem a (mem_singleton_self b)))
  have hne : a ≠ b := by
    have hnodup := h.nodup_iff.mpr nodup_range
    simpa using hnodup
  have hcases : a = 0 ∧ b = 1 ∨ a = 1 ∧ b = 0 := by omega
  rcases hcases with ⟨rfl, rfl⟩ | ⟨rfl, rfl⟩
  · exact .inl rfl
  · exact .inr rfl

theorem isTrivialPermute_of_identity (hm : memShape.length = permutation.numDims) (hpos : ∀ d ∈ memShape, 0 < d)
    (h : SameMovement permutation.perm memShape (List.range shape.length) shape) : isTrivialPermute memShape permutation := by
  apply (isTrivialPermute_iff hpos hm).mpr
  intro v hv
  have hbounds := encode_bounds hv
  have hmoved := h.moved (encode memShape v) hbounds.1 hbounds.2
  have hshape := h.permutes.pos
  unfold movedTo at hmoved
  have hlen : (decode shape (encode memShape v)).length = shape.length := length_decode
  have hmap : (List.range shape.length).map (entry (decode shape (encode memShape v))) = decode shape (encode memShape v) := by
    rw [← hlen, range_map_entry]
  rw [range_map_entry, hmap, encode_decode hshape hbounds.1 (h.volume ▸ hbounds.2), decode_encode hv] at hmoved
  exact hmoved.symm

/-- The merged permutation moves every element to the same place, and so does the extended one. -/
theorem mergedPermutation_spec (hm : memShape.length = permutation.numDims) (hpos : ∀ d ∈ memShape, 0 < d) :
    SameMovement permutation.perm memShape (getMergedPermutationAndShape memShape permutation rank).1
      (getMergedPermutationAndShape memShape permutation rank).2 ∧
    (¬isTrivialPermute memShape permutation →
      SameMovement permutation.perm memShape
        (extendPermutationAndShape (getMergedPermutationAndShape memShape permutation rank).1
          (getMergedPermutationAndShape memShape permutation rank).2 targetRank).1
        (extendPermutationAndShape (getMergedPermutationAndShape memShape permutation rank).1
          (getMergedPermutationAndShape memShape permutation rank).2 targetRank).2) := by
  have hmerged := @sameMovement_getMerged memShape permutation rank hm hpos
  refine ⟨hmerged, fun hnontrivial => hmerged.trans (sameMovement_extend hmerged.permutes fun htwo => ?_)⟩
  have hperm := hmerged.permutes.perm
  by_contra hne
  have hrange : (getMergedPermutationAndShape memShape permutation rank).1 =
      List.range (getMergedPermutationAndShape memShape permutation rank).2.length := by
    rw [htwo] at hperm ⊢
    exact (perm_range_two hperm).resolve_right hne
  rw [hrange] at hmerged
  exact hnontrivial (isTrivialPermute_of_identity hm hpos hmerged)

theorem mergedPermutation_spec_rotated :
    SameMovement [2, 3, 1, 0] [2, 1, 3, 4] [1, 0] [2, 12] ∧ SameMovement [2, 3, 1, 0] [2, 1, 3, 4] [0, 3, 2, 1] [1, 2, 1, 12] := by
  have h := @mergedPermutation_spec [2, 1, 3, 4] ⟨[2, 3, 1, 0], by decide⟩ 2 4 rfl (by decide)
  exact ⟨h.1, h.2 (by decide)⟩

end

end NpuCompiler.Const
