import NpuCompiler.Library.LoopNest
import NpuCompiler.Library.MaskedStream
import NpuCompiler.Library.MixedRadix

namespace NpuCompiler.AxisNest

open LoopNest MixedRadix List

/-- How far apart neighbours along the axis with key `k` are stored: the axes are stored in the order of their keys. -/
def stepOf (axes : List (ℕ × ℤ)) (k : ℕ) : ℤ := ((axes.filter fun a => k < a.1).map Prod.snd).prod

def nest (axes : List (ℕ × ℤ)) : List (ℤ × ℤ) := axes.map fun a => (a.2, stepOf axes a.1)

def permNest (perm : List ℕ) (shape : List ℤ) : List (ℤ × ℤ) := perm.map fun d => (entry shape d, weight shape d)

def movedTo (perm : List ℕ) (shape : List ℤ) (x : ℤ) : ℤ :=
  encode (perm.map (entry shape)) (perm.map (entry (decode shape x)))

variable {axes sorted before after : List (ℕ × ℤ)} {nest₁ nest₂ outer : List (ℤ × ℤ)} {a b : ℤ} {k k' : ℕ}

theorem offsets_append (h : offsets nest₁ = offsets nest₂) : offsets (outer ++ nest₁) = offsets (outer ++ nest₂) := by
  induction outer with
  | nil => exact h
  | cons loop outer ih => exact offsets_congr ih

theorem offsets_filter_unit : offsets (nest₁.filter (·.1 ≠ 1)) = offsets nest₁ := by
  induction nest₁ with
  | nil => rfl
  | cons loop nest₁ ih =>
    rw [filter_cons]
    split
    · exact offsets_congr ih
    · next hunit =>
      have hone : loop.1 = 1 := by simpa using hunit
      rw [ih, show loop = (1, loop.2) from Prod.ext hone rfl, offsets_unit]

section

theorem prod_filter_unit : ((axes.filter (·.2 ≠ 1)).map Prod.snd).prod = (axes.map Prod.snd).prod := by
  induction axes with
  | nil => rfl
  | cons axis axes ih =>
    rw [filter_cons]
    split
    · rw [map_cons, prod_cons, ih, map_cons, prod_cons]
    · next hunit =>
      have hone : axis.2 = 1 := by simpa using hunit
      rw [ih, map_cons, prod_cons, hone, one_mul]

theorem stepOf_filter : stepOf (axes.filter (·.2 ≠ 1)) k = stepOf axes k := by
  unfold stepOf
  rw [filter_comm, prod_filter_unit]

theorem offsets_nest_filter : offsets (nest (axes.filter (·.2 ≠ 1))) = offsets (nest axes) := by
  have hnest : nest (axes.filter (·.2 ≠ 1)) = (nest axes).filter (·.1 ≠ 1) := by
    unfold nest
    rw [filter_map]
    apply map_congr_left
    intro axis _
    rw [stepOf_filter]
  rw [hnest, offsets_filter_unit]

theorem offsets_nest_merge (ha : 0 ≤ a) (hb : 0 ≤ b) (hk : k < k')
    (hapart : ∀ axis ∈ before ++ after, axis.1 < k ∨ k' < axis.1) :
    offsets (nest (before ++ (k, a) :: (k', b) :: after)) = offsets (nest (before ++ (k, a * b) :: after)) := by
  have hstep : ∀ j, j < k ∨ k' < j →
      stepOf (before ++ (k, a) :: (k', b) :: after) j = stepOf (before ++ (k, a * b) :: after) j := by
    intro j hj
    unfold stepOf
    rcases hj with hj | hj
    · simp [filter_append, hj, hj.trans hk, mul_assoc]
    · simp [filter_append, hj.not_gt, (hk.trans hj).not_gt]
  have hsame : ∀ l : List (ℕ × ℤ), (∀ axis ∈ l, axis.1 < k ∨ k' < axis.1) →
      l.filter (fun axis => k < axis.1) = l.filter (fun axis => k' < axis.1) := by
    intro l hl
    apply filter_congr
    intro axis hmem
    rcases hl axis hmem with h | h
    · simp [h.not_gt, (h.trans hk).not_gt]
    · simp [h, hk.trans h]
  have hbefore := fun axis hmem => hapart axis (mem_append_left after hmem)
  have hafter := fun axis hmem => hapart axis (mem_append_right before hmem)
  -- the merged axis has the step of the inner one, and the outer one spans the inner one
  have hinner : stepOf (before ++ (k, a * b) :: after) k = stepOf (before ++ (k, a) :: (k', b) :: after) k' := by
    unfold stepOf
    simp [filter_append, hk.not_gt, hsame before hbefore, hsame after hafter]
  have houter : stepOf (before ++ (k, a) :: (k', b) :: after) k =
      b * stepOf (before ++ (k, a) :: (k', b) :: after) k' := by
    unfold stepOf
    simp [filter_append, hk, hk.not_gt, hsame before hbefore, hsame after hafter]
    ring
  have hmap : ∀ l : List (ℕ × ℤ), (∀ axis ∈ l, axis.1 < k ∨ k' < axis.1) →
      (l.map fun axis => (axis.2, stepOf (before ++ (k, a) :: (k', b) :: after) axis.1)) =
        l.map fun axis => (axis.2, stepOf (before ++ (k, a * b) :: after) axis.1) := by
    intro l hl
    apply map_congr_left
    intro axis hmem
    rw [hstep axis.1 (hl axis hmem)]
  unfold nest
  rw [map_append, map_append, hmap before hbefore]
  apply offsets_append
  rw [map_cons, map_cons, map_cons, hmap after hafter, hinner, houter]
  exact offsets_merge ha hb

theorem stepOf_perm (h : sorted.Perm axes) : stepOf sorted k = stepOf axes k := by
  exact ((h.filter _).map _).prod_eq

theorem drop_eq_filter (hsorted : sorted.Pairwise fun a b => a.1 < b.1) {i : ℕ} (hi : i < sorted.length) :
    sorted.drop (i + 1) = sorted.filter fun axis => sorted[i].1 < axis.1 := by
  have hpairs := pairwise_iff_getElem.mp hsorted
  have hsplit : (sorted.filter fun axis => sorted[i].1 < axis.1) =
      ((sorted.take (i + 1)).filter fun axis => sorted[i].1 < axis.1) ++
        (sorted.drop (i + 1)).filter fun axis => sorted[i].1 < axis.1 := by
    rw [← filter_append, take_append_drop]
  rw [hsplit, filter_eq_nil_iff.mpr, filter_eq_self.mpr, nil_append]
  · intro axis hmem
    obtain ⟨j, hj, rfl⟩ := mem_iff_getElem.mp hmem
    rw [length_drop] at hj
    rw [getElem_drop]
    exact decide_eq_true (hpairs i (i + 1 + j) hi (by omega) (by omega))
  · intro axis hmem
    obtain ⟨j, hj, rfl⟩ := mem_take_iff_getElem.mp hmem
    rcases Nat.lt_or_ge j i with hlt | hge
    · have := hpairs j i (by omega) hi hlt
      simp [this.le]
    · simp [show j = i by omega]

theorem permNest_idxOf (hperm : sorted.Perm axes) (hsorted : sorted.Pairwise fun a b => a.1 < b.1) :
    permNest (axes.map fun axis => (sorted.map Prod.fst).idxOf axis.1) (sorted.map Prod.snd) = nest axes := by
  unfold permNest nest
  rw [map_map]
  apply map_congr_left
  intro axis hmem
  obtain ⟨i, hi, rfl⟩ := mem_iff_getElem.mp (hperm.mem_iff.mpr hmem)
  have hnodup : (sorted.map Prod.fst).Nodup := by
    rw [List.Nodup, pairwise_map]
    exact hsorted.imp fun h => h.ne
  have hidx : (sorted.map Prod.fst).idxOf sorted[i].1 = i := by
    have h := hnodup.idxOf_getElem i (by simpa using hi)
    rwa [getElem_map] at h
  rw [Function.comp_apply, hidx, entry_of_lt (by simpa using hi), getElem_map, weight, ← map_drop,
    drop_eq_filter hsorted hi, ← stepOf_perm hperm]
  rfl

variable {nest : List (ℤ × ℤ)} {perm perm' : List ℕ} {shape shape' c : List ℤ} {x : ℤ}

theorem length_offsets (hpos : ∀ loop ∈ nest, 0 ≤ loop.1) : (offsets nest).length = (nest.map Prod.fst).prod.toNat := by
  induction nest with
  | nil => rfl
  | cons loop nest ih =>
    obtain ⟨hloop, hnest⟩ := forall_mem_cons.mp hpos
    rw [offsets_cons, MaskedStream.length_flatMap_range _ (nest.map Prod.fst).prod.toNat _ fun i _ => by rw [length_map, ih hnest],
      map_cons, prod_cons, Int.toNat_mul hloop]
    exact prod_nonneg (by simpa using hnest)

theorem offsets_encode (hpos : ∀ loop ∈ nest, 0 ≤ loop.1) (hc : InBox (nest.map Prod.fst) c) :
    (offsets nest)[(encode (nest.map Prod.fst) c).toNat]? = some (List.zipWith (fun y loop => y * loop.2) c nest).sum := by
  induction nest generalizing c with
  | nil =>
    cases hc
    rfl
  | cons loop nest ih =>
    obtain ⟨hloop, hnest⟩ := forall_mem_cons.mp hpos
    cases hc with
    | @cons _ y _ c hy hc =>
      have hrest := encode_bounds hc
      have hprod : 0 ≤ (nest.map Prod.fst).prod := prod_nonneg (by simpa using hnest)
      have hsplit : (encode ((loop :: nest).map Prod.fst) (y :: c)).toNat =
          y.toNat * (nest.map Prod.fst).prod.toNat + (encode (nest.map Prod.fst) c).toNat := by
        change (y * (nest.map Prod.fst).prod + encode (nest.map Prod.fst) c).toNat = _
        rw [Int.toNat_add (Int.mul_nonneg hy.1 hprod) hrest.1, Int.toNat_mul hy.1 hprod]
      rw [hsplit, offsets_cons, MaskedStream.getElem?_flatMap_range _ (m := (nest.map Prod.fst).prod.toNat) _ (by omega) (by omega),
        getElem?_map, ih hnest hc, Option.map_some, Int.toNat_of_nonneg hy.1]
      · rfl
      · intro i _
        rw [length_map, length_offsets hnest]

structure Permutes (perm : List ℕ) (shape : List ℤ) : Prop where
  perm : perm.Perm (List.range shape.length)
  pos : ∀ d ∈ shape, 0 < d

theorem Permutes.lt (h : Permutes perm shape) {d : ℕ} (hd : d ∈ perm) : d < shape.length :=
  mem_range.mp (h.perm.mem_iff.mp hd)

theorem Permutes.prod_eq (h : Permutes perm shape) : (perm.map (entry shape)).prod = shape.prod := by
  rw [(h.perm.map (entry shape)).prod_eq, range_map_entry]

theorem map_fst_permNest : (permNest perm shape).map Prod.fst = perm.map (entry shape) := by
  unfold permNest
  rw [map_map]
  rfl

theorem encode_eq_sum (hlen : c.length = shape.length) :
    encode shape c = ((List.range shape.length).map fun d => entry c d * weight shape d).sum := by
  induction shape generalizing c with
  | nil => rw [length_eq_zero_iff.mp hlen]; rfl
  | cons s shape ih =>
    cases c with
    | nil => cases hlen
    | cons y c =>
      rw [encode, ih (by simpa using hlen), length_cons, range_succ_eq_map, map_cons, map_map, sum_cons]
      rfl

section
variable (h : Permutes perm shape)
include h

theorem Permutes.inBox (hc : InBox shape c) : InBox (perm.map (entry shape)) (perm.map (entry c)) := by
  obtain ⟨-, hbounds⟩ := inBox_iff.mp hc
  apply forall₂_map_left_iff.mpr
  apply forall₂_map_right_iff.mpr
  apply forall₂_same.mpr
  intro d hd
  exact hbounds d (h.lt hd)

theorem Permutes.offsets_movedTo (hx : 0 ≤ x) (hlt : x < shape.prod) :
    (offsets (permNest perm shape))[(movedTo perm shape x).toNat]? = some x := by
  have hbox := @inBox_decode shape x h.pos
  have hnonneg : ∀ loop ∈ permNest perm shape, 0 ≤ loop.1 := by
    intro loop hloop
    obtain ⟨d, hd, rfl⟩ := mem_map.mp hloop
    exact (h.pos _ (entry_mem (h.lt hd))).le
  have hencode := offsets_encode hnonneg (c := perm.map (entry (decode shape x))) (by
    rw [map_fst_permNest]
    exact h.inBox hbox)
  rw [map_fst_permNest] at hencode
  unfold movedTo
  rw [hencode]
  have hsum : List.zipWith (fun y loop => y * loop.2) (perm.map (entry (decode shape x))) (permNest perm shape) =
      perm.map fun d => entry (decode shape x) d * weight shape d := by
    unfold permNest
    rw [zipWith_map, zipWith_self]
  rw [hsum, (h.perm.map _).sum_eq, ← encode_eq_sum hbox.length_eq.symm, encode_decode h.pos hx hlt]

theorem Permutes.movedTo_nonneg : 0 ≤ movedTo perm shape x :=
  (encode_bounds (h.inBox (inBox_decode h.pos))).1

theorem Permutes.nodup_offsets : (offsets (permNest perm shape)).Nodup := by
  have hnonneg : ∀ loop ∈ permNest perm shape, 0 ≤ loop.1 := by
    intro loop hloop
    obtain ⟨d, hd, rfl⟩ := mem_map.mp hloop
    exact (h.pos _ (entry_mem (h.lt hd))).le
  have hlength := length_offsets hnonneg
  rw [map_fst_permNest, h.prod_eq] at hlength
  -- every element is visited, and there are no more offsets than elements
  have hsub : (List.range shape.prod.toNat).map (fun i : ℕ => (i : ℤ)) ⊆ offsets (permNest perm shape) := by
    intro x hx
    obtain ⟨i, hi, rfl⟩ := mem_map.mp hx
    have hlt := mem_range.mp hi
    exact mem_of_getElem? (h.offsets_movedTo (Int.natCast_nonneg i) (by omega))
  have hnodup : ((List.range shape.prod.toNat).map fun i : ℕ => (i : ℤ)).Nodup :=
    nodup_range.map Nat.cast_injective
  have hperm := (subperm_of_subset hnodup hsub).perm_of_length_le (by simp [hlength])
  exact hperm.nodup hnodup

theorem movedTo_eq (h' : Permutes perm' shape') (hprod : shape'.prod = shape.prod)
    (hoffsets : offsets (permNest perm' shape') = offsets (permNest perm shape)) (hx : 0 ≤ x) (hlt : x < shape.prod) :
    movedTo perm' shape' x = movedTo perm shape x := by
  have hat := h.offsets_movedTo hx hlt
  have hat' := h'.offsets_movedTo hx (hprod ▸ hlt)
  rw [hoffsets] at hat'
  obtain ⟨hi, hget⟩ := List.getElem?_eq_some_iff.mp hat
  obtain ⟨hi', hget'⟩ := List.getElem?_eq_some_iff.mp hat'
  have hsame := h.nodup_offsets.getElem_inj_iff.mp (hget'.trans hget.symm)
  have hnonneg := @Permutes.movedTo_nonneg perm shape x h
  have hnonneg' := @Permutes.movedTo_nonneg perm' shape' x h'
  omega

end

end

end NpuCompiler.AxisNest
