import NpuCompiler.Const.FuseWeights
import NpuCompiler.Library.MaskedStream

namespace NpuCompiler.Const

open MixedRadix Chunks List DimsOrder

section

def rowOffset (rank d : ℕ) (first : ℤ) : List ℤ := (List.replicate rank 0).set d first

def rowShape (shape : List ℤ) (d : ℕ) (rows : ℤ) : List ℤ := List.replicate d 1 ++ rows :: shape.drop (d + 1)

structure IsSliced (shape : List ℤ) (flatEnd : ℤ) (d : ℕ) : Prop where
  lt : d < shape.length
  holds : flatEnd ≤ (shape.drop d).prod
  innermost : d + 1 = shape.length ∨ weight shape d < flatEnd

variable {shape : List ℤ} {d : ℕ} {first rows flatEnd : ℤ}

theorem IsSliced.unique {e : ℕ} (hpos : ∀ s ∈ shape, 0 < s) (hd : IsSliced shape flatEnd d)
    (he : IsSliced shape flatEnd e) : d = e := by
  have hle {i j : ℕ} (hi : IsSliced shape flatEnd i) (hj : IsSliced shape flatEnd j) : j ≤ i := by
    by_contra hlt
    have hprod : (shape.drop j).prod ≤ weight shape i := prod_drop_le hpos (by omega)
    cases hi.innermost with
    | inl h => have := hj.lt; omega
    | inr h => have := hj.holds; linarith
  exact Nat.le_antisymm (hle he hd) (hle hd he)

theorem findDimensionToSlice_spec (hle : flatEnd ≤ shape.prod) :
    ∀ n, n ≤ shape.length → (0 < n ∧ n = shape.length ∨ (shape.drop n).prod < flatEnd) →
      ∃ d, findDimensionToSlice shape flatEnd n (shape.drop n).prod = some (d, weight shape d) ∧
        IsSliced shape flatEnd d := by
  intro n
  induction n with
  | zero =>
    intro _ h
    cases h with
    | inl h => exact absurd h.1 (Nat.lt_irrefl 0)
    | inr h =>
      rw [drop_zero] at h
      linarith
  | succ n ih =>
    intro hn h
    have hprod : (shape.drop (n + 1)).prod * entry shape n = (shape.drop n).prod := (prod_drop hn).symm
    rw [findDimensionToSlice, hprod]
    by_cases hend : flatEnd ≤ (shape.drop n).prod
    · refine ⟨n, if_pos hend, hn, hend, ?_⟩
      cases h with
      | inl h => exact .inl h.2
      | inr h => exact .inr h
    · rw [if_neg hend]
      exact ih (by omega) (.inr (not_le.1 hend))

theorem fits_self {dims : List ℤ} (hpos : ∀ s ∈ dims, 0 < s) :
    Fits dims (List.replicate dims.length 0) dims := by
  induction dims with
  | nil => exact Fits.nil
  | cons s dims ih =>
    apply Fits.cons le_rfl (hpos s mem_cons_self) (by omega)
    exact ih fun e he => hpos e (mem_cons_of_mem s he)

theorem fits_rows (hpos : ∀ s ∈ shape, 0 < s) (hd : d < shape.length) (hfirst : 0 ≤ first) (hrows : 0 < rows)
    (hle : first + rows ≤ entry shape d) : Fits shape (rowOffset shape.length d first) (rowShape shape d rows) := by
  induction shape generalizing d with
  | nil => exact absurd hd (Nat.not_lt_zero d)
  | cons s shape ih =>
    have hs := hpos s mem_cons_self
    have htail : ∀ e ∈ shape, 0 < e := fun e he => hpos e (mem_cons_of_mem s he)
    cases d with
    | zero => exact Fits.cons hfirst hrows hle (fits_self htail)
    | succ d =>
      apply Fits.cons le_rfl Int.zero_lt_one (by omega)
      exact ih htail (by simpa using hd) hle

theorem prod_rowShape (shape : List ℤ) (d : ℕ) (rows : ℤ) : (rowShape shape d rows).prod = rows * weight shape d := by
  rw [rowShape, prod_append, prod_replicate, one_pow, one_mul, prod_cons, weight]

theorem slot_self {dims : List ℤ} {k : ℤ} (hpos : ∀ s ∈ dims, 0 < s) (h0 : 0 ≤ k) (hk : k < dims.prod) :
    slot dims (List.replicate dims.length 0) dims k = k := by
  have hshift : shift (decode dims k) (List.replicate dims.length 0) = decode dims k := by
    apply ext_entry
    · simp
    · intro i hi
      rw [entry_shift (by simp)]
      have hi' : i < dims.length := by simpa [shift] using hi
      have hz : entry (List.replicate dims.length (0 : ℤ)) i = 0 := by
        rw [entry_of_lt (by simpa using hi'), getElem_replicate]
      rw [hz, add_zero]
  rw [slot, hshift, encode_decode hpos h0 hk]

theorem slot_unsqueezed {length first count k : ℤ} (h0 : 0 ≤ k) (hk : k < count) :
    ∀ (n p : ℕ), p < n → slot ((List.replicate n 1).set p length) ((List.replicate n 0).set p first)
      ((List.replicate n 1).set p count) k = first + k := by
  intro n
  induction n with
  | zero => intro p hp; exact absurd hp (Nat.not_lt_zero p)
  | succ n ih =>
    intro p hp
    have hones : ∀ s ∈ List.replicate n (1 : ℤ), 0 < s := by
      intro s hs
      rw [eq_of_mem_replicate hs]
      exact Int.zero_lt_one
    cases p with
    | zero =>
      have hb := (fits_self hones).slot_bounds (k := k)
      rw [length_replicate, prod_replicate, one_pow] at hb
      have hrest : slot (List.replicate n 1) (List.replicate n 0) (List.replicate n 1) k = 0 := by omega
      change (k / (List.replicate n (1 : ℤ)).prod % count + first) * (List.replicate n (1 : ℤ)).prod +
        slot (List.replicate n 1) (List.replicate n 0) (List.replicate n 1) k = first + k
      rw [hrest, prod_replicate, one_pow, Int.ediv_one, Int.emod_eq_of_lt h0 hk]
      ring
    | succ p =>
      have hrest := ih p (by omega)
      change (k / ((List.replicate n (1 : ℤ)).set p count).prod % 1 + 0) * _ +
        slot ((List.replicate n 1).set p length) ((List.replicate n 0).set p first)
          ((List.replicate n 1).set p count) k = first + k
      rw [hrest, Int.emod_one]
      ring

theorem prod_unsqueezed {rank : ℕ} (h : 0 < rank) (value : ℤ) : (unsqueezed rank 1 value).prod = value := by
  have hlast : rank - 1 < (List.replicate rank (1 : ℤ)).length := by
    rw [length_replicate]
    omega
  rw [unsqueezed, prod_set, if_pos hlast, take_replicate, drop_replicate, prod_replicate,
    prod_replicate, one_pow, one_pow, one_mul, mul_one]

theorem toMemoryOrder_unsqueezed (order : DimsOrder) (fill value : ℤ) (h : 0 < order.numDims) :
    order.toMemoryOrder (unsqueezed order.numDims fill value) =
      (List.replicate order.numDims fill).set (order.dimPos (order.numDims - 1)) value := by
  have hlast : order.numDims - 1 < order.numDims := by omega
  apply ext_entry
  · simp
  · intro i hi
    have hi' : i < order.numDims := by simpa using hi
    have hentry : ∀ j < order.numDims, entry (List.replicate order.numDims fill) j = fill := by
      intro j hj
      rw [entry_of_lt (by simpa using hj), getElem_replicate]
    rw [entry_toMemoryOrder hi', unsqueezed, entry_set _ (by simpa using hlast),
      entry_set _ (by simpa using dimPos_lt hlast), hentry _ (dimAt_lt hi'), hentry _ hi']
    by_cases hpos : i = order.dimPos (order.numDims - 1)
    · rw [if_pos hpos, if_pos (by rw [hpos, dimAt_dimPos hlast])]
    · rw [if_neg hpos, if_neg]
      intro hdim
      apply hpos
      rw [← hdim, dimPos_dimAt hi']

end

namespace FusedConstant

variable {c : FusedConstant}

/-- The rows of the constant that hold its elements from `first` on, read in the order of memory, have these elements
at the same places as the constant has. -/
def InPlace (c : FusedConstant) (first count : ℤ) : Prop :=
  ∀ d, IsSliced c.type.shape (count + first) d →
    let stride := weight c.type.shape d
    let firstRow := first / stride
    let rows := -(-(count + first) / stride) - firstRow
    ∀ k, 0 ≤ k → k < count →
      slot c.type.getMemShape (c.type.dimsOrder.toMemoryOrder (rowOffset c.type.getRank d firstRow))
        (c.type.dimsOrder.toMemoryOrder (rowShape c.type.shape d rows)) (first - firstRow * stride + k) = first + k

/-- The element counts of a slice that are converted to `int`: its end, and the rows that hold it. -/
def CountsFit (c : FusedConstant) (first count : ℤ) : Prop :=
  count + first < 2 ^ 31 ∧ ∀ d, IsSliced c.type.shape (count + first) d →
    let stride := weight c.type.shape d
    getTotalAllocSize (rowShape c.type.shape d (-(-(count + first) / stride) - first / stride)) c.elemBits * 8 / c.elemBits < 2 ^ 31

def rowPlace (c : FusedConstant) (d : ℕ) (firstRow rows k : ℤ) : ℤ :=
  slot c.type.getMemShape (c.type.dimsOrder.toMemoryOrder (rowOffset c.type.getRank d firstRow))
    (c.type.dimsOrder.toMemoryOrder (rowShape c.type.shape d rows)) k

theorem prod_pos (c : FusedConstant) : 0 < c.type.shape.prod := MixedRadix.prod_pos c.type.shape_pos

theorem bits_eq (c : FusedConstant) : c.byteSize * 8 = c.type.shape.prod * c.elemBits := by
  obtain ⟨q, hq⟩ := c.wholeBytes
  rw [byteSize, getTotalAllocSize, hq]
  omega

end FusedConstant

theorem toInt_of_lt {x : ℤ} (h0 : 0 ≤ x) (h : x < 2 ^ 31) : toInt x = x := by
  rw [toInt]
  omega

theorem padToByte_of_dvd {bits : List Bool} (h : 8 ∣ bits.length) : padToByte bits = bits := by
  have hpad : (8 - bits.length % 8) % 8 = 0 := by omega
  rw [padToByte, hpad, replicate_zero, append_nil]

section
variable {elemBits : ℕ} {order : DimsOrder} {inShape offset shape : List ℤ} {bits : List Bool}

theorem transformRaw_subView
    (h : Fits (order.toMemoryOrder inShape) (order.toMemoryOrder offset) (order.toMemoryOrder shape)) :
    transformRaw elemBits order ⟨inShape, bits⟩ (.subView offset shape) =
      ⟨shape, padToByte (gather elemBits bits (fun k => (slot (order.toMemoryOrder inShape)
        (order.toMemoryOrder offset) (order.toMemoryOrder shape) k).toNat) shape.prod.toNat)⟩ := by
  rw [transformRaw, gather]
  congr 2
  apply flatMap_congr
  intro k _
  rw [element, getMemIndexND_eq h.shape_pos, getMemIndex1D_eq, slot]
  rw [length_shift]
  · simp
  · simp

theorem transformRaw_unsqueezed {length first count : ℤ} {rank : ℕ} (hrank : order.numDims = rank) (h : 0 < rank)
    (hcount : 0 < count) :
    transformRaw elemBits order ⟨unsqueezed rank 1 length, bits⟩
      (.subView (unsqueezed rank 0 first) (unsqueezed rank 1 count)) =
      ⟨unsqueezed rank 1 count,
        padToByte (gather elemBits bits (fun k => (first + k).toNat) count.toNat)⟩ := by
  subst hrank
  rw [transformRaw, gather, prod_unsqueezed h]
  congr 2
  apply flatMap_congr
  intro k hk
  have hk' : (k : ℤ) < count := by
    have := mem_range.1 hk
    omega
  have hpos : ∀ s ∈ order.toMemoryOrder (unsqueezed order.numDims 1 count), 0 < s := by
    rw [toMemoryOrder_unsqueezed _ _ _ h]
    intro s hs
    cases mem_or_eq_of_mem_set hs with
    | inl hs => rw [eq_of_mem_replicate hs]; exact Int.zero_lt_one
    | inr hs => rw [hs]; exact hcount
  rw [element, getMemIndexND_eq hpos, getMemIndex1D_eq (by rw [length_shift] <;> simp)]
  change List.take elemBits (List.drop ((slot _ _ _ _).toNat * elemBits) bits) = _
  rw [toMemoryOrder_unsqueezed _ _ _ h, toMemoryOrder_unsqueezed _ _ _ h, toMemoryOrder_unsqueezed _ _ _ h,
    slot_unsqueezed (Int.natCast_nonneg k) hk' _ _ (dimPos_lt (by omega))]

variable {c : FusedConstant} {d : ℕ} {first count : ℤ} {raw : List Bool}

theorem ceil_bounds (x : ℤ) {stride : ℤ} (h : 0 < stride) :
    x ≤ -(-x / stride) * stride ∧ (-(-x / stride) - 1) * stride < x := by
  have h1 := Int.ediv_mul_add_emod (-x) stride
  have h2 := Int.emod_nonneg (-x) h.ne'
  have h3 := Int.emod_lt_of_pos (-x) h
  constructor <;> nlinarith

structure HoldsRange (c : FusedConstant) (d : ℕ) (first count firstRow rows : ℤ) : Prop where
  fits : Fits c.type.getMemShape (c.type.dimsOrder.toMemoryOrder (rowOffset c.type.getRank d firstRow))
    (c.type.dimsOrder.toMemoryOrder (rowShape c.type.shape d rows))
  start : firstRow * weight c.type.shape d ≤ first
  stop : count + first ≤ (firstRow + rows) * weight c.type.shape d
  full : rowShape c.type.shape d rows = c.type.shape → firstRow = 0

theorem holdsRange (hd : IsSliced c.type.shape (count + first) d) (hfirst : 0 ≤ first) (hcount : 0 < count) :
    HoldsRange c d first count (first / weight c.type.shape d)
      (-(-(count + first) / weight c.type.shape d) - first / weight c.type.shape d) := by
  let stride := weight c.type.shape d
  have hstride : 0 < stride := drop_pos c.type.shape_pos
  have hceil := ceil_bounds (count + first) hstride
  have hfloor := Int.ediv_mul_le first hstride.ne'
  have hfloor0 : 0 ≤ first / stride := Int.ediv_nonneg hfirst hstride.le
  have hblock := hd.holds
  rw [prod_drop hd.lt] at hblock
  have hrows : 0 < -(-(count + first) / stride) - first / stride := by
    by_contra hneg
    have hle : -(-(count + first) / stride) ≤ first / stride := by linarith
    have hmul := mul_le_mul_of_nonneg_right hle hstride.le
    linarith [hceil.1]
  have hlast : -(-(count + first) / stride) ≤ entry c.type.shape d := by
    by_contra hneg
    have hle : entry c.type.shape d ≤ -(-(count + first) / stride) - 1 := by omega
    have hmul := mul_le_mul_of_nonneg_right hle hstride.le
    have hcomm : entry c.type.shape d * stride = stride * entry c.type.shape d := mul_comm _ _
    linarith [hceil.2]
  have hfit : Fits c.type.shape (rowOffset c.type.shape.length d (first / stride))
      (rowShape c.type.shape d (-(-(count + first) / stride) - first / stride)) :=
    fits_rows c.type.shape_pos hd.lt hfloor0 hrows (by linarith)
  refine ⟨DimsOrder.Fits_toMemoryOrder c.type.numDims_eq.symm hfit, hfloor, ?_, ?_⟩
  · have hsum : first / stride + (-(-(count + first) / stride) - first / stride) = -(-(count + first) / stride) := by
      ring
    change count + first ≤ (first / stride + _) * stride
    rw [hsum]
    exact hceil.1
  · intro hfull
    have hentry : entry c.type.shape d = -(-(count + first) / stride) - first / stride := by
      rw [← hfull]
      simp [rowShape, entry, stride]
    linarith

def rangeBits (c : FusedConstant) (d : ℕ) (first count : ℤ) (raw : List Bool) : List Bool :=
  let firstRow := first / weight c.type.shape d
  let rows := -(-(count + first) / weight c.type.shape d) - firstRow
  gather c.elemBits raw
    (fun k => (c.rowPlace d firstRow rows (first - firstRow * weight c.type.shape d + k)).toNat) count.toNat

theorem rowPlace_bounds {firstRow rows : ℤ} (h : HoldsRange c d first count firstRow rows) (k : ℤ) :
    0 ≤ c.rowPlace d firstRow rows k ∧ c.rowPlace d firstRow rows k < c.type.shape.prod := by
  rw [← NDType.memShape_prod]
  exact h.fits.slot_bounds

theorem place_bits {firstRow rows : ℤ} (h : HoldsRange c d first count firstRow rows)
    (hraw : raw.length = (c.type.shape.prod * c.elemBits).toNat) (k : ℤ) :
    ((c.rowPlace d firstRow rows k).toNat + 1) * c.elemBits ≤ raw.length := by
  have hb := rowPlace_bounds h k
  rw [hraw]
  have hmul : (c.rowPlace d firstRow rows k + 1) * (c.elemBits : ℤ) ≤ c.type.shape.prod * c.elemBits :=
    mul_le_mul_of_nonneg_right (by linarith) (Int.natCast_nonneg _)
  zify
  rw [Int.toNat_of_nonneg hb.1, Int.toNat_of_nonneg (le_trans (mul_nonneg (by linarith) (Int.natCast_nonneg _)) hmul)]
  exact hmul

theorem toMemoryOrder_zeros (order : DimsOrder) :
    order.toMemoryOrder (List.replicate order.numDims 0) = List.replicate order.numDims 0 := by
  apply ext_entry
  · simp
  · intro i hi
    have hi' : i < order.numDims := by simpa using hi
    have hzero : ∀ j < order.numDims, entry (List.replicate order.numDims (0 : ℤ)) j = 0 := by
      intro j hj
      rw [entry_of_lt (by simpa using hj), getElem_replicate]
    rw [entry_toMemoryOrder hi', hzero _ (dimAt_lt hi'), hzero _ hi']

theorem rowPlace_full {rows k : ℤ} (h : rowShape c.type.shape d rows = c.type.shape) (h0 : 0 ≤ k)
    (hk : k < c.type.shape.prod) : c.rowPlace d 0 rows k = k := by
  have hoffset : rowOffset c.type.getRank d 0 = List.replicate c.type.dimsOrder.numDims 0 := by
    rw [rowOffset, set_replicate_self, NDType.getRank, c.type.numDims_eq]
  have hlen : c.type.dimsOrder.numDims = c.type.getMemShape.length := by
    rw [NDType.memShape_length, c.type.numDims_eq]
  rw [FusedConstant.rowPlace, h, hoffset, toMemoryOrder_zeros, hlen]
  apply slot_self NDType.memShape_pos h0
  rw [NDType.memShape_prod]
  exact hk

theorem foldl_rows {firstRow rows : ℤ} (h : HoldsRange c d first count firstRow rows)
    (hraw : raw.length = (c.type.shape.prod * c.elemBits).toNat) :
    ∃ rest, (if rowShape c.type.shape d rows = c.type.shape then []
        else [.subView (rowOffset c.type.getRank d firstRow) (rowShape c.type.shape d rows)]).foldl
          (transformRaw c.elemBits c.type.dimsOrder) ⟨c.type.shape, raw⟩ =
        ⟨rowShape c.type.shape d rows, gather c.elemBits raw (fun k => (c.rowPlace d firstRow rows k).toNat)
          (rows * weight c.type.shape d).toNat ++ rest⟩ ∧
      (8 ∣ (rows * weight c.type.shape d).toNat * c.elemBits → rest = []) := by
  by_cases hfull : rowShape c.type.shape d rows = c.type.shape
  · refine ⟨[], ?_, fun _ => rfl⟩
    have hsize : rows * weight c.type.shape d = c.type.shape.prod := by rw [← prod_rowShape c.type.shape d rows, hfull]
    have hprod := c.prod_pos
    have hlen : raw.length = c.type.shape.prod.toNat * c.elemBits := by
      rw [hraw, Int.toNat_mul hprod.le (Int.natCast_nonneg _), Int.toNat_natCast]
    have hplace : gather c.elemBits raw (fun k => (c.rowPlace d firstRow rows k).toNat) c.type.shape.prod.toNat = raw := by
      rw [h.full hfull]
      refine (gather_congr fun k hk => ?_).trans (gather_id hlen)
      rw [rowPlace_full hfull (Int.natCast_nonneg k) (by omega), Int.toNat_natCast]
    rw [if_pos hfull, hsize, hplace, hfull, append_nil]
    rfl
  · refine ⟨List.replicate ((8 - (gather c.elemBits raw (fun k => (c.rowPlace d firstRow rows k).toNat)
          (rows * weight c.type.shape d).toNat).length % 8) % 8) false, ?_, ?_⟩
    · rw [if_neg hfull, foldl_cons, foldl_nil, transformRaw_subView h.fits, prod_rowShape]
      rfl
    · intro hdvd
      rw [length_gather fun k _ => place_bits h hraw k]
      have hzero : (8 - (rows * weight c.type.shape d).toNat * c.elemBits % 8) % 8 = 0 := by omega
      rw [hzero, replicate_zero]

theorem nonFlat_eq (hd : IsSliced c.type.shape (count + first) d) (hle : count + first ≤ c.type.shape.prod) :
    getNonFlatSubViewOffsetAndShape c.type.shape first count =
      some ⟨rowOffset c.type.getRank d (first / weight c.type.shape d),
        rowShape c.type.shape d (-(-(count + first) / weight c.type.shape d) - first / weight c.type.shape d),
        first / weight c.type.shape d * weight c.type.shape d⟩ := by
  obtain ⟨e, he, hsliced⟩ := findDimensionToSlice_spec hle c.type.shape.length le_rfl (.inl ⟨c.rank_pos, rfl⟩)
  rw [drop_length, prod_nil] at he
  rw [hsliced.unique c.type.shape_pos hd] at he
  rw [getNonFlatSubViewOffsetAndShape, he]
  rfl

theorem flatNumOfElems_ge {size : ℤ} {shape : List ℤ} (h0 : 0 ≤ size) (hshape : shape.prod = size)
    (hfit : getTotalAllocSize shape c.elemBits * 8 / c.elemBits < 2 ^ 31) :
    size ≤ toInt ((getTotalAllocSize shape c.elemBits * 8).tdiv (c.elemBits : ℤ)) := by
  have hbits : (0 : ℤ) < c.elemBits := by exact_mod_cast c.elemBits_pos
  have hmul0 : 0 ≤ size * (c.elemBits : ℤ) := mul_nonneg h0 hbits.le
  have halloc0 : 0 ≤ getTotalAllocSize shape c.elemBits * 8 := by
    rw [getTotalAllocSize, hshape]
    omega
  have halloc : size * (c.elemBits : ℤ) ≤ getTotalAllocSize shape c.elemBits * 8 := by
    rw [getTotalAllocSize, hshape]
    omega
  rw [Int.tdiv_eq_ediv_of_nonneg halloc0, toInt_of_lt (Int.ediv_nonneg halloc0 hbits.le) hfit]
  exact (Int.le_ediv_iff_mul_le hbits).2 halloc

theorem sliceConstant_eq (hd : IsSliced c.type.shape (count + first) d) (hfirst : 0 ≤ first) (hcount : 0 < count)
    (hfit : c.CountsFit first count) (hdvd : 8 ∣ count.toNat * c.elemBits) :
    ∃ ts, sliceConstant c first count = some ts ∧
      ∀ raw, raw.length = (c.type.shape.prod * c.elemBits).toNat →
        foldConstant raw (c, ts) = rangeBits c d first count raw := by
  have hrows := holdsRange hd hfirst hcount
  have hle : count + first ≤ c.type.shape.prod := by
    have hdrop : (c.type.shape.drop d).prod ≤ (c.type.shape.drop 0).prod := prod_drop_le c.type.shape_pos (Nat.zero_le d)
    rw [drop_zero] at hdrop
    linarith [hd.holds]
  have hend := hfit.1
  have hfirst' : toInt first = first := toInt_of_lt hfirst (by linarith)
  have hcount' : toInt count = count := toInt_of_lt hcount.le (by linarith)
  refine ⟨_, by rw [sliceConstant, hfirst', hcount', nonFlat_eq hd hle]; rfl, ?_⟩
  intro raw hraw
  let stride := weight c.type.shape d
  let firstRow := first / stride
  let rows := -(-(count + first) / stride) - firstRow
  have hstart : firstRow * stride ≤ first := hrows.start
  have hstop : count + (first - firstRow * stride) ≤ rows * stride := by
    have h : count + first ≤ (firstRow + rows) * stride := hrows.stop
    linarith
  obtain ⟨rest, hfold, hrest⟩ := foldl_rows hrows hraw
  have hnum := flatNumOfElems_ge (c := c) (by linarith) (prod_rowShape c.type.shape d rows) (hfit.2 d hd)
  rw [foldConstant, foldl_append]
  dsimp only
  rw [hfold]
  by_cases hflat : toInt ((getTotalAllocSize (rowShape c.type.shape d rows) c.elemBits * 8).tdiv (c.elemBits : ℤ)) =
      count ∧ first - firstRow * stride = 0
  · have hsize : rows * stride = count := by linarith [hflat.1, hflat.2]
    rw [if_pos hflat, foldl_nil, hrest (by rw [hsize]; exact hdvd), append_nil, hsize, rangeBits]
    apply gather_congr
    intro k _
    change (c.rowPlace d firstRow rows k).toNat = (c.rowPlace d firstRow rows (first - firstRow * stride + k)).toNat
    rw [hflat.2, zero_add]
  · have hplace : ∀ k < count.toNat, (first - firstRow * stride + (k : ℤ)).toNat < (rows * stride).toNat := by
      intro k hk
      omega
    have hgather := gather_gather rest (fun k (_ : k < (rows * stride).toNat) => place_bits hrows hraw k) hplace
    have hplace' : ∀ k : ℕ, ((first - firstRow * stride + (k : ℤ)).toNat : ℤ) = first - firstRow * stride + k := by
      intro k
      omega
    simp only [hplace'] at hgather
    rw [if_neg hflat, foldl_cons, foldl_cons, foldl_nil]
    change (transformRaw c.elemBits c.type.dimsOrder ⟨unsqueezed c.type.getRank 1 _, _⟩ _).bits = _
    have hrank : c.type.dimsOrder.numDims = c.type.getRank := c.type.numDims_eq
    rw [transformRaw_unsqueezed hrank c.rank_pos hcount]
    change padToByte (gather c.elemBits (gather c.elemBits raw _ (rows * stride).toNat ++ rest) _ count.toNat) = _
    rw [hgather, padToByte_of_dvd]
    · rfl
    · rw [length_gather fun k _ => place_bits hrows hraw _]
      exact hdvd

theorem transformRaw_empty {elemBits : ℕ} {order : DimsOrder} {input : RawConstant} {offset shape : List ℤ}
    (h : shape.prod = 0) : (transformRaw elemBits order input (.subView offset shape)).bits = [] := by
  simp [transformRaw, h, padToByte]

theorem sliceConstant_zero (hfirst : 0 ≤ first) (hle : first ≤ c.type.shape.prod) (hfit : c.CountsFit first 0) :
    ∃ ts, sliceConstant c first 0 = some ts ∧ ∀ raw, foldConstant raw (c, ts) = [] := by
  have hle' : 0 + first ≤ c.type.shape.prod := by linarith
  obtain ⟨d, _, hd⟩ := findDimensionToSlice_spec hle' c.type.shape.length le_rfl (.inl ⟨c.rank_pos, rfl⟩)
  have hend := hfit.1
  have hfirst' : toInt first = first := toInt_of_lt hfirst (by linarith)
  have hzero : toInt 0 = 0 := by decide
  refine ⟨_, by rw [sliceConstant, hfirst', hzero, nonFlat_eq hd hle']; rfl, ?_⟩
  intro raw
  let stride := weight c.type.shape d
  let firstRow := first / stride
  let rows := -(-(0 + first) / stride) - firstRow
  have hstride : 0 < stride := drop_pos c.type.shape_pos
  have hceil := ceil_bounds (0 + first) hstride
  have hfloor := Int.ediv_mul_le first hstride.ne'
  have hrows0 : 0 ≤ rows := by
    by_contra hneg
    have hlt : -(-(0 + first) / stride) + 1 ≤ firstRow := by omega
    have hmul := mul_le_mul_of_nonneg_right hlt hstride.le
    linarith [hceil.1]
  have hnum := flatNumOfElems_ge (c := c) (mul_nonneg hrows0 hstride.le) (prod_rowShape c.type.shape d rows) (hfit.2 d hd)
  rw [foldConstant, foldl_append]
  dsimp only
  by_cases hflat : toInt ((getTotalAllocSize (rowShape c.type.shape d rows) c.elemBits * 8).tdiv (c.elemBits : ℤ)) =
      0 ∧ first - firstRow * stride = 0
  · have hempty : (rowShape c.type.shape d rows).prod = 0 := by
      rw [prod_rowShape]
      have := mul_nonneg hrows0 hstride.le
      change rows * stride = 0
      linarith [hflat.1]
    have hne : rowShape c.type.shape d rows ≠ c.type.shape := by
      intro heq
      rw [heq] at hempty
      linarith [c.prod_pos]
    rw [if_pos hflat, foldl_nil, if_neg hne, foldl_cons, foldl_nil, transformRaw_empty hempty]
  · rw [if_neg hflat, foldl_cons, foldl_cons, foldl_nil, transformRaw_empty]
    exact prod_unsqueezed c.rank_pos 0

end

end NpuCompiler.Const
