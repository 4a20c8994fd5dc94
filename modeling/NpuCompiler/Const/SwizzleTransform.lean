import Mathlib.Data.Nat.Bitwise
import Mathlib.Tactic.IntervalCases
import NpuCompiler.Library.BlockRotation
import NpuCompiler.Library.ByteCopies

namespace NpuCompiler.Const

open BlockRotation ByteCopies List

inductive ArchKind where
  | UNKNOWN | NPU37XX | NPU40XX | NPU50XX
  deriving DecidableEq

section

def SWIZZLING_SIZE_ALIGNMENT_VPUX50XX : ℤ := 1024
def SWIZZLING_SIZE_ALIGNMENT_VPUX40XX : ℤ := 1024
def SWIZZLING_SIZE_ALIGNMENT_VPUX37XX : ℤ := 512

def getSizeAlignmentForSwizzling : ArchKind → ℤ
  | .NPU37XX => SWIZZLING_SIZE_ALIGNMENT_VPUX37XX
  | .NPU40XX => SWIZZLING_SIZE_ALIGNMENT_VPUX40XX
  | _ => SWIZZLING_SIZE_ALIGNMENT_VPUX50XX

end

def LOG2_RAM_CUT_DATA_WIDTH : BitVec 32 := 4#32
def LOG2_RAM_CUT_BYTES : BitVec 32 := LOG2_RAM_CUT_DATA_WIDTH + 5#32
def RAM_CUT_ADDRESS_MASK : BitVec 32 := (1#32 <<< LOG2_RAM_CUT_BYTES) - 1#32
def CUT_ADDRESS_MASK_10b : BitVec 32 := (1#32 <<< 11) - 1#32
def MAX_SWIZZLE_KEY : BitVec 32 := 5#32

structure AddressTransform where
  staggerAddressBits : BitVec 32
  staggerAddressMask : BitVec 32
  shift : BitVec 32
  log2RamCutDataWidth : BitVec 32
  archKind : ArchKind
  ramCutAddressMask : BitVec 32

namespace AddressTransform

def setStaggerBits (transform : AddressTransform) (bits : BitVec 32) : Option AddressTransform :=
  let staggerAddressBits := bits % (MAX_SWIZZLE_KEY + 1#32)
  let transform := { transform with
    staggerAddressBits := staggerAddressBits
    staggerAddressMask := (1#32 <<< staggerAddressBits) - 1#32
    shift := LOG2_RAM_CUT_BYTES - staggerAddressBits }
  let wider := { transform with
    shift := transform.shift + 1#32
    log2RamCutDataWidth := transform.log2RamCutDataWidth + 1#32
    ramCutAddressMask := (1#32 <<< (LOG2_RAM_CUT_BYTES + 1#32)) - 1#32 }
  match transform.archKind with
  | .NPU50XX => some wider
  | .NPU40XX => some wider
  | .NPU37XX => some transform
  | .UNKNOWN => none

def new (staggerBits : BitVec 32) (archKind : ArchKind) : Option AddressTransform :=
  setStaggerBits
    { staggerAddressBits := staggerBits, staggerAddressMask := 0, shift := 0, log2RamCutDataWidth := LOG2_RAM_CUT_DATA_WIDTH,
      archKind := archKind, ramCutAddressMask := RAM_CUT_ADDRESS_MASK } staggerBits

def getPhysicalAddress (transform : AddressTransform) (dpuAddr : BitVec 32) : BitVec 32 :=
  let addrStagger := dpuAddr >>> transform.log2RamCutDataWidth
  let addrStagger := addrStagger &&& CUT_ADDRESS_MASK_10b
  let addrStagger := addrStagger >>> MAX_SWIZZLE_KEY
  let addrStagger := addrStagger &&& transform.staggerAddressMask
  let addrStagger := addrStagger <<< transform.shift
  let phyAddr := dpuAddr + addrStagger
  let phyAddr := phyAddr &&& transform.ramCutAddressMask
  phyAddr + (dpuAddr &&& ~~~transform.ramCutAddressMask)

structure Staggers (transform : AddressTransform) (w k : ℕ) : Prop where
  width : transform.log2RamCutDataWidth.toNat = w
  width_le : w ≤ 5
  bits_le : k ≤ 5
  mask : transform.staggerAddressMask.toNat = 2 ^ k - 1
  shift : transform.shift.toNat = w + 5 - k
  ramCut : transform.ramCutAddressMask.toNat = 2 ^ (w + 5) - 1

def stagger (w k block : ℕ) : ℕ := block % 2 ^ k * 2 ^ (w + 5 - k)

variable {transform : AddressTransform} {w k : ℕ} {dpuAddr : BitVec 32}

theorem stagger_lt (hk : k ≤ 5) (block : ℕ) : stagger w k block < 2 ^ (w + 5) := by
  have hsplit : 2 ^ (w + 5) = 2 ^ k * 2 ^ (w + 5 - k) := by
    rw [← Nat.pow_add]
    congr 1
    omega
  unfold stagger
  rw [hsplit]
  exact Nat.mul_lt_mul_of_pos_right (Nat.mod_lt _ (Nat.two_pow_pos k)) (Nat.two_pow_pos _)

theorem dvd_stagger (hk : k ≤ 5) (block : ℕ) : 2 ^ w ∣ stagger w k block := by
  apply Dvd.dvd.mul_left
  apply Nat.pow_dvd_pow
  omega

theorem size_le (hw : w ≤ 5) : 2 ^ (w + 5) ≤ 2 ^ 10 := by
  apply Nat.pow_le_pow_right (by decide)
  omega

theorem and_mask {x m : BitVec 32} {r : ℕ} (hm : m.toNat = 2 ^ r - 1) : (x &&& m).toNat = x.toNat % 2 ^ r := by
  rw [BitVec.toNat_and, hm, Nat.and_two_pow_sub_one_eq_mod]

theorem and_not_mask {x m : BitVec 32} {r : ℕ} (hm : m.toNat = 2 ^ r - 1) : (x &&& ~~~m).toNat = x.toNat / 2 ^ r * 2 ^ r := by
  have hshift : x &&& ~~~m = (x >>> r) <<< r := by
    apply BitVec.eq_of_getLsbD_eq
    intro i hi
    have hbit : m.getLsbD i = decide (i < r) := by
      rw [← BitVec.testBit_toNat, hm, Nat.testBit_two_pow_sub_one]
    rw [BitVec.getLsbD_and, BitVec.getLsbD_not, hbit, BitVec.getLsbD_shiftLeft, BitVec.getLsbD_ushiftRight]
    by_cases hir : i < r
    · simp [hir]
    · simp [hir, hi, Nat.add_sub_cancel' (Nat.le_of_not_lt hir)]
  rw [hshift, BitVec.toNat_shiftLeft, BitVec.toNat_ushiftRight, Nat.shiftRight_eq_div_pow, Nat.shiftLeft_eq, Nat.mod_eq_of_lt]
  exact Nat.lt_of_le_of_lt (Nat.div_mul_le_self _ _) x.isLt

theorem Staggers.addrStagger (h : Staggers transform w k) :
    (((dpuAddr >>> transform.log2RamCutDataWidth &&& CUT_ADDRESS_MASK_10b) >>> MAX_SWIZZLE_KEY &&&
      transform.staggerAddressMask) <<< transform.shift).toNat = stagger w k (dpuAddr.toNat / 2 ^ (w + 5)) := by
  have hbits : (((dpuAddr >>> transform.log2RamCutDataWidth &&& CUT_ADDRESS_MASK_10b) >>> MAX_SWIZZLE_KEY &&&
      transform.staggerAddressMask)).toNat = dpuAddr.toNat / 2 ^ (w + 5) % 2 ^ k := by
    rw [and_mask h.mask, BitVec.ushiftRight_eq', BitVec.toNat_ushiftRight, and_mask (r := 11) rfl, BitVec.ushiftRight_eq',
      BitVec.toNat_ushiftRight, h.width, Nat.shiftRight_eq_div_pow, Nat.shiftRight_eq_div_pow]
    change dpuAddr.toNat / 2 ^ w % (2 ^ 5 * 2 ^ 6) / 2 ^ 5 % 2 ^ k = _
    rw [Nat.mod_mul_right_div_self, Nat.mod_mod_of_dvd _ (Nat.pow_dvd_pow 2 (Nat.le_succ_of_le h.bits_le)), Nat.div_div_eq_div_mul,
      ← Nat.pow_add]
  rw [BitVec.shiftLeft_eq', BitVec.toNat_shiftLeft, hbits, h.shift, Nat.shiftLeft_eq, Nat.mod_eq_of_lt]
  · rfl
  · have hlt := @stagger_lt w k h.bits_le (dpuAddr.toNat / 2 ^ (w + 5))
    have hsize := size_le h.width_le
    unfold stagger at hlt
    omega

theorem Staggers.getPhysicalAddress (h : Staggers transform w k) :
    (transform.getPhysicalAddress dpuAddr).toNat = rotate (2 ^ (w + 5)) (stagger w k) dpuAddr.toNat := by
  have hdvd : 2 ^ (w + 5) ∣ 2 ^ 32 := Nat.pow_dvd_pow 2 (by have := h.width_le; omega)
  have hlt : rotate (2 ^ (w + 5)) (stagger w k) dpuAddr.toNat < 2 ^ 32 := rotate_lt (Nat.two_pow_pos _) hdvd dpuAddr.isLt
  unfold AddressTransform.getPhysicalAddress
  dsimp only
  rw [BitVec.toNat_add, and_mask h.ramCut, and_not_mask h.ramCut, BitVec.toNat_add, h.addrStagger, Nat.mod_mod_of_dvd _ hdvd,
    Nat.add_comm]
  exact Nat.mod_eq_of_lt hlt

theorem new_staggers (staggerBits : BitVec 32) {archKind : ArchKind} (harch : archKind ≠ .UNKNOWN) :
    ∃ transform w k, new staggerBits archKind = some transform ∧ Staggers transform w k ∧
      getSizeAlignmentForSwizzling archKind = (2 ^ (w + 5) : ℕ) := by
  have hbits : (staggerBits % (MAX_SWIZZLE_KEY + 1#32)).toNat ≤ 5 := Nat.le_of_lt_succ (Nat.mod_lt _ (by decide))
  have hmask : ((1#32 <<< (staggerBits % (MAX_SWIZZLE_KEY + 1#32))) - 1#32).toNat =
      2 ^ (staggerBits % (MAX_SWIZZLE_KEY + 1#32)).toNat - 1 := by
    generalize (staggerBits % (MAX_SWIZZLE_KEY + 1#32)) = bits at hbits
    obtain ⟨k, hk⟩ : ∃ k, bits = BitVec.ofNat 32 k ∧ k ≤ 5 := ⟨bits.toNat, by simp, hbits⟩
    obtain ⟨rfl, hk⟩ := hk
    interval_cases k <;> rfl
  have hshift : (LOG2_RAM_CUT_BYTES - staggerBits % (MAX_SWIZZLE_KEY + 1#32)).toNat =
      9 - (staggerBits % (MAX_SWIZZLE_KEY + 1#32)).toNat := by
    rw [BitVec.toNat_sub_of_le]
    · rfl
    · exact BitVec.le_def.mpr (Nat.le_trans hbits (by decide))
  have hshift' : (LOG2_RAM_CUT_BYTES - staggerBits % (MAX_SWIZZLE_KEY + 1#32) + 1#32).toNat =
      10 - (staggerBits % (MAX_SWIZZLE_KEY + 1#32)).toNat := by
    rw [BitVec.toNat_add, hshift, show (1#32).toNat = 1 from rfl]
    omega
  cases archKind with
  | UNKNOWN => exact absurd rfl harch
  | NPU37XX => exact ⟨_, 4, _, rfl, ⟨rfl, by decide, hbits, hmask, hshift, rfl⟩, rfl⟩
  | NPU40XX => exact ⟨_, 5, _, rfl, ⟨rfl, by decide, hbits, hmask, hshift', rfl⟩, rfl⟩
  | NPU50XX => exact ⟨_, 5, _, rfl, ⟨rfl, by decide, hbits, hmask, hshift', rfl⟩, rfl⟩

end AddressTransform

namespace BufferSwizzleTransform

variable {α : Type}

def copyDataWidth (addressTransform : AddressTransform) : BitVec 32 := 1#32 <<< addressTransform.log2RamCutDataWidth

def iterations (addressTransform : AddressTransform) (inSize : ℕ) : ℕ :=
  let logToRamCutDataWidth := addressTransform.log2RamCutDataWidth.toNat
  let dataWidthM1 := copyDataWidth addressTransform - 1#32
  (((inSize + dataWidthM1.toNat) >>> logToRamCutDataWidth) <<< logToRamCutDataWidth) >>> logToRamCutDataWidth

def addresses (addressTransform : AddressTransform) : ℕ → BitVec 32 → List (BitVec 32 × BitVec 32)
  | 0, _ => []
  | iterations + 1, dpuAddr =>
    (addressTransform.getPhysicalAddress dpuAddr, dpuAddr) ::
      addresses addressTransform iterations (dpuAddr + copyDataWidth addressTransform)

def swizzleCopies (addressTransform : AddressTransform) (inSize : ℕ) : List (ℕ × ℕ) :=
  (addresses addressTransform (iterations addressTransform inSize) 0#32).map fun addr => (addr.1.toNat, addr.2.toNat)

/-- The bytes of the input are written to the swizzled buffer; an access outside of a buffer has no result. -/
def swizzle (addressTransform : AddressTransform) (input swizzledBuffer : List α) : Option (List α) :=
  copyAll (copyDataWidth addressTransform).toNat input swizzledBuffer (swizzleCopies addressTransform input.length)

def deswizzle (addressTransform : AddressTransform) (input deSwizzledBuffer : List α) : Option (List α) :=
  copyAll (copyDataWidth addressTransform).toNat input deSwizzledBuffer
    ((swizzleCopies addressTransform input.length).map Prod.swap)

variable {transform : AddressTransform} {w k size n start : ℕ}

theorem copyDataWidth_toNat (h : transform.Staggers w k) : (copyDataWidth transform).toNat = 2 ^ w := by
  have hwidth := h.width
  have hle := h.width_le
  unfold copyDataWidth
  rw [BitVec.shiftLeft_eq', BitVec.toNat_shiftLeft, hwidth, Nat.shiftLeft_eq, show (1#32).toNat = 1 from rfl, Nat.one_mul,
    Nat.mod_eq_of_lt (Nat.pow_lt_pow_right (by decide) (by omega))]

theorem iterations_eq (h : transform.Staggers w k) (hsize : 2 ^ w ∣ size) : iterations transform size = size / 2 ^ w := by
  obtain ⟨n, rfl⟩ := hsize
  have hpos : 0 < 2 ^ w := Nat.two_pow_pos w
  have hless : (copyDataWidth transform - 1#32).toNat = 2 ^ w - 1 := by
    rw [BitVec.toNat_sub_of_le, copyDataWidth_toNat h]
    · rfl
    · apply BitVec.le_def.mpr
      rw [copyDataWidth_toNat h]
      exact hpos
  unfold iterations
  dsimp only
  rw [h.width, hless, Nat.shiftLeft_shiftRight, Nat.shiftRight_eq_div_pow, Nat.mul_add_div hpos, Nat.mul_div_cancel_left _ hpos,
    Nat.div_eq_of_lt (Nat.sub_lt hpos Nat.one_pos), Nat.add_zero]

theorem addresses_eq (h : transform.Staggers w k) (hlt : start + n * 2 ^ w ≤ 2 ^ 32) :
    (addresses transform n (BitVec.ofNat 32 start)).map (fun addr => (addr.1.toNat, addr.2.toNat)) =
      (List.range n).map fun i => (rotate (2 ^ (w + 5)) (AddressTransform.stagger w k) (start + i * 2 ^ w), start + i * 2 ^ w) := by
  induction n generalizing start with
  | zero => rfl
  | succ n ih =>
    have hpos : 0 < 2 ^ w := Nat.two_pow_pos w
    have hstart : (BitVec.ofNat 32 start).toNat = start := by
      rw [BitVec.toNat_ofNat, Nat.mod_eq_of_lt]
      rw [Nat.succ_mul] at hlt
      omega
    have hnext : BitVec.ofNat 32 start + copyDataWidth transform = BitVec.ofNat 32 (start + 2 ^ w) := by
      apply BitVec.eq_of_toNat_eq
      rw [BitVec.toNat_add, copyDataWidth_toNat h, BitVec.toNat_ofNat, BitVec.toNat_ofNat, Nat.mod_add_mod]
    unfold addresses
    rw [hnext, map_cons, ih (by rw [Nat.succ_mul] at hlt; omega), range_succ_eq_map, map_cons, h.getPhysicalAddress,
      hstart, map_map, Nat.zero_mul, Nat.add_zero]
    congr 1
    apply map_congr_left
    intro i _
    simp only [Function.comp_apply, Nat.succ_mul, Prod.mk.injEq]
    constructor
    · congr 1
      omega
    · omega

section
variable (h : transform.Staggers w k) (hsize : 2 ^ w ∣ size) (hlt : size < 2 ^ 32)
include h hsize hlt

theorem swizzleCopies_eq : swizzleCopies transform size =
    (List.range (size / 2 ^ w)).map fun i => (rotate (2 ^ (w + 5)) (AddressTransform.stagger w k) (i * 2 ^ w), i * 2 ^ w) := by
  unfold swizzleCopies
  rw [iterations_eq h hsize]
  have := @addresses_eq transform w k (size / 2 ^ w) 0 h (by rw [Nat.zero_add, Nat.div_mul_cancel hsize]; omega)
  simpa only [Nat.zero_add] using this

theorem written_swizzleCopies : written (2 ^ w) (swizzleCopies transform size) =
      (List.range size).map (rotate (2 ^ (w + 5)) (AddressTransform.stagger w k)) := by
  unfold written
  rw [swizzleCopies_eq h hsize hlt, flatMap_map, ← Nat.div_mul_cancel hsize, ← range_chunks, map_flatMap,
    Nat.mul_div_cancel _ (Nat.two_pow_pos w)]
  apply flatMap_congr
  intro i _
  rw [map_map]
  apply map_congr_left
  intro j hj
  exact (rotate_add (Nat.pow_dvd_pow 2 (Nat.le_add_right w 5)) (AddressTransform.dvd_stagger h.bits_le _) (Nat.dvd_mul_left _ _)
    (mem_range.mp hj)).symm

theorem written_deswizzleCopies : written (2 ^ w) ((swizzleCopies transform size).map Prod.swap) = List.range size := by
  unfold written
  rw [swizzleCopies_eq h hsize hlt, map_map, flatMap_map, ← Nat.div_mul_cancel hsize, ← range_chunks,
    Nat.mul_div_cancel _ (Nat.two_pow_pos w)]
  rfl

end

variable {input swizzledBuffer deSwizzledBuffer swizzled : List α}

theorem mem_swizzleCopies (h : transform.Staggers w k) (hsize : 2 ^ w ∣ size) (hlt : size < 2 ^ 32) {copy : ℕ × ℕ} :
    copy ∈ swizzleCopies transform size ↔
      2 ^ w ∣ copy.2 ∧ copy.2 < size ∧ copy.1 = rotate (2 ^ (w + 5)) (AddressTransform.stagger w k) copy.2 := by
  have hpos : 0 < 2 ^ w := Nat.two_pow_pos w
  rw [swizzleCopies_eq h hsize hlt, mem_map]
  constructor
  · rintro ⟨i, hi, rfl⟩
    have hin := (Nat.lt_div_iff_mul_lt hpos).mp (mem_range.mp hi)
    exact ⟨Nat.dvd_mul_left _ _, by omega, rfl⟩
  · rintro ⟨hdvd, hcopy, hphys⟩
    refine ⟨copy.2 / 2 ^ w, mem_range.mpr (Nat.div_lt_div_of_lt_of_dvd hsize hcopy), ?_⟩
    rw [Nat.div_mul_cancel hdvd, ← hphys]

theorem chunk_le {a : ℕ} (hsize : 2 ^ w ∣ size) (ha : 2 ^ w ∣ a) (hlt : a < size) : a + 2 ^ w ≤ size := by
  obtain ⟨m, rfl⟩ := hsize
  obtain ⟨b, rfl⟩ := ha
  have := Nat.mul_le_mul_left (2 ^ w) (Nat.succ_le_of_lt (Nat.lt_of_mul_lt_mul_left hlt))
  rwa [Nat.mul_succ] at this

theorem swizzle_spec (h : transform.Staggers w k) (hsize : 2 ^ (w + 5) ∣ input.length) (hlt : input.length < 2 ^ 32)
    (hbuffer : swizzledBuffer.length = input.length) :
    ∃ swizzled, swizzle transform input swizzledBuffer = some swizzled ∧ swizzled.length = input.length ∧
      ∀ copy ∈ swizzleCopies transform input.length, ∀ j < 2 ^ w, swizzled[copy.1 + j]? = input[copy.2 + j]? := by
  have hpart : 2 ^ w ∣ 2 ^ (w + 5) := Nat.pow_dvd_pow 2 (Nat.le_add_right w 5)
  have hchunks : 2 ^ w ∣ input.length := hpart.trans hsize
  have hbounds : ∀ copy ∈ swizzleCopies transform input.length,
      copy.1 + 2 ^ w ≤ swizzledBuffer.length ∧ copy.2 + 2 ^ w ≤ input.length := by
    intro copy hcopy
    obtain ⟨hdvd, hin, hphys⟩ := (mem_swizzleCopies h hchunks hlt).mp hcopy
    rw [hbuffer, hphys]
    constructor
    · apply chunk_le hchunks (dvd_rotate hpart (AddressTransform.dvd_stagger h.bits_le _) hdvd)
      exact rotate_lt (Nat.two_pow_pos _) hsize hin
    · exact chunk_le hchunks hdvd hin
  have honce : (written (2 ^ w) (swizzleCopies transform input.length)).Nodup := by
    rw [written_swizzleCopies h hchunks hlt]
    exact nodup_range.map (rotate_injective (Nat.two_pow_pos _) (fun b => (AddressTransform.stagger_lt h.bits_le b).le))
  obtain ⟨swizzled, hrun, hlen, hparts, -⟩ := copyAll_spec hbounds honce
  refine ⟨swizzled, ?_, hlen.trans hbuffer, hparts⟩
  unfold swizzle
  rw [copyDataWidth_toNat h, hrun]

theorem deswizzle_spec (h : transform.Staggers w k) (hsize : 2 ^ (w + 5) ∣ input.length) (hlt : input.length < 2 ^ 32)
    (hbuffer : deSwizzledBuffer.length = input.length) (hlen : swizzled.length = input.length)
    (hswizzled : ∀ copy ∈ swizzleCopies transform input.length, ∀ j < 2 ^ w, swizzled[copy.1 + j]? = input[copy.2 + j]?) :
    deswizzle transform swizzled deSwizzledBuffer = some input := by
  have hpart : 2 ^ w ∣ 2 ^ (w + 5) := Nat.pow_dvd_pow 2 (Nat.le_add_right w 5)
  have hchunks : 2 ^ w ∣ input.length := hpart.trans hsize
  have hbounds : ∀ copy ∈ (swizzleCopies transform input.length).map Prod.swap,
      copy.1 + 2 ^ w ≤ deSwizzledBuffer.length ∧ copy.2 + 2 ^ w ≤ swizzled.length := by
    intro swapped hswapped
    obtain ⟨copy, hcopy, rfl⟩ := mem_map.mp hswapped
    obtain ⟨hdvd, hin, hphys⟩ := (mem_swizzleCopies h hchunks hlt).mp hcopy
    rw [hbuffer, hlen, Prod.fst_swap, Prod.snd_swap, hphys]
    constructor
    · exact chunk_le hchunks hdvd hin
    · apply chunk_le hchunks (dvd_rotate hpart (AddressTransform.dvd_stagger h.bits_le _) hdvd)
      exact rotate_lt (Nat.two_pow_pos _) hsize hin
  have honce : (written (2 ^ w) ((swizzleCopies transform input.length).map Prod.swap)).Nodup := by
    rw [written_deswizzleCopies h hchunks hlt]
    exact nodup_range
  obtain ⟨restored, hrun, hlenR, hparts, -⟩ := copyAll_spec hbounds honce
  unfold deswizzle
  rw [copyDataWidth_toNat h, hlen, hrun]
  congr 1
  apply ext_getElem?
  intro x
  by_cases hx : x < input.length
  · -- the chunk of the byte and its position there
    have hmem : (rotate (2 ^ (w + 5)) (AddressTransform.stagger w k) (x / 2 ^ w * 2 ^ w), x / 2 ^ w * 2 ^ w) ∈
        swizzleCopies transform input.length := by
      apply (mem_swizzleCopies h hchunks hlt).mpr
      exact ⟨Nat.dvd_mul_left _ _, Nat.lt_of_le_of_lt (Nat.div_mul_le_self _ _) hx, rfl⟩
    have hj : x % 2 ^ w < 2 ^ w := Nat.mod_lt _ (Nat.two_pow_pos w)
    have hrestored := hparts _ (mem_map_of_mem hmem) _ hj
    have horig := hswizzled _ hmem _ hj
    rw [Prod.fst_swap, Prod.snd_swap] at hrestored
    dsimp only at hrestored horig
    rwa [horig, Nat.mul_comm, Nat.div_add_mod] at hrestored
  · rw [getElem?_eq_none (by omega), getElem?_eq_none (by omega)]

end BufferSwizzleTransform

section

def chunkAddresses (transform : AddressTransform) (size : ℕ) : Set (BitVec 32) :=
  {addr | (BufferSwizzleTransform.copyDataWidth transform).toNat ∣ addr.toNat ∧ addr.toNat < size}

theorem bijOn_getPhysicalAddress {transform : AddressTransform} {w k size : ℕ} (h : transform.Staggers w k) (hsize : 2 ^ (w + 5) ∣ size)
    (hlt : size < 2 ^ 32) : Set.BijOn transform.getPhysicalAddress (chunkAddresses transform size) (chunkAddresses transform size) := by
  have hbij := @bijOn_rotate (2 ^ (w + 5)) (2 ^ w) size (AddressTransform.stagger w k) (Nat.two_pow_pos _)
    (fun b => (AddressTransform.stagger_lt h.bits_le b).le) (Nat.pow_dvd_pow 2 (Nat.le_add_right w 5))
    (AddressTransform.dvd_stagger h.bits_le) hsize
  have hmem {addr : BitVec 32} : addr ∈ chunkAddresses transform size ↔ addr.toNat ∈ {a | 2 ^ w ∣ a ∧ a < size} := by
    unfold chunkAddresses
    rw [BufferSwizzleTransform.copyDataWidth_toNat h]
    rfl
  refine ⟨?_, ?_, ?_⟩
  · intro addr haddr
    apply hmem.mpr
    rw [h.getPhysicalAddress]
    exact hbij.mapsTo (hmem.mp haddr)
  · intro addr haddr addr' haddr' heq
    apply BitVec.eq_of_toNat_eq
    apply hbij.injOn (hmem.mp haddr) (hmem.mp haddr')
    rw [← h.getPhysicalAddress, heq, h.getPhysicalAddress]
  · intro addr haddr
    obtain ⟨a, ha, hphys⟩ := hbij.surjOn (hmem.mp haddr)
    have hnat : (BitVec.ofNat 32 a).toNat = a := by
      rw [BitVec.toNat_ofNat, Nat.mod_eq_of_lt (by have := ha.2; omega)]
    refine ⟨BitVec.ofNat 32 a, hmem.mpr (hnat.symm ▸ ha), ?_⟩
    apply BitVec.eq_of_toNat_eq
    rw [h.getPhysicalAddress, hnat, hphys]

/-- Swizzling permutes the chunks of each alignment block, writes every byte once, and is undone by deswizzling. -/
theorem swizzle_bijection (swizzleKey : BitVec 32) (archKind : ArchKind) (harch : archKind ≠ .UNKNOWN) :
    ∃ transform, AddressTransform.new swizzleKey archKind = some transform ∧
      ∀ size : ℕ, getSizeAlignmentForSwizzling archKind ∣ size → size < 2 ^ 32 →
        Set.BijOn transform.getPhysicalAddress (chunkAddresses transform size) (chunkAddresses transform size) ∧
        (∀ addr, (transform.getPhysicalAddress addr).toNat / (getSizeAlignmentForSwizzling archKind).toNat =
          addr.toNat / (getSizeAlignmentForSwizzling archKind).toNat) ∧
        (written (BufferSwizzleTransform.copyDataWidth transform).toNat (BufferSwizzleTransform.swizzleCopies transform size)).Perm
          (List.range size) ∧
        ∀ input swizzledBuffer deSwizzledBuffer : List UInt8, input.length = size → swizzledBuffer.length = size →
          deSwizzledBuffer.length = size →
          ∃ swizzled, BufferSwizzleTransform.swizzle transform input swizzledBuffer = some swizzled ∧ swizzled.length = size ∧
            BufferSwizzleTransform.deswizzle transform swizzled deSwizzledBuffer = some input := by
  obtain ⟨transform, w, k, hnew, h, halign⟩ := AddressTransform.new_staggers swizzleKey harch
  refine ⟨transform, hnew, ?_⟩
  intro size hsize hlt
  rw [halign, Int.natCast_dvd_natCast] at hsize
  have hchunks : 2 ^ w ∣ size := (Nat.pow_dvd_pow 2 (Nat.le_add_right w 5)).trans hsize
  rw [halign, Int.toNat_natCast, BufferSwizzleTransform.copyDataWidth_toNat h, BufferSwizzleTransform.written_swizzleCopies h hchunks hlt]
  refine ⟨bijOn_getPhysicalAddress h hsize hlt, ?_, ?_, ?_⟩
  · intro addr
    rw [h.getPhysicalAddress, rotate_div (Nat.two_pow_pos _)]
  · exact perm_rotate (Nat.two_pow_pos _) (fun b => (AddressTransform.stagger_lt h.bits_le b).le) hsize
  · rintro input swizzledBuffer deSwizzledBuffer rfl hbuffer hdeBuffer
    obtain ⟨swizzled, hswizzle, hlen, hparts⟩ := BufferSwizzleTransform.swizzle_spec h hsize hlt hbuffer
    exact ⟨swizzled, hswizzle, hlen, BufferSwizzleTransform.deswizzle_spec h hsize hlt hdeBuffer hlen hparts⟩

theorem swizzle_bijection_NPU40XX : ∃ transform, AddressTransform.new 5#32 .NPU40XX = some transform ∧
    Set.BijOn transform.getPhysicalAddress (chunkAddresses transform 2048) (chunkAddresses transform 2048) := by
  obtain ⟨transform, hnew, h⟩ := swizzle_bijection 5#32 .NPU40XX (by decide)
  exact ⟨transform, hnew, (h 2048 (by decide) (by decide)).1⟩

end

end NpuCompiler.Const
