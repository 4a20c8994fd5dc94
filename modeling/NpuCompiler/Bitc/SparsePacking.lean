import Mathlib.Algebra.Order.BigOperators.Group.List
import NpuCompiler.Bitc.EncodeRun

namespace NpuCompiler.Bitc

open List

namespace Decoder

def readAt (src : List UInt8) (start count : ℕ) : Option (List UInt8) :=
  if start + count ≤ src.length then some ((src.drop start).take count) else none

def writeAt (dst : List UInt8) (start : ℕ) (bytes : List UInt8) : Option (List UInt8) :=
  if start + bytes.length ≤ dst.length then some (dst.take start ++ bytes ++ dst.drop (start + bytes.length)) else none

structure Unpacking where
  dst : List UInt8
  bitmap : List UInt8
  srcIdx : ℕ
  btmBlockStart : ℕ
  dstBlockStart : ℕ
  deriving DecidableEq, Repr

def sparsityHeader (src : List UInt8) (srcIdx typeBytes : ℕ) : Option (ℕ × ℕ) := do
  let low ← src[srcIdx]?
  if low.toNat % 2 = 1 then
    let high ← src[srcIdx + 1]?
    return ((low.toNat + high.toNat * 2 ^ 8) / 2 ^ 2 * typeBytes, u32 (srcIdx + 2))
  else return (low.toNat / 2 * typeBytes, u32 (srcIdx + 1))

def unpackBlock (src : List UInt8) (typeBytes sparseBlockSize : ℕ) (u : Unpacking) : Except Failure Unpacking := do
  let btmBlockSize := sparseBlockSize / (8 * typeBytes)
  if u32 (u.srcIdx + btmBlockSize) > src.length ∨ u32 (u.btmBlockStart + btmBlockSize) > u32 u.bitmap.length then
    throw (.error "UnpackSparseData: Bitmap handling failed")
  let block ← Encoder.bounds (readAt src u.srcIdx btmBlockSize)
  let bitmap ← Encoder.bounds (writeAt u.bitmap u.btmBlockStart block)
  let (validBytes, srcIdx) ← Encoder.bounds (sparsityHeader src (u32 (u.srcIdx + btmBlockSize)) typeBytes)
  if u32 (srcIdx + validBytes) > src.length then throw (.error "UnpackSparseData: Data handling failed")
  let dst ← Encoder.bounds (writeAt u.dst u.dstBlockStart (List.replicate sparseBlockSize 0))
  let valid ← Encoder.bounds (readAt src srcIdx validBytes)
  let dst ← Encoder.bounds (writeAt dst u.dstBlockStart valid)
  return ⟨dst, bitmap, u32 (srcIdx + validBytes), u32 (u.btmBlockStart + btmBlockSize),
    u32 (u.dstBlockStart + sparseBlockSize)⟩

def unpackLoop (src : List UInt8) (typeBytes sparseBlockSize : ℕ) : ℕ → Unpacking → Except Failure Unpacking
  | 0, _ => .error .outOfBounds
  | fuel + 1, u =>
    if u.srcIdx < src.length then do
      let u ← unpackBlock src typeBytes sparseBlockSize u
      unpackLoop src typeBytes sparseBlockSize fuel u
    else .ok u

def unpackSparseData (config : BitCompactorConfig) (fuel : ℕ) (src dst bitmap : List UInt8) (sparseBlockSize : ℕ) :
    Except Failure (List UInt8 × List UInt8) := do
  let typeBytes := if config.modeFp16Enable then 2 else 1
  if sparseBlockSize ≠ 0 ∧ sparseBlockSize % 16 = 0 then
    let u ← unpackLoop src typeBytes sparseBlockSize fuel ⟨dst, bitmap, 0, 0, 0⟩
    let dst := u.dst.take u.dstBlockStart ++ List.replicate (u.dstBlockStart - u.dst.length) 0
    if u.bitmap.length ≠ u.btmBlockStart then throw (.error "UnpackSparseData: Bitmap size mismatch.")
    return (dst, u.bitmap)
  else throw (.error "UnpackSparseData: Invalid configuration")

def decodeSparse (config : BitCompactorConfig) (fuel : ℕ) (encoded bitmap : List UInt8) (sparseBlockSize : ℕ) :
    Except Failure (List UInt8 × List UInt8) := do
  let out ← decode config fuel encoded
  unpackSparseData config fuel out (List.replicate (2 * out.length) 0) bitmap sparseBlockSize

end Decoder

open Encoder

section
variable (config : BitCompactorConfig)

def typeBytes : ℕ := if config.modeFp16Enable then 2 else 1

def btmBlockSize : ℕ := config.sparseBlockSize / (8 * typeBytes config)

def elemCount (btm : List UInt8) : ℕ := (btm.map popcount).sum

def sparsityHeaderBytes (elemCount : ℕ) : List UInt8 :=
  if elemCount < 128 then [UInt8.ofNat (elemCount * 2)]
  else [UInt8.ofNat (elemCount * 4 ||| 1), UInt8.ofNat ((elemCount * 4 ||| 1) / 2 ^ 8)]

def packedBlock (btm data : List UInt8) : List UInt8 :=
  btm ++ (sparsityHeaderBytes (elemCount btm) ++ data.take (elemCount btm * typeBytes config))

def btmBlock (blk : ℕ) : List UInt8 := (config.bitmap.drop (blk * btmBlockSize config)).take (btmBlockSize config)

def dataBlock (data : List UInt8) (blk : ℕ) : List UInt8 :=
  (data.drop (blk * config.sparseBlockSize)).take config.sparseBlockSize

def packedBlocks (data : List UInt8) (blocks : ℕ) : List UInt8 :=
  (List.range blocks).flatMap (fun blk => packedBlock config (btmBlock config blk) (dataBlock config data blk))

def packedSize (blocks : ℕ) : ℕ :=
  ((List.range blocks).map (fun blk => btmBlockSize config + (if elemCount (btmBlock config blk) < 128 then 1 else 2) +
    elemCount (btmBlock config blk) * typeBytes config)).sum

end

structure SparseInput (config : BitCompactorConfig) (data : List UInt8) : Prop where
  positive : 0 < config.sparseBlockSize
  aligned : config.sparseBlockSize % 16 = 0
  elements : config.sparseBlockSize / typeBytes config ≤ 16383
  flags : config.bitmap.length * (8 * typeBytes config) = data.length
  blocks : data.length % config.sparseBlockSize = 0
  zeros : ∀ blk < data.length / config.sparseBlockSize,
    ∀ byte ∈ (dataBlock config data blk).drop (elemCount (btmBlock config blk) * typeBytes config), byte = 0

def SparseRoundTrips (config : BitCompactorConfig) (data : List UInt8) : Prop :=
  ∃ source packed bytes, BitStream.ofBytes data = some source ∧ packSparseData config source = .ok packed ∧
    packed.bytesAt 0 packed.sourceByteCount = some bytes ∧
    ∀ bitmap : List UInt8, bitmap.length = config.bitmap.length → ∃ bound, ∀ fuel ≥ bound,
      Decoder.unpackSparseData config fuel bytes (List.replicate (2 * bytes.length) 0) bitmap config.sparseBlockSize =
        .ok (data, config.bitmap)

section
variable {config : BitCompactorConfig} {data btm : List UInt8}

theorem typeBytes_cases (config : BitCompactorConfig) : typeBytes config = 1 ∨ typeBytes config = 2 := by
  unfold typeBytes
  split_ifs
  · exact .inr rfl
  · exact .inl rfl

theorem SparseInput.blockSize_eq (h : SparseInput config data) :
    config.sparseBlockSize = 8 * typeBytes config * btmBlockSize config := by
  have haligned := h.aligned
  unfold btmBlockSize
  cases typeBytes_cases config with
  | inl hone =>
    rw [hone]
    omega
  | inr htwo =>
    rw [htwo]
    omega

theorem popcount_le (byte : UInt8) : popcount byte ≤ 8 := by
  unfold popcount
  have hmod (n : ℕ) : n % 2 ≤ 1 := by omega
  have hsum := sum_le_card_nsmul ((List.range 8).map (fun bitPos => byte.toNat / 2 ^ bitPos % 2)) 1 (by
    intro n hn
    obtain ⟨bitPos, -, rfl⟩ := mem_map.mp hn
    exact hmod _)
  simpa using hsum

theorem elemCount_le (btm : List UInt8) : elemCount btm ≤ 8 * btm.length := by
  unfold elemCount
  have hsum := sum_le_card_nsmul (btm.map popcount) 8 (by
    intro n hn
    obtain ⟨byte, -, rfl⟩ := mem_map.mp hn
    exact popcount_le byte)
  simpa [Nat.mul_comm] using hsum

theorem SparseInput.valid_le (h : SparseInput config data) (hbtm : btm.length = btmBlockSize config) :
    elemCount btm * typeBytes config ≤ config.sparseBlockSize := by
  have hcount := elemCount_le btm
  rw [h.blockSize_eq]
  calc elemCount btm * typeBytes config ≤ 8 * btm.length * typeBytes config := Nat.mul_le_mul_right _ hcount
    _ = 8 * typeBytes config * btmBlockSize config := by
      rw [hbtm]
      ring

theorem SparseInput.elemCount_le (h : SparseInput config data) (hbtm : btm.length = btmBlockSize config) :
    elemCount btm ≤ 16383 := by
  have hvalid := h.valid_le hbtm
  have helements := h.elements
  have hpos : 0 < typeBytes config := by
    cases typeBytes_cases config <;> omega
  exact ((Nat.le_div_iff_mul_le hpos).mpr hvalid).trans helements

theorem sparsityHeaderBytes_length (elemCount : ℕ) :
    (sparsityHeaderBytes elemCount).length = if elemCount < 128 then 1 else 2 := by
  unfold sparsityHeaderBytes
  split_ifs <;> rfl

theorem typeBytes_pos (config : BitCompactorConfig) : 0 < 8 * typeBytes config := by
  cases typeBytes_cases config <;> omega

theorem SparseInput.length_eq (h : SparseInput config data) :
    data.length = data.length / config.sparseBlockSize * config.sparseBlockSize := by
  have hdiv := Nat.div_add_mod data.length config.sparseBlockSize
  rw [h.blocks, Nat.add_zero, Nat.mul_comm] at hdiv
  exact hdiv.symm

theorem SparseInput.bitmap_length (h : SparseInput config data) :
    config.bitmap.length = data.length / config.sparseBlockSize * btmBlockSize config := by
  have hflags := h.flags
  have hlength := h.length_eq
  generalize data.length / config.sparseBlockSize = blocks at hlength ⊢
  rw [hlength, h.blockSize_eq] at hflags
  apply Nat.eq_of_mul_eq_mul_right (typeBytes_pos config)
  rw [hflags]
  ring

theorem packedBlock_length (hbtm : btm.length = btmBlockSize config) {block : List UInt8}
    (hvalid : elemCount btm * typeBytes config ≤ block.length) : (packedBlock config btm block).length =
      btmBlockSize config + (if elemCount btm < 128 then 1 else 2) + elemCount btm * typeBytes config := by
  unfold packedBlock
  rw [length_append, length_append, hbtm, sparsityHeaderBytes_length, length_take, Nat.min_eq_left hvalid]
  omega

section
variable {blk : ℕ}

theorem SparseInput.btmBlock_length (h : SparseInput config data) (hblk : blk < data.length / config.sparseBlockSize) :
    (btmBlock config blk).length = btmBlockSize config := by
  have hle := Nat.mul_le_mul_right (btmBlockSize config) (Nat.succ_le_of_lt hblk)
  rw [Nat.succ_mul] at hle
  unfold btmBlock
  rw [length_take, length_drop, h.bitmap_length]
  omega

theorem SparseInput.dataBlock_length (h : SparseInput config data) (hblk : blk < data.length / config.sparseBlockSize) :
    (dataBlock config data blk).length = config.sparseBlockSize := by
  have hle := Nat.mul_le_mul_right config.sparseBlockSize (Nat.succ_le_of_lt hblk)
  rw [Nat.succ_mul, ← h.length_eq] at hle
  unfold dataBlock
  rw [length_take, length_drop]
  omega

theorem packedBlocks_succ (blk : ℕ) : packedBlocks config data (blk + 1) =
    packedBlocks config data blk ++ packedBlock config (btmBlock config blk) (dataBlock config data blk) := by
  unfold packedBlocks
  rw [range_succ, flatMap_append, flatMap_singleton]

theorem packedBlocks_length (h : SparseInput config data) {blocks : ℕ}
    (hblocks : blocks ≤ data.length / config.sparseBlockSize) :
    (packedBlocks config data blocks).length = packedSize config blocks := by
  induction blocks with
  | zero => rfl
  | succ blk ih =>
    have hbtm := h.btmBlock_length (Nat.lt_of_succ_le hblocks)
    have hvalid := h.valid_le hbtm
    rw [← h.dataBlock_length (Nat.lt_of_succ_le hblocks)] at hvalid
    rw [packedBlocks_succ, length_append, ih (by omega), packedBlock_length hbtm hvalid]
    unfold packedSize
    rw [range_succ, map_append, sum_append, map_singleton, sum_singleton]

end

end

section
variable {config : BitCompactorConfig} {source : BitStream} {data : List UInt8}

def packingAt (config : BitCompactorConfig) (dst : List UInt8) (blk : ℕ) : SparsePacking :=
  ⟨dst, blk * config.sparseBlockSize, 0, blk * btmBlockSize config, blk * config.sparseBlockSize⟩

theorem srcIdx_mod (h : SparseInput config data) {blk j : ℕ} (hpos : 0 < j) (hj : j < btmBlockSize config) :
    (blk * config.sparseBlockSize + 8 * typeBytes config * j) % config.sparseBlockSize ≠ 0 := by
  have htype : 0 < 8 * typeBytes config := by
    cases typeBytes_cases config <;> omega
  have hlt : 8 * typeBytes config * j < config.sparseBlockSize := by
    rw [h.blockSize_eq]
    exact Nat.mul_lt_mul_of_pos_left hj htype
  rw [Nat.mul_comm blk, Nat.mul_add_mod, Nat.mod_eq_of_lt hlt]
  exact (Nat.mul_pos htype hpos).ne'

theorem packBitmapByte_skip (p : SparsePacking) (bitmapByte : UInt8) {srcIdx : ℕ}
    (hsrc : p.srcIdx + 8 * typeBytes config = srcIdx) (hmod : srcIdx % config.sparseBlockSize ≠ 0) :
    packBitmapByte config source p bitmapByte =
      .ok ⟨p.dst, srcIdx, p.bitCnt + popcount bitmapByte, p.btmBlockStart, p.datablockStart⟩ := by
  subst hsrc
  unfold packBitmapByte
  change (if (p.srcIdx + 8 * typeBytes config) % config.sparseBlockSize = 0 then _ else _) = _
  rw [if_neg hmod]
  rfl

theorem foldlM_packBitmapByte_within (h : SparseInput config data) (dst : List UInt8) (blk : ℕ) (btm : List UInt8)
    (hlen : btm.length < btmBlockSize config) :
    btm.foldlM (packBitmapByte config source) (packingAt config dst blk) =
      .ok ⟨dst, blk * config.sparseBlockSize + 8 * typeBytes config * btm.length, elemCount btm,
        blk * btmBlockSize config, blk * config.sparseBlockSize⟩ := by
  induction btm using List.reverseRecOn with
  | nil => rfl
  | append_singleton btm byte ih =>
    rw [length_append, length_singleton] at hlen ⊢
    have hmod := @srcIdx_mod config data h blk (btm.length + 1) (Nat.succ_pos _) hlen
    have hcount : elemCount (btm ++ [byte]) = elemCount btm + popcount byte := by simp [elemCount]
    rw [List.foldlM_append, ih (by omega), hcount]
    change packBitmapByte config source _ byte >>= pure = _
    rw [packBitmapByte_skip _ byte (show _ + 8 * typeBytes config = _ by ring) hmod]
    rfl

theorem packBitmapByte_eq (config : BitCompactorConfig) (source : BitStream) (p : SparsePacking) (bitmapByte : UInt8)
    {srcIdx elemCount : ℕ} {block data : List UInt8} (hsrc : p.srcIdx + 8 * typeBytes config = srcIdx)
    (hcount : p.bitCnt + popcount bitmapByte = elemCount) (hmod : srcIdx % config.sparseBlockSize = 0)
    (hblock : (config.bitmap.drop p.btmBlockStart).take (btmBlockSize config) = block)
    (hblockLen : block.length = btmBlockSize config)
    (hdata : source.bytesAt p.datablockStart (elemCount * typeBytes config) = some data) :
    packBitmapByte config source p bitmapByte =
      if p.dst.length + (block ++ (sparsityHeaderBytes elemCount ++ data)).length ≤ source.sourceByteCount then
        .ok ⟨p.dst ++ (block ++ (sparsityHeaderBytes elemCount ++ data)), srcIdx, 0,
          p.btmBlockStart + btmBlockSize config, srcIdx⟩
      else .error .outOfBounds := by
  subst hsrc hcount
  unfold packBitmapByte
  change (if (p.srcIdx + 8 * typeBytes config) % config.sparseBlockSize = 0 then _ else _) = _
  rw [if_pos hmod]
  change (bounds (if ((config.bitmap.drop p.btmBlockStart).take (btmBlockSize config)).length = btmBlockSize config then
    some ((config.bitmap.drop p.btmBlockStart).take (btmBlockSize config)) else none) >>= _) = _
  rw [hblock, if_pos hblockLen]
  change (bounds (if p.dst.length + block.length ≤ source.sourceByteCount then some (p.dst ++ block) else none) >>=
    fun dst => bounds (if dst.length + (sparsityHeaderBytes (p.bitCnt + popcount bitmapByte)).length ≤
      source.sourceByteCount then some (dst ++ sparsityHeaderBytes (p.bitCnt + popcount bitmapByte)) else none) >>=
    fun dst => bounds (source.bytesAt p.datablockStart ((p.bitCnt + popcount bitmapByte) * typeBytes config)) >>=
    fun data => bounds (if dst.length + data.length ≤ source.sourceByteCount then some (dst ++ data) else none) >>=
    fun dst => pure _) = _
  rw [hdata]
  generalize sparsityHeaderBytes (p.bitCnt + popcount bitmapByte) = header
  simp only [length_append]
  by_cases hall : p.dst.length + (block.length + (header.length + data.length)) ≤ source.sourceByteCount
  · rw [if_pos hall, if_pos (by omega)]
    simp only [bounds, bind, Except.bind, length_append]
    rw [if_pos (by omega)]
    simp only [length_append]
    rw [if_pos (by omega)]
    simp only [append_assoc]
    rfl
  · rw [if_neg hall]
    by_cases hblockFits : p.dst.length + block.length ≤ source.sourceByteCount
    · rw [if_pos hblockFits]
      simp only [bounds, bind, Except.bind, length_append]
      by_cases hheaderFits : p.dst.length + block.length + header.length ≤ source.sourceByteCount
      · rw [if_pos hheaderFits]
        simp only [length_append]
        rw [if_neg (by omega)]
      · rw [if_neg hheaderFits]
    · rw [if_neg hblockFits]
      rfl

theorem foldlM_packBitmapByte_block (h : SparseInput config data) (hsource : HoldsBytes source data) (dst : List UInt8)
    {blk : ℕ} (hblk : blk < data.length / config.sparseBlockSize) :
    (btmBlock config blk).foldlM (packBitmapByte config source) (packingAt config dst blk) =
      if (dst ++ packedBlock config (btmBlock config blk) (dataBlock config data blk)).length ≤ data.length then
        .ok (packingAt config (dst ++ packedBlock config (btmBlock config blk) (dataBlock config data blk)) (blk + 1))
      else .error .outOfBounds := by
  have hlen := h.btmBlock_length hblk
  have hvalid := h.valid_le hlen
  have hpos : 0 < btmBlockSize config := by
    have := h.positive
    rw [h.blockSize_eq] at this
    exact Nat.pos_of_mul_pos_left this
  have hne : btmBlock config blk ≠ [] := by
    apply ne_nil_of_length_pos
    rwa [hlen]
  obtain ⟨btm, byte, hbtm⟩ : ∃ btm byte, btmBlock config blk = btm ++ [byte] :=
    ⟨_, _, (dropLast_append_getLast hne).symm⟩
  have hlen' : btm.length + 1 = btmBlockSize config := by
    rw [← hlen, hbtm, length_append, length_singleton]
  have hcount : elemCount btm + popcount byte = elemCount (btmBlock config blk) := by
    rw [hbtm]
    simp [elemCount]
  have hsrc : blk * config.sparseBlockSize + 8 * typeBytes config * btm.length + 8 * typeBytes config =
      (blk + 1) * config.sparseBlockSize := by
    rw [h.blockSize_eq, ← hlen']
    ring
  have hdata : source.bytesAt (blk * config.sparseBlockSize) (elemCount (btmBlock config blk) * typeBytes config) =
      some ((dataBlock config data blk).take (elemCount (btmBlock config blk) * typeBytes config)) := by
    have hle := Nat.mul_le_mul_right config.sparseBlockSize (Nat.succ_le_of_lt hblk)
    rw [Nat.succ_mul, ← h.length_eq] at hle
    rw [hsource.bytesAt (by omega)]
    unfold dataBlock
    rw [take_take, Nat.min_eq_left hvalid]
  calc (btmBlock config blk).foldlM (packBitmapByte config source) (packingAt config dst blk)
      = (btm ++ [byte]).foldlM (packBitmapByte config source) (packingAt config dst blk) := by rw [hbtm]
    _ = packBitmapByte config source ⟨dst, blk * config.sparseBlockSize + 8 * typeBytes config * btm.length, elemCount btm,
          blk * btmBlockSize config, blk * config.sparseBlockSize⟩ byte := by
      rw [List.foldlM_append, foldlM_packBitmapByte_within h dst blk btm (by omega)]
      change packBitmapByte config source _ byte >>= pure = _
      cases packBitmapByte config source _ byte <;> rfl
    _ = _ := by
      have hemit := packBitmapByte_eq config source ⟨dst, blk * config.sparseBlockSize +
        8 * typeBytes config * btm.length, elemCount btm, blk * btmBlockSize config, blk * config.sparseBlockSize⟩ byte
        hsrc hcount (Nat.mul_mod_left _ _) (show _ = btmBlock config blk from rfl) hlen hdata
      dsimp only at hemit
      unfold packingAt packedBlock
      rw [hemit, hsource.count, @length_append _ dst, Nat.succ_mul blk (btmBlockSize config)]

theorem foldlM_packBitmapByte (h : SparseInput config data) (hsource : HoldsBytes source data) {blocks : ℕ}
    (hblocks : blocks ≤ data.length / config.sparseBlockSize) :
    (config.bitmap.take (blocks * btmBlockSize config)).foldlM (packBitmapByte config source) ⟨[], 0, 0, 0, 0⟩ =
      if (packedBlocks config data blocks).length ≤ data.length then
        .ok (packingAt config (packedBlocks config data blocks) blocks)
      else .error .outOfBounds := by
  induction blocks with
  | zero =>
    simp [packedBlocks, packingAt]
    rfl
  | succ blk ih =>
    rw [Nat.succ_mul, List.take_add, List.foldlM_append, ih (by omega)]
    have hgrow : (packedBlocks config data blk).length ≤ (packedBlocks config data (blk + 1)).length := by
      rw [packedBlocks_succ, length_append]
      exact Nat.le_add_right _ _
    by_cases hfits : (packedBlocks config data blk).length ≤ data.length
    · rw [if_pos hfits]
      change (btmBlock config blk).foldlM (packBitmapByte config source) (packingAt config _ blk) = _
      rw [foldlM_packBitmapByte_block h hsource _ (Nat.lt_of_succ_le hblocks), ← packedBlocks_succ]
    · rw [if_neg hfits, if_neg (by omega)]
      rfl

theorem packSparseData_eq (h : SparseInput config data) (hne : config.bitmap ≠ []) (hsource : HoldsBytes source data) :
    packSparseData config source =
      if packedSize config (data.length / config.sparseBlockSize) ≤ data.length then
        bounds (BitStream.ofBytes (packedBlocks config data (data.length / config.sparseBlockSize)))
      else .error .outOfBounds := by
  have hpos := h.positive
  have haligned := h.aligned
  have hlen : config.bitmap.length ≠ 0 := fun hzero => hne (eq_nil_of_length_eq_zero hzero)
  have hfold := foldlM_packBitmapByte h hsource (le_refl (data.length / config.sparseBlockSize))
  rw [← h.bitmap_length, take_length, packedBlocks_length h (le_refl _)] at hfold
  unfold packSparseData
  rw [if_neg (by omega), if_neg hlen, hsource.count, if_neg (not_not.mpr h.blocks)]
  change (config.bitmap.foldlM (packBitmapByte config source) ⟨[], 0, 0, 0, 0⟩ >>= fun p =>
    bounds (BitStream.ofBytes p.dst)) = _
  rw [hfold]
  by_cases hfits : packedSize config (data.length / config.sparseBlockSize) ≤ data.length
  · rw [if_pos hfits, if_pos hfits]
    rfl
  · rw [if_neg hfits, if_neg hfits]
    rfl

end

end NpuCompiler.Bitc
