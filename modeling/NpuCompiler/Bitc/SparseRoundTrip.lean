import NpuCompiler.Bitc.SparsePacking

namespace NpuCompiler.Bitc

open Encoder List Option

section
open Decoder
variable {config : BitCompactorConfig} {data : List UInt8}

theorem readAt_middle (a b c : List UInt8) : readAt (a ++ (b ++ c)) a.length b.length = some b := by
  unfold readAt
  rw [length_append, length_append, if_pos (by omega), drop_left, take_left]

theorem writeAt_middle (a b c : List UInt8) {bytes : List UInt8} (hlen : bytes.length = b.length) :
    writeAt (a ++ (b ++ c)) a.length bytes = some (a ++ (bytes ++ c)) := by
  have hdrop : (a ++ (b ++ c)).drop (a.length + bytes.length) = c := by
    rw [hlen, ← append_assoc, ← length_append, drop_left]
  unfold writeAt
  rw [hdrop, length_append, length_append, if_pos (by omega), take_left, append_assoc]

theorem sparsityHeader_spec (a c : List UInt8) (typeBytes : ℕ) {elemCount : ℕ} (hcount : elemCount ≤ 16383)
    (hfit : (a ++ (sparsityHeaderBytes elemCount ++ c)).length < 2 ^ 32) :
    sparsityHeader (a ++ (sparsityHeaderBytes elemCount ++ c)) a.length typeBytes =
      some (elemCount * typeBytes, a.length + (sparsityHeaderBytes elemCount).length) := by
  unfold sparsityHeader
  rw [length_append, length_append] at hfit
  unfold sparsityHeaderBytes at hfit ⊢
  by_cases hsmall : elemCount < 128
  · have hlow : (UInt8.ofNat (elemCount * 2)).toNat = elemCount * 2 := by
      rw [UInt8.toNat_ofNat']
      omega
    have hnext : u32 (a.length + 1) = a.length + 1 := by
      rw [if_pos hsmall, length_singleton] at hfit
      exact Nat.mod_eq_of_lt (by omega)
    rw [if_pos hsmall, getElem?_append_right (le_refl _), Nat.sub_self, singleton_append,
      getElem?_cons_zero]
    simp only [bind_eq_bind, bind_some, hlow]
    rw [if_neg (by omega), hnext, Nat.mul_div_cancel _ (by decide)]
    rfl
  · have hor : elemCount * 4 ||| 1 = elemCount * 4 + 1 := by
      have hadd := Nat.two_pow_add_eq_or_of_lt (show 1 < 2 ^ 2 by decide) elemCount
      rw [Nat.mul_comm, hadd]
    have hlow : (UInt8.ofNat (elemCount * 4 + 1)).toNat = (elemCount * 4 + 1) % 256 := UInt8.toNat_ofNat'
    have hhigh : (UInt8.ofNat ((elemCount * 4 + 1) / 2 ^ 8)).toNat = (elemCount * 4 + 1) / 256 := by
      rw [UInt8.toNat_ofNat']
      omega
    have hnext : u32 (a.length + 2) = a.length + 2 := by
      rw [if_neg hsmall] at hfit
      exact Nat.mod_eq_of_lt (by simp at hfit; omega)
    rw [if_neg hsmall, hor, getElem?_append_right (le_refl _), Nat.sub_self, cons_append,
      getElem?_cons_zero]
    simp only [bind_eq_bind, bind_some, hlow]
    rw [if_pos (by omega), getElem?_append_right (by omega), Nat.add_sub_cancel_left, cons_append,
      getElem?_cons_succ, getElem?_cons_zero]
    simp only [bind_some, hhigh, hnext]
    have hsum : ((elemCount * 4 + 1) % 256 + (elemCount * 4 + 1) / 256 * 2 ^ 8) / 2 ^ 2 = elemCount := by omega
    rw [hsum]
    rfl

theorem unpackBlock_eq {src : List UInt8} {typeBytes sparseBlockSize : ℕ} {u : Unpacking} {block bitmap valid : List UInt8}
    {validBytes srcIdx : ℕ}
    (hbitmap : ¬ (u32 (u.srcIdx + sparseBlockSize / (8 * typeBytes)) > src.length ∨
      u32 (u.btmBlockStart + sparseBlockSize / (8 * typeBytes)) > u32 u.bitmap.length))
    (hblock : readAt src u.srcIdx (sparseBlockSize / (8 * typeBytes)) = some block)
    (hwrite : writeAt u.bitmap u.btmBlockStart block = some bitmap)
    (hheader : sparsityHeader src (u32 (u.srcIdx + sparseBlockSize / (8 * typeBytes))) typeBytes =
      some (validBytes, srcIdx))
    (hdata : ¬ u32 (srcIdx + validBytes) > src.length) (hvalid : readAt src srcIdx validBytes = some valid) :
    unpackBlock src typeBytes sparseBlockSize u =
      bounds (((writeAt u.dst u.dstBlockStart (List.replicate sparseBlockSize 0)).bind fun dst =>
        writeAt dst u.dstBlockStart valid).map fun dst =>
          ⟨dst, bitmap, u32 (srcIdx + validBytes), u32 (u.btmBlockStart + sparseBlockSize / (8 * typeBytes)),
            u32 (u.dstBlockStart + sparseBlockSize)⟩) := by
  unfold unpackBlock
  dsimp only
  rw [if_neg hbitmap, hblock]
  change (bounds (writeAt u.bitmap u.btmBlockStart block) >>= fun bitmap => _) = _
  rw [hwrite]
  change (bounds (sparsityHeader src _ typeBytes) >>= fun r => _) = _
  rw [hheader]
  change (if u32 (srcIdx + validBytes) > src.length then _ else _) = _
  rw [if_neg hdata]
  change (bounds (writeAt u.dst u.dstBlockStart (List.replicate sparseBlockSize 0)) >>= fun dst =>
    bounds (readAt src srcIdx validBytes) >>= fun valid => bounds (writeAt dst u.dstBlockStart valid) >>= fun dst => _) = _
  rw [hvalid]
  cases writeAt u.dst u.dstBlockStart (List.replicate sparseBlockSize 0) with
  | none => rfl
  | some dst =>
    change (bounds (writeAt dst u.dstBlockStart valid) >>= fun dst => _) =
      bounds ((writeAt dst u.dstBlockStart valid).map _)
    cases writeAt dst u.dstBlockStart valid <;> rfl

theorem packedBlocks_split (config : BitCompactorConfig) (data : List UInt8) {blk blocks : ℕ} (h : blk ≤ blocks) :
    ∃ rest, packedBlocks config data blocks = packedBlocks config data blk ++ rest := by
  induction h with
  | refl => exact ⟨[], (append_nil _).symm⟩
  | @step blocks hle ih =>
    obtain ⟨rest, hrest⟩ := ih
    refine ⟨rest ++ packedBlock config (btmBlock config blocks) (dataBlock config data blocks), ?_⟩
    rw [packedBlocks_succ, hrest, append_assoc]

def unpackingAt (config : BitCompactorConfig) (data bitmap : List UInt8) (size blk : ℕ) : Unpacking :=
  ⟨data.take (blk * config.sparseBlockSize) ++ List.replicate (size - blk * config.sparseBlockSize) 0,
    config.bitmap.take (blk * btmBlockSize config) ++ bitmap.drop (blk * btmBlockSize config),
    (packedBlocks config data blk).length, blk * btmBlockSize config, blk * config.sparseBlockSize⟩

theorem SparseInput.dataBlock_eq (h : SparseInput config data) {blk : ℕ} (hblk : blk < data.length / config.sparseBlockSize) :
    dataBlock config data blk =
      (dataBlock config data blk).take (elemCount (btmBlock config blk) * typeBytes config) ++
        List.replicate (config.sparseBlockSize - elemCount (btmBlock config blk) * typeBytes config) 0 := by
  have hzeros := eq_replicate_of_mem (h.zeros blk hblk)
  rw [length_drop, h.dataBlock_length hblk] at hzeros
  rw [← hzeros, take_append_drop]

theorem take_succ_mul (l : List UInt8) (k n : ℕ) : l.take ((k + 1) * n) = l.take (k * n) ++ (l.drop (k * n)).take n := by
  rw [Nat.succ_mul, take_add]

theorem writeAt_bitmap {l bitmap : List UInt8} {blk n : ℕ} (hl : (blk + 1) * n ≤ l.length)
    (hbitmap : bitmap.length = l.length) :
    writeAt (l.take (blk * n) ++ bitmap.drop (blk * n)) (blk * n) ((l.drop (blk * n)).take n) =
      some (l.take ((blk + 1) * n) ++ bitmap.drop ((blk + 1) * n)) := by
  rw [Nat.succ_mul] at hl
  have hlen : (l.take (blk * n)).length = blk * n := by
    rw [length_take]
    omega
  have hsplit : bitmap.drop (blk * n) = (bitmap.drop (blk * n)).take n ++ bitmap.drop ((blk + 1) * n) := by
    rw [Nat.succ_mul, ← drop_drop, take_append_drop]
  have hsame : ((l.drop (blk * n)).take n).length = ((bitmap.drop (blk * n)).take n).length := by
    rw [length_take, length_take, length_drop, length_drop, hbitmap]
  have hrun := writeAt_middle (l.take (blk * n)) ((bitmap.drop (blk * n)).take n) (bitmap.drop ((blk + 1) * n)) hsame
  rw [hlen, ← hsplit] at hrun
  rw [hrun, take_succ_mul, append_assoc]

theorem writeAt_block {l valid : List UInt8} {blk n size : ℕ} (hl : blk * n ≤ l.length) (hsize : blk * n ≤ size)
    (hvalid : valid.length ≤ n) (hblock : (l.drop (blk * n)).take n = valid ++ List.replicate (n - valid.length) 0) :
    ((writeAt (l.take (blk * n) ++ List.replicate (size - blk * n) 0) (blk * n) (List.replicate n 0)).bind fun dst =>
      writeAt dst (blk * n) valid) =
        if (blk + 1) * n ≤ size then some (l.take ((blk + 1) * n) ++ List.replicate (size - (blk + 1) * n) 0)
        else none := by
  have hlen : (l.take (blk * n)).length = blk * n := by
    rw [length_take]
    omega
  by_cases hfits : (blk + 1) * n ≤ size
  · have hrest : (blk + 1) * n = blk * n + n := Nat.succ_mul blk n
    have hsplit : size - blk * n = n + (size - (blk + 1) * n) := by omega
    have hfill := writeAt_middle (l.take (blk * n)) (List.replicate n 0) (List.replicate (size - (blk + 1) * n) 0)
      (rfl : (List.replicate n (0 : UInt8)).length = _)
    have hcopy := @writeAt_middle (l.take (blk * n)) (List.replicate valid.length 0)
      (List.replicate (n - valid.length) 0 ++ List.replicate (size - (blk + 1) * n) 0) valid (by simp)
    rw [hlen] at hfill hcopy
    have hzeros : List.replicate n (0 : UInt8) = List.replicate valid.length 0 ++ List.replicate (n - valid.length) 0 := by
      rw [← replicate_add, Nat.add_sub_cancel' hvalid]
    rw [if_pos hfits, hsplit, replicate_add, hfill, bind_some, hzeros, append_assoc, hcopy,
      take_succ_mul, hblock]
    simp
  · rw [if_neg hfits]
    have hnone : writeAt (l.take (blk * n) ++ List.replicate (size - blk * n) 0) (blk * n) (List.replicate n 0) = none := by
      unfold writeAt
      rw [Nat.succ_mul] at hfits
      rw [if_neg]
      rw [length_append, hlen, length_replicate, length_replicate]
      omega
    rw [hnone]
    rfl

theorem unpackBlock_spec (h : SparseInput config data) (hlen : data.length < 2 ^ 32) {bitmap src : List UInt8}
    (hbitmap : bitmap.length = config.bitmap.length) (hsrc : src = packedBlocks config data (data.length / config.sparseBlockSize))
    (hfits : src.length ≤ data.length) {size blk : ℕ} (hblk : blk < data.length / config.sparseBlockSize)
    (hsize : blk * config.sparseBlockSize ≤ size) :
    unpackBlock src (typeBytes config) config.sparseBlockSize (unpackingAt config data bitmap size blk) =
      if (blk + 1) * config.sparseBlockSize ≤ size then .ok (unpackingAt config data bitmap size (blk + 1))
      else .error .outOfBounds := by
  have hbtm := h.btmBlock_length hblk
  have hcount := h.elemCount_le hbtm
  have hle := h.valid_le hbtm
  have hdata := h.dataBlock_length hblk
  have hdataFits : (blk + 1) * config.sparseBlockSize ≤ data.length := by
    have hmul := Nat.mul_le_mul_right config.sparseBlockSize (Nat.succ_le_of_lt hblk)
    rwa [← h.length_eq] at hmul
  have hbitmapFits : (blk + 1) * btmBlockSize config ≤ config.bitmap.length := by
    have hmul := Nat.mul_le_mul_right (btmBlockSize config) (Nat.succ_le_of_lt hblk)
    rwa [← h.bitmap_length] at hmul
  have hflags : config.bitmap.length ≤ data.length := by
    rw [← h.flags]
    exact Nat.le_mul_of_pos_right _ (typeBytes_pos config)
  have hvalidLen : ((dataBlock config data blk).take (elemCount (btmBlock config blk) * typeBytes config)).length =
      elemCount (btmBlock config blk) * typeBytes config := by
    rw [length_take, hdata, Nat.min_eq_left hle]
  have hnext := @packedBlocks_succ config data blk
  obtain ⟨rest, hrest⟩ := packedBlocks_split config data (Nat.succ_le_of_lt hblk)
  have hblock := h.dataBlock_eq hblk
  rw [hrest, hnext] at hsrc
  unfold packedBlock at hsrc hnext
  generalize hvalid : (dataBlock config data blk).take (elemCount (btmBlock config blk) * typeBytes config) = valid
    at hsrc hnext hblock hvalidLen
  generalize hhead : sparsityHeaderBytes (elemCount (btmBlock config blk)) = header at hsrc hnext
  have hsrc' : src = packedBlocks config data blk ++ (btmBlock config blk ++ (header ++ (valid ++ rest))) := by
    rw [hsrc]
    simp only [append_assoc]
  have hsrcLen : src.length = (packedBlocks config data blk).length + (btmBlockSize config + (header.length +
      (elemCount (btmBlock config blk) * typeBytes config + rest.length))) := by
    rw [hsrc']
    simp only [length_append, hbtm, hvalidLen]
  have hnextLen : (packedBlocks config data (blk + 1)).length = (packedBlocks config data blk).length +
      btmBlockSize config + header.length + elemCount (btmBlock config blk) * typeBytes config := by
    rw [hnext]
    simp only [length_append, hbtm, hvalidLen]
    omega
  have hu {n : ℕ} (hn : n ≤ data.length) : u32 n = n := Nat.mod_eq_of_lt (hn.trans_lt hlen)
  have hlenBitmap : (unpackingAt config data bitmap size blk).bitmap.length = config.bitmap.length := by
    unfold unpackingAt
    rw [length_append, length_take, length_drop, hbitmap]
    rw [Nat.succ_mul] at hbitmapFits
    omega
  have hheader : sparsityHeader src (u32 ((packedBlocks config data blk).length + btmBlockSize config)) (typeBytes config) =
      some (elemCount (btmBlock config blk) * typeBytes config,
        (packedBlocks config data blk).length + btmBlockSize config + header.length) := by
    have hspec := sparsityHeader_spec (packedBlocks config data blk ++ btmBlock config blk) (valid ++ rest)
      (typeBytes config) hcount (by rw [hhead, append_assoc, ← hsrc']; omega)
    rw [hhead, append_assoc, ← hsrc', length_append, hbtm] at hspec
    rw [hu (by omega), hspec]
  have hread : readAt src (packedBlocks config data blk).length (btmBlockSize config) = some (btmBlock config blk) := by
    rw [hsrc', ← hbtm]
    exact readAt_middle _ _ _
  have hread' : readAt src ((packedBlocks config data blk).length + btmBlockSize config + header.length)
      (elemCount (btmBlock config blk) * typeBytes config) = some valid := by
    have hmiddle := readAt_middle (packedBlocks config data blk ++ (btmBlock config blk ++ header)) valid rest
    rw [hvalidLen, length_append, length_append, hbtm, ← Nat.add_assoc] at hmiddle
    rw [hsrc', ← hmiddle]
    simp only [append_assoc]
  have hstep := @unpackBlock_eq src (typeBytes config) config.sparseBlockSize (unpackingAt config data bitmap size blk)
    (btmBlock config blk) _ valid (elemCount (btmBlock config blk) * typeBytes config)
    ((packedBlocks config data blk).length + btmBlockSize config + header.length) ?_ hread
    (writeAt_bitmap hbitmapFits hbitmap) hheader ?_ hread'
  · have hwrite := @writeAt_block data valid blk config.sparseBlockSize size (by rw [Nat.succ_mul] at hdataFits; omega) hsize
      (by omega) (by rw [hvalidLen]; exact hblock)
    have hsrcIdx : u32 ((packedBlocks config data blk).length + btmBlockSize config + header.length +
        elemCount (btmBlock config blk) * typeBytes config) = (packedBlocks config data (blk + 1)).length := by
      rw [hnextLen]
      exact hu (by omega)
    have hbtmStart : u32 (blk * btmBlockSize config + btmBlockSize config) = (blk + 1) * btmBlockSize config := by
      rw [← Nat.succ_mul]
      exact hu (hbitmapFits.trans hflags)
    have hdstStart : u32 (blk * config.sparseBlockSize + config.sparseBlockSize) = (blk + 1) * config.sparseBlockSize := by
      rw [← Nat.succ_mul]
      exact hu hdataFits
    rw [hstep]
    change bounds (Option.map (fun dst => (⟨dst, _, _, u32 (blk * btmBlockSize config + btmBlockSize config),
      u32 (blk * config.sparseBlockSize + config.sparseBlockSize)⟩ : Unpacking))
        ((writeAt (data.take _ ++ _) (blk * config.sparseBlockSize) _).bind fun dst =>
          writeAt dst (blk * config.sparseBlockSize) valid)) = _
    rw [hwrite, hsrcIdx, hbtmStart, hdstStart]
    by_cases hroom : (blk + 1) * config.sparseBlockSize ≤ size
    · rw [if_pos hroom, if_pos hroom]
      rfl
    · rw [if_neg hroom, if_neg hroom]
      rfl
  · rw [hlenBitmap]
    change ¬ (u32 ((packedBlocks config data blk).length + btmBlockSize config) > src.length ∨
      u32 (blk * btmBlockSize config + btmBlockSize config) > u32 config.bitmap.length)
    rw [← Nat.succ_mul, hu (by omega), hu (hbitmapFits.trans hflags), hu hflags]
    omega
  · rw [hu (by omega)]
    omega

theorem packedBlocks_length_lt {blk : ℕ} (hblk : blk < data.length / config.sparseBlockSize) :
    (packedBlocks config data blk).length < (packedBlocks config data (data.length / config.sparseBlockSize)).length := by
  obtain ⟨rest, hrest⟩ := packedBlocks_split config data (Nat.succ_le_of_lt hblk)
  have hheader := sparsityHeaderBytes_length (elemCount (btmBlock config blk))
  rw [hrest, packedBlocks_succ]
  unfold packedBlock
  simp only [length_append, hheader]
  split_ifs <;> omega

section
variable (h : SparseInput config data) (hlen : data.length < 2 ^ 32) {bitmap src : List UInt8}
  (hbitmap : bitmap.length = config.bitmap.length)
  (hsrc : src = packedBlocks config data (data.length / config.sparseBlockSize)) (hfits : src.length ≤ data.length)
include h hlen hbitmap hsrc hfits

theorem unpackLoop_spec {size : ℕ} (left : ℕ) {blk : ℕ}
    (hleft : blk + left = data.length / config.sparseBlockSize) (hsize : blk * config.sparseBlockSize ≤ size) {fuel : ℕ}
    (hfuel : left < fuel) :
    unpackLoop src (typeBytes config) config.sparseBlockSize fuel (unpackingAt config data bitmap size blk) =
      if data.length ≤ size then .ok (unpackingAt config data bitmap size (data.length / config.sparseBlockSize))
      else .error .outOfBounds := by
  induction left generalizing blk fuel with
  | zero =>
    obtain ⟨fuel, rfl⟩ := Nat.exists_eq_succ_of_ne_zero (Nat.ne_of_gt hfuel)
    rw [Nat.add_zero] at hleft
    have hend : ¬ (unpackingAt config data bitmap size blk).srcIdx < src.length := by
      rw [hsrc, ← hleft]
      exact Nat.lt_irrefl _
    rw [hleft, ← h.length_eq] at hsize
    rw [unpackLoop, if_neg hend, if_pos hsize, hleft]
  | succ left ih =>
    obtain ⟨fuel, rfl⟩ := Nat.exists_eq_succ_of_ne_zero (Nat.ne_of_gt (Nat.zero_lt_of_lt hfuel))
    have hblk : blk < data.length / config.sparseBlockSize := by omega
    have hmore : (unpackingAt config data bitmap size blk).srcIdx < src.length := by
      rw [hsrc]
      exact packedBlocks_length_lt hblk
    have hmul := Nat.mul_le_mul_right config.sparseBlockSize (Nat.succ_le_of_lt hblk)
    rw [← h.length_eq] at hmul
    rw [unpackLoop, if_pos hmore, unpackBlock_spec h hlen hbitmap hsrc hfits hblk hsize]
    by_cases hroom : (blk + 1) * config.sparseBlockSize ≤ size
    · rw [if_pos hroom]
      exact ih (by omega) hroom (by omega)
    · rw [if_neg hroom, if_neg (fun hle => hroom (hmul.trans hle))]
      rfl

theorem unpackSparseData_eq (size : ℕ) {fuel : ℕ} (hfuel : data.length / config.sparseBlockSize < fuel) :
    unpackSparseData config fuel src (List.replicate size 0) bitmap config.sparseBlockSize =
      if data.length ≤ size then .ok (data, config.bitmap) else .error .outOfBounds := by
  have hstart : (⟨List.replicate size 0, bitmap, 0, 0, 0⟩ : Unpacking) = unpackingAt config data bitmap size 0 := by
    simp [unpackingAt, packedBlocks]
  have hloop := @unpackLoop_spec config data h hlen bitmap src hbitmap hsrc hfits size _ 0 (Nat.zero_add _) (by simp) fuel hfuel
  unfold unpackSparseData
  rw [if_pos ⟨h.positive.ne', h.aligned⟩, hstart]
  change (unpackLoop src (typeBytes config) config.sparseBlockSize fuel (unpackingAt config data bitmap size 0) >>=
    fun u => _) = _
  rw [hloop]
  by_cases hroom : data.length ≤ size
  · rw [if_pos hroom, if_pos hroom]
    have hbitmapTake : config.bitmap.take (data.length / config.sparseBlockSize * btmBlockSize config) ++
        bitmap.drop (data.length / config.sparseBlockSize * btmBlockSize config) = config.bitmap := by
      rw [← h.bitmap_length, take_length, ← hbitmap, drop_length, append_nil]
    have hdataTake : data.take data.length ++ List.replicate (size - data.length) 0 =
        data ++ List.replicate (size - data.length) 0 := by rw [take_length]
    have hend : unpackingAt config data bitmap size (data.length / config.sparseBlockSize) =
        ⟨data ++ List.replicate (size - data.length) 0, config.bitmap, src.length, config.bitmap.length, data.length⟩ := by
      unfold unpackingAt
      rw [hbitmapTake, ← h.length_eq, hdataTake, ← hsrc, ← h.bitmap_length]
    rw [hend]
    change (if config.bitmap.length ≠ config.bitmap.length then _ else _) = _
    rw [if_neg (not_not.mpr rfl), take_left, length_append, Nat.sub_eq_zero_of_le (Nat.le_add_right _ _),
      replicate_zero, append_nil]
    rfl
  · rw [if_neg hroom, if_neg hroom]
    rfl

end

end

section
open Decoder
variable {config : BitCompactorConfig} {data : List UInt8}

theorem sparseRoundTrips_of_fits (h : SparseInput config data) (hne : config.bitmap ≠ []) (hlen : data.length + 7 < 2 ^ 32)
    (hpacked : packedSize config (data.length / config.sparseBlockSize) ≤ data.length)
    (hunpacked : data.length ≤ 2 * packedSize config (data.length / config.sparseBlockSize)) :
    SparseRoundTrips config data := by
  have hsize := packedBlocks_length h (le_refl (data.length / config.sparseBlockSize))
  obtain ⟨source, hsource, hholds⟩ := ofBytes_holds hlen
  obtain ⟨packed, hpackedStream, hpackedHolds⟩ :=
    @ofBytes_holds (packedBlocks config data (data.length / config.sparseBlockSize)) (by omega)
  have hbytes := hpackedHolds.bytesAt (show 0 + packed.sourceByteCount ≤ _ by rw [hpackedHolds.count, Nat.zero_add])
  rw [hpackedHolds.count, drop_zero, take_length] at hbytes
  refine ⟨source, packed, _, hsource, ?_, by rw [hpackedHolds.count]; exact hbytes, ?_⟩
  · rw [packSparseData_eq h hne hholds, if_pos hpacked, hpackedStream]
    rfl
  · intro bitmap hbitmap
    refine ⟨data.length / config.sparseBlockSize + 1, ?_⟩
    intro fuel hfuel
    rw [unpackSparseData_eq h (by omega) hbitmap rfl (by omega) _ (Nat.lt_of_succ_le hfuel), hsize, if_pos hunpacked]

theorem ofBytes_long (hlen : 2 ^ 32 ≤ data.length + 7) : BitStream.ofBytes data = none := by
  unfold BitStream.ofBytes
  apply if_neg
  unfold u32
  omega

theorem fits_of_sparseRoundTrips (h : SparseInput config data) (hround : SparseRoundTrips config data) :
    config.bitmap ≠ [] ∧ data.length + 7 < 2 ^ 32 ∧
      packedSize config (data.length / config.sparseBlockSize) ≤ data.length ∧
        data.length ≤ 2 * packedSize config (data.length / config.sparseBlockSize) := by
  obtain ⟨source, packed, bytes, hsource, hpack, hbytes, hunpack⟩ := hround
  have hlen : data.length + 7 < 2 ^ 32 := by
    by_contra hlong
    rw [ofBytes_long (by omega)] at hsource
    exact absurd hsource (by simp)
  obtain ⟨source', hsource', hholds⟩ := ofBytes_holds hlen
  obtain rfl : source' = source := Option.some.inj (hsource'.symm.trans hsource)
  have hpos := h.positive
  have haligned := h.aligned
  have hne : config.bitmap ≠ [] := by
    intro hempty
    unfold packSparseData at hpack
    rw [if_neg (by omega), if_pos (by rw [hempty]; rfl)] at hpack
    exact absurd hpack (by simp [throw, throwThe, MonadExceptOf.throw, bind, Except.bind])
  rw [packSparseData_eq h hne hholds] at hpack
  have hsize := packedBlocks_length h (le_refl (data.length / config.sparseBlockSize))
  have hpacked : packedSize config (data.length / config.sparseBlockSize) ≤ data.length := by
    by_contra hlarge
    rw [if_neg hlarge] at hpack
    exact absurd hpack (by simp)
  refine ⟨hne, hlen, hpacked, ?_⟩
  obtain ⟨packed', hstream, hpackedHolds⟩ :=
    @ofBytes_holds (packedBlocks config data (data.length / config.sparseBlockSize)) (by omega)
  rw [if_pos hpacked, hstream] at hpack
  obtain rfl : packed' = packed := Except.ok.inj hpack
  have hread := hpackedHolds.bytesAt (show 0 + packed'.sourceByteCount ≤ _ by rw [hpackedHolds.count, Nat.zero_add])
  rw [hbytes, hpackedHolds.count, drop_zero, take_length, Option.some.injEq] at hread
  obtain ⟨bound, hall⟩ := hunpack config.bitmap rfl
  have hrun := hall (bound + (data.length / config.sparseBlockSize + 1)) (Nat.le_add_right _ _)
  rw [hread, unpackSparseData_eq h (by omega) rfl rfl (by omega) _ (by omega), hsize] at hrun
  by_contra hsmall
  rw [if_neg hsmall] at hrun
  exact absurd hrun (by simp)

/-- Both sides size their vectors from the length of their input: the packed bytes have to fit into the source length,
and the data into twice the packed length. -/
theorem sparseRoundTrips_iff (h : SparseInput config data) :
    SparseRoundTrips config data ↔ config.bitmap ≠ [] ∧ data.length + 7 < 2 ^ 32 ∧
      packedSize config (data.length / config.sparseBlockSize) ≤ data.length ∧
        data.length ≤ 2 * packedSize config (data.length / config.sparseBlockSize) := by
  constructor
  · exact fits_of_sparseRoundTrips h
  · rintro ⟨hne, hlen, hpacked, hunpacked⟩
    exact sparseRoundTrips_of_fits h hne hlen hpacked hunpacked

def sparseWeights (bitmap : List UInt8) : BitCompactorConfig := ⟨.npu5, true, true, false, false, bitmap, 16⟩

/-- A block of six values and a block of nine. -/
def twoDensities : List UInt8 :=
  [1, 2, 3, 4, 5, 6, 0, 0, 0, 0, 0, 0, 0, 0, 0, 0, 7, 8, 9, 10, 11, 12, 13, 14, 15, 0, 0, 0, 0, 0, 0, 0]

set_option maxRecDepth 2000 in
theorem sparseInput_twoDensities : SparseInput (sparseWeights [0x3F, 0, 0xFF, 1]) twoDensities :=
  ⟨by decide, by decide, by decide, by decide, by decide, by decide⟩

theorem sparseRoundTrips_iff_twoDensities : SparseRoundTrips (sparseWeights [0x3F, 0, 0xFF, 1]) twoDensities :=
  (sparseRoundTrips_iff sparseInput_twoDensities).mpr (by decide)

set_option maxRecDepth 2000 in
theorem dense_block_overflows :
    ¬ ∀ (config : BitCompactorConfig) (data : List UInt8), SparseInput config data → SparseRoundTrips config data := by
  intro hall
  have hinput : SparseInput (sparseWeights [0xFF, 0xFF]) [1, 2, 3, 4, 5, 6, 7, 8, 9, 10, 11, 12, 13, 14, 15, 16] :=
    ⟨by decide, by decide, by decide, by decide, by decide, by decide⟩
  have hfits := fits_of_sparseRoundTrips hinput (hall _ _ hinput)
  exact absurd hfits (by decide)

def BitCompactorConfig.dense (config : BitCompactorConfig) : BitCompactorConfig := { config with sparseModeEnable := false }

theorem verifyConfig_dense (hconfig : verifyConfig config = .ok ()) (hsparse : config.sparseModeEnable = true) :
    verifyConfig config.dense = .ok () := by
  unfold verifyConfig at hconfig
  rw [hsparse] at hconfig
  cases harch : config.archType with
  | npu27 =>
    simp only [harch] at hconfig
    split_ifs at hconfig <;> exact nomatch hconfig
  | npu4 =>
    simp only [harch] at hconfig
    exact nomatch hconfig
  | npu5 =>
    unfold verifyConfig BitCompactorConfig.dense
    rw [harch]
    rfl

theorem decodeBlocks_dense (stream : BitStream) (fuel : ℕ) : decodeBlocks config.dense stream fuel = decodeBlocks config stream fuel := by
  induction fuel with
  | zero => rfl
  | succ fuel ih =>
    funext d decompressionLength
    rw [decodeBlocks, ih]
    rfl

theorem roundTrips_dense {bytes : List UInt8} (hconfig : verifyConfig config.dense = .ok ()) (hfits : encodedBits config bytes < 2 ^ 32)
    (hlong : config.bypassCompression = true ∨ config.modeFp16Enable = false ∨ 2 * blockSize ≤ bytes.length) :
    RoundTrips config.dense bytes := by
  by_cases hbypass : config.bypassCompression = true
  · have hrun := bypass_roundTrip hconfig rfl hbypass hfits
    exact ⟨bytes, (hrun 0).1, 0, fun fuel _ => (hrun fuel).2⟩
  · exact roundTrips_long hconfig rfl (Bool.eq_false_of_not_eq_true hbypass) hfits (hlong.resolve_left hbypass)

/-- The sparse mode packs the data and then encodes the packed bytes as the dense mode does. -/
theorem sparse_encode_decode (hconfig : verifyConfig config = .ok ()) (hsparse : config.sparseModeEnable = true)
    (h : SparseInput config data) (hne : config.bitmap ≠ []) (hlen : data.length + 7 < 2 ^ 32)
    (hpacked : packedSize config (data.length / config.sparseBlockSize) ≤ data.length)
    (hunpacked : data.length ≤ 2 * packedSize config (data.length / config.sparseBlockSize))
    (hfits : encodedBits config (packedBlocks config data (data.length / config.sparseBlockSize)) < 2 ^ 32)
    (hlong : config.bypassCompression = true ∨ config.modeFp16Enable = false ∨
      2 * blockSize ≤ packedSize config (data.length / config.sparseBlockSize)) :
    ∃ out, encode config data = .ok out ∧ ∃ bound, ∀ fuel ≥ bound, ∀ bitmap : List UInt8, bitmap.length = config.bitmap.length →
      decodeSparse config fuel out bitmap config.sparseBlockSize = .ok (data, config.bitmap) := by
  have hsize := packedBlocks_length h (le_refl (data.length / config.sparseBlockSize))
  have hdense := verifyConfig_dense hconfig hsparse
  obtain ⟨out, hencode, bound, hdecode⟩ := roundTrips_dense hdense hfits (by rwa [hsize])
  obtain ⟨source, hsource, hholds⟩ := ofBytes_holds hlen
  refine ⟨out, ?_, bound + (data.length / config.sparseBlockSize + 1), ?_⟩
  · unfold encode at hencode ⊢
    rw [hdense] at hencode
    rw [hsource, hconfig]
    simp only [hsparse]
    change packSparseData config source >>= _ = _
    rw [packSparseData_eq h hne hholds, if_pos hpacked]
    exact hencode
  · intro fuel hfuel bitmap hbitmap
    have hout := hdecode fuel (Nat.le_trans (Nat.le_add_right _ _) hfuel)
    have hrun : decode config fuel out = .ok (packedBlocks config data (data.length / config.sparseBlockSize)) := by
      unfold decode at hout ⊢
      rw [hdense] at hout
      simp only [decodeBlocks_dense] at hout
      rw [hconfig]
      exact hout
    unfold decodeSparse
    rw [hrun]
    have hunpack := unpackSparseData_eq h (by omega) hbitmap rfl (by omega) (2 * packedSize config (data.length / config.sparseBlockSize))
      (Nat.le_trans (Nat.le_add_left _ _) hfuel)
    rw [if_pos hunpacked, ← hsize] at hunpack
    exact hunpack

theorem sparse_encode_decode_twoDensities :
    ∃ out, encode (sparseWeights [0x3F, 0, 0xFF, 1]) twoDensities = .ok out ∧
    ∃ bound, ∀ fuel ≥ bound, ∀ bitmap : List UInt8, bitmap.length = 4 →
      decodeSparse (sparseWeights [0x3F, 0, 0xFF, 1]) fuel out bitmap 16 =
        .ok (twoDensities, [0x3F, 0, 0xFF, 1]) :=
  sparse_encode_decode rfl rfl sparseInput_twoDensities
    (by decide) (by decide) (by decide) (by decide) (by decide) (.inr (.inl rfl))

end

end NpuCompiler.Bitc
