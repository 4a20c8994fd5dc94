import Mathlib.Algebra.BigOperators.Ring.List
import NpuCompiler.Const.StorageTypes
import NpuCompiler.Library.FoldRules

namespace NpuCompiler.Const

open MaskedStream List Option

namespace WeightsContent

variable {t : StorageType} (content : WeightsContent t)

def channel (oc : ℕ) : List t.Value :=
  (content.values.drop (oc * content.workloadSize)).take content.workloadSize

variable {content} {oc : ℕ}

theorem channel_bound (hoc : oc < content.OC) :
    oc * content.workloadSize + content.workloadSize ≤ content.values.length := by
  have hlen : content.values.length = content.OC * content.workloadSize := by
    rw [content.length_values, workloadSize, Nat.mul_assoc content.IC]
  have hmul : (oc + 1) * content.workloadSize ≤ content.OC * content.workloadSize := Nat.mul_le_mul_right _ hoc
  rw [Nat.add_mul, Nat.one_mul] at hmul
  omega

theorem length_channel (hoc : oc < content.OC) : (content.channel oc).length = content.workloadSize := by
  have := channel_bound hoc
  rw [channel, length_take, length_drop]
  omega

theorem getElem?_channel {i : ℕ} (hi : i < content.workloadSize) :
    (content.channel oc)[i]? = content.values[oc * content.workloadSize + i]? := by
  rw [channel, getElem?_take_of_lt hi, getElem?_drop]

theorem foldChannel_eq {σ : Type} (f : σ → t.Value → Option σ) (s : σ) (hoc : oc < content.OC) :
    content.foldChannel oc f s = (content.channel oc).foldlM f s :=
  foldlM_range'_getElem? f content.values _ _ s (channel_bound hoc)

theorem values_eq_flatMap : content.values = (List.range content.OC).flatMap content.channel := by
  have htakes : ∀ n, n ≤ content.OC →
      (List.range n).flatMap content.channel = content.values.take (n * content.workloadSize) := by
    intro n
    induction n with
    | zero => intro _; simp
    | succ n ih =>
      intro hn
      rw [range_succ, flatMap_append, ih (by omega), Nat.add_mul, Nat.one_mul, take_add]
      simp [channel]
  have hlen : content.OC * content.workloadSize = content.values.length := by
    rw [content.length_values, workloadSize, Nat.mul_assoc content.IC]
  rw [htakes _ le_rfl, hlen, take_length]

end WeightsContent

variable {t : StorageType} {content : WeightsContent t} {sparsifyValue : List ℤ} {oc : ℕ}

structure ValidValues (sparsifyValue : List ℤ) (content : WeightsContent t) : Prop where
  length : sparsifyValue.length = 1 ∨ sparsifyValue.length = content.OC
  castable : ∀ value ∈ sparsifyValue, (t.checkedCast value).isSome

def sparsifyValueAt (t : StorageType) (sparsifyValue : List ℤ) (oc : ℕ) : t.Value :=
  t.ofInt (sparsifyValue.getD (if sparsifyValue.length = 1 then 0 else oc) 0)

def kept (t : StorageType) (sparsifyValue : List ℤ) (oc : ℕ) (v : t.Value) : Bool :=
  !t.eq v (sparsifyValueAt t sparsifyValue oc)

def keptValues (sparsifyValue : List ℤ) (content : WeightsContent t) (oc : ℕ) : List t.Value :=
  (content.channel oc).filter (kept t sparsifyValue oc)

def Quantization.Describes (content : WeightsContent t) : Quantization → Prop
  | .none => True
  | .perTensor zeroPoint => (t.checkedCast zeroPoint).isSome
  | .perAxis zeroPoints => zeroPoints.length = content.OC ∧ ∀ zeroPoint ∈ zeroPoints, (t.checkedCast zeroPoint).isSome

theorem Quantization.Describes.validValues {quantization : Quantization} (h : quantization.Describes content) :
    ValidValues (getSparsifyValues quantization) content := by
  cases quantization with
  | none =>
    refine ⟨.inl rfl, fun value hvalue => ?_⟩
    rw [mem_singleton.1 hvalue]
    cases t <;> decide
  | perTensor zeroPoint =>
    refine ⟨.inl rfl, fun value hvalue => ?_⟩
    rw [mem_singleton.1 hvalue]
    exact h
  | perAxis zeroPoints => exact ⟨.inr h.1, h.2⟩

section
variable (h : ValidValues sparsifyValue content) (hoc : oc < content.OC)
include h hoc

theorem ValidValues.index_lt : (if sparsifyValue.length = 1 then 0 else oc) < sparsifyValue.length := by
  have := h.length
  split <;> omega

theorem ValidValues.intValue : intValueAt sparsifyValue oc =
    some (sparsifyValue.getD (if sparsifyValue.length = 1 then 0 else oc) 0) := by
  have hi := h.index_lt hoc
  unfold intValueAt
  by_cases h1 : sparsifyValue.length = 1
  · rw [if_neg (by omega), if_pos h1, head?_eq_getElem?, getElem?_eq_getElem (by omega),
      getD_eq_getElem _ _ (by omega)]
  · rw [if_neg h1] at hi
    rw [if_pos (by have := content.OC_pos; have := h.length; omega), if_neg h1, getElem?_eq_getElem hi,
      getD_eq_getElem _ _ hi]

theorem ValidValues.sparsifyVal : sparsifyValAt sparsifyValue oc =
    some (sparsifyValue.getD (if sparsifyValue.length = 1 then 0 else oc) 0) := by
  have hi := h.index_lt hoc
  unfold sparsifyValAt
  by_cases h1 : sparsifyValue.length = 1
  · rw [if_pos h1, if_pos h1, head?_eq_getElem?, getElem?_eq_getElem (by omega),
      getD_eq_getElem _ _ (by omega)]
  · rw [if_neg h1] at hi
    rw [if_neg h1, if_neg h1, getElem?_eq_getElem hi, getD_eq_getElem _ _ hi]

theorem ValidValues.checkedCast : t.checkedCast (sparsifyValue.getD (if sparsifyValue.length = 1 then 0 else oc) 0) =
      some (sparsifyValueAt t sparsifyValue oc) := by
  have hi := h.index_lt hoc
  have hmem : sparsifyValue.getD (if sparsifyValue.length = 1 then 0 else oc) 0 ∈ sparsifyValue := by
    rw [getD_eq_getElem _ _ hi]
    exact getElem_mem hi
  obtain ⟨v, hv⟩ := isSome_iff_exists.1 (h.castable _ hmem)
  rw [hv, sparsifyValueAt, StorageType.ofInt_of_checkedCast hv]

end

section

theorem countChannel_eq (skip : t.Value → Bool) (hoc : oc < content.OC) :
    countChannel content oc skip = some ((content.channel oc).filter fun v => !skip v).length := by
  have hfold (values : List t.Value) : ∀ count : ℕ,
      values.foldlM (fun count v => some (if skip v then count else count + 1)) count =
        some (count + (values.filter fun v => !skip v).length) := by
    induction values with
    | nil => intro count; rfl
    | cons v values ih =>
      intro count
      rw [foldlM_cons]
      by_cases hs : skip v
      · simp [hs, ih]
      · simp [hs, ih, Nat.add_assoc, Nat.add_comm 1]
  rw [countChannel, WeightsContent.foldChannel_eq _ _ hoc, hfold, Nat.zero_add]

theorem countValue_eq (h : ValidValues sparsifyValue content) :
    countValue sparsifyValue content =
      some ((List.range content.OC).map fun oc => (keptValues sparsifyValue content oc).length) := by
  apply mapM_eq_some
  intro oc hmem
  have hoc := mem_range.1 hmem
  rw [h.intValue hoc]
  change (t.checkedCast _ >>= _) = _
  rw [h.checkedCast hoc]
  exact countChannel_eq _ hoc

theorem countValueFloat16_eq {content : WeightsContent .f16} (h : ValidValues sparsifyValue content) :
    countValueFloat16 sparsifyValue content =
      some ((List.range content.OC).map fun oc => (keptValues sparsifyValue content oc).length) := by
  apply mapM_eq_some
  intro oc hmem
  have hoc := mem_range.1 hmem
  rw [h.intValue hoc]
  change countChannel content oc _ = _
  rw [countChannel_eq _ hoc]
  congr 3
  funext v
  exact congrArg (!·) (Float16.eq_or_isZero _ _)

theorem countNonSparseElementsPerOC_eq {quantization : Quantization}
    (h : ValidValues (getSparsifyValues quantization) content) :
    countNonSparseElementsPerOC quantization content =
      some ((List.range content.OC).map fun oc =>
        (keptValues (getSparsifyValues quantization) content oc).length) := by
  cases t with
  | f16 => exact countValueFloat16_eq h
  | si8 => exact countValue_eq h
  | ui8 => exact countValue_eq h
  | bf16 => exact countValue_eq h
  | f32 => exact countValue_eq h
  | f8E5M2 => exact countValue_eq h
  | f8E4M3 => exact countValue_eq h

def paddedCount (byteSize n : ℕ) : ℕ := alignValUp (n * byteSize) 16 / byteSize

theorem paddedCount_mul (t : StorageType) (n : ℕ) :
    paddedCount t.byteSize n * t.byteSize = alignValUp (n * t.byteSize) 16 := by
  apply Nat.div_mul_cancel
  exact t.byteSize_dvd.trans (Nat.dvd_mul_left 16 _)

theorem le_paddedCount (t : StorageType) (n : ℕ) : n ≤ paddedCount t.byteSize n := by
  rw [paddedCount, Nat.le_div_iff_mul_le t.byteSize_pos, alignValUp]
  omega

theorem alignOutputIndex_add (t : StorageType) {start : ℕ} (n : ℕ) (h : 16 ∣ start * t.byteSize) :
    alignOutputIndex t.byteSize (start + n) = start + paddedCount t.byteSize n := by
  have hpos := t.byteSize_pos
  have hmul := paddedCount_mul t n
  obtain ⟨k, hk⟩ := h
  have halign : alignValUp ((start + n) * t.byteSize) 16 = (start + paddedCount t.byteSize n) * t.byteSize := by
    rw [Nat.add_mul, Nat.add_mul, hmul, hk, alignValUp, alignValUp]
    omega
  rw [alignOutputIndex]
  split
  · rw [halign, Nat.mul_div_cancel _ hpos]
  · apply Nat.eq_of_mul_eq_mul_right hpos
    rw [← halign, alignValUp]
    omega

def segment (sparsifyValue : List ℤ) (content : WeightsContent t) (oc : ℕ) : List t.Value :=
  let keptValues := keptValues sparsifyValue content oc
  keptValues ++ List.replicate (paddedCount t.byteSize keptValues.length - keptValues.length) 0

theorem length_segment : (segment sparsifyValue content oc).length =
    paddedCount t.byteSize (keptValues sparsifyValue content oc).length := by
  have := le_paddedCount t (keptValues sparsifyValue content oc).length
  rw [segment, length_append, length_replicate]
  omega

def segments (sparsifyValue : List ℤ) (content : WeightsContent t) (n : ℕ) : List t.Value :=
  (List.range n).flatMap (segment sparsifyValue content)

theorem segments_succ (n : ℕ) :
    segments sparsifyValue content (n + 1) = segments sparsifyValue content n ++ segment sparsifyValue content n := by
  rw [segments, range_succ, flatMap_append, flatMap_singleton, segments]

theorem length_segments_mul (n : ℕ) :
    (segments sparsifyValue content n).length * t.byteSize =
      compressType t ((List.range n).map fun oc => (keptValues sparsifyValue content oc).length) := by
  induction n with
  | zero => simp [segments, compressType]
  | succ n ih =>
    rw [segments_succ, length_append, Nat.add_mul, ih, length_segment, paddedCount_mul]
    simp [compressType, range_succ]

theorem dvd_compressType (numElemsPerOC : List ℕ) : 16 ∣ compressType t numElemsPerOC := by
  apply dvd_sum
  intro size hsize
  obtain ⟨num, _, rfl⟩ := mem_map.1 hsize
  exact Nat.dvd_mul_left 16 _

theorem sparsifyChannel_eq (h : ValidValues sparsifyValue content) {n : ℕ} (rest : ℕ) (hn : n < content.OC) {z : t.Value}
    (hz : sparsifyValue.length = 1 → z = sparsifyValueAt t sparsifyValue n)
    (hrest : (segment sparsifyValue content n).length ≤ rest) :
    sparsifyChannel sparsifyValue content
      ⟨segments sparsifyValue content n ++ List.replicate rest 0, (segments sparsifyValue content n).length, z⟩ n =
      some ⟨segments sparsifyValue content (n + 1) ++
          List.replicate (rest - (segment sparsifyValue content n).length) 0,
        (segments sparsifyValue content (n + 1)).length, sparsifyValueAt t sparsifyValue n⟩ := by
  have hcast : castedValueAt sparsifyValue z n = some (sparsifyValueAt t sparsifyValue n) := by
    have hint := h.intValue hn
    unfold castedValueAt
    unfold intValueAt at hint
    by_cases h1 : 1 < sparsifyValue.length
    · rw [if_pos h1] at hint ⊢
      rw [hint]
      exact h.checkedCast hn
    · have := h.length
      have := content.OC_pos
      rw [if_neg h1, hz (by omega)]
  have hlen : (segment sparsifyValue content n).length =
      paddedCount t.byteSize (keptValues sparsifyValue content n).length := length_segment
  have hle := le_paddedCount t (keptValues sparsifyValue content n).length
  have hfold := push_replicate 0 (segments sparsifyValue content n) (keptValues sparsifyValue content n) rest
    (by omega)
  have halign : alignOutputIndex t.byteSize
      ((segments sparsifyValue content n).length + (keptValues sparsifyValue content n).length) =
      (segments sparsifyValue content (n + 1)).length := by
    rw [segments_succ, length_append, hlen]
    apply alignOutputIndex_add
    rw [length_segments_mul]
    exact dvd_compressType _
  have hbuf : segments sparsifyValue content n ++ keptValues sparsifyValue content n ++
      List.replicate (rest - (keptValues sparsifyValue content n).length) 0 =
      segments sparsifyValue content (n + 1) ++ List.replicate (rest - (segment sparsifyValue content n).length) 0 := by
    rw [hlen, segments_succ, segment, append_assoc, append_assoc, append_assoc,
      replicate_append_replicate]
    congr 3
    omega
  rw [sparsifyChannel, hcast]
  change (content.foldChannel n _ _ >>= _) = _
  rw [WeightsContent.foldChannel_eq _ _ hn, foldlM_skip]
  change (List.foldlM push _ (keptValues sparsifyValue content n) >>= _) = _
  rw [hfold]
  change some _ = some _
  dsimp only
  rw [halign, hbuf]

theorem length_segments_le {n : ℕ} (hn : n ≤ content.OC) :
    (segments sparsifyValue content n).length ≤ (segments sparsifyValue content content.OC).length := by
  obtain ⟨d, hd⟩ := Nat.exists_eq_add_of_le hn
  rw [segments, segments, hd, range_add, flatMap_append, length_append]
  apply Nat.le_add_right

theorem sparsify_eq (h : ValidValues sparsifyValue content) :
    sparsify sparsifyValue content
      (compressType t ((List.range content.OC).map fun oc => (keptValues sparsifyValue content oc).length)) =
      some (segments sparsifyValue content content.OC) := by
  let size := (segments sparsifyValue content content.OC).length
  have hfront : (sparsifyValue.head? >>= t.checkedCast) = some (sparsifyValueAt t sparsifyValue 0) := by
    have hcast := h.checkedCast content.OC_pos
    have hlen := h.index_lt content.OC_pos
    rw [ite_self] at hcast hlen
    rw [head?_eq_getElem?, getElem?_eq_getElem hlen, ← getD_eq_getElem _ 0 hlen]
    exact hcast
  have hsize : compressType t ((List.range content.OC).map fun oc => (keptValues sparsifyValue content oc).length) /
      t.byteSize = size := by
    rw [← length_segments_mul, Nat.mul_div_cancel _ t.byteSize_pos]
  have hloop : ∀ n, n ≤ content.OC → ∃ z, (sparsifyValue.length = 1 → z = sparsifyValueAt t sparsifyValue 0) ∧
      (List.range n).foldlM (sparsifyChannel sparsifyValue content)
        ⟨List.replicate size 0, 0, sparsifyValueAt t sparsifyValue 0⟩ =
      some ⟨segments sparsifyValue content n ++
          List.replicate (size - (segments sparsifyValue content n).length) 0,
        (segments sparsifyValue content n).length, z⟩ := by
    intro n
    induction n with
    | zero => exact fun _ => ⟨_, fun _ => rfl, rfl⟩
    | succ n ih =>
      intro hn
      obtain ⟨z, hz, hn'⟩ := ih (by omega)
      have hsame (h1 : sparsifyValue.length = 1) (oc : ℕ) :
          sparsifyValueAt t sparsifyValue oc = sparsifyValueAt t sparsifyValue 0 := by
        rw [sparsifyValueAt, sparsifyValueAt, if_pos h1, if_pos h1]
      have hle : (segments sparsifyValue content (n + 1)).length ≤ size := length_segments_le hn
      rw [segments_succ, length_append] at hle
      have hstep := sparsifyChannel_eq h (size - (segments sparsifyValue content n).length) hn
        (fun h1 => (hz h1).trans (hsame h1 n).symm) (by omega)
      refine ⟨sparsifyValueAt t sparsifyValue n, fun h1 => hsame h1 n, ?_⟩
      rw [foldlM_range_succ hn', hstep, segments_succ, length_append, Nat.sub_sub]
  obtain ⟨z, _, hrun⟩ := hloop content.OC le_rfl
  rw [sparsify, hfront, hsize]
  change ((List.range content.OC).foldlM (sparsifyChannel sparsifyValue content) _ >>= _) = _
  rw [hrun]
  change some _ = some _
  rw [Nat.sub_self, replicate_zero, append_nil]

def packByte (flag : ℕ → Bool) (n : ℕ) : BitVec 8 :=
  (List.range n).foldl (fun byteValue i => if flag i then byteValue ||| 1#8 <<< i else byteValue) 0#8

theorem packByte_succ (flag : ℕ → Bool) (n : ℕ) :
    packByte flag (n + 1) = if flag n then packByte flag n ||| 1#8 <<< n else packByte flag n := by
  rw [packByte, range_succ, foldl_append]
  rfl

theorem getLsbD_packByte (flag : ℕ → Bool) {n j : ℕ} (hn : n ≤ 8) :
    (packByte flag n).getLsbD j = (decide (j < n) && flag j) := by
  induction n with
  | zero => simp [packByte]
  | succ n ih =>
    have hih := ih (by omega)
    rw [packByte_succ]
    by_cases hf : flag n
    · rw [if_pos hf, BitVec.getLsbD_or, hih, BitVec.getLsbD_shiftLeft]
      obtain hj | hj | hj := Nat.lt_trichotomy j n
      · simp [hj, Nat.lt_succ_of_lt hj]
      · subst hj
        simp [hf, show j < 8 by omega]
      · have hsub : j - n ≠ 0 := by omega
        simp [hj.not_gt, hsub, show ¬ j < n + 1 by omega]
    · rw [if_neg hf, hih]
      by_cases hj : j = n
      · subst hj
        simp [hf]
      · simp [show j < n + 1 ↔ j < n by omega]

def channelFlag (sparsifyValue : List ℤ) (content : WeightsContent t) (oc i : ℕ) : Bool :=
  kept t sparsifyValue oc (content.values.getD (oc * content.workloadSize + i) 0)

theorem sparsityMapByte_eq {start : ℕ} {z : t.Value} (h : start + 8 ≤ content.values.length) :
    sparsityMapByte content z start = some (packByte (fun i => !t.eq (content.values.getD (start + i) 0) z) 8) := by
  have hfold : ∀ n, n ≤ 8 →
      (List.range n).foldlM (fun byteValue bitShift => content.values[start + bitShift]? >>= fun v =>
        some (if !t.eq v z then byteValue ||| 1#8 <<< bitShift else byteValue)) 0#8 =
      some (packByte (fun i => !t.eq (content.values.getD (start + i) 0) z) n) := by
    intro n
    induction n with
    | zero => intro _; rfl
    | succ n ih =>
      intro hn
      have hlt : start + n < content.values.length := by omega
      rw [foldlM_range_succ (ih (by omega)), packByte_succ, getElem?_eq_getElem hlt,
        getD_eq_getElem _ _ hlt]
      rfl
  exact hfold 8 le_rfl

def channelBytes (sparsifyValue : List ℤ) (content : WeightsContent t) (oc : ℕ) : List (BitVec 8) :=
  (List.range (content.workloadSize / 8)).map fun j =>
    packByte (fun i => channelFlag sparsifyValue content oc (j * 8 + i)) 8

theorem length_channelBytes : (channelBytes sparsifyValue content oc).length = content.workloadSize / 8 := by
  rw [channelBytes, length_map, length_range]

theorem sparsityMapWorkload_eq (hworkload : 128 ∣ content.workloadSize) :
    sparsityMapWorkload content = content.workloadSize := by
  rw [sparsityMapWorkload, alignValUp]
  omega

def mapBytes (sparsifyValue : List ℤ) (content : WeightsContent t) (n : ℕ) : List (BitVec 8) :=
  (List.range n).flatMap (channelBytes sparsifyValue content)

theorem length_mapBytes (n : ℕ) :
    (mapBytes sparsifyValue content n).length = n * (content.workloadSize / 8) :=
  length_flatMap_range _ _ _ fun _ _ => length_channelBytes

theorem sparsityMapChannel_eq (h : ValidValues sparsifyValue content) (hworkload : 128 ∣ content.workloadSize)
    {n rest : ℕ} (hn : n < content.OC) (hrest : content.workloadSize / 8 ≤ rest) :
    sparsityMapChannel sparsifyValue content (sparsityMapWorkload content)
      (mapBytes sparsifyValue content n ++ List.replicate rest 0) n =
      some (mapBytes sparsifyValue content (n + 1) ++ List.replicate (rest - content.workloadSize / 8) 0) := by
  have hstart : n * sparsityMapWorkload content / 8 = (mapBytes sparsifyValue content n).length := by
    rw [sparsityMapWorkload_eq hworkload, length_mapBytes]
    apply Nat.mul_div_assoc
    exact Nat.dvd_trans (by decide) hworkload
  have hcount : (content.workloadSize + 7) / 8 = content.workloadSize / 8 := by omega
  have hbody : (List.range ((content.workloadSize + 7) / 8)).foldlM
      (fun out j => do
        let sparsifyVal ← sparsifyValAt sparsifyValue n
        let byteValue ← sparsityMapByte content (t.ofInt sparsifyVal) (n * content.workloadSize + j * 8)
        push out byteValue)
      (mapBytes sparsifyValue content n ++ List.replicate rest 0, n * sparsityMapWorkload content / 8) =
      (channelBytes sparsifyValue content n).foldlM push
        (mapBytes sparsifyValue content n ++ List.replicate rest 0, (mapBytes sparsifyValue content n).length) := by
    rw [channelBytes, foldlM_map, hstart, hcount]
    apply foldlM_congr_mem
    intro j hj out
    have hbound := WeightsContent.channel_bound hn
    have hjlt := mem_range.1 hj
    rw [h.sparsifyVal hn]
    change (sparsityMapByte content (sparsifyValueAt t sparsifyValue n) _ >>= _) = _
    rw [sparsityMapByte_eq (by omega)]
    simp only [Nat.add_assoc]
    rfl
  have hpush := push_replicate (0 : BitVec 8) (mapBytes sparsifyValue content n)
    (channelBytes sparsifyValue content n) rest (by rw [length_channelBytes]; exact hrest)
  rw [sparsityMapChannel, hbody, hpush]
  change some _ = some _
  rw [length_channelBytes, mapBytes, mapBytes, range_succ, flatMap_append, flatMap_singleton]

theorem generateSparsityMap_eq (h : ValidValues sparsifyValue content) (hworkload : 128 ∣ content.workloadSize) :
    generateSparsityMap sparsifyValue content = some (mapBytes sparsifyValue content content.OC) := by
  have hsize : content.OC * sparsityMapWorkload content / 8 = content.OC * (content.workloadSize / 8) := by
    rw [sparsityMapWorkload_eq hworkload]
    apply Nat.mul_div_assoc
    exact Nat.dvd_trans (by decide) hworkload
  have hloop : ∀ n, n ≤ content.OC →
      (List.range n).foldlM (sparsityMapChannel sparsifyValue content (sparsityMapWorkload content))
        (List.replicate (content.OC * (content.workloadSize / 8)) 0) =
      some (mapBytes sparsifyValue content n ++
        List.replicate (content.OC * (content.workloadSize / 8) - n * (content.workloadSize / 8)) 0) := by
    intro n
    induction n with
    | zero => intro _; simp [mapBytes]
    | succ n ih =>
      intro hn
      have hle := Nat.mul_le_mul_right (content.workloadSize / 8) hn
      rw [Nat.add_mul, Nat.one_mul] at hle
      rw [foldlM_range_succ (ih (by omega)), sparsityMapChannel_eq h hworkload hn (by omega), Nat.sub_sub,
        Nat.add_mul, Nat.one_mul]
  rw [generateSparsityMap, hsize, hloop _ le_rfl, Nat.sub_self, replicate_zero, append_nil]

def mapBit (map : List (BitVec 8)) (i : ℕ) : Bool := (map.getD (i / 8) 0).getLsbD (i % 8)

def channelBits (content : WeightsContent t) (map : List (BitVec 8)) (oc : ℕ) : List Bool :=
  (List.range content.workloadSize).map fun i => mapBit map (oc * sparsityMapWorkload content + i)

def alignedOffset (t : StorageType) (counts : List ℕ) (oc : ℕ) : ℕ := compressType t (counts.take oc)

def decodeChannel (sparsifyValue : List ℤ) (content : WeightsContent t) (map : List (BitVec 8)) (out : List t.Value)
    (counts : List ℕ) (oc : ℕ) : List t.Value :=
  expand (sparsifyValueAt t sparsifyValue oc) (channelBits content map oc)
    (out.drop (alignedOffset t counts oc / t.byteSize))

def decodeSparse (sparsifyValue : List ℤ) (content : WeightsContent t) (map : List (BitVec 8)) (out : List t.Value)
    (counts : List ℕ) : List t.Value :=
  (List.range content.OC).flatMap (decodeChannel sparsifyValue content map out counts)

section
variable (hworkload : 128 ∣ content.workloadSize) (hoc : oc < content.OC)
include hworkload hoc

theorem channelBits_eq : channelBits content (mapBytes sparsifyValue content content.OC) oc =
      (content.channel oc).map (kept t sparsifyValue oc) := by
  apply ext_getElem?
  intro i
  by_cases hi : i < content.workloadSize
  · have hdvd : content.workloadSize = 8 * (content.workloadSize / 8) := by omega
    have hbyte : (oc * sparsityMapWorkload content + i) / 8 = oc * (content.workloadSize / 8) + i / 8 := by
      rw [sparsityMapWorkload_eq hworkload, hdvd, Nat.mul_left_comm, Nat.mul_add_div (by decide),
        Nat.mul_div_cancel_left _ (by decide)]
    have hbit : (oc * sparsityMapWorkload content + i) % 8 = i % 8 := by
      rw [sparsityMapWorkload_eq hworkload, hdvd, Nat.mul_left_comm, Nat.mul_add_mod]
    have hj : i / 8 < content.workloadSize / 8 := by omega
    have hget : (mapBytes sparsifyValue content content.OC)[oc * (content.workloadSize / 8) + i / 8]? =
        (channelBytes sparsifyValue content oc)[i / 8]? :=
      getElem?_flatMap_range _ (fun _ _ => length_channelBytes) hoc hj
    have hlt : oc * content.workloadSize + i < content.values.length := by
      have := WeightsContent.channel_bound hoc
      omega
    rw [channelBits, getElem?_map, getElem?_range hi, getElem?_map,
      WeightsContent.getElem?_channel hi, getElem?_eq_getElem hlt, map_some, map_some, mapBit,
      hbyte, hbit, getD_eq_getElem?_getD, hget, channelBytes, getElem?_map, getElem?_range hj,
      map_some, getD_some, getLsbD_packByte _ le_rfl]
    have hmod : i / 8 * 8 + i % 8 = i := by omega
    rw [hmod, channelFlag, getD_eq_getElem _ _ hlt]
    simp [Nat.mod_lt]
  · rw [getElem?_eq_none (by simpa [channelBits] using hi),
      getElem?_eq_none (by rw [length_map, WeightsContent.length_channel hoc]; omega)]

theorem decodeChannel_eq : decodeChannel sparsifyValue content (mapBytes sparsifyValue content content.OC)
      (segments sparsifyValue content content.OC)
      ((List.range content.OC).map fun oc => (keptValues sparsifyValue content oc).length) oc =
      (content.channel oc).map fun v =>
        if kept t sparsifyValue oc v then v else sparsifyValueAt t sparsifyValue oc := by
  obtain ⟨rest, hsplit⟩ := flatMap_range_split (segment sparsifyValue content) hoc
  have htake : (List.range content.OC).take oc = List.range oc := by rw [take_range, Nat.min_eq_left hoc.le]
  have hoffset : alignedOffset t
      ((List.range content.OC).map fun oc => (keptValues sparsifyValue content oc).length) oc / t.byteSize =
      ((List.range oc).flatMap (segment sparsifyValue content)).length := by
    rw [alignedOffset, ← map_take, htake, ← length_segments_mul, Nat.mul_div_cancel _ t.byteSize_pos, segments]
  rw [decodeChannel, channelBits_eq hworkload hoc, hoffset, segments, hsplit, drop_left, segment,
    append_assoc]
  exact expand_filter _ _ _ _

theorem count_channelBits : (channelBits content (mapBytes sparsifyValue content content.OC) oc).count true =
      (keptValues sparsifyValue content oc).length := by
  rw [channelBits_eq hworkload hoc, List.count, countP_map, keptValues, ← countP_eq_length_filter]
  apply countP_congr
  intro v _
  simp

end

theorem sameValue_decode (v : t.Value) : t.SameValue v
    (if kept t sparsifyValue oc v then v else sparsifyValueAt t sparsifyValue oc) := by
  by_cases hk : kept t sparsifyValue oc v
  · rw [if_pos hk]
    exact .inl rfl
  · rw [if_neg hk]
    exact .inr (by simpa [kept] using hk)

theorem forall₂_decode (hworkload : 128 ∣ content.workloadSize) :
    List.Forall₂ t.SameValue content.values
      (decodeSparse sparsifyValue content (mapBytes sparsifyValue content content.OC)
        (segments sparsifyValue content content.OC)
        ((List.range content.OC).map fun oc => (keptValues sparsifyValue content oc).length)) := by
  rw [WeightsContent.values_eq_flatMap, decodeSparse]
  have hrange : List.Forall₂ (fun a b => a = b ∧ a < content.OC) (List.range content.OC) (List.range content.OC) :=
    forall₂_same.2 fun oc hoc => ⟨rfl, mem_range.1 hoc⟩
  apply rel_flatMap hrange
  rintro oc _ ⟨rfl, hoc⟩
  rw [decodeChannel_eq hworkload hoc, forall₂_map_right_iff, forall₂_same]
  exact fun v _ => sameValue_decode v

theorem getElem?_decode (hworkload : 128 ∣ content.workloadSize) (hoc : oc < content.OC) {i : ℕ}
    (hi : i < content.workloadSize) :
    (decodeSparse sparsifyValue content (mapBytes sparsifyValue content content.OC)
      (segments sparsifyValue content content.OC)
      ((List.range content.OC).map fun oc => (keptValues sparsifyValue content oc).length))[
        oc * content.workloadSize + i]? =
    (content.values[oc * content.workloadSize + i]?).map fun v =>
        if kept t sparsifyValue oc v then v else sparsifyValueAt t sparsifyValue oc := by
  rw [decodeSparse, getElem?_flatMap_range _ _ hoc hi, decodeChannel_eq hworkload hoc, getElem?_map,
    WeightsContent.getElem?_channel hi]
  intro c hc
  rw [decodeChannel_eq hworkload hc, length_map, WeightsContent.length_channel hc]

end

/-- The map and the compressed data of the same weights decode to the weights: the values at clear bits compare equal
to the value to skip, those at set bits come back bit by bit. `sparsify` returns, so it writes inside its buffer only. -/
theorem sparseWeights_decode (content : WeightsContent t) (quantization : Quantization)
    (numActualElements : Option (List ℕ)) (hworkload : 128 ∣ content.workloadSize)
    (hquantization : quantization.Describes content)
    (hnum : ∀ numElems ∈ numActualElements, countNonSparseElementsPerOC quantization content = some numElems) :
    ∃ counts map out, countNonSparseElementsPerOC quantization content = some counts ∧
      getSparsityMapTransform quantization content = some map ∧
      sparsifyTransform numActualElements quantization content = some out ∧
      counts = (List.range content.OC).map (fun oc => (channelBits content map oc).count true) ∧
      List.Forall₂ t.SameValue content.values
        (decodeSparse (getSparsifyValues quantization) content map out counts) ∧
      ∀ oc < content.OC, ∀ i < content.workloadSize,
        mapBit map (oc * sparsityMapWorkload content + i) = true →
        (decodeSparse (getSparsifyValues quantization) content map out counts)[oc * content.workloadSize + i]? =
          content.values[oc * content.workloadSize + i]? := by
  have hvalid := hquantization.validValues
  have hcounts := countNonSparseElementsPerOC_eq hvalid
  refine ⟨_, _, _, hcounts, generateSparsityMap_eq hvalid hworkload, ?_, ?_, forall₂_decode hworkload, ?_⟩
  · have hnumElems : (numActualElements.orElse fun _ => countNonSparseElementsPerOC quantization content) =
        some ((List.range content.OC).map fun oc =>
          (keptValues (getSparsifyValues quantization) content oc).length) := by
      cases numActualElements with
      | none => exact hcounts
      | some numElems => exact (hnum numElems rfl).symm.trans hcounts
    rw [sparsifyTransform, hnumElems]
    exact sparsify_eq hvalid
  · apply map_congr_left
    intro oc hoc
    exact (count_channelBits hworkload (mem_range.1 hoc)).symm
  · intro oc hoc i hi hbit
    rw [getElem?_decode hworkload hoc hi, ← WeightsContent.getElem?_channel hi]
    have hbits : (channelBits content (mapBytes (getSparsifyValues quantization) content content.OC) oc)[i]? =
        ((content.channel oc).map (kept t (getSparsifyValues quantization) oc))[i]? := by
      rw [channelBits_eq hworkload hoc]
    rw [channelBits, getElem?_map, getElem?_range hi, map_some, hbit, getElem?_map] at hbits
    obtain ⟨v, hv, hkept⟩ := map_eq_some_iff.1 hbits.symm
    rw [hv, map_some, if_pos hkept]

def constantWeights : WeightsContent .ui8 where
  OC := 2
  IC := 128
  KY := 1
  KX := 1
  values := List.replicate 256 3
  OC_pos := by decide
  length_values := by rw [List.length_replicate]

theorem sparseWeights_decode_constantWeights :
    ∃ counts map out, countNonSparseElementsPerOC (.perAxis [3, 0]) constantWeights = some counts ∧
      getSparsityMapTransform (.perAxis [3, 0]) constantWeights = some map ∧
      sparsifyTransform (some [0, 128]) (.perAxis [3, 0]) constantWeights = some out ∧
      counts = (List.range 2).map (fun oc => (channelBits constantWeights map oc).count true) ∧
      List.Forall₂ (StorageType.SameValue .ui8) constantWeights.values
        (decodeSparse [3, 0] constantWeights map out counts) ∧
      ∀ oc < 2, ∀ i < 128, mapBit map (oc * sparsityMapWorkload constantWeights + i) = true →
        (decodeSparse [3, 0] constantWeights map out counts)[oc * 128 + i]? =
          constantWeights.values[oc * 128 + i]? := by
  apply sparseWeights_decode constantWeights (.perAxis [3, 0]) (some [0, 128])
  · decide
  · exact ⟨rfl, by decide⟩
  · rintro numElems ⟨rfl⟩
    decide +kernel

end NpuCompiler.Const
