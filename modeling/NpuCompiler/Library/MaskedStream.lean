import Mathlib.Data.List.Forall2
import Mathlib.Data.List.GetD

namespace NpuCompiler.MaskedStream

open List

variable {α σ : Type}

def write (buf : List α) (i : ℕ) (v : α) : Option (List α) := if i < buf.length then some (buf.set i v) else none

def push (s : List α × ℕ) (v : α) : Option (List α × ℕ) := do
  let buf ← write s.1 s.2 v
  return (buf, s.2 + 1)

def expand (z : α) : List Bool → List α → List α
  | [], _ => []
  | false :: mask, stream => z :: expand z mask stream
  | true :: mask, [] => z :: expand z mask []
  | true :: mask, v :: stream => v :: expand z mask stream

theorem foldlM_range'_getElem? (f : σ → α → Option σ) (l : List α) (n : ℕ) :
    ∀ (start : ℕ) (s : σ), start + n ≤ l.length →
      (List.range' start n).foldlM (fun s i => l[i]? >>= f s) s = ((l.drop start).take n).foldlM f s := by
  induction n with
  | zero => intro start s _; simp
  | succ n ih =>
    intro start s h
    have hlt : start < l.length := by omega
    rw [range'_succ, foldlM_cons, drop_eq_getElem_cons hlt, take_succ_cons, foldlM_cons,
      getElem?_eq_getElem hlt]
    change (f s l[start] >>= fun s => _) = _
    cases hf : f s l[start] with
    | none => rfl
    | some s => exact ih (start + 1) s (by omega)

theorem push_foldlM (values : List α) : ∀ (buf : List α) (k : ℕ), k + values.length ≤ buf.length →
    values.foldlM push (buf, k) =
      some (buf.take k ++ values ++ buf.drop (k + values.length), k + values.length) := by
  induction values with
  | nil => intro buf k _; simp
  | cons v values ih =>
    intro buf k h
    rw [length_cons] at h
    have hk : k < buf.length := by omega
    have hpush : push (buf, k) v = some (buf.set k v, k + 1) := by simp [push, write, hk]
    rw [foldlM_cons, hpush]
    change values.foldlM push (buf.set k v, k + 1) = _
    rw [ih (buf.set k v) (k + 1) (by rw [length_set]; omega), length_cons]
    have htake : (buf.set k v).take (k + 1) = buf.take k ++ [v] := by
      have hset : k < (buf.set k v).length := by rw [length_set]; exact hk
      rw [take_succ_eq_append_getElem hset, getElem_set_self, take_set, set_eq_of_length_le]
      rw [length_take]
      omega
    have hdrop : (buf.set k v).drop (k + 1 + values.length) = buf.drop (k + (values.length + 1)) := by
      rw [drop_set_of_lt (by omega)]
      congr 1
      omega
    rw [htake, hdrop]
    simp [Nat.add_assoc, Nat.add_comm 1]

theorem push_replicate (z : α) (done values : List α) (rest : ℕ) (h : values.length ≤ rest) :
    values.foldlM push (done ++ List.replicate rest z, done.length) =
      some (done ++ values ++ List.replicate (rest - values.length) z, done.length + values.length) := by
  rw [push_foldlM values _ _ (by simpa using h), take_left, ← drop_drop, drop_left, drop_replicate]

theorem foldlM_skip (p : α → Bool) (step : σ → α → Option σ) (values : List α) : ∀ s : σ,
    values.foldlM (fun s v => if p v then some s else step s v) s = (values.filter fun v => !p v).foldlM step s := by
  induction values with
  | nil => intro s; rfl
  | cons v values ih =>
    intro s
    rw [foldlM_cons]
    by_cases hp : p v
    · rw [if_pos hp, filter_cons_of_neg (by simp [hp])]
      exact ih s
    · rw [if_neg hp, filter_cons_of_pos (by simp [hp]), foldlM_cons]
      congr 1
      funext s
      exact ih s

theorem flatMap_range_split (f : ℕ → List α) {c n : ℕ} (h : c < n) :
    ∃ rest, (List.range n).flatMap f = (List.range c).flatMap f ++ (f c ++ rest) := by
  obtain ⟨d, rfl⟩ : ∃ d, n = c + (1 + d) := ⟨n - c - 1, by omega⟩
  refine ⟨((List.range d).map (c + 1 + ·)).flatMap f, ?_⟩
  rw [range_add, flatMap_append, range_add]
  simp [Function.comp_def, flatMap_map, Nat.add_assoc]

theorem length_flatMap_range (f : ℕ → List α) (m n : ℕ) (h : ∀ c < n, (f c).length = m) :
    ((List.range n).flatMap f).length = n * m := by
  rw [length_flatMap, map_congr_left fun c hc => h c (mem_range.1 hc)]
  simp

theorem getElem?_flatMap_range (f : ℕ → List α) {m n c j : ℕ} (h : ∀ c < n, (f c).length = m) (hc : c < n)
    (hj : j < m) : ((List.range n).flatMap f)[c * m + j]? = (f c)[j]? := by
  obtain ⟨rest, hsplit⟩ := flatMap_range_split f hc
  have hlen := length_flatMap_range f m c fun d hd => h d (by omega)
  rw [hsplit, getElem?_append_right (by omega), hlen, Nat.add_sub_cancel_left,
    getElem?_append_left (by rw [h c hc]; exact hj)]

theorem expand_filter (z : α) (keep : α → Bool) (values rest : List α) :
    expand z (values.map keep) (values.filter keep ++ rest) = values.map fun v => if keep v then v else z := by
  induction values with
  | nil => rfl
  | cons v values ih =>
    by_cases hk : keep v
    · simp [expand, hk, ih]
    · simp [expand, hk, ih]

end NpuCompiler.MaskedStream

namespace NpuCompiler.Chunks

open MaskedStream

variable {α : Type} {size n : ℕ} {l : List α} {pos : ℕ → ℕ}

def cut (a b : ℕ) (l : List α) : List α := (l.drop a).take (b - a)

def gather (size : ℕ) (l : List α) (pos : ℕ → ℕ) (n : ℕ) : List α :=
  (List.range n).flatMap fun k => (l.drop (pos k * size)).take size

theorem cut_append (a b : ℕ) (l rest : List α) :
    cut a b (l ++ rest) = cut a b l ++ cut (a - l.length) (b - l.length) rest := by
  have hcount : b - a - (l.length - a) = b - l.length - (a - l.length) := by omega
  rw [cut, List.drop_append, List.take_append, List.length_drop, hcount, cut, cut]

theorem length_cut (a b : ℕ) (l : List α) : (cut a b l).length = min b l.length - a := by
  rw [cut, List.length_take, List.length_drop]
  omega

theorem cut_min (a b : ℕ) (l : List α) : cut a (min b l.length) l = cut a b l := by
  rw [cut, cut, List.take_eq_take_iff, List.length_drop]
  omega

theorem getElem?_cut {a b i : ℕ} (h : a + i < b) : (cut a b l)[i]? = l[a + i]? := by
  rw [cut, List.getElem?_take_of_lt (by omega), List.getElem?_drop]

theorem map_cut {β : Type} (f : α → β) (a b : ℕ) (l : List α) : (cut a b l).map f = cut a b (l.map f) := by
  rw [cut, cut, List.map_take, List.map_drop]

theorem length_chunk {i : ℕ} (h : (i + 1) * size ≤ l.length) : ((l.drop (i * size)).take size).length = size := by
  rw [Nat.add_mul, Nat.one_mul] at h
  rw [List.length_take, List.length_drop]
  omega

theorem length_gather (h : ∀ k < n, (pos k + 1) * size ≤ l.length) : (gather size l pos n).length = n * size :=
  length_flatMap_range _ _ _ fun k hk => length_chunk (h k hk)

theorem getElem?_gather (h : ∀ k < n, (pos k + 1) * size ≤ l.length) {k t : ℕ} (hk : k < n) (ht : t < size) :
    (gather size l pos n)[k * size + t]? = l[pos k * size + t]? := by
  rw [gather, getElem?_flatMap_range _ (fun c hc => length_chunk (h c hc)) hk ht, List.getElem?_take_of_lt ht,
    List.getElem?_drop]

theorem gather_congr {pos' : ℕ → ℕ} (h : ∀ k < n, pos k = pos' k) : gather size l pos n = gather size l pos' n := by
  apply List.flatMap_congr
  intro k hk
  rw [h k (List.mem_range.1 hk)]

theorem gather_gather (rest : List α) (h : ∀ k < n, (pos k + 1) * size ≤ l.length) {pos' : ℕ → ℕ} {m : ℕ} (hpos : ∀ k < m, pos' k < n) :
    gather size (gather size l pos n ++ rest) pos' m = gather size l (fun k => pos (pos' k)) m := by
  apply List.flatMap_congr
  intro k hk
  have hk' := hpos k (List.mem_range.1 hk)
  obtain ⟨tail, hsplit⟩ := flatMap_range_split (fun k => (l.drop (pos k * size)).take size) hk'
  have hlen : ((List.range (pos' k)).flatMap fun k => (l.drop (pos k * size)).take size).length = pos' k * size :=
    length_flatMap_range _ _ _ fun c hc => length_chunk (h c (by omega))
  have hchunk := length_chunk (h _ hk')
  rw [gather, hsplit, List.append_assoc, ← hlen, List.drop_left, List.append_assoc]
  nth_rewrite 1 [← hchunk]
  rw [List.take_left]

theorem gather_id (h : l.length = n * size) : gather size l (fun k => k) n = l := by
  have htakes : ∀ m, m ≤ n → gather size l (fun k => k) m = l.take (m * size) := by
    intro m
    induction m with
    | zero => intro _; simp [gather]
    | succ m ih =>
      intro hm
      have hstep : gather size l (fun k => k) (m + 1) =
          gather size l (fun k => k) m ++ (l.drop (m * size)).take size := by
        rw [gather, List.range_succ, List.flatMap_append, List.flatMap_singleton, gather]
      rw [hstep, ih (by omega), Nat.add_mul, Nat.one_mul, List.take_add]
  rw [htakes n (Nat.le_refl n), ← h, List.take_length]

theorem gather_eq_cut_iff {total a b : ℕ} (hsize : 0 < size) (h : ∀ k < n, (pos k + 1) * size ≤ total)
    (hab : a ≤ b) (hb : b ≤ total) :
    (∀ l : List Bool, l.length = total → gather size l pos n = cut a b l) ↔
      n * size = b - a ∧ ∀ k < n, pos k * size = a + k * size := by
  constructor
  · intro heq
    have hlen : n * size = b - a := by
      have hl := congrArg List.length (heq (List.replicate total false) (by simp))
      rw [length_gather (by simpa using h), length_cut, List.length_replicate] at hl
      omega
    refine ⟨hlen, fun k hk => ?_⟩
    -- a list whose only `true` is the first entry of element `k`
    have hmul : (k + 1) * size ≤ n * size := Nat.mul_le_mul_right _ hk
    rw [Nat.add_mul, Nat.one_mul] at hmul
    have hlt : a + k * size < total := by omega
    have hget := congrArg (fun r => r[k * size + 0]?) (heq ((List.replicate total false).set (a + k * size) true) (by simp))
    rw [getElem?_gather (by simpa using h) hk hsize, getElem?_cut (by omega), Nat.add_zero, Nat.add_zero,
      List.getElem?_set_self (by simpa using hlt)] at hget
    by_contra hne
    rw [List.getElem?_set_ne (fun e => hne e.symm), List.getElem?_replicate] at hget
    split at hget
    · cases hget
    · cases hget
  · rintro ⟨hlen, hpos⟩ l hl
    apply List.ext_getElem?
    intro i
    by_cases hi : i < n * size
    · have hk : i / size < n := Nat.div_lt_of_lt_mul (by rwa [Nat.mul_comm] at hi)
      have hsplit : i = i / size * size + i % size := (Nat.div_add_mod' i size).symm
      rw [hsplit, getElem?_gather (by rwa [hl]) hk (Nat.mod_lt _ hsize), hpos _ hk, getElem?_cut (by omega)]
      congr 1
      omega
    · have hg : (gather size l pos n).length = n * size := length_gather (by rwa [hl])
      rw [List.getElem?_eq_none (by omega), List.getElem?_eq_none (by rw [length_cut]; omega)]

end NpuCompiler.Chunks
