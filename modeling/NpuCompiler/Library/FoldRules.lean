import Mathlib.Data.List.Basic

namespace NpuCompiler

open List

theorem bind_eq_ok {ε α β : Type} {x : Except ε α} {f : α → Except ε β} {b : β} :
    (x >>= f) = .ok b ↔ ∃ a, x = .ok a ∧ f a = .ok b := by
  constructor
  · intro h
    cases x with
    | error e => cases h
    | ok a => exact ⟨a, rfl, h⟩
  · rintro ⟨a, rfl, h⟩
    exact h

variable {ε σ α : Type} {I : σ → Prop} {Q : α → σ → Prop} {l : List α} {s : σ}

theorem foldl_establishes {f : σ → α → σ} (h : I s)
    (hstep : ∀ a ∈ l, ∀ s, I s → I (f s a) ∧ Q a (f s a) ∧ ∀ b, Q b s → Q b (f s a)) :
    I (l.foldl f s) ∧ ∀ a ∈ l, Q a (l.foldl f s) := by
  -- what holds of the tasks before `l` is kept by the rest of the run
  suffices hrun : ∀ done : List α, (∀ b ∈ done, Q b s) →
      I (l.foldl f s) ∧ ∀ a ∈ done ++ l, Q a (l.foldl f s) by
    exact hrun [] (fun b hb => absurd hb not_mem_nil)
  induction l generalizing s with
  | nil => exact fun done hdone => ⟨h, by simpa using hdone⟩
  | cons a l ih =>
    intro done hdone
    obtain ⟨hI, ha, hkept⟩ := hstep a mem_cons_self s h
    have hrest := ih hI (fun b hb => hstep b (mem_cons_of_mem _ hb)) (done ++ [a]) (by
      intro b hb
      cases mem_append.mp hb with
      | inl hb => exact hkept b (hdone b hb)
      | inr hb => rwa [mem_singleton.mp hb])
    rwa [append_assoc] at hrest

theorem foldl_invariant {f : σ → α → σ} (h : I s) (hstep : ∀ a ∈ l, ∀ s, I s → I (f s a)) : I (l.foldl f s) :=
  (foldl_establishes (Q := fun _ _ => True) h (fun a ha s hs => ⟨hstep a ha s hs, trivial, fun _ _ => trivial⟩)).1

theorem foldlM_establishes {f : σ → α → Except ε σ} (h : I s)
    (hstep : ∀ a ∈ l, ∀ s, I s → ∃ s', f s a = .ok s' ∧ I s' ∧ Q a s' ∧ ∀ b, Q b s → Q b s') :
    ∃ s', l.foldlM f s = .ok s' ∧ I s' ∧ ∀ a ∈ l, Q a s' := by
  suffices hrun : ∀ done : List α, (∀ b ∈ done, Q b s) →
      ∃ s', l.foldlM f s = .ok s' ∧ I s' ∧ ∀ a ∈ done ++ l, Q a s' by
    exact hrun [] (fun b hb => absurd hb not_mem_nil)
  induction l generalizing s with
  | nil => exact fun done hdone => ⟨s, rfl, h, by simpa using hdone⟩
  | cons a l ih =>
    intro done hdone
    obtain ⟨s₁, hs₁, hI, ha, hkept⟩ := hstep a mem_cons_self s h
    obtain ⟨s', hs', hrest⟩ := ih hI (fun b hb => hstep b (mem_cons_of_mem _ hb)) (done ++ [a]) (by
      intro b hb
      cases mem_append.mp hb with
      | inl hb => exact hkept b (hdone b hb)
      | inr hb => rwa [mem_singleton.mp hb])
    rw [append_assoc] at hrest
    refine ⟨s', ?_, hrest⟩
    rw [foldlM_cons, hs₁]
    exact hs'

theorem foldlM_traces {f : σ → α → Except ε σ} {P : σ → Prop} {S : σ → α → Prop} {s' : σ} (h : I s)
    (hstep : ∀ a ∈ l, ∀ s s', I s → f s a = .ok s' → I s' ∧ (P s' ↔ P s ∧ S s a)) (hrun : l.foldlM f s = .ok s') :
    I s' ∧ (P s' ↔ P s ∧ ∀ before a after st, l = before ++ a :: after → before.foldlM f s = .ok st → S st a) := by
  induction l generalizing s with
  | nil =>
    cases hrun
    refine ⟨h, (and_iff_left ?_).symm⟩
    intro before a after st heq
    exact absurd heq.symm (append_ne_nil_of_right_ne_nil _ (cons_ne_nil _ _))
  | cons a l ih =>
    rw [foldlM_cons] at hrun
    obtain ⟨s₁, hs₁, hrest⟩ := bind_eq_ok.mp hrun
    obtain ⟨hI, hP⟩ := hstep a mem_cons_self s s₁ h hs₁
    obtain ⟨hI', hP'⟩ := ih hI (fun b hb => hstep b (mem_cons_of_mem _ hb)) hrest
    refine ⟨hI', ?_⟩
    rw [hP', hP, and_assoc]
    apply and_congr_right'
    constructor
    · rintro ⟨hfirst, hlater⟩ before b after st heq hbefore
      cases before with
      | nil =>
        cases hbefore
        obtain ⟨rfl, -⟩ := List.cons.inj heq
        exact hfirst
      | cons b' before =>
        obtain ⟨rfl, htail⟩ := List.cons.inj heq
        rw [foldlM_cons, hs₁] at hbefore
        exact hlater before b after st htail hbefore
    · intro hall
      refine ⟨hall [] a l s rfl rfl, ?_⟩
      intro before b after st heq hbefore
      apply hall (a :: before) b after st (by rw [heq]; rfl)
      rw [foldlM_cons, hs₁]
      exact hbefore

theorem range_eq_append {n a : ℕ} {before after : List ℕ} (h : List.range n = before ++ a :: after) :
    before = List.range a ∧ a < n := by
  have hlength := congrArg List.length h
  rw [length_range, length_append, length_cons] at hlength
  have ha : a = before.length := by
    have hget := congrArg (fun l => l[before.length]?) h
    simpa [getElem?_range (show before.length < n by omega)] using hget.symm
  have htake := congrArg (List.take before.length) h
  rw [take_left, take_range, Nat.min_eq_left (by omega)] at htake
  exact ⟨ha ▸ htake.symm, by omega⟩

theorem range_chunks {n m : ℕ} : (List.range n).flatMap (fun i => (List.range m).map (i * m + ·)) = List.range (n * m) := by
  induction n with
  | zero => simp
  | succ n ih => rw [range_succ, flatMap_append, ih, flatMap_singleton, Nat.succ_mul, range_add]

theorem exists_range_eq_append {n a : ℕ} (h : a < n) : ∃ after, List.range n = List.range a ++ a :: after := by
  obtain ⟨k, rfl⟩ := Nat.exists_eq_add_of_lt h
  refine ⟨(List.range k).map (a + 1 + ·), ?_⟩
  rw [show a + k + 1 = a + 1 + k by omega, range_add, range_succ, append_assoc]
  rfl

theorem foldlM_congr_mem {σ α : Type} {f g : σ → α → Option σ} {l : List α} (h : ∀ a ∈ l, ∀ s, f s a = g s a) :
    ∀ s, l.foldlM f s = l.foldlM g s := by
  induction l with
  | nil => intro _; rfl
  | cons a l ih =>
    intro s
    rw [foldlM_cons, foldlM_cons, h a mem_cons_self]
    congr 1
    funext s
    exact ih (fun b hb => h b (mem_cons_of_mem a hb)) s

theorem foldlM_range_succ {σ : Type} {f : σ → ℕ → Option σ} {n : ℕ} {s s' : σ}
    (h : (List.range n).foldlM f s = some s') : (List.range (n + 1)).foldlM f s = f s' n := by
  rw [range_succ, foldlM_append, h]
  change (List.foldlM f s' [n]) = _
  rw [foldlM_cons]
  cases f s' n <;> rfl

theorem mapM_eq_some {α β : Type} {f : α → Option β} {g : α → β} {l : List α} (h : ∀ a ∈ l, f a = some (g a)) :
    l.mapM f = some (l.map g) := by
  induction l with
  | nil => rfl
  | cons a l ih =>
    rw [mapM_cons, h a (mem_cons_self ..), ih (fun b hb => h b (mem_cons_of_mem a hb))]
    rfl

theorem mapM_some_inv {α β : Type*} {f : α → Option β} {l : List α} {r : List β} (h : l.mapM f = some r) :
    r.length = l.length ∧ ∀ (i : ℕ) (hl : i < l.length) (hr : i < r.length), f l[i] = some r[i] := by
  induction l generalizing r with
  | nil =>
    simp only [mapM_nil, Option.pure_def, Option.some.injEq] at h
    subst h
    exact ⟨rfl, fun i hl => absurd hl (Nat.not_lt_zero i)⟩
  | cons a l ih =>
    rw [mapM_cons] at h
    obtain ⟨b, hb, h⟩ := Option.bind_eq_some_iff.mp h
    obtain ⟨bs, hbs, h⟩ := Option.bind_eq_some_iff.mp h
    cases h
    obtain ⟨hlen, hall⟩ := ih hbs
    refine ⟨by simp [hlen], fun i hl hr => ?_⟩
    cases i with
    | zero => exact hb
    | succ i => exact hall i (by simpa using hl) (by simpa using hr)

end NpuCompiler
