import Mathlib.Data.List.Basic
import Mathlib.Logic.Relation

namespace NpuCompiler

open List

variable {ε σ α β : Type}

def endState : EStateM.Result ε σ α → σ
  | .ok _ s => s
  | .error _ s => s

def Keeps (I : σ → Prop) (m : EStateM ε σ α) : Prop := ∀ s, I s → I (endState (m s))

def readState (f : σ → Except ε α) : EStateM ε σ α := fun s =>
  match f s with
  | .ok a => .ok a s
  | .error e => .error e s

section
variable {I : σ → Prop}

theorem keeps_pure (a : α) : Keeps I (pure a : EStateM ε σ α) := fun _ h => h

theorem keeps_readState (f : σ → Except ε α) : Keeps I (readState f) := by
  intro s h
  unfold readState
  cases f s with
  | ok a => exact h
  | error e => exact h

theorem keeps_bind {m : EStateM ε σ α} {f : α → EStateM ε σ β} (hm : Keeps I m) (hf : ∀ a, Keeps I (f a)) :
    Keeps I (m >>= f) := by
  intro s h
  have hms := hm s h
  change I (endState (EStateM.bind m f s))
  unfold EStateM.bind
  cases hresult : m s with
  | ok a s' =>
    rw [hresult] at hms
    exact hf a s' hms
  | error e s' =>
    rw [hresult] at hms
    exact hms

theorem keeps_ite {p : Prop} [Decidable p] {m m' : EStateM ε σ α} (h : Keeps I m) (h' : Keeps I m') :
    Keeps I (if p then m else m') := by
  split_ifs
  · exact h
  · exact h'

theorem keeps_foldlM {f : β → α → EStateM ε σ β} (h : ∀ b a, Keeps I (f b a)) (l : List α) (b : β) :
    Keeps I (l.foldlM f b) := by
  induction l generalizing b with
  | nil => exact keeps_pure b
  | cons a l ih =>
    rw [foldlM_cons]
    exact keeps_bind (h b a) ih

theorem keeps_forM {f : α → EStateM ε σ PUnit} (h : ∀ a, Keeps I (f a)) (l : List α) : Keeps I (l.forM f) := by
  induction l with
  | nil => exact keeps_pure _
  | cons a l ih => exact keeps_bind (h a) (fun _ => ih)

end

structure Ensures (P : σ → Prop) (m : EStateM ε σ α) (Q : α → σ → Prop) : Prop where
  post : ∀ s, P s → ∀ a s', m s = .ok a s' → Q a s'

section
variable {P I : σ → Prop} {Q : α → σ → Prop} {R : β → σ → Prop}

theorem ensures_pure {a : α} (h : ∀ s, P s → Q a s) : Ensures P (pure a : EStateM ε σ α) Q := by
  constructor
  intro s hs b s' hrun
  cases hrun
  exact h s hs

theorem ensures_throw (e : ε) : Ensures P (throw e : EStateM ε σ α) Q := by
  constructor
  intro s _ a s' hrun
  cases hrun

theorem ensures_trivial {m : EStateM ε σ α} : Ensures P m (fun _ _ => True) := ⟨fun _ _ _ _ _ => trivial⟩

theorem ensures_bind {m : EStateM ε σ β} {f : β → EStateM ε σ α} (hm : Ensures P m R)
    (hf : ∀ b, Ensures (R b) (f b) Q) : Ensures P (m >>= f) Q := by
  constructor
  intro s hs a s' hrun
  change EStateM.bind m f s = .ok a s' at hrun
  unfold EStateM.bind at hrun
  cases hresult : m s with
  | ok b s₁ =>
    rw [hresult] at hrun
    exact (hf b).post s₁ (hm.post s hs b s₁ hresult) a s' hrun
  | error e s₁ =>
    rw [hresult] at hrun
    cases hrun

theorem ensures_get {Q : σ → σ → Prop} (h : ∀ s, P s → Q s s) : Ensures P (get : EStateM ε σ σ) Q := by
  constructor
  intro s hs a s' hrun
  cases hrun
  exact h s hs

theorem ensures_modify {f : σ → σ} {Q : PUnit → σ → Prop} (h : ∀ s, P s → Q ⟨⟩ (f s)) :
    Ensures P (modify f : EStateM ε σ PUnit) Q := by
  constructor
  intro s hs a s' hrun
  cases hrun
  exact h s hs

theorem ensures_readState {f : σ → Except ε α} (h : ∀ s, P s → ∀ a, f s = .ok a → Q a s) :
    Ensures P (readState f) Q := by
  constructor
  intro s hs a s' hrun
  unfold readState at hrun
  cases hresult : f s with
  | ok b =>
    rw [hresult] at hrun
    cases hrun
    exact h s hs _ hresult
  | error e =>
    rw [hresult] at hrun
    cases hrun

theorem ensures_ite {p : Prop} [Decidable p] {m m' : EStateM ε σ α} (h : p → Ensures P m Q)
    (h' : ¬ p → Ensures P m' Q) : Ensures P (if p then m else m') Q := by
  split_ifs with hp
  · exact h hp
  · exact h' hp

theorem Ensures.weaken {m : EStateM ε σ α} {P' : σ → Prop} {Q' : α → σ → Prop} (h : Ensures P m Q)
    (hP : ∀ s, P' s → P s) (hQ : ∀ a s, Q a s → Q' a s) : Ensures P' m Q' :=
  ⟨fun s hs a s' hrun => hQ a s' (h.post s (hP s hs) a s' hrun)⟩

theorem ensures_of_each {m : EStateM ε σ α} (h : ∀ s₀, P s₀ → Ensures (fun s => s = s₀) m Q) : Ensures P m Q :=
  ⟨fun s hs a s' hrun => (h s hs).post s rfl a s' hrun⟩

theorem ensures_foldlM {f : β → α → EStateM ε σ β} {J : β → σ → Prop} {l : List α}
    (h : ∀ a ∈ l, ∀ b, Ensures (J b) (f b a) J) (b : β) : Ensures (J b) (l.foldlM f b) J := by
  induction l generalizing b with
  | nil => exact ensures_pure (fun _ hs => hs)
  | cons a l ih =>
    rw [foldlM_cons]
    apply ensures_bind (h a mem_cons_self b)
    exact fun b' => ih (fun a' ha' => h a' (mem_cons_of_mem _ ha')) b'

theorem ensures_forM {f : α → EStateM ε σ PUnit} {l : List α} (h : ∀ a ∈ l, Ensures I (f a) (fun _ => I)) :
    Ensures I (l.forM f) (fun _ => I) := by
  induction l with
  | nil => exact ensures_pure (fun _ hs => hs)
  | cons a l ih =>
    apply ensures_bind (h a mem_cons_self)
    exact fun _ => ih (fun a' ha' => h a' (mem_cons_of_mem _ ha'))

end

end NpuCompiler

namespace NpuCompiler

def Diamond {α : Type} (r : α → α → Prop) : Prop :=
  ∀ a b c, r a b → r a c → ∃ d, Relation.ReflGen r b d ∧ Relation.ReflTransGen r c d

def Terminal {α : Type} (r : α → α → Prop) (a : α) : Prop := ∀ b, ¬ r a b

variable {α : Type} {r : α → α → Prop} {a b c : α}

theorem Terminal.eq (h : Terminal r a) (hab : Relation.ReflTransGen r a b) : a = b := by
  apply (Relation.ReflTransGen.cases_head_iff.mp hab).resolve_right
  rintro ⟨c, hac, _⟩
  exact h c hac

theorem Diamond.eq_of_terminal (h : Diamond r) (hab : Relation.ReflTransGen r a b) (hac : Relation.ReflTransGen r a c)
    (hb : Terminal r b) (hc : Terminal r c) : b = c := by
  obtain ⟨d, hbd, hcd⟩ := Relation.church_rosser h hab hac
  rw [hb.eq hbd, hc.eq hcd]

end NpuCompiler
