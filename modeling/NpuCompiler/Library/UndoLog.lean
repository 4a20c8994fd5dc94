import Mathlib.Logic.Function.Basic

namespace NpuCompiler

/-- What is kept of the changes to a map: the keys that came in, and the first value that each changed key had. -/
structure UndoLog (κ ν : Type*) where
  newKeys : List κ
  original : κ → Option ν

namespace UndoLog

variable {κ ν : Type*}

def empty : UndoLog κ ν := ⟨[], fun _ => none⟩

/-- What became of `k` since `entry`: it came in, its first value is kept, or it has the value it had. -/
inductive TracksKey (entry m : κ → Option ν) (log : UndoLog κ ν) (k : κ) : Prop
  | new (hnew : k ∈ log.newKeys) (hentry : entry k = none) (hm : m k ≠ none)
  | changed (hnew : k ∉ log.newKeys) (v : ν) (horiginal : log.original k = some v) (hentry : entry k = some v)
      (hm : m k ≠ none)
  | same (hnew : k ∉ log.newKeys) (horiginal : log.original k = none) (hm : m k = entry k)

def Tracks (entry m : κ → Option ν) (log : UndoLog κ ν) : Prop := ∀ k, TracksKey entry m log k

def Covers (log : UndoLog κ ν) (k : κ) : Prop := k ∈ log.newKeys ∨ log.original k ≠ none

variable {entry m : κ → Option ν} {log : UndoLog κ ν} {k : κ} {v : ν}

theorem tracks_empty : Tracks m m empty := by
  intro k
  exact .same List.not_mem_nil rfl rfl

theorem Tracks.entry_none (h : Tracks entry m log) (hm : m k = none) :
    k ∉ log.newKeys ∧ log.original k = none ∧ entry k = none := by
  cases h k with
  | new hnew hentry hm' => exact absurd hm hm'
  | changed hnew v horiginal hentry hm' => exact absurd hm hm'
  | same hnew horiginal hm' => exact ⟨hnew, horiginal, hm'.symm.trans hm⟩

variable [DecidableEq κ]

def recordNew (log : UndoLog κ ν) (k : κ) : UndoLog κ ν := { log with newKeys := log.newKeys.insert k }

def recordOriginal (log : UndoLog κ ν) (k : κ) (v : ν) : UndoLog κ ν :=
  if (log.original k).isNone then { log with original := Function.update log.original k (some v) } else log

def undo (log : UndoLog κ ν) (m : κ → Option ν) : κ → Option ν :=
  fun k => if k ∈ log.newKeys then none else (log.original k).or (m k)

theorem Tracks.undo_eq (h : Tracks entry m log) : log.undo m = entry := by
  funext k
  unfold undo
  cases h k with
  | new hnew hentry hm => rw [if_pos hnew, hentry]
  | changed hnew v horiginal hentry hm => simp [hnew, horiginal, hentry]
  | same hnew horiginal hm => simp [hnew, horiginal, hm]

theorem Tracks.update (h : Tracks entry m log) (hc : log.Covers k) :
    Tracks entry (Function.update m k (some v)) log := by
  intro j
  by_cases hj : j = k
  · subst hj
    have hm : Function.update m j (some v) j ≠ none := by simp
    cases h j with
    | new hnew hentry _ => exact .new hnew hentry hm
    | changed hnew u horiginal hentry _ => exact .changed hnew u horiginal hentry hm
    | same hnew horiginal _ => exact absurd hc (by simp [Covers, hnew, horiginal])
  · have hkeep : Function.update m k (some v) j = m j := Function.update_of_ne hj _ _
    cases h j with
    | new hnew hentry hm => exact .new hnew hentry (hkeep ▸ hm)
    | changed hnew u horiginal hentry hm => exact .changed hnew u horiginal hentry (hkeep ▸ hm)
    | same hnew horiginal hm => exact .same hnew horiginal (hkeep.trans hm)

theorem mem_newKeys_recordNew {j : κ} : j ∈ (log.recordNew k).newKeys ↔ j = k ∨ j ∈ log.newKeys := by
  simp [recordNew]

theorem Tracks.insertNew (h : Tracks entry m log) (hm : m k = none) :
    Tracks entry (Function.update m k (some v)) (log.recordNew k) := by
  intro j
  by_cases hj : j = k
  · subst hj
    exact .new (mem_newKeys_recordNew.mpr (Or.inl rfl)) (h.entry_none hm).2.2 (by simp)
  · have hkeep : Function.update m k (some v) j = m j := Function.update_of_ne hj _ _
    have hmem : j ∈ (log.recordNew k).newKeys ↔ j ∈ log.newKeys := by
      rw [mem_newKeys_recordNew]
      simp [hj]
    cases h j with
    | new hnew hentry hm => exact .new (hmem.mpr hnew) hentry (hkeep ▸ hm)
    | changed hnew u horiginal hentry hm => exact .changed (mt hmem.mp hnew) u horiginal hentry (hkeep ▸ hm)
    | same hnew horiginal hm => exact .same (mt hmem.mp hnew) horiginal (hkeep.trans hm)

theorem covers_recordOriginal : (log.recordOriginal k v).Covers k := by
  unfold recordOriginal Covers
  cases h : log.original k <;> simp [h]

theorem Tracks.recordOriginal (h : Tracks entry m log) (hm : m k = some v) :
    Tracks entry m (log.recordOriginal k v) := by
  unfold UndoLog.recordOriginal
  cases horiginal : log.original k with
  | some u => simpa using h
  | none =>
    intro j
    by_cases hj : j = k
    · subst hj
      have hkept : Function.update log.original j (some v) j = some v := Function.update_self ..
      have hpresent : m j ≠ none := by simp [hm]
      cases h j with
      | new hnew hentry _ => exact .new hnew hentry hpresent
      | changed hnew u hu _ _ => exact absurd (horiginal.symm.trans hu) (by simp)
      | same hnew _ hentry => exact .changed hnew v hkept (hentry.symm.trans hm) hpresent
    · have hkept : Function.update log.original k (some v) j = log.original j := Function.update_of_ne hj _ _
      cases h j with
      | new hnew hentry hm => exact .new hnew hentry hm
      | changed hnew u hu hentry hm => exact .changed hnew u (hkept.trans hu) hentry hm
      | same hnew hu hm => exact .same hnew (hkept.trans hu) hm

def assign (log : UndoLog κ ν) (m : κ → Option ν) (dflt : ν) (k : κ) : UndoLog κ ν :=
  (if (m k).isNone then log.recordNew k else log).recordOriginal k ((m k).getD dflt)

theorem Tracks.assign {dflt : ν} (h : Tracks entry m log) :
    Tracks entry (Function.update m k (some v)) (log.assign m dflt k) := by
  unfold UndoLog.assign
  cases hm : m k with
  | some u => exact (h.recordOriginal hm).update covers_recordOriginal
  | none =>
    -- the default that the lookup has put in becomes the original value of a new key
    have hdefault : Tracks entry (Function.update m k (some dflt)) (log.recordNew k) := h.insertNew hm
    have hrecorded := (hdefault.recordOriginal (Function.update_self k (some dflt) m)).update
      (v := v) covers_recordOriginal
    rwa [Function.update_idem] at hrecorded

end UndoLog

end NpuCompiler
