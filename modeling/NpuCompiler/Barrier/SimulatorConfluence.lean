import Mathlib.Data.List.Nodup
import NpuCompiler.Barrier.SimulatorRuns
import NpuCompiler.Library.StateInvariant

namespace NpuCompiler.Barrier.Simulator

open BarrierState Simulator List

/-- The steps of a simulation, with any condition for the next barrier to be mapped. -/
inductive FireWhen (mappable : ℕ → List (List BarrierUser) → Prop) :
    ℕ × List (List BarrierUser) → ℕ × List (List BarrierUser) → Prop
  | map {bar : ℕ} {queues : List (List BarrierUser)} (h : mappable bar queues) : FireWhen mappable (bar, queues) (bar + 1, queues)
  | process {bar i : ℕ} {queues : List (List BarrierUser)} {user : BarrierUser} {users : List BarrierUser}
      (hqueue : queues[i]? = some (user :: users)) (hready : Ready bar queues user) :
      FireWhen mappable (bar, queues) (bar, queues.set i users)

def liveBarriers (bar : ℕ) (queues : List (List BarrierUser)) : List ℕ :=
  (List.range bar).filter (fun v => 0 < slotsUsed BarrierUser.consumer queues v)

def HasFree (n limit bar : ℕ) (queues : List (List BarrierUser)) : Prop :=
  bar < n ∧ (liveBarriers bar queues).length < limit

section
variable {mappable : ℕ → List (List BarrierUser) → Prop} {n limit bar i j : ℕ} {ids : ℕ → ℕ} {queues : List (List BarrierUser)}
  {user : BarrierUser} {users : List BarrierUser}

theorem Ready.mono {bar' : ℕ} {queues' : List (List BarrierUser)} (h : Ready bar queues user) (hbar : bar ≤ bar')
    (hqueues : ∀ v, slotsUsed BarrierUser.producer queues' v ≤ slotsUsed BarrierUser.producer queues v) :
    Ready bar' queues' user := by
  constructor
  · intro v hv
    obtain ⟨hlt, hzero⟩ := h.1 v hv
    exact ⟨Nat.lt_of_lt_of_le hlt hbar, Nat.le_zero.mp (hzero ▸ hqueues v)⟩
  · intro v hv
    exact Nat.lt_of_lt_of_le (h.2 v hv) hbar

def Stays (mappable : ℕ → List (List BarrierUser) → Prop) : Prop :=
  ∀ bar (queues : List (List BarrierUser)) i user users, queues[i]? = some (user :: users) → mappable bar queues →
    mappable bar (queues.set i users)

theorem fireWhen_diamond (hstays : Stays mappable) : Diamond (FireWhen mappable) := by
  intro a b c hb hc
  cases hb with
  | @map bar queues hmap =>
    cases hc with
    | map => exact ⟨_, .refl, .refl⟩
    | process hqueue hready =>
      exact ⟨_, .single (.process hqueue (hready.mono (Nat.le_succ bar) (fun _ => Nat.le_refl _))),
        .single (.map (hstays _ _ _ _ _ hqueue hmap))⟩
  | @process bar i queues user users hqueue hready =>
    cases hc with
    | map hmap =>
      exact ⟨_, .single (.map (hstays _ _ _ _ _ hqueue hmap)),
        .single (.process hqueue (hready.mono (Nat.le_succ bar) (fun _ => Nat.le_refl _)))⟩
    | @process _ j _ user' users' hqueue' hready' =>
      by_cases heq : i = j
      · subst heq
        rw [hqueue, Option.some.injEq, List.cons.injEq] at hqueue'
        obtain ⟨-, rfl⟩ := hqueue'
        exact ⟨_, .refl, .refl⟩
      · refine ⟨(bar, (queues.set i users).set j users'), .single ?_, .single ?_⟩
        · apply FireWhen.process
          · rw [getElem?_set_ne heq]
            exact hqueue'
          · exact hready'.mono (Nat.le_refl _) (fun _ => slotsUsed_set_le hqueue)
        · rw [set_comm _ _ heq]
          apply FireWhen.process
          · rw [getElem?_set_ne (Ne.symm heq)]
            exact hqueue
          · exact hready.mono (Nat.le_refl _) (fun _ => slotsUsed_set_le hqueue')

theorem fire_iff {a b : ℕ × List (List BarrierUser)} : Fire n ids a b ↔
    FireWhen (fun bar queues => bar < n ∧ ∀ v < bar, ids v = ids bar → slotsUsed BarrierUser.consumer queues v = 0) a b := by
  constructor
  · rintro (⟨hbar, hfree⟩ | ⟨hqueue, hready⟩)
    · exact .map ⟨hbar, hfree⟩
    · exact .process hqueue hready
  · rintro (⟨hbar, hfree⟩ | ⟨hqueue, hready⟩)
    · exact .map hbar hfree
    · exact .process hqueue hready

theorem fire_eq (n : ℕ) (ids : ℕ → ℕ) : Fire n ids = FireWhen (fun bar queues =>
    bar < n ∧ ∀ v < bar, ids v = ids bar → slotsUsed BarrierUser.consumer queues v = 0) := by
  funext a b
  exact propext fire_iff

theorem fire_diamond : Diamond (Fire n ids) := by
  rw [fire_eq]
  apply fireWhen_diamond
  rintro bar queues i user users hqueue ⟨hbar, hfree⟩
  refine ⟨hbar, fun v hv heq => ?_⟩
  exact Nat.le_zero.mp (hfree v hv heq ▸ slotsUsed_set_le hqueue)

theorem hasFree_stays : Stays (HasFree n limit) := by
  rintro bar queues i user users hqueue ⟨hbar, hfree⟩
  refine ⟨hbar, Nat.lt_of_le_of_lt ?_ hfree⟩
  unfold liveBarriers
  rw [← countP_eq_length_filter, ← countP_eq_length_filter]
  apply countP_mono_left
  intro v _ hlive
  rw [decide_eq_true_eq] at hlive ⊢
  exact Nat.lt_of_lt_of_le hlive (slotsUsed_set_le hqueue)

theorem terminal_of_complete (hmap : ∀ queues, ¬ mappable bar queues) (hqueues : ∀ users ∈ queues, users = []) :
    Terminal (FireWhen mappable) (bar, queues) := by
  intro next hfire
  cases hfire with
  | map h => exact hmap queues h
  | process hqueue =>
    have hnil := hqueues _ (mem_of_getElem? hqueue)
    cases hnil

def Distinct (ids : ℕ → ℕ) (bar : ℕ) (queues : List (List BarrierUser)) : Prop :=
  ∀ v ∈ liveBarriers bar queues, ∀ w ∈ liveBarriers bar queues, ids v = ids w → v = w

theorem mem_liveBarriers {v : ℕ} : v ∈ liveBarriers bar queues ↔ v < bar ∧ 0 < slotsUsed BarrierUser.consumer queues v := by
  unfold liveBarriers
  rw [mem_filter, mem_range, decide_eq_true_eq]

theorem length_liveBarriers_lt (hdistinct : Distinct ids bar queues) (hids : ∀ v ≤ bar, ids v < limit)
    (hfree : ∀ v < bar, ids v = ids bar → slotsUsed BarrierUser.consumer queues v = 0) :
    (liveBarriers bar queues).length < limit := by
  have hnodup : (ids bar :: (liveBarriers bar queues).map ids).Nodup := by
    apply nodup_cons.mpr
    constructor
    · intro hmem
      obtain ⟨v, hv, heq⟩ := mem_map.mp hmem
      obtain ⟨hlt, hlive⟩ := mem_liveBarriers.mp hv
      exact Nat.ne_of_gt hlive (hfree v hlt heq)
    · exact List.Nodup.map_on hdistinct (nodup_range.filter _)
  have hsub : ids bar :: (liveBarriers bar queues).map ids ⊆ List.range limit := by
    intro r hr
    rw [mem_range]
    cases mem_cons.mp hr with
    | inl heq => exact heq ▸ hids bar (Nat.le_refl bar)
    | inr hr =>
      obtain ⟨v, hv, rfl⟩ := mem_map.mp hr
      exact hids v (Nat.le_of_lt (mem_liveBarriers.mp hv).1)
  have hle := (subperm_of_subset hnodup hsub).length_le
  rw [length_cons, length_map, length_range] at hle
  exact hle

theorem fires_hasFree {start next : ℕ × List (List BarrierUser)} (hstart : Distinct ids start.1 start.2)
    (hids : ∀ v < next.1, ids v < limit) (h : Relation.ReflTransGen (Fire n ids) start next) :
    Relation.ReflTransGen (FireWhen (HasFree n limit)) start next ∧ Distinct ids next.1 next.2 := by
  induction h with
  | refl => exact ⟨.refl, hstart⟩
  | @tail mid next _ hfire ih =>
    cases hfire with
    | @map bar queues hbar hfree =>
      obtain ⟨hrun, hdistinct⟩ := ih (fun v hv => hids v (Nat.lt_succ_of_lt hv))
      refine ⟨hrun.tail (.map ⟨hbar, length_liveBarriers_lt hdistinct (fun v hv => hids v (Nat.lt_succ_of_le hv)) hfree⟩), ?_⟩
      have hnew : ∀ v ∈ liveBarriers (bar + 1) queues, v = bar ∨ (v ∈ liveBarriers bar queues ∧ ids v ≠ ids bar) := by
        intro v hv
        obtain ⟨hlt, hlive⟩ := mem_liveBarriers.mp hv
        cases Nat.lt_or_eq_of_le (Nat.le_of_lt_succ hlt) with
        | inr heq => exact .inl heq
        | inl hlt => exact .inr ⟨mem_liveBarriers.mpr ⟨hlt, hlive⟩, fun heq => Nat.ne_of_gt hlive (hfree v hlt heq)⟩
      intro v hv w hw heq
      cases hnew v hv with
      | inl hvbar =>
        cases hnew w hw with
        | inl hwbar => rw [hvbar, hwbar]
        | inr hw => exact absurd (hvbar ▸ heq.symm) hw.2
      | inr hv =>
        cases hnew w hw with
        | inl hwbar => exact absurd (hwbar ▸ heq) hv.2
        | inr hw => exact hdistinct v hv.1 w hw.1 heq
    | @process bar i queues user users hqueue hready =>
      obtain ⟨hrun, hdistinct⟩ := ih hids
      refine ⟨hrun.tail (.process hqueue hready), ?_⟩
      have hstill : ∀ v ∈ liveBarriers bar (queues.set i users), v ∈ liveBarriers bar queues := by
        intro v hv
        obtain ⟨hlt, hlive⟩ := mem_liveBarriers.mp hv
        exact mem_liveBarriers.mpr ⟨hlt, Nat.lt_of_lt_of_le hlive (slotsUsed_set_le hqueue)⟩
      exact fun v hv w hw => hdistinct v (hstill v hv) w (hstill w hw)

end

end NpuCompiler.Barrier.Simulator
