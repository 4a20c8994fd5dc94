import NpuCompiler.Barrier.BlockRanges
import NpuCompiler.Library.TransitiveReduction

namespace NpuCompiler.Barrier.FifoBarrierInfo

open BarrierInfo GraphSplit RedundantLinks List

section
variable {w : ℕ} {masks : List (BitVec w)} {i j k : ℕ}

def Bit (masks : List (BitVec w)) (i k : ℕ) : Prop := (masks.getD i 0).getLsbD k = true

theorem getD_modify {f : BitVec w → BitVec w} :
    (masks.modify i f).getD j 0 = if i = j ∧ j < masks.length then f (masks.getD j 0) else masks.getD j 0 := by
  rw [getD_eq_getElem?_getD, getD_eq_getElem?_getD, getElem?_modify]
  by_cases hj : j < masks.length
  · rw [getElem?_eq_getElem hj]
    by_cases hij : i = j
    · simp [hij, hj]
    · simp [hij]
  · rw [if_neg (fun h => hj h.2), getElem?_eq_none (Nat.le_of_not_lt hj)]
    rfl

theorem bit_modify_ne {f : BitVec w → BitVec w} (h : i ≠ j) : Bit (masks.modify i f) j k ↔ Bit masks j k := by
  unfold Bit
  rw [getD_modify, if_neg (fun heq => h heq.1)]

theorem bit_modify_self {f : BitVec w → BitVec w} (h : i < masks.length) :
    Bit (masks.modify i f) i k ↔ (f (masks.getD i 0)).getLsbD k = true := by
  unfold Bit
  rw [getD_modify, if_pos ⟨rfl, h⟩]

theorem bit_replicate_zero {n : ℕ} : ¬ Bit (List.replicate n (0 : BitVec w)) i k := by
  unfold Bit
  have hzero : (List.replicate n (0 : BitVec w)).getD i 0 = 0 := by
    rw [getD_eq_getElem?_getD, getElem?_replicate]
    split_ifs
    · rfl
    · rfl
  rw [hzero]
  simp

theorem getLsbD_setBarrierMask {mask : BitVec w} {barriers : TaskSet} {offset : ℕ} :
    (setBarrierMask mask barriers offset).getLsbD k = true ↔
      mask.getLsbD k = true ∨ (k < w ∧ ∃ b ∈ barriers, b - offset = k) := by
  have hfold : ∀ (l : List ℕ) (mask : BitVec w),
      (l.foldl (fun mask bar => mask ||| BitVec.twoPow w (bar - offset)) mask).getLsbD k = true ↔
        mask.getLsbD k = true ∨ (k < w ∧ ∃ b ∈ l, b - offset = k) := by
    intro l
    induction l with
    | nil => simp
    | cons b l ih =>
      intro mask
      rw [foldl_cons, ih, BitVec.getLsbD_or, BitVec.getLsbD_twoPow]
      simp only [Bool.or_eq_true, Bool.and_eq_true, decide_eq_true_eq, mem_cons, exists_eq_or_imp]
      constructor
      · rintro ((h | ⟨hlt, heq⟩) | ⟨hlt, h⟩)
        · exact .inl h
        · exact .inr ⟨heq ▸ hlt, .inl heq⟩
        · exact .inr ⟨hlt, .inr h⟩
      · rintro (h | ⟨hlt, heq | h⟩)
        · exact .inl (.inl h)
        · exact .inl (.inr ⟨heq.symm ▸ hlt, heq⟩)
        · exact .inr ⟨hlt, h⟩
  exact hfold barriers.toList mask

theorem mem_setBits {mask : BitVec w} : k ∈ setBits mask ↔ mask.getLsbD k = true := by
  unfold setBits
  rw [mem_filter, mem_range]
  constructor
  · exact fun h => h.2
  · exact fun h => ⟨BitVec.lt_of_getLsbD h, h⟩

end

section
variable {w lo hi t k : ℕ} {masks : List (BitVec w)} {tasks : List ℕ}

def SameRows (lo hi t : ℕ) (masks masks' : List (BitVec w)) : Prop :=
  masks'.length = masks.length ∧ ∀ c, inRange lo hi c = true → c ≠ t → ∀ k, Bit masks' (c - lo) k ↔ Bit masks (c - lo) k

theorem inRange_iff : inRange lo hi t = true ↔ lo ≤ t ∧ t ≤ hi := by
  unfold inRange
  simp

theorem sub_ne {c : ℕ} (hc : inRange lo hi c = true) (ht : inRange lo hi t = true) (hne : c ≠ t) : t - lo ≠ c - lo := by
  rw [inRange_iff] at hc ht
  omega

theorem sub_lt (ht : inRange lo hi t = true) (hlength : masks.length = hi - lo + 1) : t - lo < masks.length := by
  rw [inRange_iff] at ht
  omega

theorem sameRows_modify {f : BitVec w → BitVec w} (ht : inRange lo hi t = true) :
    SameRows lo hi t masks (masks.modify (t - lo) f) := by
  refine ⟨length_modify _ _ _, ?_⟩
  intro c hc hne k
  exact bit_modify_ne (sub_ne hc ht hne)

theorem SameRows.trans {masks' masks'' : List (BitVec w)} (h : SameRows lo hi t masks masks') (h' : SameRows lo hi t masks' masks'') :
    SameRows lo hi t masks masks'' :=
  ⟨h'.1.trans h.1, fun c hc hne k => (h'.2 c hc hne k).trans (h.2 c hc hne k)⟩

theorem foldlM_orRows {message : ℕ → String} (ht : inRange lo hi t = true) (hlength : masks.length = hi - lo + 1)
    (hin : ∀ c ∈ tasks, inRange lo hi c = true) (hne : ∀ c ∈ tasks, c ≠ t) :
    ∃ masks', tasks.foldlM (fun masks linkedInd =>
        if inRange lo hi linkedInd then (.ok (masks.modify (t - lo) (· ||| masks.getD (linkedInd - lo) 0)) : Except String _)
        else .error (message linkedInd)) masks = .ok masks' ∧ SameRows lo hi t masks masks' ∧
      ∀ k, Bit masks' (t - lo) k ↔ Bit masks (t - lo) k ∨ ∃ c ∈ tasks, Bit masks (c - lo) k := by
  induction tasks generalizing masks with
  | nil => exact ⟨masks, rfl, ⟨rfl, fun _ _ _ _ => Iff.rfl⟩, by simp⟩
  | cons c tasks ih =>
    obtain ⟨hc, hin⟩ := forall_mem_cons.mp hin
    obtain ⟨hct, hne⟩ := forall_mem_cons.mp hne
    have hrow := @sameRows_modify w lo hi t masks (· ||| masks.getD (c - lo) 0) ht
    obtain ⟨masks', hmasks', hsame, hbits⟩ := ih (hrow.1.trans hlength) hin hne
    refine ⟨masks', ?_, hrow.trans hsame, ?_⟩
    · rw [foldlM_cons, if_pos hc]
      exact hmasks'
    · intro k
      have hrest : (∃ c' ∈ tasks, Bit (masks.modify (t - lo) (· ||| masks.getD (c - lo) 0)) (c' - lo) k) ↔
          ∃ c' ∈ tasks, Bit masks (c' - lo) k :=
        exists_congr (fun c' => and_congr_right (fun hmem => hrow.2 c' (hin c' hmem) (hne c' hmem) k))
      rw [hbits, bit_modify_self (sub_lt ht hlength), BitVec.getLsbD_or, Bool.or_eq_true, hrest, or_assoc]
      simp only [mem_cons, exists_eq_or_imp]
      rfl

theorem foldl_resetRows (ht : inRange lo hi t = true) (hlength : masks.length = hi - lo + 1)
    (hne : ∀ c ∈ tasks, inRange lo hi c = true → c ≠ t) :
    let masks' := tasks.foldl (fun masks linkedInd =>
        if inRange lo hi linkedInd then masks.modify (t - lo) (· &&& ~~~ masks.getD (linkedInd - lo) 0) else masks) masks
    SameRows lo hi t masks masks' ∧
      ∀ k, Bit masks' (t - lo) k ↔ Bit masks (t - lo) k ∧ ∀ c ∈ tasks, inRange lo hi c = true → ¬ Bit masks (c - lo) k := by
  induction tasks generalizing masks with
  | nil => exact ⟨⟨rfl, fun _ _ _ _ => Iff.rfl⟩, by simp⟩
  | cons c tasks ih =>
    obtain ⟨hct, hne⟩ := forall_mem_cons.mp hne
    rw [foldl_cons]
    by_cases hc : inRange lo hi c = true
    · rw [if_pos hc]
      have hrow := @sameRows_modify w lo hi t masks (· &&& ~~~ masks.getD (c - lo) 0) ht
      obtain ⟨hsame, hbits⟩ := ih (hrow.1.trans hlength) hne
      refine ⟨hrow.trans hsame, ?_⟩
      intro k
      have hrest : (∀ c' ∈ tasks, inRange lo hi c' = true → ¬ Bit (masks.modify (t - lo) (· &&& ~~~ masks.getD (c - lo) 0)) (c' - lo) k) ↔
          ∀ c' ∈ tasks, inRange lo hi c' = true → ¬ Bit masks (c' - lo) k :=
        forall_congr' (fun c' => forall_congr' (fun hmem => forall_congr' (fun hin =>
          not_congr (hrow.2 c' hin (hne c' hmem hin) k))))
      have hself : (masks.getD (t - lo) 0 &&& ~~~ masks.getD (c - lo) 0).getLsbD k = true ↔
          Bit masks (t - lo) k ∧ ¬ Bit masks (c - lo) k := by
        unfold Bit
        rw [BitVec.getLsbD_and, BitVec.getLsbD_not, Bool.and_eq_true, Bool.and_eq_true, decide_eq_true_eq, Bool.not_eq_true',
          Bool.not_eq_true]
        constructor
        · exact fun h => ⟨h.1, h.2.2⟩
        · exact fun h => ⟨h.1, BitVec.lt_of_getLsbD h.1, h.2⟩
      rw [hbits, bit_modify_self (sub_lt ht hlength), hself, hrest, and_assoc, forall_mem_cons]
      simp only [hc, forall_const]
    · rw [if_neg hc]
      obtain ⟨hsame, hbits⟩ := ih hlength hne
      refine ⟨hsame, ?_⟩
      intro k
      rw [hbits, forall_mem_cons]
      simp only [hc, false_implies, true_and, Bool.false_eq_true]

end

section
variable {config : OptimizeConfig} {s : FifoBarrierInfo} {own other : LinkMap 16} {w lo hi offset bound t : ℕ}
  {message : ℕ → ℕ → String} {masks : List (BitVec w)} {tasks done : List ℕ}

def Has (own : LinkMap 16) (t b : ℕ) : Prop := b ∈ row own.right t

def Meets (other : LinkMap 16) (b t : ℕ) : Prop := t ∈ row other.left b

theorem mem_linkedTasks {c : ℕ} : c ∈ linkedTasks own other t ↔ Step (Has own) (Meets other) t c := by
  unfold linkedTasks Step
  rw [mem_flatMap]
  rfl

structure Collectable (config : OptimizeConfig) (s : FifoBarrierInfo) (own other : LinkMap 16) (lo hi bound t : ℕ) : Prop where
  mem : inRange lo hi t = true
  irrefl : ∀ c, Step (Has own) (Meets other) t c → c ≠ t
  sync : (t = bound ∧ config.split.isSyncPoint s.maps t = .ok true ∧
      ∀ c, Step (Has own) (Meets other) t c → inRange lo hi c = false) ∨
    ((t = bound → config.split.isSyncPoint s.maps t = .ok false) ∧
      ∀ c, Step (Has own) (Meets other) t c → inRange lo hi c = true)

theorem collectMask_spec (h : Collectable config s own other lo hi bound t) (hlength : masks.length = hi - lo + 1) :
    ∃ masks', collectMask config s lo hi offset own other bound message masks t = .ok masks' ∧ SameRows lo hi t masks masks' ∧
      ∀ k, Bit masks' (t - lo) k ↔ Bit masks (t - lo) k ∨ (k < w ∧ ∃ b, Has own t b ∧ b - offset = k) ∨
        ∃ c, Step (Has own) (Meets other) t c ∧ inRange lo hi c = true ∧ Bit masks (c - lo) k := by
  have hrow := @sameRows_modify w lo hi t masks (setBarrierMask · (row own.right t) offset) h.mem
  have hself (k : ℕ) : Bit (masks.modify (t - lo) (setBarrierMask · (row own.right t) offset)) (t - lo) k ↔
      Bit masks (t - lo) k ∨ (k < w ∧ ∃ b, Has own t b ∧ b - offset = k) := by
    rw [bit_modify_self (sub_lt h.mem hlength), getLsbD_setBarrierMask]
    rfl
  unfold collectMask
  dsimp only
  cases h.sync with
  | inl hsync =>
    obtain ⟨hbound, hsync, hout⟩ := hsync
    refine ⟨_, ?_, hrow, ?_⟩
    · rw [if_pos hbound, hsync]
      rfl
    · intro k
      rw [hself, ← or_assoc]
      apply (or_iff_left _).symm
      rintro ⟨c, hstep, hin, -⟩
      rw [hout c hstep] at hin
      cases hin
  | inr hin =>
    obtain ⟨hsync, hin⟩ := hin
    obtain ⟨masks', hmasks', hsame, hbits⟩ := @foldlM_orRows w lo hi t
      (masks.modify (t - lo) (setBarrierMask · (row own.right t) offset)) (linkedTasks own other t) (message t) h.mem
      (hrow.1.trans hlength) (fun c hc => hin c (mem_linkedTasks.mp hc)) (fun c hc => h.irrefl c (mem_linkedTasks.mp hc))
    refine ⟨masks', ?_, hrow.trans hsame, ?_⟩
    · by_cases hbound : t = bound
      · rw [if_pos hbound, hsync hbound]
        exact hmasks'
      · rw [if_neg hbound]
        exact hmasks'
    · intro k
      rw [hbits, hself, or_assoc]
      apply or_congr_right
      apply or_congr_right
      constructor
      · rintro ⟨c, hc, hbit⟩
        have hstep := mem_linkedTasks.mp hc
        exact ⟨c, hstep, hin c hstep, (hrow.2 c (hin c hstep) (h.irrefl c hstep) k).mp hbit⟩
      · rintro ⟨c, hstep, hc, hbit⟩
        exact ⟨c, mem_linkedTasks.mpr hstep, (hrow.2 c hc (h.irrefl c hstep) k).mpr hbit⟩

def Marked (masks : List (BitVec w)) (lo offset t b : ℕ) : Prop := offset ≤ b ∧ Bit masks (t - lo) (b - offset)

structure Collected (own other : LinkMap 16) (lo hi offset : ℕ) (masks : List (BitVec w)) (done : List ℕ) : Prop where
  length : masks.length = hi - lo + 1
  fresh : ∀ t, inRange lo hi t = true → t ∉ done → ∀ k, ¬ Bit masks (t - lo) k
  marked : ∀ t ∈ done, ∀ b, Has own t b → Marked masks lo offset t b
  inherited : ∀ t ∈ done, ∀ b, Marked masks lo offset t b → Has own t b ∨
    ∃ c, Step (Has own) (Meets other) t c ∧ inRange lo hi c = true ∧ Marked masks lo offset c b
  redundant : ∀ t ∈ done, ∀ b, Marked masks lo offset t b → Has own t b ∨ Redundant (Has own) (Meets other) t b

theorem Collected.step (h : Collected own other lo hi offset masks done)
    (ht : Collectable config s own other lo hi bound t) (hfresh : t ∉ done)
    (hbarriers : ∀ b, Has own t b → offset ≤ b ∧ b < offset + w) (hdone : ∀ t ∈ done, inRange lo hi t = true)
    (hbefore : ∀ x ∈ t :: done, ∀ c, Step (Has own) (Meets other) x c → inRange lo hi c = true → c ∈ done) :
    ∃ masks', collectMask config s lo hi offset own other bound message masks t = .ok masks' ∧
      Collected own other lo hi offset masks' (done ++ [t]) := by
  obtain ⟨masks', hmasks', ⟨hlength, hother⟩, hbits⟩ := @collectMask_spec config s own other w lo hi offset bound t
    message masks ht h.length
  have hne : ∀ c ∈ done, c ≠ t := fun c hc => ne_of_mem_of_not_mem hc hfresh
  have hsame : ∀ c ∈ done, ∀ b, Marked masks' lo offset c b ↔ Marked masks lo offset c b := fun c hc b =>
    and_congr_right (fun _ => hother c (hdone c hc) (hne c hc) _)
  have hself : ∀ b, Marked masks' lo offset t b ↔ Has own t b ∨
      ∃ c, Step (Has own) (Meets other) t c ∧ inRange lo hi c = true ∧ Marked masks lo offset c b := by
    intro b
    unfold Marked
    rw [hbits, or_iff_right (h.fresh t ht.mem hfresh _)]
    constructor
    · rintro ⟨hle, ⟨-, b', hb', heq⟩ | ⟨c, hstep, hc, hbit⟩⟩
      · have := (hbarriers b' hb').1
        have hbb : b' = b := by omega
        exact .inl (hbb ▸ hb')
      · exact .inr ⟨c, hstep, hc, hle, hbit⟩
    · rintro (hb | ⟨c, hstep, hc, hle, hbit⟩)
      · obtain ⟨hle, hlt⟩ := hbarriers b hb
        exact ⟨hle, .inl ⟨by omega, b, hb, rfl⟩⟩
      · exact ⟨hle, .inr ⟨c, hstep, hc, hbit⟩⟩
  refine ⟨masks', hmasks', hlength.trans h.length, ?_, ?_, ?_, ?_⟩
  · intro x hx hxdone k
    rw [mem_append, mem_singleton, not_or] at hxdone
    rw [hother x hx hxdone.2]
    exact h.fresh x hx hxdone.1 k
  · intro x hx b hb
    cases mem_append.mp hx with
    | inl hx => exact (hsame x hx b).mpr (h.marked x hx b hb)
    | inr hx =>
      rw [mem_singleton.mp hx] at hb ⊢
      exact (hself b).mpr (.inl hb)
  · intro x hx b hb
    have hlift : ∀ c, Step (Has own) (Meets other) x c → inRange lo hi c = true → Marked masks lo offset c b →
        Marked masks' lo offset c b := by
      intro c hstep hc hmarked
      apply (hsame c _ b).mpr hmarked
      apply hbefore x _ c hstep hc
      cases mem_append.mp hx with
      | inl hx => exact mem_cons_of_mem _ hx
      | inr hx => exact mem_singleton.mp hx ▸ mem_cons_self
    have hold : Has own x b ∨ ∃ c, Step (Has own) (Meets other) x c ∧ inRange lo hi c = true ∧ Marked masks lo offset c b := by
      cases mem_append.mp hx with
      | inl hx => exact h.inherited x hx b ((hsame x hx b).mp hb)
      | inr hx =>
        rw [mem_singleton.mp hx] at hb ⊢
        exact (hself b).mp hb
    cases hold with
    | inl hb => exact .inl hb
    | inr hold =>
      obtain ⟨c, hstep, hc, hmarked⟩ := hold
      exact .inr ⟨c, hstep, hc, hlift c hstep hc hmarked⟩
  · intro x hx b hb
    cases mem_append.mp hx with
    | inl hx => exact h.redundant x hx b ((hsame x hx b).mp hb)
    | inr hx =>
      rw [mem_singleton.mp hx] at hb ⊢
      cases (hself b).mp hb with
      | inl hb => exact .inl hb
      | inr hold =>
        obtain ⟨c, hstep, hc, hmarked⟩ := hold
        apply Or.inr
        cases h.redundant c (hbefore t mem_cons_self c hstep hc) b hmarked with
        | inl hb => exact ⟨c, .single hstep, hb⟩
        | inr hredundant =>
          obtain ⟨y, hpath, hy⟩ := hredundant
          exact ⟨y, .head hstep hpath, hy⟩

def LinkedBefore (own other : LinkMap 16) (lo hi : ℕ) (tasks : List ℕ) : Prop :=
  ∀ done t todo, tasks = done ++ t :: todo → ∀ c, Step (Has own) (Meets other) t c → inRange lo hi c = true → c ∈ done

theorem collectMask_run (hcollectable : ∀ t ∈ tasks, Collectable config s own other lo hi bound t) (hnodup : tasks.Nodup)
    (hbarriers : ∀ t ∈ tasks, ∀ b, Has own t b → offset ≤ b ∧ b < offset + w) (hbefore : LinkedBefore own other lo hi tasks) :
    ∃ masks', tasks.foldlM (collectMask config s lo hi offset own other bound message)
        (List.replicate (hi - lo + 1) (0 : BitVec w)) = .ok masks' ∧ Collected own other lo hi offset masks' tasks := by
  suffices hrun : ∀ (todo done : List ℕ) (masks : List (BitVec w)), tasks = done ++ todo →
      Collected own other lo hi offset masks done →
      ∃ masks', todo.foldlM (collectMask config s lo hi offset own other bound message) masks = .ok masks' ∧
        Collected own other lo hi offset masks' tasks by
    apply hrun tasks [] _ rfl
    refine ⟨length_replicate, fun _ _ _ _ => bit_replicate_zero, ?_, ?_, ?_⟩
    · exact fun t ht => absurd ht not_mem_nil
    · exact fun t ht => absurd ht not_mem_nil
    · exact fun t ht => absurd ht not_mem_nil
  intro todo
  induction todo with
  | nil =>
    intro done masks heq h
    rw [append_nil] at heq
    exact ⟨masks, rfl, heq ▸ h⟩
  | cons t todo ih =>
    intro done masks heq h
    have hmem : ∀ x ∈ t :: done, x ∈ tasks := by
      intro x hx
      rw [heq, mem_append]
      cases mem_cons.mp hx with
      | inl hx => exact .inr (hx ▸ mem_cons_self)
      | inr hx => exact .inl hx
    have hfresh : t ∉ done := by
      rw [heq] at hnodup
      intro ht
      exact (nodup_append.mp hnodup).2.2 t ht t mem_cons_self rfl
    have hdoneBefore : ∀ x ∈ t :: done, ∀ c, Step (Has own) (Meets other) x c → inRange lo hi c = true → c ∈ done := by
      intro x hx c hstep hc
      cases mem_cons.mp hx with
      | inl hx => exact hbefore done t todo heq c (hx ▸ hstep) hc
      | inr hx =>
        obtain ⟨front, back, hsplit⟩ := append_of_mem hx
        have hfront := hbefore front x (back ++ t :: todo) (by rw [heq, hsplit]; simp) c hstep hc
        rw [hsplit]
        exact mem_append_left _ hfront
    obtain ⟨masks', hmasks', h'⟩ := @h.step config s own other w lo hi offset bound t message masks done (hcollectable t (hmem t mem_cons_self)) hfresh
      (hbarriers t (hmem t mem_cons_self))
      (fun x hx => (hcollectable x (hmem x (mem_cons_of_mem _ hx))).mem) hdoneBefore
    obtain ⟨masks'', hmasks'', hdone⟩ := ih (done ++ [t]) masks' (by rw [heq]; simp) h'
    refine ⟨masks'', ?_, hdone⟩
    rw [foldlM_cons, hmasks']
    exact hmasks''

end

section
variable {own own' other : LinkMap 16} {w lo hi offset t : ℕ} {masks masks' : List (BitVec w)} {tasks done : List ℕ}

def Kept (own other : LinkMap 16) (lo hi offset : ℕ) (masks : List (BitVec w)) (t b : ℕ) : Prop :=
  Marked masks lo offset t b ∧ ∀ c, Step (Has own) (Meets other) t c → inRange lo hi c = true → ¬ Marked masks lo offset c b

theorem Collected.has_of_kept (h : Collected own other lo hi offset masks done) (ht : t ∈ done) {b : ℕ}
    (hkept : Kept own other lo hi offset masks t b) : Has own t b := by
  apply (h.inherited t ht b hkept.1).resolve_right
  rintro ⟨c, hstep, hc, hmarked⟩
  exact hkept.2 c hstep hc hmarked

theorem Collected.kept_or_redundant (h : Collected own other lo hi offset masks done) (ht : t ∈ done)
    (hdone : ∀ c, Step (Has own) (Meets other) t c → inRange lo hi c = true → c ∈ done) {b : ℕ} (hb : Has own t b) :
    Kept own other lo hi offset masks t b ∨ Redundant (Has own) (Meets other) t b := by
  by_cases hkept : ∀ c, Step (Has own) (Meets other) t c → inRange lo hi c = true → ¬ Marked masks lo offset c b
  · exact .inl ⟨h.marked t ht b hb, hkept⟩
  · push Not at hkept
    obtain ⟨c, hstep, hc, hmarked⟩ := hkept
    apply Or.inr
    cases h.redundant c (hdone c hstep hc) b hmarked with
    | inl hb => exact ⟨c, .single hstep, hb⟩
    | inr hredundant =>
      obtain ⟨y, hpath, hy⟩ := hredundant
      exact ⟨y, .head hstep hpath, hy⟩

structure Removed (own other : LinkMap 16) (lo hi offset : ℕ) (masks : List (BitVec w)) (own' : LinkMap 16)
    (masks' : List (BitVec w)) (done : List ℕ) : Prop where
  inverse : own'.Inverse
  left : own'.left.length = own.left.length
  right : own'.right.length = own.right.length
  length : masks'.length = hi - lo + 1
  untouched : ∀ t ∉ done, row own'.right t = row own.right t
  rows : ∀ t, inRange lo hi t = true → t ∉ done → ∀ k, Bit masks' (t - lo) k ↔ Bit masks (t - lo) k
  kept : ∀ t ∈ done, ∀ b, Has own' t b ↔ Kept own other lo hi offset masks t b

theorem row_setRight_ne {m : LinkMap 16} {r r' : ℕ} {ls : TaskSet} (h : r' ≠ r) :
    row (m.setRight r ls).right r' = row m.right r' := by
  unfold LinkMap.setRight
  rw [row_modify, if_neg (fun heq => h heq.1.symm)]

theorem mem_targetBarriers {mask : BitVec w} {b : ℕ} :
    b ∈ (SmallSet.ofList ((setBits mask).map (· + offset)) : TaskSet) ↔ offset ≤ b ∧ mask.getLsbD (b - offset) = true := by
  rw [SmallSet.mem_ofList, mem_map]
  constructor
  · rintro ⟨k, hk, rfl⟩
    rw [Nat.add_sub_cancel]
    exact ⟨Nat.le_add_left _ _, mem_setBits.mp hk⟩
  · rintro ⟨hle, hbit⟩
    exact ⟨b - offset, mem_setBits.mpr hbit, Nat.sub_add_cancel hle⟩

theorem Removed.step (h : Removed own other lo hi offset masks own' masks' done) (hinverse : own.Inverse)
    (ht : inRange lo hi t = true) (htask : t < own.right.length) (hfresh : t ∉ done)
    (hhas : ∀ b, Kept own other lo hi offset masks t b → Has own t b)
    (hlinked : ∀ c, Step (Has own) (Meets other) t c → inRange lo hi c = true → c ∉ done ∧ c ≠ t) :
    Removed own other lo hi offset masks (removeRedundant lo hi offset other (own', masks') t).1
      (removeRedundant lo hi offset other (own', masks') t).2 (done ++ [t]) := by
  have hlinkedTasks : linkedTasks own' other t = linkedTasks own other t := by
    unfold linkedTasks
    rw [h.untouched t hfresh]
  obtain ⟨⟨hlength, hother⟩, hbits⟩ := @foldl_resetRows w lo hi t masks' (linkedTasks own other t) ht h.length
    (fun c hc hin => (hlinked c (mem_linkedTasks.mp hc) hin).2)
  unfold removeRedundant
  dsimp only
  rw [hlinkedTasks]
  generalize (linkedTasks own other t).foldl _ masks' = masks'' at hlength hother hbits
  have htarget : ∀ b, b ∈ (SmallSet.ofList ((setBits (masks''.getD (t - lo) 0)).map (· + offset)) : TaskSet) ↔
      Kept own other lo hi offset masks t b := by
    intro b
    rw [mem_targetBarriers]
    unfold Kept Marked
    rw [and_assoc]
    apply and_congr_right
    intro hle
    refine (hbits (b - offset)).trans (and_congr (h.rows t ht hfresh _) ?_)
    constructor
    · intro hall c hstep hc hmarked
      exact hall c (mem_linkedTasks.mpr hstep) hc ((h.rows c hc (hlinked c hstep hc).1 _).mpr hmarked.2)
    · intro hall c hmem hc hbit
      have hstep := mem_linkedTasks.mp hmem
      exact hall c hstep hc ⟨hle, (h.rows c hc (hlinked c hstep hc).1 _).mp hbit⟩
  have htask' : t < own'.right.length := h.right.symm ▸ htask
  refine ⟨?_, ?_, ?_, hlength.trans h.length, ?_, ?_, ?_⟩
  · apply h.inverse.setRight htask'
    intro b hb
    rw [h.left]
    exact hinverse.lt_left (hhas b ((htarget b).mp hb))
  · rw [LinkMap.length_setRight_left, h.left]
  · rw [LinkMap.length_setRight_right, h.right]
  · intro x hx
    rw [mem_append, mem_singleton, not_or] at hx
    rw [row_setRight_ne hx.2]
    exact h.untouched x hx.1
  · intro x hx hxdone k
    rw [mem_append, mem_singleton, not_or] at hxdone
    exact (hother x hx hxdone.2 k).trans (h.rows x hx hxdone.1 k)
  · intro x hx b
    unfold Has
    rw [LinkMap.mem_setRight_right htask']
    by_cases hxt : x = t
    · rw [if_pos hxt, hxt]
      exact htarget b
    · rw [if_neg hxt]
      apply h.kept x _ b
      exact (mem_append.mp hx).resolve_right (fun hmem => hxt (mem_singleton.mp hmem))

theorem removeRedundant_run (h : Collected own other lo hi offset masks tasks) (hinverse : own.Inverse) (hnodup : tasks.Nodup)
    (hrange : ∀ t ∈ tasks, inRange lo hi t = true ∧ t < own.right.length) (hbefore : LinkedBefore own other lo hi tasks) :
    Removed own other lo hi offset masks (tasks.reverse.foldl (removeRedundant lo hi offset other) (own, masks)).1
      (tasks.reverse.foldl (removeRedundant lo hi offset other) (own, masks)).2 tasks.reverse := by
  suffices hrun : ∀ (todo done : List ℕ) (state : LinkMap 16 × List (BitVec w)), tasks.reverse = done ++ todo →
      Removed own other lo hi offset masks state.1 state.2 done →
      Removed own other lo hi offset masks (todo.foldl (removeRedundant lo hi offset other) state).1
        (todo.foldl (removeRedundant lo hi offset other) state).2 tasks.reverse by
    apply hrun tasks.reverse [] (own, masks) rfl
    exact ⟨hinverse, rfl, rfl, h.length, fun _ _ => rfl, fun _ _ _ _ => Iff.rfl, fun t ht => absurd ht not_mem_nil⟩
  intro todo
  induction todo with
  | nil =>
    intro done state heq hdone
    rw [append_nil] at heq
    exact heq ▸ hdone
  | cons t todo ih =>
    intro done state heq hdone
    have heq' : tasks = todo.reverse ++ t :: done.reverse := by
      rw [← reverse_reverse tasks, heq]
      simp
    have ht : t ∈ tasks := by
      rw [heq']
      exact mem_append_right _ mem_cons_self
    have hnodup' := hnodup
    rw [heq', nodup_append, nodup_cons] at hnodup'
    obtain ⟨-, ⟨htdone, -⟩, hdisjoint⟩ := hnodup'
    apply ih (done ++ [t]) _ (by rw [heq]; simp)
    apply hdone.step hinverse (hrange t ht).1 (hrange t ht).2 (fun hmem => htdone (mem_reverse.mpr hmem))
    · exact fun b hb => h.has_of_kept ht hb
    · intro c hstep hc
      have hmem := hbefore _ _ _ heq' c hstep hc
      constructor
      · intro hcdone
        exact hdisjoint c hmem c (mem_cons_of_mem _ (mem_reverse.mpr hcdone)) rfl
      · intro hct
        exact hdisjoint c hmem t mem_cons_self hct

end

structure Reduction (own other own' : LinkMap 16) : Prop where
  inverse : own'.Inverse
  left : own'.left.length = own.left.length
  right : own'.right.length = own.right.length
  sub : ∀ t b, Has own' t b → Has own t b
  keep : ∀ t b, Has own t b → Has own' t b ∨ Redundant (Has own) (Meets other) t b

theorem Reduction.refl {own other : LinkMap 16} (h : own.Inverse) : Reduction own other own :=
  ⟨h, rfl, rfl, fun _ _ hb => hb, fun _ _ hb => .inl hb⟩

section
variable {config : OptimizeConfig} {s : FifoBarrierInfo} {own other : LinkMap 16} {k lo hi : ℕ} {tasks : List ℕ}

theorem linkedBefore_of_pairwise {r : ℕ → ℕ → Prop} (hpairwise : tasks.Pairwise r) (hmem : ∀ c, inRange lo hi c = true → c ∈ tasks)
    (hlinked : ∀ t c, Step (Has own) (Meets other) t c → ¬ r t c ∧ c ≠ t) : LinkedBefore own other lo hi tasks := by
  intro done t todo heq c hstep hc
  have hcmem := hmem c hc
  rw [heq] at hcmem hpairwise
  apply (mem_append.mp hcmem).resolve_right
  intro hright
  cases mem_cons.mp hright with
  | inl hct => exact (hlinked t c hstep).2 hct
  | inr hct => exact (hlinked t c hstep).1 ((pairwise_cons.mp (pairwise_append.mp hpairwise).2.1).1 c hct)

theorem optimizeLinks_reduction {updateBarriers : Bool} {bound : ℕ → ℕ → ℕ} {order : List ℕ → List ℕ}
    {message : ℕ → ℕ → ℕ → ℕ → String} (hinverse : own.Inverse)
    (hrows : ∀ t, (if updateBarriers then s.maps.getUpdateBarriers t else s.maps.getWaitBarriers t) = row own.right t)
    (hleft : own.left.length = s.numOfBarrierOps + s.fifoDependencies.length) (hright : own.right.length = s.maps.getNumOfTasks)
    (hblock : BlockRange config.split s.maps k lo hi)
    (hcollectable : 0 < s.maps.getNumOfTasks → ∀ t, inRange lo hi t = true → Collectable config s own other lo hi (bound lo hi) t)
    (hmem : ∀ t, t ∈ order (tasksFrom lo (hi + 1)) ↔ inRange lo hi t = true) (hnodup : (order (tasksFrom lo (hi + 1))).Nodup)
    (hbefore : LinkedBefore own other lo hi (order (tasksFrom lo (hi + 1)))) :
    ∃ own', s.optimizeLinks config k updateBarriers own other bound order message = .ok own' ∧ Reduction own other own' := by
  obtain ⟨l, hl, hbarriers⟩ := @getBarriersForTaskBlock_spec config s k lo hi true true updateBarriers hblock.range
  unfold optimizeLinks
  rw [hblock.range, hl]
  by_cases hnil : l = []
  · subst hnil
    exact ⟨own, rfl, Reduction.refl hinverse⟩
  · have hpos : 0 < s.maps.getNumOfTasks := by
      obtain ⟨b, hb⟩ := exists_mem_of_ne_nil l hnil
      obtain ⟨t, -, -, ht⟩ := hbarriers.used b hb
      rw [hrows] at ht
      exact Nat.lt_of_le_of_lt (Nat.zero_le t) (hright ▸ lt_of_mem_row ht)
    have hlt := hblock.lt hpos
    have hmin : min hi (s.maps.getNumOfTasks - 1) = hi := Nat.min_eq_left (by omega)
    have hrange : ∀ t ∈ order (tasksFrom lo (hi + 1)), inRange lo hi t = true ∧ t < own.right.length := by
      intro t ht
      have hin := (hmem t).mp ht
      refine ⟨hin, ?_⟩
      rw [hright]
      exact Nat.lt_of_le_of_lt (inRange_iff.mp hin).2 hlt
    have hoffset : ∀ t ∈ order (tasksFrom lo (hi + 1)), ∀ b, Has own t b →
        l.headD 0 ≤ b ∧ b < l.headD 0 + (l.getLastD 0 - l.headD 0 + 1) := by
      intro t ht b hb
      obtain ⟨hlo, hhi⟩ := inRange_iff.mp (hrange t ht).1
      have hmem := hbarriers.complete t hlo hhi b (by rw [hrows]; exact hb) (hleft ▸ hinverse.lt_left hb)
      obtain ⟨hhead, hlast⟩ := head_le_of_sorted hbarriers.sorted hmem
      omega
    obtain ⟨masks, hmasks, hcollected⟩ := @collectMask_run config s own other (l.getLastD 0 - l.headD 0 + 1) lo hi (l.headD 0)
      (bound lo hi) (fun taskInd linkedInd => message taskInd linkedInd lo hi) (order (tasksFrom lo (hi + 1)))
      (fun t ht => hcollectable hpos t (hrange t ht).1) hnodup hoffset hbefore
    have hremoved := removeRedundant_run hcollected hinverse hnodup hrange hbefore
    refine ⟨_, ?_, ⟨hremoved.inverse, hremoved.left, hremoved.right, ?_, ?_⟩⟩
    · dsimp only [bind, Except.bind]
      rw [if_neg hnil, hmin, if_neg (Nat.not_lt.mpr hblock.le), hmasks]
      rfl
    · intro t b hb
      by_cases ht : t ∈ (order (tasksFrom lo (hi + 1))).reverse
      · exact hcollected.has_of_kept (mem_reverse.mp ht) ((hremoved.kept t ht b).mp hb)
      · unfold Has at hb
        rw [hremoved.untouched t ht] at hb
        exact hb
    · intro t b hb
      by_cases ht : t ∈ (order (tasksFrom lo (hi + 1))).reverse
      · rw [hremoved.kept t ht b]
        exact hcollected.kept_or_redundant (mem_reverse.mp ht) (fun c _ hc => (hmem c).mpr hc) hb
      · apply Or.inl
        unfold Has
        rw [hremoved.untouched t ht]
        exact hb

end

end NpuCompiler.Barrier.FifoBarrierInfo
