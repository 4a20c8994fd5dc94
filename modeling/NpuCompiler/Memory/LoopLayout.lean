import Mathlib.Data.List.Induction
import NpuCompiler.Library.FoldRules
import NpuCompiler.Library.Placement
import NpuCompiler.Memory.GapInvariant
import NpuCompiler.Memory.LoopAllocator

namespace NpuCompiler.Memory

open Placement Partitioner List

def addLocal (sharedBuffers handled : List ℕ) (buf : ℕ) : List ℕ :=
  if buf ∈ sharedBuffers then handled else if buf ∈ handled then handled else handled ++ [buf]

def localBuffers (sharedBuffers bufs : List ℕ) : List ℕ := bufs.foldl (addLocal sharedBuffers) []

def bodyBuffers (loopBody : LoopBody) : List ℕ := loopBody.flatMap OpAllocationInfo.buffers

section
variable {sharedBuffers handled bufs bufs' : List ℕ} {buf : ℕ}

theorem prefix_addLocal : handled <+: addLocal sharedBuffers handled buf := by
  unfold addLocal
  split
  · exact prefix_rfl
  · split
    · exact prefix_rfl
    · exact prefix_append _ _

theorem prefix_foldl_addLocal : handled <+: bufs.foldl (addLocal sharedBuffers) handled := by
  induction bufs generalizing handled with
  | nil => exact prefix_rfl
  | cons buf bufs ih => exact prefix_addLocal.trans ih

theorem localBuffers_mono (h : bufs <+: bufs') : localBuffers sharedBuffers bufs <+: localBuffers sharedBuffers bufs' := by
  obtain ⟨rest, rfl⟩ := h
  unfold localBuffers
  rw [foldl_append]
  exact prefix_foldl_addLocal

theorem localBuffers_take_mono {loopBody : LoopBody} {n m : ℕ} (h : n ≤ m) :
    localBuffers sharedBuffers (bodyBuffers (loopBody.take n)) <+: localBuffers sharedBuffers (bodyBuffers (loopBody.take m)) := by
  apply localBuffers_mono
  obtain ⟨rest, hrest⟩ := take_prefix_take_left h (l := loopBody)
  rw [← hrest]
  unfold bodyBuffers
  rw [flatMap_append]
  exact prefix_append _ _

theorem localBuffers_take_prefix {loopBody : LoopBody} {n : ℕ} :
    localBuffers sharedBuffers (bodyBuffers (loopBody.take n)) <+: localBuffers sharedBuffers (bodyBuffers loopBody) := by
  have hprefix : localBuffers sharedBuffers (bodyBuffers (loopBody.take n)) <+:
      localBuffers sharedBuffers (bodyBuffers (loopBody.take (max n loopBody.length))) :=
    localBuffers_take_mono (le_max_left n loopBody.length)
  rwa [take_of_length_le (le_max_right _ _)] at hprefix

end

namespace LoopAllocator

variable {a : LoopAllocator}

def offsetOf (a : LoopAllocator) (buf free : ℕ) : ℕ := roundUp free (max 1 (a.getBufferAlignment buf))

theorem le_offsetOf (a : LoopAllocator) (buf free : ℕ) : free ≤ a.offsetOf buf free :=
  le_roundUp free (lt_of_lt_of_le one_pos (le_max_left _ _))

/-- Neither the sum of two addresses of the memory nor that of an address, a buffer and its alignment wraps around. -/
def Representable (a : LoopAllocator) (buf : ℕ) : Prop :=
  2 * a.memorySize + a.getRawBufferSize buf + a.getBufferAlignment buf < 2 ^ 64

structure Placed (a : LoopAllocator) (sharedRegionSize start : ℕ) (locals : List ℕ) (bufferSet : PingPongBuffer) :
    Prop where
  keys : bufferSet.addressMap.map Prod.fst = locals
  addresses : bufferSet.addressSequence = place a.offsetOf a.getRawBufferSize start locals
  free : bufferSet.nextFreeOffset = endOf a.offsetOf a.getRawBufferSize start locals
  reserved : bufferSet.reserveLocalRegionSize = bufferSet.nextFreeOffset
  count : bufferSet.prefetchBufferCount = locals.length
  aligned : ∀ buf ∈ locals, 0 < a.getBufferAlignment buf
  fits : sharedRegionSize + bufferSet.nextFreeOffset ≤ a.memorySize

def BaseOf (a : LoopAllocator) (locals : List ℕ) (bufferSet : PingPongBuffer) : Prop :=
  bufferSet.baseAlignment = (locals.head?.map a.getBufferAlignment).getD 64

/-- What a loop over buffers leaves: `all` are placed, or only `some`, and the memory has no room for the next one. -/
def Outcome (a : LoopAllocator) (sharedRegionSize start : ℕ) (isAllocateFirstOp : Bool) (before all : List ℕ)
    (bufferSet : PingPongBuffer) : Prop :=
  (bufferSet.reachedMemoryLimit = false ∧ Placed a sharedRegionSize start all bufferSet ∧ BaseOf a all bufferSet) ∨
    (bufferSet.reachedMemoryLimit = true ∧ isAllocateFirstOp = false ∧
      ∃ some next, before <+: some ∧ some ++ [next] <+: all ∧ Placed a sharedRegionSize start some bufferSet ∧
        a.memorySize < sharedRegionSize + endOf a.offsetOf a.getRawBufferSize start (some ++ [next]))

section
variable {sharedBuffers locals bufs : List ℕ} {sharedRegionSize start buf : ℕ} {isAllocateFirstOp allocated : Bool}
  {bufferSet bufferSet' : PingPongBuffer}

theorem checkAlignment_ok {align : ℕ} {u : Unit} (h : checkAlignment align = .ok u) : 0 < align := by
  unfold checkAlignment at h
  split at h
  · cases h
  · omega

theorem tryAllocateBuffer_spec (hr : buf ∉ sharedBuffers → Representable a buf)
    (hlimit : bufferSet.reachedMemoryLimit = false) (hp : Placed a sharedRegionSize start locals bufferSet)
    (hbase : BaseOf a locals bufferSet)
    (h : a.tryAllocateBuffer sharedBuffers sharedRegionSize isAllocateFirstOp bufferSet buf = .ok (allocated, bufferSet')) :
    (allocated = true ∧ bufferSet'.reachedMemoryLimit = false ∧
      Placed a sharedRegionSize start (addLocal sharedBuffers locals buf) bufferSet' ∧
      BaseOf a (addLocal sharedBuffers locals buf) bufferSet') ∨
    (allocated = false ∧ isAllocateFirstOp = false ∧ bufferSet'.reachedMemoryLimit = true ∧
      Placed a sharedRegionSize start locals bufferSet' ∧ addLocal sharedBuffers locals buf = locals ++ [buf] ∧
      a.memorySize < sharedRegionSize + endOf a.offsetOf a.getRawBufferSize start (locals ++ [buf])) := by
  unfold tryAllocateBuffer at h
  unfold addLocal
  by_cases hs : buf ∈ sharedBuffers
  · rw [if_pos hs] at h ⊢
    cases h
    exact .inl ⟨rfl, hlimit, hp, hbase⟩
  rw [if_neg hs] at h ⊢
  by_cases hmem : buf ∈ locals
  · have hkey : buf ∈ bufferSet.addressMap.map Prod.fst := by rwa [hp.keys]
    rw [if_pos hmem]
    simp only [if_pos hkey] at h
    cases h
    exact .inl ⟨rfl, hlimit, hp, hbase⟩
  have hkey : buf ∉ bufferSet.addressMap.map Prod.fst := by rwa [hp.keys]
  rw [if_neg hmem]
  simp only [if_neg hkey, hlimit, Bool.false_eq_true, if_false] at h
  obtain ⟨u, hc, h⟩ := bind_eq_ok.mp h
  have hpos : 0 < a.getBufferAlignment buf := checkAlignment_ok hc
  have hrep : Representable a buf := hr hs
  unfold Representable at hrep
  have hfit := hp.fits
  have hoffset : alignValUp bufferSet.nextFreeOffset (a.getBufferAlignment buf) = a.offsetOf buf bufferSet.nextFreeOffset := by
    unfold offsetOf
    rw [max_eq_right hpos]
    exact alignValUp_eq hpos (by omega) (by omega)
  have hle : a.offsetOf buf bufferSet.nextFreeOffset ≤ bufferSet.nextFreeOffset + (a.getBufferAlignment buf - 1) := by
    unfold offsetOf
    rw [max_eq_right hpos]
    exact roundUp_le _ _
  rw [hoffset] at h
  have hnext : addrAdd (a.offsetOf buf bufferSet.nextFreeOffset) (a.getRawBufferSize buf) =
      a.offsetOf buf bufferSet.nextFreeOffset + a.getRawBufferSize buf := addrAdd_eq (by omega)
  have hsum : addrAdd sharedRegionSize (a.offsetOf buf bufferSet.nextFreeOffset + a.getRawBufferSize buf) =
      sharedRegionSize + (a.offsetOf buf bufferSet.nextFreeOffset + a.getRawBufferSize buf) := addrAdd_eq (by omega)
  rw [hnext, hsum] at h
  by_cases hlarge : sharedRegionSize + (a.offsetOf buf bufferSet.nextFreeOffset + a.getRawBufferSize buf) > a.memorySize
  · cases isAllocateFirstOp with
    | true =>
      simp only [if_pos hlarge] at h
      cases h
    | false =>
      simp only [if_pos hlarge] at h
      cases h
      refine .inr ⟨rfl, rfl, rfl, ⟨hp.keys, hp.addresses, hp.free, hp.reserved, hp.count, hp.aligned, hp.fits⟩, rfl, ?_⟩
      rw [endOf_concat, ← hp.free]
      exact hlarge
  · simp only [if_neg hlarge] at h
    cases h
    refine .inl ⟨rfl, rfl, ?_, ?_⟩
    · constructor
      · simp only [map_append, hp.keys, map_cons, map_nil]
      · rw [place_concat, ← hp.addresses, ← hp.free]
      · rw [endOf_concat, ← hp.free]
      · rfl
      · rw [hp.addresses, length_place, length_append, length_singleton]
      · intro b hb
        cases mem_append.mp hb with
        | inl hb => exact hp.aligned b hb
        | inr hb => rwa [mem_singleton.mp hb]
      · exact not_lt.mp hlarge
    · unfold BaseOf at hbase ⊢
      cases locals with
      | nil =>
        have hempty : bufferSet.addressMap = [] := map_eq_nil_iff.mp hp.keys
        simp only [if_pos hempty]
        rfl
      | cons b locals =>
        have hempty : bufferSet.addressMap ≠ [] := by
          intro hnil
          have := hp.keys
          rw [hnil] at this
          cases this
        simp only [if_neg hempty]
        exact hbase

theorem allocateBuffers_spec (hr : ∀ buf ∈ bufs, buf ∉ sharedBuffers → Representable a buf)
    (hlimit : bufferSet.reachedMemoryLimit = false) (hp : Placed a sharedRegionSize start locals bufferSet)
    (hbase : BaseOf a locals bufferSet)
    (h : a.allocateBuffers sharedBuffers sharedRegionSize isAllocateFirstOp bufferSet bufs = .ok bufferSet') :
    Outcome a sharedRegionSize start isAllocateFirstOp locals (bufs.foldl (addLocal sharedBuffers) locals) bufferSet' := by
  induction bufs generalizing bufferSet locals with
  | nil =>
    cases h
    exact .inl ⟨hlimit, hp, hbase⟩
  | cons buf bufs ih =>
    unfold allocateBuffers at h
    obtain ⟨result, htry, h⟩ := bind_eq_ok.mp h
    cases tryAllocateBuffer_spec (hr buf mem_cons_self) hlimit hp hbase htry with
    | inl hplaced =>
      obtain ⟨htrue, hlimit', hp', hbase'⟩ := hplaced
      replace h : (if result.1 then a.allocateBuffers sharedBuffers sharedRegionSize isAllocateFirstOp result.2 bufs
        else pure result.2) = .ok bufferSet' := h
      rw [if_pos htrue] at h
      cases ih (fun b hb => hr b (mem_cons_of_mem _ hb)) hlimit' hp' hbase' h with
      | inl hall => exact .inl hall
      | inr hstopped =>
        obtain ⟨hreached, hsecond, some, next, hbefore, hafter⟩ := hstopped
        exact .inr ⟨hreached, hsecond, some, next, prefix_addLocal.trans hbefore, hafter⟩
    | inr hstopped =>
      obtain ⟨hfalse, hsecond, hreached, hp', hadded, hfull⟩ := hstopped
      replace h : (if result.1 then a.allocateBuffers sharedBuffers sharedRegionSize isAllocateFirstOp result.2 bufs
        else pure result.2) = .ok bufferSet' := h
      rw [if_neg (by rw [hfalse]; exact Bool.false_ne_true)] at h
      cases h
      refine .inr ⟨hreached, hsecond, locals, buf, prefix_rfl, ?_, hp', hfull⟩
      rw [← hadded]
      exact prefix_foldl_addLocal

theorem allocateOps_spec {loopBody : LoopBody} {done : LoopBody} {count : ℕ}
    (hr : ∀ buf ∈ bodyBuffers loopBody, buf ∉ sharedBuffers → Representable a buf)
    (hlimit : bufferSet.reachedMemoryLimit = false)
    (hp : Placed a sharedRegionSize start (localBuffers sharedBuffers (bodyBuffers done)) bufferSet)
    (hbase : BaseOf a (localBuffers sharedBuffers (bodyBuffers done)) bufferSet)
    (h : a.allocateOps sharedBuffers sharedRegionSize isAllocateFirstOp bufferSet done.length loopBody =
      .ok (bufferSet', count)) :
    count ≤ (done ++ loopBody).length ∧
      Outcome a sharedRegionSize start isAllocateFirstOp
        (localBuffers sharedBuffers (bodyBuffers ((done ++ loopBody).take count)))
        (localBuffers sharedBuffers (bodyBuffers ((done ++ loopBody).take (count + 1)))) bufferSet' ∧
      (bufferSet'.reachedMemoryLimit = false → count = (done ++ loopBody).length) := by
  induction loopBody generalizing bufferSet done with
  | nil =>
    cases h
    rw [append_nil, take_length, take_of_length_le (Nat.le_succ _)]
    exact ⟨le_refl _, .inl ⟨hlimit, hp, hbase⟩, fun _ => rfl⟩
  | cons info infos ih =>
    have hmem (b : ℕ) (hb : b ∈ info.buffers) : b ∈ bodyBuffers (info :: infos) :=
      mem_flatMap.mpr ⟨info, mem_cons_self, hb⟩
    have hdone : bodyBuffers (done ++ [info]) = bodyBuffers done ++ info.inBuffers ++ info.outBuffers := by
      simp only [bodyBuffers, OpAllocationInfo.buffers, flatMap_append, flatMap_cons, flatMap_nil,
        append_nil, append_assoc]
    -- a stop inside the operation leaves what the operations before it have
    have stopped {set' : PingPongBuffer} {rest : List ℕ} (hrest : rest <+: bodyBuffers (done ++ [info]))
        (hreached : set'.reachedMemoryLimit = true) (hsecond : isAllocateFirstOp = false)
        (hsome : ∃ some next, localBuffers sharedBuffers (bodyBuffers done) <+: some ∧
          some ++ [next] <+: localBuffers sharedBuffers rest ∧ Placed a sharedRegionSize start some set' ∧
            a.memorySize < sharedRegionSize + endOf a.offsetOf a.getRawBufferSize start (some ++ [next])) :
        done.length ≤ (done ++ info :: infos).length ∧
          Outcome a sharedRegionSize start isAllocateFirstOp
            (localBuffers sharedBuffers (bodyBuffers ((done ++ info :: infos).take done.length)))
            (localBuffers sharedBuffers (bodyBuffers ((done ++ info :: infos).take (done.length + 1)))) set' ∧
          (set'.reachedMemoryLimit = false → done.length = (done ++ info :: infos).length) := by
      obtain ⟨some, next, hbefore, hafter, hplaced⟩ := hsome
      have htake : (done ++ info :: infos).take (done.length + 1) = done ++ [info] :=
        take_length_add_append 1
      rw [take_left, htake]
      refine ⟨by simp, .inr ⟨hreached, hsecond, some, next, hbefore, hafter.trans (localBuffers_mono hrest), hplaced⟩, ?_⟩
      intro hfalse
      rw [hreached] at hfalse
      cases hfalse
    unfold allocateOps at h
    obtain ⟨withIn, hin, h⟩ := bind_eq_ok.mp h
    have hafterIn := allocateBuffers_spec
      (fun b hb => hr b (hmem b (mem_append_left _ hb))) hlimit hp hbase hin
    unfold localBuffers at hafterIn
    rw [← foldl_append] at hafterIn
    rcases hafterIn with ⟨hlimitIn, hpIn, hbaseIn⟩ | ⟨hreached, hsecond, hsome⟩
    swap
    · simp only [bind, Except.bind, if_pos hreached] at h
      cases h
      exact stopped (by rw [hdone]; exact prefix_append _ _) hreached hsecond hsome
    simp only [bind, Except.bind, hlimitIn, Bool.false_eq_true, if_false] at h
    obtain ⟨withOut, hout, h⟩ := bind_eq_ok.mp h
    have hafterOut := allocateBuffers_spec
      (fun b hb => hr b (hmem b (mem_append_right _ hb))) hlimitIn hpIn hbaseIn hout
    rw [← foldl_append] at hafterOut
    rcases hafterOut with ⟨hlimitOut, hpOut, hbaseOut⟩ | ⟨hreached, hsecond, some, next, hbefore, hafter⟩
    swap
    · simp only [if_pos hreached] at h
      cases h
      refine stopped (hdone ▸ prefix_rfl) hreached hsecond ⟨some, next, List.IsPrefix.trans ?_ hbefore, hafter⟩
      exact localBuffers_mono (prefix_append _ _)
    simp only [hlimitOut, Bool.false_eq_true, if_false] at h
    rw [← localBuffers, ← hdone] at hpOut hbaseOut
    have hrest := ih (fun b hb => hr b (by
      rw [bodyBuffers, flatMap_cons]
      exact mem_append_right _ hb)) hlimitOut hpOut hbaseOut (by
      rw [length_append, length_singleton]
      exact h)
    rwa [append_assoc] at hrest

section
variable {loopBody : LoopBody} {count : ℕ}

section
variable (hr : ∀ buf ∈ bodyBuffers loopBody, buf ∉ sharedBuffers → Representable a buf)
include hr

theorem allocatePingPongBuffer_spec (hfits : sharedRegionSize + start ≤ a.memorySize)
    (h : a.allocatePingPongBuffer sharedBuffers sharedRegionSize isAllocateFirstOp loopBody start = .ok (bufferSet, count)) :
    count ≤ loopBody.length ∧ Outcome a sharedRegionSize start isAllocateFirstOp
        (localBuffers sharedBuffers (bodyBuffers (loopBody.take count)))
        (localBuffers sharedBuffers (bodyBuffers (loopBody.take (count + 1)))) bufferSet ∧
      (bufferSet.reachedMemoryLimit = false → count = loopBody.length) := by
  refine @allocateOps_spec a sharedBuffers sharedRegionSize start isAllocateFirstOp _ bufferSet loopBody [] count hr rfl
    ?_ ?_ h
  · exact ⟨rfl, rfl, rfl, rfl, rfl, fun b hb => absurd hb not_mem_nil, hfits⟩
  · rfl

theorem firstSet_spec (hfits : sharedRegionSize ≤ a.memorySize)
    (h : a.allocatePingPongBuffer sharedBuffers sharedRegionSize true loopBody 0 = .ok (bufferSet, count)) :
    Placed a sharedRegionSize 0 (localBuffers sharedBuffers (bodyBuffers loopBody)) bufferSet ∧
      BaseOf a (localBuffers sharedBuffers (bodyBuffers loopBody)) bufferSet := by
  obtain ⟨-, houtcome, hcount⟩ := allocatePingPongBuffer_spec hr (by omega) h
  cases houtcome with
  | inl hall =>
    rw [hcount hall.1, take_of_length_le (Nat.le_succ _)] at hall
    exact hall.2
  | inr hstopped => exact absurd hstopped.2.1 (by decide)

/-- The second set has the first `k` buffers, and there is no room for more of them or of the operations. -/
theorem secondSet_spec (hfits : sharedRegionSize + start ≤ a.memorySize)
    (h : a.allocatePingPongBuffer sharedBuffers sharedRegionSize false loopBody start = .ok (bufferSet, count)) :
    ∃ k, k ≤ (localBuffers sharedBuffers (bodyBuffers loopBody)).length ∧
      (k = (localBuffers sharedBuffers (bodyBuffers loopBody)).length ∨ a.memorySize < sharedRegionSize +
        endOf a.offsetOf a.getRawBufferSize start ((localBuffers sharedBuffers (bodyBuffers loopBody)).take (k + 1))) ∧
      count ≤ loopBody.length ∧ (∀ n ≤ loopBody.length, (localBuffers sharedBuffers (bodyBuffers (loopBody.take n))).length ≤ k ↔ n ≤ count) ∧
      Placed a sharedRegionSize start ((localBuffers sharedBuffers (bodyBuffers loopBody)).take k) bufferSet := by
  obtain ⟨hle, houtcome, hcount⟩ := allocatePingPongBuffer_spec hr hfits h
  cases houtcome with
  | inl hall =>
    obtain ⟨hlimit, hplaced, -⟩ := hall
    rw [hcount hlimit, take_of_length_le (Nat.le_succ _)] at hplaced
    refine ⟨_, le_refl _, .inl rfl, hle, fun n hn => ?_, by rwa [take_length]⟩
    rw [hcount hlimit]
    exact iff_of_true localBuffers_take_prefix.length_le hn
  | inr hstopped =>
    obtain ⟨-, -, some, next, hbefore, hafter, hp, hfull⟩ := hstopped
    have hnext := hafter.trans localBuffers_take_prefix
    have hlength := hnext.length_le
    rw [length_append, length_singleton] at hlength
    refine ⟨some.length, by omega, .inr ?_, hle, ?_, ?_⟩
    · have hk := prefix_iff_eq_take.mp hnext
      rw [length_append, length_singleton] at hk
      rwa [← hk]
    · intro n _
      constructor
      · intro hle
        by_contra hlt
        have hmore := (hafter.trans (localBuffers_take_mono (by omega : count + 1 ≤ n))).length_le
        rw [length_append, length_singleton] at hmore
        omega
      · exact fun hle => ((localBuffers_take_mono hle).trans hbefore).length_le
    · rwa [← prefix_iff_eq_take.mp ((prefix_append _ _).trans hnext)]

end

end

end

theorem fillAddresses_eq (first second : List ℕ) (h : second.length ≤ first.length) :
    fillAddresses first second second.length = second ++ first.drop second.length := by
  have hstep (n start : ℕ) (addresses : List ℕ) (hn : start + n = first.length) :
      (List.range' start n).foldl (fun addresses i => addresses ++ [first.getD i 0]) addresses =
        addresses ++ first.drop start := by
    induction n generalizing start addresses with
    | zero => rw [drop_eq_nil_of_le (by omega), append_nil]; rfl
    | succ n ih =>
      have hlt : start < first.length := by omega
      rw [range'_succ, foldl_cons, ih (start + 1) _ (by omega), append_assoc,
        drop_eq_getElem_cons hlt, getD_eq_getElem?_getD, getElem?_eq_getElem hlt]
      rfl
  unfold fillAddresses
  simp only [Nat.sub_self, range'_zero, foldl_nil, max_self]
  exact hstep _ _ _ (by omega)

end LoopAllocator

end NpuCompiler.Memory
