import Mathlib.Data.Nat.Find
import NpuCompiler.Memory.LoopLayout

namespace NpuCompiler.Memory

open Placement Partitioner List Option

namespace LoopAllocator

variable {a : LoopAllocator}

def Apart (p s q t : ℕ) : Prop := p + s ≤ q ∨ q + t ≤ p

theorem Apart.le {p s q t : ℕ} (h : Apart p s q t) (hle : p ≤ q) (ht : 0 < t) : p + s ≤ q := by
  unfold Apart at h
  omega

def demand (a : LoopAllocator) (bufs : List ℕ) : ℕ :=
  (bufs.map (fun buf => a.getRawBufferSize buf + a.getBufferAlignment buf)).sum

theorem demand_cons (a : LoopAllocator) (buf : ℕ) (bufs : List ℕ) :
    a.demand (buf :: bufs) = a.getRawBufferSize buf + a.getBufferAlignment buf + a.demand bufs := sum_cons

def lower (a : LoopAllocator) (free buf : ℕ) : ℕ := alignValDown (free - a.getRawBufferSize buf) (a.getBufferAlignment buf)

/-- The end of the memory below the shared buffers. -/
def sharedFree (a : LoopAllocator) (loopBodies : List LoopBody) : ℕ := (sharedBuffers loopBodies).foldl a.lower a.memorySize

structure Reserved (a : LoopAllocator) (reserved : ℕ × List ℕ) (done : List ℕ) : Prop where
  length : reserved.2.length = done.length
  apart : (done.zip reserved.2).Pairwise (fun x y => y.2 + a.getRawBufferSize y.1 ≤ x.2)
  inside : ∀ x ∈ done.zip reserved.2, reserved.1 ≤ x.2 ∧ x.2 + a.getRawBufferSize x.1 ≤ a.memorySize ∧
    a.getBufferAlignment x.1 ∣ x.2
  free_le : reserved.1 ≤ a.memorySize
  free : reserved.1 = done.foldl a.lower a.memorySize

def Wrapped (a : LoopAllocator) (reserved : ℕ × List ℕ) : Prop :=
  a.memorySize < reserved.1 ∧ reserved.1 < 2 ^ 64

section
variable {reserved reserved' : ℕ × List ℕ} {done bufs : List ℕ} {buf : ℕ}

theorem alignValDown_le (val align : ℕ) : alignValDown val align ≤ val := Nat.div_mul_le_self _ _

theorem lt_alignValDown_add (val : ℕ) {align : ℕ} (h : 0 < align) : val < alignValDown val align + align := by
  have h1 := Nat.div_add_mod val align
  have h2 := Nat.mod_lt val h
  unfold alignValDown
  rw [Nat.mul_comm] at h1
  omega

theorem addrSub_lt {x y : ℕ} (h : x < y) : addrSub x y = 2 ^ 64 + x - y := by
  unfold addrSub
  exact Nat.mod_eq_of_lt (by omega)

theorem reserveSharedBuffer_spec {room : ℕ} (hmemory : a.memorySize < 2 ^ 64)
    (hroom : room + a.getRawBufferSize buf + a.getBufferAlignment buf < 2 ^ 64)
    (hfree : a.memorySize ≤ reserved.1 + room ∧ Reserved a reserved done ∨
      2 ^ 64 + a.memorySize ≤ reserved.1 + room ∧ Wrapped a reserved)
    (h : a.reserveSharedBuffer reserved buf = .ok reserved') :
    a.memorySize ≤ reserved'.1 + (room + a.getRawBufferSize buf + a.getBufferAlignment buf) ∧
        Reserved a reserved' (done ++ [buf]) ∨
      2 ^ 64 + a.memorySize ≤ reserved'.1 + (room + a.getRawBufferSize buf + a.getBufferAlignment buf) ∧
        Wrapped a reserved' := by
  unfold reserveSharedBuffer at h
  obtain ⟨u, hc, h⟩ := bind_eq_ok.mp h
  cases h
  have hpos : 0 < a.getBufferAlignment buf := checkAlignment_ok hc
  have hle := alignValDown_le (addrSub reserved.1 (a.getRawBufferSize buf)) (a.getBufferAlignment buf)
  have hlt := lt_alignValDown_add (addrSub reserved.1 (a.getRawBufferSize buf)) hpos
  rcases hfree with ⟨hfree, hreserved⟩ | ⟨hfree, hwrapped⟩
  · have htop := hreserved.free_le
    by_cases hraw : a.getRawBufferSize buf ≤ reserved.1
    · have hsub : addrSub reserved.1 (a.getRawBufferSize buf) = reserved.1 - a.getRawBufferSize buf :=
        addrSub_eq (by omega) hraw
      rw [hsub] at hle hlt ⊢
      refine .inl ⟨by simp only; omega, ?_⟩
      have hzip : (done ++ [buf]).zip (reserved.2 ++
          [alignValDown (reserved.1 - a.getRawBufferSize buf) (a.getBufferAlignment buf)]) =
          done.zip reserved.2 ++ [(buf, alignValDown (reserved.1 - a.getRawBufferSize buf) (a.getBufferAlignment buf))] :=
        zip_append hreserved.length.symm
      constructor
      · simp only [length_append, hreserved.length, length_singleton]
      · rw [hzip, pairwise_append]
        refine ⟨hreserved.apart, pairwise_singleton _ _, ?_⟩
        intro x hx y hy
        have := (hreserved.inside x hx).1
        rw [mem_singleton.mp hy]
        simp only
        omega
      · rw [hzip]
        intro x hx
        cases mem_append.mp hx with
        | inl hx =>
          obtain ⟨h1, h2, h3⟩ := hreserved.inside x hx
          refine ⟨?_, h2, h3⟩
          simp only
          omega
        | inr hx =>
          rw [mem_singleton.mp hx]
          refine ⟨le_refl _, ?_, Dvd.intro_left _ rfl⟩
          simp only
          omega
      · simp only
        omega
      · rw [foldl_append, foldl_cons, foldl_nil, ← hreserved.free]
        rfl
    · have hsub := addrSub_lt (not_le.mp hraw)
      rw [hsub] at hle hlt ⊢
      refine .inr ⟨?_, ?_, ?_⟩ <;> simp only <;> omega
  · obtain ⟨hbelow, habove⟩ := hwrapped
    have hsub : addrSub reserved.1 (a.getRawBufferSize buf) = reserved.1 - a.getRawBufferSize buf :=
      addrSub_eq (by omega) (by omega)
    rw [hsub] at hle hlt ⊢
    refine .inr ⟨?_, ?_, ?_⟩ <;> simp only <;> omega

theorem reserveSharedBuffers_run {room : ℕ} (hmemory : a.memorySize < 2 ^ 64) (hroom : room + a.demand bufs < 2 ^ 64)
    (hfree : a.memorySize ≤ reserved.1 + room ∧ Reserved a reserved done ∨
      2 ^ 64 + a.memorySize ≤ reserved.1 + room ∧ Wrapped a reserved)
    (h : bufs.foldlM a.reserveSharedBuffer reserved = .ok reserved') :
    Reserved a reserved' (done ++ bufs) ∨ Wrapped a reserved' := by
  induction bufs generalizing reserved done room with
  | nil =>
    cases h
    rw [append_nil]
    exact hfree.imp And.right And.right
  | cons buf bufs ih =>
    rw [demand_cons] at hroom
    rw [foldlM_cons] at h
    obtain ⟨reserved₁, hstep, h⟩ := bind_eq_ok.mp h
    have hrest := ih (by omega) (reserveSharedBuffer_spec hmemory (by omega) hfree hstep) h
    rwa [append_assoc] at hrest

theorem reserveSharedBuffers_spec {sharedRegionSize : ℕ} {addresses : List ℕ} (hmemory : a.memorySize < 2 ^ 64)
    (hdemand : a.demand bufs < 2 ^ 64) (h : a.reserveSharedBuffers bufs = .ok (sharedRegionSize, addresses)) :
    sharedRegionSize ≤ a.memorySize ∧ Reserved a (a.memorySize - sharedRegionSize, addresses) bufs := by
  unfold reserveSharedBuffers at h
  obtain ⟨reserved, hrun, h⟩ := bind_eq_ok.mp h
  have hstart : Reserved a (a.memorySize, []) [] :=
    ⟨rfl, List.Pairwise.nil, fun x hx => absurd hx not_mem_nil, le_refl _, rfl⟩
  cases @reserveSharedBuffers_run a _ _ [] bufs 0 hmemory (by omega) (.inl ⟨by simp, hstart⟩) hrun with
  | inl hreserved =>
    have hle := hreserved.free_le
    rw [addrSub_eq hmemory hle] at h
    rw [if_neg (by omega)] at h
    cases h
    refine ⟨by omega, ?_⟩
    rw [Nat.sub_sub_self hle]
    exact hreserved
  | inr hwrapped =>
    obtain ⟨hbelow, habove⟩ := hwrapped
    rw [addrSub_lt hbelow, if_pos (by omega)] at h
    cases h

end

structure NoWrap (a : LoopAllocator) (loopBodies : List LoopBody) : Prop where
  shared : a.memorySize + a.demand (sharedBuffers loopBodies) < 2 ^ 64
  representable : ∀ loopBody ∈ loopBodies, ∀ buf ∈ bodyBuffers loopBody, buf ∉ sharedBuffers loopBodies → Representable a buf

def localsOf (loopBodies : List LoopBody) (loopBody : LoopBody) : List ℕ :=
  localBuffers (sharedBuffers loopBodies) (bodyBuffers loopBody)

section
variable (a : LoopAllocator) (loopBodies : List LoopBody) (largest : LoopBody)

def firstSlots : List ℕ := place a.offsetOf a.getRawBufferSize 0 (localsOf loopBodies largest)

def firstEnd : ℕ := endOf a.offsetOf a.getRawBufferSize 0 (localsOf loopBodies largest)

/-- The number of buffers that the second set has room for. -/
def secondCount : ℕ :=
  Nat.findGreatest (fun k => endOf a.offsetOf a.getRawBufferSize (a.firstEnd loopBodies largest)
    ((localsOf loopBodies largest).take k) ≤ a.sharedFree loopBodies) (localsOf loopBodies largest).length

def secondSlots : List ℕ :=
  place a.offsetOf a.getRawBufferSize (a.firstEnd loopBodies largest)
    ((localsOf loopBodies largest).take (a.secondCount loopBodies largest))

def regionEnd : ℕ :=
  endOf a.offsetOf a.getRawBufferSize (a.firstEnd loopBodies largest)
    ((localsOf loopBodies largest).take (a.secondCount loopBodies largest))

end

/-- What an allocated region holds: the first set from zero on, and after it the buffers of the second. -/
structure Layout (a : LoopAllocator) (loopBodies : List LoopBody) (largest : LoopBody) (r : RegionLayout) : Prop where
  prefetched : r.prefetchOpCount ≤ largest.length ∧ ∀ n ≤ largest.length,
    (localsOf loopBodies (largest.take n)).length ≤ a.secondCount loopBodies largest ↔ n ≤ r.prefetchOpCount
  first : r.bufferAddressVec.1 = a.firstSlots loopBodies largest
  second : r.bufferAddressVec.2 =
    a.secondSlots loopBodies largest ++ (a.firstSlots loopBodies largest).drop (a.secondCount loopBodies largest)
  size : r.size = a.regionEnd loopBodies largest
  fits : r.sharedRegionSize + r.size ≤ a.memorySize
  base : r.baseAlignment = ((localsOf loopBodies largest).head?.map a.getBufferAlignment).getD 64
  shared : r.sharedExternalBuffers = sharedBuffers loopBodies
  reserved : Reserved a (a.memorySize - r.sharedRegionSize, r.sharedAddresses) (sharedBuffers loopBodies)

theorem secondCount_le (loopBodies : List LoopBody) (largest : LoopBody) :
    a.secondCount loopBodies largest ≤ (localsOf loopBodies largest).length := Nat.findGreatest_le _

/-- A count that fits and that the next one exceeds is the count of the second set. -/
theorem secondCount_eq {loopBodies : List LoopBody} {largest : LoopBody} {k : ℕ} (hk : k ≤ (localsOf loopBodies largest).length)
    (hfits : endOf a.offsetOf a.getRawBufferSize (a.firstEnd loopBodies largest) ((localsOf loopBodies largest).take k) ≤
      a.sharedFree loopBodies)
    (hfull : k = (localsOf loopBodies largest).length ∨ a.sharedFree loopBodies <
      endOf a.offsetOf a.getRawBufferSize (a.firstEnd loopBodies largest) ((localsOf loopBodies largest).take (k + 1))) :
    a.secondCount loopBodies largest = k := by
  unfold secondCount
  rw [Nat.findGreatest_eq_iff]
  refine ⟨hk, fun _ => hfits, ?_⟩
  intro n hlt hn hle
  cases hfull with
  | inl hall => omega
  | inr hfull =>
    have hmono : endOf a.offsetOf a.getRawBufferSize (a.firstEnd loopBodies largest) ((localsOf loopBodies largest).take (k + 1)) ≤
        endOf a.offsetOf a.getRawBufferSize (a.firstEnd loopBodies largest) ((localsOf loopBodies largest).take n) :=
      endOf_mono (le_offsetOf a) (take_prefix_take_left hlt)
    exact absurd (hmono.trans hle) (not_le.mpr hfull)

theorem analyzeLoopBuffers_ok {loopBodies : List LoopBody} {profile : LoopBufferProfile}
    (h : a.analyzeLoopBuffers loopBodies = .ok profile) :
    profile.sharedBuffers = sharedBuffers loopBodies ∧ a.largestLoopIdx loopBodies = .ok profile.largestLoopIdx := by
  unfold analyzeLoopBuffers at h
  obtain ⟨idx, hidx, h⟩ := bind_eq_ok.mp h
  obtain ⟨maxBufferSizes, -, h⟩ := bind_eq_ok.mp h
  obtain ⟨-, -, h⟩ := bind_eq_ok.mp h
  obtain ⟨-, -, h⟩ := bind_eq_ok.mp h
  cases h
  exact ⟨rfl, hidx⟩

theorem allocateLoopTilingRegion_spec {region : ComputeRegion} {r : RegionLayout} (hw : NoWrap a region.loopBodies)
    (h : a.allocateLoopTilingRegion region = .ok r) :
    region.loopBodies ≠ [] ∧ ∃ idx, a.largestLoopIdx region.loopBodies = .ok idx ∧
      Layout a region.loopBodies (region.loopBodies.getD idx []) r := by
  have hw' := hw.shared
  unfold allocateLoopTilingRegion at h
  by_cases hcount : (region.loopBodies.getD 0 []).countP (·.allocationType = .compute) ≠ 1
  · rw [if_pos hcount] at h
    cases h
  rw [if_neg hcount] at h
  have hne : region.loopBodies ≠ [] := by
    intro hnil
    rw [hnil] at hcount
    exact hcount (by decide)
  clear hcount
  obtain ⟨profile, hprofile, h⟩ := bind_eq_ok.mp h
  obtain ⟨-, -, h⟩ := bind_eq_ok.mp h
  obtain ⟨⟨sharedRegionSize, sharedAddresses⟩, hreserve, h⟩ := bind_eq_ok.mp h
  obtain ⟨⟨firstSet, firstCount⟩, hfirst, h⟩ := bind_eq_ok.mp h
  obtain ⟨⟨secondSet, prefetchOpCount⟩, hsecond, h⟩ := bind_eq_ok.mp h
  obtain ⟨hshared, hidx⟩ := analyzeLoopBuffers_ok hprofile
  generalize profile.largestLoopIdx = idx at hidx hfirst hsecond
  rw [hshared] at hreserve hfirst hsecond h
  obtain ⟨hregion, hreserved⟩ := reserveSharedBuffers_spec (by omega) (by omega) hreserve
  have hr (buf : ℕ) (hbuf : buf ∈ bodyBuffers (region.loopBodies.getD idx [])) (hlocal : buf ∉ sharedBuffers region.loopBodies) :
      Representable a buf := by
    by_cases hlt : idx < region.loopBodies.length
    · rw [getD_eq_getElem?_getD, getElem?_eq_getElem hlt] at hbuf
      exact hw.representable _ (getElem_mem hlt) buf hbuf hlocal
    · rw [getD_eq_getElem?_getD, getElem?_eq_none (not_lt.mp hlt)] at hbuf
      exact absurd hbuf not_mem_nil
  obtain ⟨hfirstPlaced, hbase⟩ := firstSet_spec hr hregion hfirst
  have hfits := hfirstPlaced.fits
  obtain ⟨k, hk, hfull, hcountLe, hprefetched, hsecondPlaced⟩ := secondSet_spec hr hfits hsecond
  have hlength : secondSet.addressSequence.length = k := by
    rw [hsecondPlaced.addresses, length_place, length_take, min_eq_left hk]
  have hcount : secondSet.prefetchBufferCount = secondSet.addressSequence.length := by
    rw [hsecondPlaced.count, hsecondPlaced.addresses, length_place]
  have hfree : a.sharedFree region.loopBodies = a.memorySize - sharedRegionSize := hreserved.free.symm
  rw [hfirstPlaced.free] at hfull hsecondPlaced
  have hk' : a.secondCount region.loopBodies (region.loopBodies.getD idx []) = k := by
    have hroom := hsecondPlaced.fits
    rw [hsecondPlaced.free] at hroom
    refine secondCount_eq hk ?_ (hfull.imp_right (fun hlt => ?_))
    · rw [hfree]
      exact Nat.le_sub_of_add_le' hroom
    · rw [hfree]
      exact Nat.sub_lt_left_of_lt_add hregion hlt
  have hfill : fillAddresses firstSet.addressSequence secondSet.addressSequence secondSet.prefetchBufferCount =
      a.secondSlots region.loopBodies (region.loopBodies.getD idx []) ++
        (a.firstSlots region.loopBodies (region.loopBodies.getD idx [])).drop
          (a.secondCount region.loopBodies (region.loopBodies.getD idx [])) := by
    unfold secondSlots
    rw [hcount, fillAddresses_eq, hlength, hsecondPlaced.addresses, hfirstPlaced.addresses, hk']
    · rfl
    · rw [hlength, hfirstPlaced.addresses, length_place]
      exact hk
  simp only [hfill] at h
  split at h
  · cases h
  cases h
  refine ⟨hne, idx, hidx, ?_, hfirstPlaced.addresses, rfl, ?_, ?_, hbase, rfl, hreserved⟩
  · rw [hk']
    exact ⟨hcountLe, hprefetched⟩
  · unfold regionEnd
    rw [hsecondPlaced.reserved, hsecondPlaced.free, hk']
    rfl
  · rw [hsecondPlaced.reserved]
    exact hsecondPlaced.fits

theorem largestLoopIdx_lt {loopBodies : List LoopBody} {idx : ℕ} (hne : loopBodies ≠ [])
    (h : a.largestLoopIdx loopBodies = .ok idx) : idx < loopBodies.length := by
  have hrun : ∀ (loops : List (LoopBody × ℕ)) (s s' : ℕ × ℕ), (∀ loop ∈ loops, loop.2 < loopBodies.length) →
      s.2 < loopBodies.length → loops.foldlM a.considerLoop s = .ok s' → s'.2 < loopBodies.length := by
    intro loops
    induction loops with
    | nil =>
      intro s s' _ hs hs'
      cases hs'
      exact hs
    | cons loop loops ih =>
      intro s s' hloops hs hs'
      rw [foldlM_cons] at hs'
      obtain ⟨next, hnext, hs'⟩ := bind_eq_ok.mp hs'
      obtain ⟨hloop, hloops⟩ := forall_mem_cons.mp hloops
      refine ih next s' hloops ?_ hs'
      obtain ⟨size, -, hnext⟩ := bind_eq_ok.mp hnext
      cases hnext
      split
      · exact hloop
      · exact hs
  unfold largestLoopIdx at h
  obtain ⟨s, hs, h⟩ := bind_eq_ok.mp h
  cases h
  refine hrun _ (0, 0) s ?_ (length_pos_iff.mpr hne) hs
  intro loop hloop
  exact (List.getElem?_eq_some_iff.mp (mem_zipIdx_iff_getElem?.mp hloop)).1

def slots (loopBodies : List LoopBody) (loopBody : LoopBody) (addresses : List ℕ) : List (ℕ × ℕ) :=
  (localsOf loopBodies loopBody).zip addresses

/-- The iterations, the even and the odd ones, have their buffers side by side in the region, below the shared buffers. -/
structure ConflictFree (a : LoopAllocator) (loopBodies : List LoopBody) (r : RegionLayout) : Prop where
  inside : ∀ loopBody ∈ loopBodies, ∀ addresses ∈ [r.bufferAddressVec.1, r.bufferAddressVec.2],
    (localsOf loopBodies loopBody).length ≤ addresses.length ∧
      ∀ x ∈ slots loopBodies loopBody addresses, x.2 + a.getRawBufferSize x.1 ≤ r.size
  disjoint : ∀ loopBody ∈ loopBodies, ∀ addresses ∈ [r.bufferAddressVec.1, r.bufferAddressVec.2],
    (slots loopBodies loopBody addresses).Pairwise
      (fun x y => Apart x.2 (a.getRawBufferSize x.1) y.2 (a.getRawBufferSize y.1))
  pingPong : ∀ even ∈ loopBodies, ∀ odd ∈ loopBodies, ∀ x ∈ slots loopBodies even r.bufferAddressVec.1,
    ∀ (i : ℕ) (y : ℕ × ℕ), (slots loopBodies odd r.bufferAddressVec.2)[i]? = some y →
      Apart x.2 (a.getRawBufferSize x.1) y.2 (a.getRawBufferSize y.1) ∨
        (localsOf loopBodies (odd.take r.prefetchOpCount)).length ≤ i ∧ r.bufferAddressVec.1[i]? = some y.2
  total : r.sharedRegionSize + r.size ≤ a.memorySize
  shared : r.sharedAddresses.length = r.sharedExternalBuffers.length ∧
    (r.sharedExternalBuffers.zip r.sharedAddresses).Pairwise
      (fun x y => Apart x.2 (a.getRawBufferSize x.1) y.2 (a.getRawBufferSize y.1)) ∧
    ∀ x ∈ r.sharedExternalBuffers.zip r.sharedAddresses, a.memorySize - r.sharedRegionSize ≤ x.2 ∧
      x.2 + a.getRawBufferSize x.1 ≤ a.memorySize ∧ a.getBufferAlignment x.1 ∣ x.2
  aligned : ∀ base, r.baseAlignment ∣ base → ∀ loopBody ∈ loopBodies,
    ∀ addresses ∈ [r.bufferAddressVec.1, r.bufferAddressVec.2],
      ∀ x ∈ slots loopBodies loopBody addresses, a.getBufferAlignment x.1 ∣ base + x.2

/-- Every buffer ends before the slot that the next one has, the last before `stop`. -/
def EndsInSlot (a : LoopAllocator) (bufs slots : List ℕ) (stop : ℕ) : Prop :=
  ∀ (i buf p : ℕ), bufs[i]? = some buf → slots[i]? = some p → p + a.getRawBufferSize buf ≤ ((slots.take bufs.length)[i + 1]?).getD stop

/-- The buffers of an iteration fit the slots that the largest one has in both sets. The last of the first set ends before the
second set, and the operations that are prefetched have no more buffers than the second set. -/
structure SlotsFit (a : LoopAllocator) (loopBodies : List LoopBody) (largest loopBody : LoopBody) : Prop where
  count : (localsOf loopBodies loopBody).length ≤ (localsOf loopBodies largest).length
  operations : ∀ n ≤ largest.length, (localsOf loopBodies (largest.take n)).length ≤ a.secondCount loopBodies largest →
    (localsOf loopBodies (loopBody.take n)).length ≤ a.secondCount loopBodies largest
  first : EndsInSlot a (localsOf loopBodies loopBody) (a.firstSlots loopBodies largest)
    ((a.secondSlots loopBodies largest).head?.getD (a.firstEnd loopBodies largest))
  second : EndsInSlot a (localsOf loopBodies loopBody) (a.secondSlots loopBodies largest) (a.regionEnd loopBodies largest)
  aligned : ∀ first ∈ (localsOf loopBodies largest).head?, ∀ (i buf : ℕ), (localsOf loopBodies loopBody)[i]? = some buf →
    a.getBufferAlignment buf ∣ a.getBufferAlignment first ∧
      ∀ p, (a.firstSlots loopBodies largest)[i]? = some p ∨ (a.secondSlots loopBodies largest)[i]? = some p →
        a.getBufferAlignment buf ∣ p

section
variable {α : Type} {R : α → α → Prop} {l : List α} {x y : α} {i j n : ℕ}

theorem rel_of_getElem? (h : l.Pairwise R) (hx : l[i]? = some x) (hy : l[j]? = some y) (hij : i < j) : R x y := by
  obtain ⟨hi, rfl⟩ := List.getElem?_eq_some_iff.mp hx
  obtain ⟨hj, rfl⟩ := List.getElem?_eq_some_iff.mp hy
  exact pairwise_iff_getElem.mp h i j hi hj hij

theorem getElem?_take_some (h : (l.take n)[i]? = some x) : i < n ∧ l[i]? = some x := by
  rw [getElem?_take] at h
  split at h
  · exact ⟨‹_›, h⟩
  · cases h

end

section
variable {bufs slots : List ℕ} {stop i j buf p q : ℕ}

theorem endsInSlot_of_lt (h : ∀ i < bufs.length, ∀ p ∈ slots[i]?,
    p + a.getRawBufferSize (bufs.getD i 0) ≤ ((slots.take bufs.length)[i + 1]?).getD stop) : EndsInSlot a bufs slots stop := by
  intro i buf p hi hp
  obtain ⟨hlt, rfl⟩ := List.getElem?_eq_some_iff.mp hi
  have hend := h i hlt p hp
  rwa [getD_eq_getElem?_getD, getElem?_eq_getElem hlt] at hend

/-- Where buffers in ascending slots are apart, each ends before the next slot. -/
theorem endsInSlot_of_apart {addresses : List ℕ} (hslots : slots <+: addresses) (hsorted : slots.Pairwise (· ≤ ·))
    (hpos : ∀ buf ∈ bufs, 0 < a.getRawBufferSize buf)
    (happart : (bufs.zip addresses).Pairwise (fun x y => Apart x.2 (a.getRawBufferSize x.1) y.2 (a.getRawBufferSize y.1)))
    (hlast : ∀ (i buf p : ℕ), bufs[i]? = some buf → slots[i]? = some p → p + a.getRawBufferSize buf ≤ stop) :
    EndsInSlot a bufs slots stop := by
  intro i buf p hi hp
  cases hnext : (slots.take bufs.length)[i + 1]? with
  | none =>
    rw [getD_none]
    exact hlast i buf p hi hp
  | some q =>
    obtain ⟨hlt, hq⟩ := getElem?_take_some hnext
    have hslot {j c s : ℕ} (hj : bufs[j]? = some c) (hs : slots[j]? = some s) : (bufs.zip addresses)[j]? = some (c, s) := by
      obtain ⟨rest, rfl⟩ := hslots
      refine getElem?_zip_eq_some.mpr ⟨hj, ?_⟩
      rw [getElem?_append_left (List.getElem?_eq_some_iff.mp hs).1]
      exact hs
    have hends := rel_of_getElem? happart (hslot hi hp) (hslot (getElem?_eq_getElem hlt) hq) (Nat.lt_succ_self i)
    rw [getD_some]
    exact hends.le (rel_of_getElem? hsorted hp hq (Nat.lt_succ_self i)) (hpos _ (getElem_mem hlt))

theorem EndsInSlot.le_slot (h : EndsInSlot a bufs slots stop) (hsorted : slots.Pairwise (· ≤ ·)) (hi : bufs[i]? = some buf)
    (hp : slots[i]? = some p) (hq : slots[j]? = some q) (hij : i < j) (hj : j < bufs.length) :
    p + a.getRawBufferSize buf ≤ q := by
  have hjlt := (List.getElem?_eq_some_iff.mp hq).1
  have hnextLt : i + 1 < slots.length := by omega
  have hnext : (slots.take bufs.length)[i + 1]? = some slots[i + 1] := by
    rw [getElem?_take_of_lt (by omega), getElem?_eq_getElem hnextLt]
  have hend := h i buf p hi hp
  rw [hnext, getD_some] at hend
  apply hend.trans
  cases Nat.lt_or_eq_of_le hij with
  | inl hlt => exact rel_of_getElem? hsorted (getElem?_eq_getElem (by omega)) hq hlt
  | inr heq =>
    subst heq
    exact le_of_eq (List.getElem?_eq_some_iff.mp hq).2

theorem EndsInSlot.le_stop (h : EndsInSlot a bufs slots stop) (hstop : ∀ q ∈ slots, q ≤ stop) (hi : bufs[i]? = some buf)
    (hp : slots[i]? = some p) : p + a.getRawBufferSize buf ≤ stop := by
  have hend := h i buf p hi hp
  cases hnext : (slots.take bufs.length)[i + 1]? with
  | none => rwa [hnext] at hend
  | some q =>
    rw [hnext, getD_some] at hend
    exact hend.trans (hstop q (mem_of_mem_take (mem_of_getElem? hnext)))

end

section
variable {loopBodies : List LoopBody} {largest loopBody : LoopBody} {i j b p q : ℕ} {r : RegionLayout} {x : ℕ × ℕ}

theorem getElem?_slots {addresses : List ℕ} :
    (slots loopBodies loopBody addresses)[i]? = some x ↔
      (localsOf loopBodies loopBody)[i]? = some x.1 ∧ addresses[i]? = some x.2 := getElem?_zip_eq_some

theorem firstSlots_sorted : (a.firstSlots loopBodies largest).Pairwise (· ≤ ·) := pairwise_place (le_offsetOf a)

theorem secondSlots_sorted : (a.secondSlots loopBodies largest).Pairwise (· ≤ ·) := pairwise_place (le_offsetOf a)

theorem length_firstSlots : (a.firstSlots loopBodies largest).length = (localsOf loopBodies largest).length := length_place

theorem length_secondSlots : (a.secondSlots loopBodies largest).length = a.secondCount loopBodies largest := by
  unfold secondSlots
  rw [length_place, length_take, min_eq_left (secondCount_le _ _)]

theorem firstEnd_le_regionEnd : a.firstEnd loopBodies largest ≤ a.regionEnd loopBodies largest := le_endOf (le_offsetOf a)

theorem firstSlot_le (h : p ∈ a.firstSlots loopBodies largest) : p ≤ a.firstEnd loopBodies largest :=
  (bounds_of_mem_place (le_offsetOf a) h).2

theorem secondSlot_bounds (h : p ∈ a.secondSlots loopBodies largest) :
    a.firstEnd loopBodies largest ≤ p ∧ p ≤ a.regionEnd loopBodies largest := bounds_of_mem_place (le_offsetOf a) h

theorem firstSlot_end (hi : (localsOf loopBodies largest)[i]? = some b) (hp : (a.firstSlots loopBodies largest)[i]? = some p) :
    p + a.getRawBufferSize b ≤ a.firstEnd loopBodies largest := by
  unfold firstSlots at hp
  rw [getElem?_place hi, Option.some_inj] at hp
  rw [← hp]
  exact end_le_endOf (le_offsetOf a) hi

/-- Where the first set has to end: at the first slot of the second set, if there is one. -/
theorem stop_bounds : (∀ q ∈ a.secondSlots loopBodies largest,
      (a.secondSlots loopBodies largest).head?.getD (a.firstEnd loopBodies largest) ≤ q) ∧
    a.firstEnd loopBodies largest ≤ (a.secondSlots loopBodies largest).head?.getD (a.firstEnd loopBodies largest) ∧
    (a.secondSlots loopBodies largest).head?.getD (a.firstEnd loopBodies largest) ≤ a.regionEnd loopBodies largest := by
  have hsorted := @secondSlots_sorted a loopBodies largest
  have hbounds := @secondSlot_bounds a loopBodies largest
  cases hslots : a.secondSlots loopBodies largest with
  | nil => exact ⟨fun q hq => absurd hq not_mem_nil, le_refl _, firstEnd_le_regionEnd⟩
  | cons s rest =>
    rw [hslots] at hsorted hbounds
    refine ⟨?_, hbounds mem_cons_self⟩
    intro q hq
    cases mem_cons.mp hq with
    | inl heq => exact le_of_eq heq.symm
    | inr hq => exact (pairwise_cons.mp hsorted).1 q hq

section
variable (h : Layout a loopBodies largest r)
include h

theorem Layout.second_cases (hq : r.bufferAddressVec.2[i]? = some q) :
    (i < a.secondCount loopBodies largest ∧ (a.secondSlots loopBodies largest)[i]? = some q) ∨
      (a.secondCount loopBodies largest ≤ i ∧ (a.firstSlots loopBodies largest)[i]? = some q) := by
  rw [h.second] at hq
  by_cases hk : i < a.secondCount loopBodies largest
  · rw [getElem?_append_left (by rwa [length_secondSlots])] at hq
    exact .inl ⟨hk, hq⟩
  · rw [getElem?_append_right (by rw [length_secondSlots]; omega), length_secondSlots, getElem?_drop,
      Nat.add_sub_cancel' (not_lt.mp hk)] at hq
    exact .inr ⟨not_lt.mp hk, hq⟩

theorem Layout.second_of_secondSlots (hq : (a.secondSlots loopBodies largest)[i]? = some q) : r.bufferAddressVec.2[i]? = some q := by
  rw [h.second, getElem?_append_left (List.getElem?_eq_some_iff.mp hq).1]
  exact hq

theorem Layout.length_second : r.bufferAddressVec.2.length = (localsOf loopBodies largest).length := by
  have hk := @secondCount_le a loopBodies largest
  rw [h.second, length_append, length_secondSlots, length_drop, length_firstSlots]
  omega

end

end

section
variable {loopBodies : List LoopBody} {largest loopBody : LoopBody} {r : RegionLayout}

section
variable {addresses : List ℕ} (h : Layout a loopBodies largest r) (hf : SlotsFit a loopBodies largest loopBody)
include h hf

omit h in
/-- In the first set every buffer ends where the second set begins. -/
theorem SlotsFit.first_end {i buf p : ℕ} (hi : (localsOf loopBodies loopBody)[i]? = some buf)
    (hp : (a.firstSlots loopBodies largest)[i]? = some p) :
    p + a.getRawBufferSize buf ≤ (a.secondSlots loopBodies largest).head?.getD (a.firstEnd loopBodies largest) := by
  obtain ⟨-, hfirstStop, -⟩ := @stop_bounds a loopBodies largest
  exact hf.first.le_stop (fun q hq => (firstSlot_le hq).trans hfirstStop) hi hp

theorem Layout.first_inside {i buf p : ℕ} (hi : (localsOf loopBodies loopBody)[i]? = some buf)
    (hp : (a.firstSlots loopBodies largest)[i]? = some p) : p + a.getRawBufferSize buf ≤ r.size := by
  obtain ⟨-, -, hstopEnd⟩ := @stop_bounds a loopBodies largest
  rw [h.size]
  exact (hf.first_end hi hp).trans hstopEnd

theorem Layout.inside (haddresses : addresses ∈ [r.bufferAddressVec.1, r.bufferAddressVec.2]) :
    (localsOf loopBodies loopBody).length ≤ addresses.length ∧
      ∀ x ∈ slots loopBodies loopBody addresses, x.2 + a.getRawBufferSize x.1 ≤ r.size := by
  cases mem_cons.mp haddresses with
  | inl heq =>
    rw [heq, h.first]
    refine ⟨hf.count.trans_eq length_firstSlots.symm, fun x hx => ?_⟩
    obtain ⟨i, hi⟩ := mem_iff_getElem?.mp hx
    obtain ⟨hlocal, haddress⟩ := getElem?_slots.mp hi
    exact h.first_inside hf hlocal haddress
  | inr hsecond =>
    rw [mem_singleton.mp hsecond]
    refine ⟨hf.count.trans_eq h.length_second.symm, fun x hx => ?_⟩
    obtain ⟨i, hi⟩ := mem_iff_getElem?.mp hx
    obtain ⟨hlocal, haddress⟩ := getElem?_slots.mp hi
    cases h.second_cases haddress with
    | inl hslot =>
      rw [h.size]
      exact hf.second.le_stop (fun q hq => (secondSlot_bounds hq).2) hlocal hslot.2
    | inr hslot => exact h.first_inside hf hlocal hslot.2

theorem Layout.disjoint (haddresses : addresses ∈ [r.bufferAddressVec.1, r.bufferAddressVec.2]) :
    (slots loopBodies loopBody addresses).Pairwise
      (fun x y => Apart x.2 (a.getRawBufferSize x.1) y.2 (a.getRawBufferSize y.1)) := by
  obtain ⟨hstop, -, -⟩ := @stop_bounds a loopBodies largest
  rw [pairwise_iff_getElem]
  intro i j hi hj hij
  obtain ⟨hlocal, haddress⟩ := getElem?_slots.mp (getElem?_eq_getElem hi)
  obtain ⟨hlocal', haddress'⟩ := getElem?_slots.mp (getElem?_eq_getElem hj)
  have hjlt := (List.getElem?_eq_some_iff.mp hlocal').1
  cases mem_cons.mp haddresses with
  | inl heq =>
    subst heq
    exact .inl (hf.first.le_slot firstSlots_sorted hlocal (h.first ▸ haddress) (h.first ▸ haddress') hij hjlt)
  | inr hsecond =>
    have heq := mem_singleton.mp hsecond
    subst heq
    cases h.second_cases haddress with
    | inl hslot =>
      cases h.second_cases haddress' with
      | inl hslot' => exact .inl (hf.second.le_slot secondSlots_sorted hlocal hslot.2 hslot'.2 hij hjlt)
      | inr hslot' => exact .inr ((hf.first_end hlocal' hslot'.2).trans (hstop _ (mem_of_getElem? hslot.2)))
    | inr hslot =>
      have hslot' := (h.second_cases haddress').resolve_left (by omega)
      exact .inl (hf.first.le_slot firstSlots_sorted hlocal hslot.2 hslot'.2 hij hjlt)

theorem Layout.aligned {base : ℕ} {x : ℕ × ℕ} (hbase : r.baseAlignment ∣ base)
    (haddresses : addresses ∈ [r.bufferAddressVec.1, r.bufferAddressVec.2]) (hx : x ∈ slots loopBodies loopBody addresses) :
    a.getBufferAlignment x.1 ∣ base + x.2 := by
  obtain ⟨i, hi⟩ := mem_iff_getElem?.mp hx
  obtain ⟨hlocal, haddress⟩ := getElem?_slots.mp hi
  have hpos : 0 < (localsOf loopBodies largest).length :=
    (Nat.zero_lt_of_lt (List.getElem?_eq_some_iff.mp hlocal).1).trans_le hf.count
  obtain ⟨first, rest, hlocals⟩ := exists_cons_of_length_pos hpos
  have hhead : first ∈ (localsOf loopBodies largest).head? := by
    rw [hlocals]
    rfl
  obtain ⟨hdvd, hslot⟩ := hf.aligned first hhead i x.1 hlocal
  have hfirstBase : a.getBufferAlignment first ∣ base := by
    have hb := h.base
    rw [hlocals] at hb
    rw [hb] at hbase
    exact hbase
  apply Nat.dvd_add (hdvd.trans hfirstBase) (hslot x.2 _)
  cases mem_cons.mp haddresses with
  | inl heq => exact .inl (by rwa [heq, h.first] at haddress)
  | inr hsecond =>
    rw [mem_singleton.mp hsecond] at haddress
    exact (h.second_cases haddress).symm.imp And.right And.right

end

theorem Layout.conflictFree (h : Layout a loopBodies largest r)
    (hfits : ∀ loopBody ∈ loopBodies, SlotsFit a loopBodies largest loopBody) : ConflictFree a loopBodies r := by
  obtain ⟨hstop, -, -⟩ := @stop_bounds a loopBodies largest
  constructor
  · intro loopBody hbody addresses haddresses
    exact h.inside (hfits loopBody hbody) haddresses
  · intro loopBody hbody addresses haddresses
    exact h.disjoint (hfits loopBody hbody) haddresses
  · intro even heven odd hodd x hx j y hj
    obtain ⟨i, hi⟩ := mem_iff_getElem?.mp hx
    obtain ⟨hlocal, haddress⟩ := getElem?_slots.mp hi
    obtain ⟨hlocal', haddress'⟩ := getElem?_slots.mp hj
    rw [h.first] at haddress ⊢
    cases h.second_cases haddress' with
    | inl hslot => exact .inl (.inl (((hfits even heven).first_end hlocal haddress).trans (hstop _ (mem_of_getElem? hslot.2))))
    | inr hslot =>
      have hroom := (h.prefetched.2 _ h.prefetched.1).mpr (le_refl _)
      exact .inr ⟨((hfits odd hodd).operations _ h.prefetched.1 hroom).trans hslot.1, hslot.2⟩
  · exact h.fits
  · rw [h.shared]
    exact ⟨h.reserved.length, h.reserved.apart.imp (fun hle => .inr hle), h.reserved.inside⟩
  · intro base hbase loopBody hbody addresses haddresses x hx
    exact h.aligned (hfits loopBody hbody) hbase haddresses hx

section
variable {i buf p n : ℕ} (h : Layout a loopBodies largest r)
include h

theorem Layout.getElem?_first (hi : (localsOf loopBodies loopBody)[i]? = some buf)
    (hp : (a.firstSlots loopBodies largest)[i]? = some p) : (slots loopBodies loopBody r.bufferAddressVec.1)[i]? = some (buf, p) :=
  getElem?_slots.mpr ⟨hi, by rw [h.first]; exact hp⟩

theorem Layout.getElem?_second (hi : (localsOf loopBodies loopBody)[i]? = some buf)
    (hp : (a.secondSlots loopBodies largest)[i]? = some p) : (slots loopBodies loopBody r.bufferAddressVec.2)[i]? = some (buf, p) :=
  getElem?_slots.mpr ⟨hi, h.second_of_secondSlots hp⟩

variable (hc : ConflictFree a loopBodies r) (hbody : loopBody ∈ loopBodies)
include hc hbody

theorem Layout.length_le : (localsOf loopBodies loopBody).length ≤ (localsOf loopBodies largest).length := by
  have hle := (hc.inside loopBody hbody _ mem_cons_self).1
  rwa [h.first, length_firstSlots] at hle

theorem Layout.aligned_slot (hi : (localsOf loopBodies loopBody)[i]? = some buf) {base : ℕ} (hbase : r.baseAlignment ∣ base)
    (hp : (a.firstSlots loopBodies largest)[i]? = some p ∨ (a.secondSlots loopBodies largest)[i]? = some p) :
    a.getBufferAlignment buf ∣ base + p := by
  cases hp with
  | inl hp => exact hc.aligned base hbase loopBody hbody _ mem_cons_self _ (mem_of_getElem? (h.getElem?_first hi hp))
  | inr hp =>
    exact hc.aligned base hbase loopBody hbody r.bufferAddressVec.2 (by simp) _ (mem_of_getElem? (h.getElem?_second hi hp))

variable (hmem : largest ∈ loopBodies)
include hmem

/-- The first set ends before the second, which uses its first slot whenever it has one. -/
theorem Layout.first_end (hpos : ∀ buf ∈ localsOf loopBodies largest, 0 < a.getRawBufferSize buf)
    (hi : (localsOf loopBodies loopBody)[i]? = some buf) (hp : (a.firstSlots loopBodies largest)[i]? = some p) :
    p + a.getRawBufferSize buf ≤ (a.secondSlots loopBodies largest).head?.getD (a.firstEnd loopBodies largest) := by
  have hx := h.getElem?_first hi hp
  cases hslots : a.secondSlots loopBodies largest with
  | nil =>
    have hend := (hc.inside loopBody hbody _ mem_cons_self).2 _ (mem_of_getElem? hx)
    rw [h.size] at hend
    have hzero : a.secondCount loopBodies largest = 0 := by rw [← length_secondSlots, hslots, length_nil]
    unfold regionEnd at hend
    rwa [hzero] at hend
  | cons s rest =>
    have hk : 0 < a.secondCount loopBodies largest := by
      rw [← length_secondSlots, hslots]
      exact Nat.succ_pos _
    have hl : 0 < (localsOf loopBodies largest).length := hk.trans_le (secondCount_le _ _)
    have hs : (a.secondSlots loopBodies largest)[0]? = some s := by rw [hslots]; rfl
    have hbounds := secondSlot_bounds (mem_of_getElem? hs)
    have hbpos := hpos _ (getElem_mem hl)
    cases hc.pingPong loopBody hbody largest hmem _ (mem_of_getElem? hx) 0 _
        (h.getElem?_second (getElem?_eq_getElem hl) hs) with
    | inl happart => exact happart.le ((firstSlot_le (mem_of_getElem? hp)).trans hbounds.1) hbpos
    | inr hshared =>
      have hsame := hshared.2
      rw [h.first] at hsame
      have hend := firstSlot_end (getElem?_eq_getElem hl) hsame
      simp only at hend
      omega

/-- A buffer behind the second set shares its slot with one of the first, so it belongs to no prefetched operation. -/
theorem Layout.operations_le (hpos : ∀ loopBody ∈ loopBodies, ∀ buf ∈ localsOf loopBodies loopBody, 0 < a.getRawBufferSize buf)
    (hn : n ≤ largest.length) (hroom : (localsOf loopBodies (largest.take n)).length ≤ a.secondCount loopBodies largest) :
    (localsOf loopBodies (loopBody.take n)).length ≤ a.secondCount loopBodies largest := by
  by_contra hmore
  rw [not_le] at hmore
  have hcount := h.length_le hc hbody
  have hprefix : localsOf loopBodies (loopBody.take n) <+: localsOf loopBodies (loopBody.take r.prefetchOpCount) :=
    localBuffers_take_mono ((h.prefetched.2 n hn).mp hroom)
  have hwhole : (localsOf loopBodies (loopBody.take n)).length ≤ (localsOf loopBodies loopBody).length :=
    localBuffers_take_prefix.length_le
  have hkl : a.secondCount loopBodies largest < (localsOf loopBodies largest).length := by omega
  have hkb : a.secondCount loopBodies largest < (localsOf loopBodies loopBody).length := by omega
  have hkp : a.secondCount loopBodies largest < (a.firstSlots loopBodies largest).length := length_firstSlots.symm ▸ hkl
  have hsecond : (slots loopBodies loopBody r.bufferAddressVec.2)[a.secondCount loopBodies largest]? =
      some ((localsOf loopBodies loopBody)[a.secondCount loopBodies largest],
        (a.firstSlots loopBodies largest)[a.secondCount loopBodies largest]) := by
    refine getElem?_slots.mpr ⟨getElem?_eq_getElem hkb, ?_⟩
    rw [h.second, getElem?_append_right (by rw [length_secondSlots]), length_secondSlots, Nat.sub_self, getElem?_drop,
      Nat.add_zero]
    exact getElem?_eq_getElem hkp
  cases hc.pingPong largest hmem loopBody hbody _
      (mem_of_getElem? (h.getElem?_first (getElem?_eq_getElem hkl) (getElem?_eq_getElem hkp))) _ _ hsecond with
  | inl happart =>
    have hl := hpos largest hmem _ (getElem_mem hkl)
    have hb := hpos loopBody hbody _ (getElem_mem hkb)
    exact absurd (happart.le (le_refl _) hb) (not_le.mpr (Nat.lt_add_of_pos_right hl))
  | inr hshared => exact absurd (hmore.trans_le hprefix.length_le) (not_lt.mpr hshared.1)

end

theorem Layout.slotsFit (h : Layout a loopBodies largest r) (hmem : largest ∈ loopBodies) (hbody : loopBody ∈ loopBodies)
    (hpos : ∀ loopBody ∈ loopBodies, ∀ buf ∈ localsOf loopBodies loopBody, 0 < a.getRawBufferSize buf)
    (hc : ConflictFree a loopBodies r) : SlotsFit a loopBodies largest loopBody := by
  have hsecond : a.secondSlots loopBodies largest <+: r.bufferAddressVec.2 := by
    rw [h.second]
    exact prefix_append _ _
  refine ⟨h.length_le hc hbody, fun n => h.operations_le hc hbody hmem hpos, ?_, ?_, ?_⟩
  · exact endsInSlot_of_apart (h.first ▸ prefix_rfl) firstSlots_sorted (hpos loopBody hbody)
      (hc.disjoint loopBody hbody r.bufferAddressVec.1 (by simp)) (fun _ _ _ => h.first_end hc hbody hmem (hpos largest hmem))
  · apply endsInSlot_of_apart hsecond secondSlots_sorted (hpos loopBody hbody)
      (hc.disjoint loopBody hbody r.bufferAddressVec.2 (by simp))
    intro i buf p hi hp
    rw [← h.size]
    exact (hc.inside loopBody hbody r.bufferAddressVec.2 (by simp)).2 _ (mem_of_getElem? (h.getElem?_second hi hp))
  · intro first hfirst i buf hi
    have hbase : r.baseAlignment = a.getBufferAlignment first := by
      rw [h.base, Option.mem_def.mp hfirst]
      rfl
    have hzero (p : ℕ) (hp : (a.firstSlots loopBodies largest)[i]? = some p ∨ (a.secondSlots loopBodies largest)[i]? = some p) :
        a.getBufferAlignment buf ∣ p := by
      have hdvd := h.aligned_slot hc hbody hi (dvd_zero _) hp
      rwa [Nat.zero_add] at hdvd
    have hilt : i < (a.firstSlots loopBodies largest).length := by
      rw [length_firstSlots]
      exact (List.getElem?_eq_some_iff.mp hi).1.trans_le (h.length_le hc hbody)
    have hp : (a.firstSlots loopBodies largest)[i]? = some (a.firstSlots loopBodies largest)[i] := getElem?_eq_getElem hilt
    refine ⟨?_, hzero⟩
    exact (Nat.dvd_add_left (hzero _ (.inl hp))).mp (h.aligned_slot hc hbody hi (by rw [hbase]) (.inl hp))

end

/-- The layout is free of conflicts if every iteration fits the slots of the largest one, and only then if no buffer is
empty. -/
theorem allocateLoopTilingRegion_iff {region : ComputeRegion} {idx : ℕ} {r : RegionLayout} (hw : NoWrap a region.loopBodies)
    (hlargest : a.largestLoopIdx region.loopBodies = .ok idx) (h : a.allocateLoopTilingRegion region = .ok r) :
    ((∀ loopBody ∈ region.loopBodies, SlotsFit a region.loopBodies (region.loopBodies.getD idx []) loopBody) →
      ConflictFree a region.loopBodies r) ∧
    ((∀ loopBody ∈ region.loopBodies, ∀ buf ∈ localsOf region.loopBodies loopBody, 0 < a.getRawBufferSize buf) →
      ConflictFree a region.loopBodies r →
        ∀ loopBody ∈ region.loopBodies, SlotsFit a region.loopBodies (region.loopBodies.getD idx []) loopBody) := by
  obtain ⟨hne, idx', hidx, hlayout⟩ := allocateLoopTilingRegion_spec hw h
  obtain rfl : idx = idx' := by
    rw [hlargest] at hidx
    cases hidx
    rfl
  refine ⟨hlayout.conflictFree, fun hpos hc loopBody hbody => hlayout.slotsFit ?_ hbody hpos hc⟩
  have hlt := largestLoopIdx_lt hne hlargest
  rw [getD_eq_getElem?_getD, getElem?_eq_getElem hlt]
  exact getElem_mem hlt

def twoTiles : ComputeRegion := ⟨[[⟨0, [0], [1], .compute⟩], [⟨1, [2], [3], .compute⟩]], []⟩

def tileAllocator (inputs outputs : ℕ) : LoopAllocator :=
  ⟨1024, fun _ => none, fun _ => 64, fun buf => if buf % 2 = 0 then inputs else outputs⟩

/-- The raw sizes differ from iteration to iteration, and the slots are those of the alignment. -/
def unevenAllocator : LoopAllocator :=
  ⟨1024, fun _ => none, fun buf => if buf = 1 ∨ buf = 2 then 20 else 10, fun _ => 64⟩

theorem unevenTiles_fits : ∀ loopBody ∈ twoTiles.loopBodies,
    SlotsFit unevenAllocator twoTiles.loopBodies (twoTiles.loopBodies.getD 0 []) loopBody := by
  have hslots : unevenAllocator.firstSlots twoTiles.loopBodies (twoTiles.loopBodies.getD 0 []) = [0, 64] ∧
      unevenAllocator.secondSlots twoTiles.loopBodies (twoTiles.loopBodies.getD 0 []) = [128, 192] ∧
      unevenAllocator.regionEnd twoTiles.loopBodies (twoTiles.loopBodies.getD 0 []) = 212 := by
    decide
  obtain ⟨hfirst, hsecond, hend⟩ := hslots
  have hchecked : ∀ loopBody ∈ twoTiles.loopBodies, (localsOf twoTiles.loopBodies loopBody).length ≤ 2 ∧
      (∀ i < (localsOf twoTiles.loopBodies loopBody).length, ∀ p ∈ [0, 64][i]?,
        p + unevenAllocator.getRawBufferSize ((localsOf twoTiles.loopBodies loopBody).getD i 0) ≤
          (([0, 64].take (localsOf twoTiles.loopBodies loopBody).length)[i + 1]?).getD 128) ∧
      ∀ i < (localsOf twoTiles.loopBodies loopBody).length, ∀ p ∈ [128, 192][i]?,
        p + unevenAllocator.getRawBufferSize ((localsOf twoTiles.loopBodies loopBody).getD i 0) ≤
          (([128, 192].take (localsOf twoTiles.loopBodies loopBody).length)[i + 1]?).getD 212 := by
    decide
  intro loopBody hbody
  obtain ⟨hcount, hfirstEnds, hsecondEnds⟩ := hchecked loopBody hbody
  refine ⟨hcount, ?_, ?_, ?_, ?_⟩
  · intro n _ _
    exact Nat.le_trans localBuffers_take_prefix.length_le hcount
  · rw [hfirst, hsecond]
    exact endsInSlot_of_lt hfirstEnds
  · rw [hsecond, hend]
    exact endsInSlot_of_lt hsecondEnds
  · intro first _ i buf _
    refine ⟨dvd_refl 64, fun p hp => ?_⟩
    rw [hfirst, hsecond] at hp
    have hdvd : ∀ p ∈ [0, 64] ++ [128, 192], 64 ∣ p := by decide
    exact hdvd p (mem_append.mpr (hp.imp mem_of_getElem? mem_of_getElem?))

theorem allocateLoopTilingRegion_iff_uneven : ConflictFree unevenAllocator twoTiles.loopBodies
    ⟨212, ([0, 64], [128, 192]), [], 64, 1, 0, []⟩ := by
  have hlargest : unevenAllocator.largestLoopIdx twoTiles.loopBodies = .ok 0 := by decide
  refine (allocateLoopTilingRegion_iff ⟨by decide, ?_⟩ hlargest (by decide)).1 unevenTiles_fits
  unfold Representable
  decide

theorem allocateLoopTilingRegion_strictOutput :
    (tileAllocator 64 128).allocateLoopTilingRegion twoTiles = .ok ⟨320, ([0, 128], [192, 256]), [], 64, 1, 0, []⟩ ∧
      ¬ ConflictFree (tileAllocator 64 128) twoTiles.loopBodies ⟨320, ([0, 128], [192, 256]), [], 64, 1, 0, []⟩ := by
  refine ⟨by decide, ?_⟩
  intro hc
  exact absurd (hc.aligned 64 (by decide) _ (mem_cons_self) _ mem_cons_self (1, 128) (by decide)) (by decide)

end LoopAllocator

end NpuCompiler.Memory
