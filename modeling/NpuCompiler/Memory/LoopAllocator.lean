import Mathlib.Order.Nat
import NpuCompiler.Library.SmallSet
import NpuCompiler.Memory.Partitioner

namespace NpuCompiler.Memory

inductive AllocationType
  | compute
  | dataIn
  | dataOut
  deriving DecidableEq, Repr

structure OpAllocationInfo where
  opIdx : ℕ
  inBuffers : List ℕ
  outBuffers : List ℕ
  allocationType : AllocationType
  deriving DecidableEq, Repr

abbrev LoopBody := List OpAllocationInfo

def OpAllocationInfo.buffers (info : OpAllocationInfo) : List ℕ := info.inBuffers ++ info.outBuffers

structure ComputeRegion where
  loopBodies : List LoopBody
  dependencies : List ℕ
  deriving DecidableEq, Repr

structure LoopBufferProfile where
  sharedBuffers : List ℕ
  largestLoopIdx : ℕ
  deriving DecidableEq, Repr

structure PingPongBuffer where
  addressMap : List (ℕ × ℕ)
  addressSequence : List ℕ
  nextFreeOffset : ℕ
  reachedMemoryLimit : Bool
  baseAlignment : ℕ
  reserveLocalRegionSize : ℕ
  prefetchBufferCount : ℕ
  deriving DecidableEq, Repr

/-- What is stored in the region, and the addresses at the top of the memory that were reserved on the way. -/
structure RegionLayout where
  size : ℕ
  bufferAddressVec : List ℕ × List ℕ
  sharedExternalBuffers : List ℕ
  baseAlignment : ℕ
  prefetchOpCount : ℕ
  sharedRegionSize : ℕ
  sharedAddresses : List ℕ
  deriving DecidableEq, Repr

structure LoopAllocator where
  memorySize : ℕ
  externalDepsLookUp : ℕ → Option OpAllocationInfo
  getRawBufferSize : ℕ → ℕ
  getBufferAlignment : ℕ → ℕ

def checkAlignment (align : ℕ) : Except String Unit :=
  if align = 0 then throw "Zero-alignment is not supported" else pure ()

def alignValDown (val align : ℕ) : ℕ := val / align * align

def handledBuffers (bufs : List ℕ) : List ℕ :=
  bufs.foldl (fun handled buf => if buf ∈ handled then handled else handled ++ [buf]) []

def computeBuffers (loopBody : LoopBody) : List ℕ :=
  handledBuffers ((loopBody.filter (·.allocationType = .compute)).flatMap OpAllocationInfo.buffers)

def bufferUseCount (loopBodies : List LoopBody) (buf : ℕ) : ℕ :=
  loopBodies.countP (fun loopBody => decide (buf ∈ computeBuffers loopBody))

def sharedBuffers (loopBodies : List LoopBody) : List ℕ :=
  sortedOf ((handledBuffers (loopBodies.flatMap computeBuffers)).filter
    (fun buf => bufferUseCount loopBodies buf = loopBodies.length))

namespace LoopAllocator

variable (a : LoopAllocator)

def getAlignedBufferSize (buf : ℕ) : Except String ℕ := do
  checkAlignment (a.getBufferAlignment buf)
  pure (alignValUp (a.getRawBufferSize buf) (a.getBufferAlignment buf))

def loopSize (loopBody : LoopBody) : Except String ℕ :=
  (computeBuffers loopBody).foldlM (fun size buf => do pure (addrAdd size (← a.getAlignedBufferSize buf))) 0

def considerLoop (largest : ℕ × ℕ) (loop : LoopBody × ℕ) : Except String (ℕ × ℕ) := do
  let size ← a.loopSize loop.1
  pure (if largest.1 < size then (size, loop.2) else largest)

def largestLoopIdx (loopBodies : List LoopBody) : Except String ℕ := do
  pure (← loopBodies.zipIdx.foldlM a.considerLoop (0, 0)).2

def checkBuffer (maxBufferSizes : List ℕ) (loopBufferIdx : ℕ) (buf : ℕ) : Except String ℕ := do
  let bufSize ← a.getAlignedBufferSize buf
  match maxBufferSizes[loopBufferIdx]? with
  | none => throw "Inconsistent buffer count OR sizes in loop tiling region"
  | some maxSize =>
    if maxSize < bufSize then throw "Inconsistent buffer count OR sizes in loop tiling region"
    else pure (loopBufferIdx + 1)

def checkLoop (maxBufferSizes : List ℕ) (largestIdx : ℕ) (loop : LoopBody × ℕ) : Except String Unit :=
  if loop.2 = largestIdx then pure ()
  else do
    let _ ← (computeBuffers loop.1).foldlM (a.checkBuffer maxBufferSizes) 0

def checkUseCount (loopBodies : List LoopBody) (buf : ℕ) : Except String Unit :=
  let count := bufferUseCount loopBodies buf
  if count ≠ 1 ∧ count ≠ loopBodies.length then throw s!"Buffer has invalid use count {count}" else pure ()

def analyzeLoopBuffers (loopBodies : List LoopBody) : Except String LoopBufferProfile := do
  let largestIdx ← a.largestLoopIdx loopBodies
  let maxBufferSizes ← (computeBuffers (loopBodies.getD largestIdx [])).mapM a.getAlignedBufferSize
  loopBodies.zipIdx.forM (a.checkLoop maxBufferSizes largestIdx)
  (handledBuffers (loopBodies.flatMap computeBuffers)).forM (checkUseCount loopBodies)
  pure { sharedBuffers := sharedBuffers loopBodies, largestLoopIdx := largestIdx }

def validateDependency (sharedBuffers : List ℕ) (dep : ℕ) : Except String Unit :=
  match a.externalDepsLookUp dep with
  | none => pure ()
  | some allocInfo =>
    if allocInfo.allocationType ≠ .dataIn then pure ()
    else allocInfo.outBuffers.forM (fun buf =>
      if buf ∈ sharedBuffers then pure () else throw "Dependency buffer not in shared buffers")

def validateDependencies (sharedBuffers dependencies : List ℕ) : Except String Unit :=
  dependencies.forM (a.validateDependency sharedBuffers)

def reserveSharedBuffer (reserved : ℕ × List ℕ) (buf : ℕ) : Except String (ℕ × List ℕ) := do
  checkAlignment (a.getBufferAlignment buf)
  let address := alignValDown (addrSub reserved.1 (a.getRawBufferSize buf)) (a.getBufferAlignment buf)
  pure (address, reserved.2 ++ [address])

def reserveSharedBuffers (sharedBuffers : List ℕ) : Except String (ℕ × List ℕ) := do
  let reserved ← sharedBuffers.foldlM a.reserveSharedBuffer (a.memorySize, [])
  let sharedRegionSize := addrSub a.memorySize reserved.1
  if sharedRegionSize > a.memorySize then throw "Not enough memory for shared buffers in loop tiling region"
  else pure (sharedRegionSize, reserved.2)

section
variable (sharedBuffers : List ℕ) (sharedRegionSize : ℕ) (isAllocateFirstOp : Bool)

def tryAllocateBuffer (bufferSet : PingPongBuffer) (buf : ℕ) : Except String (Bool × PingPongBuffer) := do
  if buf ∈ sharedBuffers then return (true, bufferSet)
  if buf ∈ bufferSet.addressMap.map Prod.fst then return (true, bufferSet)
  if bufferSet.reachedMemoryLimit then return (false, bufferSet)
  let baseAlignment :=
    if bufferSet.addressMap = [] then a.getBufferAlignment buf else bufferSet.baseAlignment
  checkAlignment (a.getBufferAlignment buf)
  let alignedOffset := alignValUp bufferSet.nextFreeOffset (a.getBufferAlignment buf)
  let nextOffset := addrAdd alignedOffset (a.getRawBufferSize buf)
  if addrAdd sharedRegionSize nextOffset > a.memorySize then
    if isAllocateFirstOp then throw "OOM on first op of 1st ping-pong buffer set, cannot proceed"
    return (false, { bufferSet with baseAlignment := baseAlignment, reachedMemoryLimit := true })
  return (true,
    { bufferSet with
      baseAlignment := baseAlignment
      addressMap := bufferSet.addressMap ++ [(buf, alignedOffset)]
      addressSequence := bufferSet.addressSequence ++ [alignedOffset]
      nextFreeOffset := nextOffset
      prefetchBufferCount := bufferSet.addressSequence.length + 1
      reserveLocalRegionSize := nextOffset })

def allocateBuffers (bufferSet : PingPongBuffer) : List ℕ → Except String PingPongBuffer
  | [] => pure bufferSet
  | buf :: bufs => do
    let (allocated, bufferSet') ← a.tryAllocateBuffer sharedBuffers sharedRegionSize isAllocateFirstOp bufferSet buf
    if allocated then allocateBuffers bufferSet' bufs else pure bufferSet'

def allocateOps (bufferSet : PingPongBuffer) (prefetchOpCount : ℕ) :
    LoopBody → Except String (PingPongBuffer × ℕ)
  | [] => pure (bufferSet, prefetchOpCount)
  | info :: infos => do
    let withIn ← a.allocateBuffers sharedBuffers sharedRegionSize isAllocateFirstOp bufferSet info.inBuffers
    if withIn.reachedMemoryLimit then return (withIn, prefetchOpCount)
    let withOut ← a.allocateBuffers sharedBuffers sharedRegionSize isAllocateFirstOp withIn info.outBuffers
    if withOut.reachedMemoryLimit then return (withOut, prefetchOpCount)
    allocateOps withOut (prefetchOpCount + 1) infos

def allocatePingPongBuffer (loopBody : LoopBody) (initialOffset : ℕ) : Except String (PingPongBuffer × ℕ) :=
  a.allocateOps sharedBuffers sharedRegionSize isAllocateFirstOp
    { addressMap := []
      addressSequence := []
      nextFreeOffset := initialOffset
      reachedMemoryLimit := false
      baseAlignment := 64
      reserveLocalRegionSize := initialOffset
      prefetchBufferCount := 0 } 0 loopBody

end

/-- The second set's addresses after the loop that copies and the loop that appends those of the first set. -/
def fillAddresses (first second : List ℕ) (prefetchBufferCount : ℕ) : List ℕ :=
  let copied := (List.range' prefetchBufferCount (second.length - prefetchBufferCount)).foldl
    (fun addresses i => addresses.set i (first.getD i 0)) second
  let filled := max prefetchBufferCount second.length
  (List.range' filled (first.length - filled)).foldl (fun addresses i => addresses ++ [first.getD i 0]) copied

def allocateLoopTilingRegion (region : ComputeRegion) : Except String RegionLayout := do
  let computeCount := (region.loopBodies.getD 0 []).countP (·.allocationType = .compute)
  if computeCount ≠ 1 then throw "No support for multiple compute ops in loop tiling region -> should be VF"
  let profile ← a.analyzeLoopBuffers region.loopBodies
  a.validateDependencies profile.sharedBuffers region.dependencies
  let (sharedRegionSize, sharedAddresses) ← a.reserveSharedBuffers profile.sharedBuffers
  let largest := region.loopBodies.getD profile.largestLoopIdx []
  let (firstSet, _) ← a.allocatePingPongBuffer profile.sharedBuffers sharedRegionSize true largest 0
  let (secondSet, prefetchOpCount) ←
    a.allocatePingPongBuffer profile.sharedBuffers sharedRegionSize false largest firstSet.nextFreeOffset
  let secondAddresses :=
    fillAddresses firstSet.addressSequence secondSet.addressSequence secondSet.prefetchBufferCount
  if firstSet.addressSequence.length ≠ secondAddresses.length then
    throw "Inconsistent prefetch address vector size"
  return {
    size := secondSet.reserveLocalRegionSize
    bufferAddressVec := (firstSet.addressSequence, secondAddresses)
    sharedExternalBuffers := profile.sharedBuffers
    baseAlignment := firstSet.baseAlignment
    prefetchOpCount := prefetchOpCount
    sharedRegionSize := sharedRegionSize
    sharedAddresses := sharedAddresses }

end LoopAllocator

end NpuCompiler.Memory
