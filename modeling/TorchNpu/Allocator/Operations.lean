/-
  The operations of `DeviceCachingAllocator` (`NPUCachingAllocator.cpp`).

  Any number of threads call the allocator.  Every operation holds the allocator's lock from beginning
  to end, except for `malloc`, which drops it around the synchronisation of the device, at most three
  times: inside `garbage_collect_cached_blocks`, inside `release_available_cached_blocks` and ahead of
  `release_cached_blocks`.  So a step is either a whole operation or one of the up to four parts of a
  `malloc`; between the parts other threads take steps.

  No `FreeMemoryCallback` is registered, and synchronising the device and querying or synchronising an
  event do not fail (`EventErrors` is about that).  Floating point numbers are rational numbers.
-/
import TorchNpu.Allocator.ExpandableSegment
import TorchNpu.Lib.Machine

namespace TorchNpu.Allocator

/-! ### Merging and splitting blocks -/

/-- `try_merge_blocks`: `src` is a neighbour of `dst`, or null. -/
def tryMergeBlocks (dst : BlockId) (src : Option BlockId) (pool : PoolId) : M ℕ := do
  match src with
  | none => return 0
  | some src =>
    let srcBlk ← deref src
    let dstBlk ← deref dst
    if srcBlk.allocated || 0 < srcBlk.eventCount || !srcBlk.streamUses.isEmpty ||
        dstBlk.mapped != srcBlk.mapped then
      return 0
    assert (dstBlk.isSplit && srcBlk.isSplit)
    if dstBlk.prev = some src then
      store dst fun blk => { blk with ptr := srcBlk.ptr, prev := srcBlk.prev }
      setNext srcBlk.prev dst
    else
      store dst fun blk => { blk with next := srcBlk.next }
      setPrev srcBlk.next dst
    store dst fun blk => { blk with size := blk.size + srcBlk.size }
    if srcBlk.mapped then
      eraseBlock pool src
    else
      eraseUnmapped pool src
    deleteBlock src
    return srcBlk.size

/-- What `free_block` does to the statistics: `blk` is the block before the two merges, `merged` the
one after them, and `subsumed` lists what `try_merge_blocks` has returned. -/
def Stats.free (stats : Stats) (blk merged : Block) (subsumed : List ℕ) : Stats :=
  let netChangeBlocks : ℤ :=
    (if merged.isSplit then 1 else 0) - (subsumed.filter (0 < ·)).length
  let netChangeSize : ℤ := (if merged.isSplit then (merged.size : ℤ) else 0) - subsumed.sum
  { stats with
    inactiveSplit :=
      stats.inactiveSplit + if merged.expandableSegment.isNone then netChangeBlocks else 0
    inactiveSplitBytes :=
      stats.inactiveSplitBytes + if merged.expandableSegment.isNone then netChangeSize else 0
    active := stats.active - 1
    activeBytes := stats.activeBytes - blk.size }

/-- `free_block`. -/
def freeBlock (b : BlockId) : M Unit := do
  let blk ← deref b
  assert (!blk.allocated && blk.eventCount = 0)
  let before ← tryMergeBlocks b blk.prev blk.pool
  let after ← tryMergeBlocks b blk.next blk.pool
  eraseActive b
  insertBlock blk.pool b
  let merged ← deref b
  updateStats blk.pool fun stats => stats.free blk merged [before, after]

/-- Link in a new block for the bytes of `b` from `k` on, and shrink `b`. -/
def cutBack (link : BlockId → Option BlockId → Option BlockId → M Unit) (b : BlockId) (k : ℕ)
    (stream : Stream) (pool : PoolId) (mapped : Bool) : M BlockId := do
  let blk ← deref b
  let new ← newBlock
    { stream, pool, mapped, size := blk.size - k, ptr := blk.ptr + k
      expandableSegment := blk.expandableSegment }
  link new (some b) blk.next
  store b fun blk => { blk with size := k }
  return new

/-- Link in a new block for the first `k` bytes of `b`, and shrink `b`. -/
def cutFront (link : BlockId → Option BlockId → Option BlockId → M Unit) (b : BlockId) (k : ℕ)
    (stream : Stream) (pool : PoolId) : M BlockId := do
  let blk ← deref b
  let new ← newBlock
    { stream, pool, size := k, ptr := blk.ptr, expandableSegment := blk.expandableSegment }
  link new blk.prev (some b)
  store b fun blk => { blk with ptr := blk.ptr + k, size := blk.size - k }
  return new

/-! ### Events -/

/-- An event of `b` is over: `event_count` goes down, and at zero the block is free. -/
def finishEvent (b : BlockId) : M Unit := do
  store b fun blk => { blk with eventCount := blk.eventCount - 1 }
  if (← deref b).eventCount = 0 then
    freeBlock b

/-- `npu_events[stream].emplace_back`. -/
def pushEvent (stream : Stream) (b : BlockId) :
    List (Stream × List BlockId) → List (Stream × List BlockId)
  | [] => [(stream, [b])]
  | (st, queue) :: rest =>
    if st = stream then (st, queue ++ [b]) :: rest else (st, queue) :: pushEvent stream b rest

/-- The loop of `insert_events`. -/
def recordEvents (b : BlockId) : List Stream → M Unit
  | [] => pure ()
  | stream :: streams => do
    store b fun blk => { blk with eventCount := blk.eventCount + 1 }
    modify fun s => { s with npuEvents := pushEvent stream b s.npuEvents }
    recordEvents b streams

/-- `insert_events`. -/
def insertEvents (b : BlockId) : M Unit := do
  let streams := (← deref b).streamUses
  store b fun blk => { blk with streamUses := [] }
  recordEvents b streams

/-- `remove_npugraph_stream_uses`. -/
def removeNpugraphStreamUses (b : BlockId) : M Unit := do
  match (← get).blockToNpugraphStreamUses b with
  | none => pure ()
  | some uses => do
    store b fun blk => { blk with streamUses := blk.streamUses.filter (· ∉ uses) }
    modify fun s =>
      { s with blockToNpugraphStreamUses := Function.update s.blockToNpugraphStreamUses b none }

/-- The loop of `insert_events_deferred_until_no_capture`. -/
def insertDeferred : List BlockId → M Unit
  | [] => pure ()
  | b :: bs => do
    assert (!(← deref b).streamUses.isEmpty)
    removeNpugraphStreamUses b
    insertEvents b
    if (← deref b).eventCount = 0 then
      freeBlock b
    insertDeferred bs

/-- `insert_events_deferred_until_no_capture`. -/
def insertEventsDeferredUntilNoCapture : M Unit := do
  insertDeferred (← get).needsEventsDeferredUntilNoCapture
  modify fun s => { s with needsEventsDeferredUntilNoCapture := [] }

/-- The inner loop of `process_events`: the events at the front of one stream's queue.  `done` and
`rest` are the entries of the map before and after this one. -/
def processQueue (done : List (Stream × List BlockId)) (stream : Stream)
    (rest : List (Stream × List BlockId)) : List BlockId → M (List BlockId)
  | [] => return []
  | b :: queue => do
    if ← queryEvent then
      finishEvent b
      modify fun s => { s with npuEvents := done ++ (stream, queue) :: rest }
      processQueue done stream rest queue
    else
      return b :: queue

/-- The outer loop of `process_events`. -/
def processStreams (done : List (Stream × List BlockId)) :
    List (Stream × List BlockId) → M Unit
  | [] => pure ()
  | (stream, queue) :: rest => do
    let left ← processQueue done stream rest queue
    if left = [] then
      modify fun s => { s with npuEvents := done ++ rest }
      processStreams done rest
    else
      processStreams (done ++ [(stream, left)]) rest

/-- `process_events`. -/
def processEvents : M Unit := do
  insertEventsDeferredUntilNoCapture
  processStreams [] (← get).npuEvents

/-- The blocks of the events in the queues. -/
def State.pending (s : State) : List BlockId :=
  s.npuEvents.flatMap Prod.snd

/-- The loop of `synchronize_and_free_events`, over the blocks of all queues. -/
def finishAll : List BlockId → M Unit
  | [] => pure ()
  | b :: bs => do
    finishEvent b
    finishAll bs

/-- `synchronize_and_free_events`. -/
def synchronizeAndFreeEvents : M Unit := do
  assert (← get).capturesUnderway.isEmpty
  insertEventsDeferredUntilNoCapture
  finishAll (← get).pending
  modify fun s => { s with npuEvents := [] }

/-! ### Expandable segments -/

/-- `map_block`. -/
def mapBlock (toMap : BlockId) (size : ℕ) (mapPool : PoolId) : M Bool := do
  let blk ← deref toMap
  assert (!blk.mapped && size ≤ blk.size)
  match blk.expandableSegment with
  | none => throw .badPointer
  | some e =>
    let mappedRange ← e.map ⟨blk.ptr, size⟩ mapPool
    if mappedRange.size = 0 then
      return false
    assert (mappedRange.lo = blk.ptr && size ≤ mappedRange.size)
    eraseUnmapped blk.pool toMap
    store toMap fun blk => { blk with mapped := true }
    if mappedRange.size < blk.size then
      let remaining ← cutBack splice toMap mappedRange.size blk.stream blk.pool false
      insertUnmapped blk.pool remaining
    let _ ← tryMergeBlocks toMap (← deref toMap).prev blk.pool
    let _ ← tryMergeBlocks toMap (← deref toMap).next blk.pool
    insertBlock blk.pool toMap
    modify fun s => { s with totalAllocatedMemory := s.totalAllocatedMemory + mappedRange.size }
    updateStats blk.pool fun stats =>
      { stats with reservedBytes := stats.reservedBytes + mappedRange.size }
    return true

/-- The lambda `allocatable` of `find_expandable_block`. -/
def allocatable (b : Option BlockId) : M Bool := do
  match b with
  | none => return false
  | some b =>
    let blk ← deref b
    return !blk.allocated && blk.eventCount = 0 && blk.streamUses.isEmpty

/-- The loop of the lambda `has_available_address_space`: no block is empty, so `size` rounds are
enough. -/
def availableAddressSpace (size : ℕ) : ℕ → ℕ → Option BlockId → M Bool
  | 0, bytes, _ => return size ≤ bytes
  | fuel + 1, bytes, b => do
    if size ≤ bytes then
      return true
    if ← allocatable b then
      match b with
      | none => return false
      | some b =>
        let blk ← deref b
        availableAddressSpace size fuel (bytes + blk.size) blk.next
    else
      return false

/-- The loop of `find_expandable_block`, over the unmapped blocks from `lower_bound` on. -/
def findInUnmapped (stream : Stream) (size : ℕ) : List BlockId → M (Option BlockId)
  | [] => return none
  | it :: rest => do
    let blk ← deref it
    if blk.stream ≠ stream then
      return none
    let mut c := it
    if let some prev := blk.prev then
      if ← allocatable (some prev) then
        c := prev
    if ← availableAddressSpace size size 0 (some c) then
      return some c
    else
      findInUnmapped stream size rest

/-- `find_expandable_block`. -/
def findExpandableBlock (cfg : Config) (stream : Stream) (pool : PoolId) (size : ℕ) : M BlockId := do
  let s ← get
  let key : Block := { stream, size := 0, pool, ptr := 0 }
  match ← findInUnmapped stream size (fromLowerBound comparatorAddress s.heap key (s.unmapped pool)) with
  | some c => return c
  | none =>
    let segmentSize :=
      if cfg.isMallocPage1GMem pool.isSmall then kExtraLargeBuffer
      else if pool.isSmall then kSmallBuffer
      else if 0 < cfg.segmentSizeMb then cfg.segmentSizeMb else kLargeBuffer
    let e ← ExpandableSegment.reserve segmentSize
    let candidate ← newBlock
      { stream, pool, size := e.size, ptr := e.ptr, mapped := false, expandableSegment := some e }
    insertUnmapped pool candidate
    return candidate

/-- The loop of `try_allocate_expandable_block`: every round maps more than nothing, so `size` rounds
are enough. -/
def growCandidate (pool : PoolId) (size : ℕ) : ℕ → BlockId → M (Option BlockId)
  | 0, _ => return none
  | fuel + 1, candidate => do
    let blk ← deref candidate
    if size ≤ blk.size then
      eraseBlock pool candidate
      return some candidate
    match blk.next with
    | none => return none
    | some newCandidate =>
      let nextBlk ← deref newCandidate
      if ← mapBlock newCandidate (min (size - blk.size) nextBlk.size) pool then
        growCandidate pool size fuel newCandidate
      else
        return none

/-- `try_allocate_expandable_block`. -/
def tryAllocateExpandableBlock (cfg : Config) (stream : Stream) (pool : PoolId) (size : ℕ) :
    M (Option BlockId) := do
  let candidate ← findExpandableBlock cfg stream pool size
  let blk ← deref candidate
  if !blk.mapped then
    if !(← mapBlock candidate (min blk.size size) pool) then
      return none
  assert (← deref candidate).mapped
  growCandidate pool size (size + 1) candidate

/-- `unmap_block`: `before_free` and `after_free` are the parts of the block that do not fill a page.
The block shrinks as they are spliced in. -/
def unmapBlock (b : BlockId) (freePhysical : Bool) : M Unit := do
  let blk ← deref b
  match blk.expandableSegment with
  | none => throw .badPointer
  | some e =>
    let unmapped ← e.unmap ⟨blk.ptr, blk.size⟩ (if freePhysical then none else some blk.pool)
    if unmapped.size = 0 then
      return
    eraseBlock blk.pool b
    let beforeSize := unmapped.lo - blk.ptr
    if 0 < beforeSize then
      let beforeFree ← cutFront splice b beforeSize blk.stream blk.pool
      insertBlock blk.pool beforeFree
    let afterSize := blk.size - (beforeSize + unmapped.size)
    if 0 < afterSize then
      let afterFree ← cutBack splice b unmapped.size blk.stream blk.pool true
      insertBlock blk.pool afterFree
    store b fun blk => { blk with ptr := unmapped.lo, size := unmapped.size, mapped := false }
    let _ ← tryMergeBlocks b (← deref b).prev blk.pool
    let _ ← tryMergeBlocks b (← deref b).next blk.pool
    insertUnmapped blk.pool b
    modify fun s => { s with totalAllocatedMemory := s.totalAllocatedMemory - unmapped.size }
    updateStats blk.pool fun stats =>
      { stats with reservedBytes := stats.reservedBytes - unmapped.size }
    countFree blk.pool

/-! ### Giving memory back -/

/-- `release_block`. -/
def releaseBlock (b : BlockId) : M Unit := do
  let blk ← deref b
  assert blk.expandableSegment.isNone
  recordTrace (.segmentFree blk (decide (b ∈ (← get).blocks blk.pool)))
  aclrtFree blk.ptr
  modify fun s => { s with totalAllocatedMemory := s.totalAllocatedMemory - blk.size }
  countFree blk.pool
  updateStats blk.pool fun stats =>
    { stats with segment := stats.segment - 1, reservedBytes := stats.reservedBytes - blk.size }
  eraseBlock blk.pool b
  deleteBlock b

/-- `release_expandable_segment`. -/
def releaseExpandableSegment (b : BlockId) : M Unit := do
  let blk ← deref b
  match blk.expandableSegment with
  | none => throw .badPointer
  | some e =>
    assert (blk.size = e.size)
    assert (!blk.mapped)
    assert ((← get).expandableSegments.contains e)
    eraseUnmapped blk.pool b
    e.release
    deleteBlock b

/-- The first loop of `release_blocks`, which yields `to_unmap`. -/
def releaseWhole : List BlockId → M (List BlockId)
  | [] => return []
  | b :: bs => do
    let blk ← deref b
    if blk.expandableSegment.isSome then
      return b :: (← releaseWhole bs)
    if blk.prev.isNone && blk.next.isNone then
      releaseBlock b
    releaseWhole bs

/-- The second loop of `release_blocks`. -/
def unmapAll (freePhysical : Bool) : List BlockId → M Unit
  | [] => pure ()
  | b :: bs => do
    unmapBlock b freePhysical
    let blk ← deref b
    if blk.prev.isNone && blk.next.isNone then
      releaseExpandableSegment b
    unmapAll freePhysical bs

/-- The last loop of `release_blocks`, over the cached physical handles. -/
def freeHandles (pool : PoolId) : ℕ → M Unit
  | 0 => pure ()
  | n + 1 => do
    checkError
    modify fun s =>
      { s with
        freePhysicalHandles := Function.update s.freePhysicalHandles pool
          (s.freePhysicalHandles pool).dropLast }
    freeHandles pool n

/-- `release_blocks`. -/
def releaseBlocks (pool : PoolId) (freePhysical : Bool) : M Unit := do
  let toUnmap ← releaseWhole ((← get).blocks pool)
  unmapAll freePhysical toUnmap
  if freePhysical then
    freeHandles pool ((← get).freePhysicalHandles pool).length

/-- `graph_pools.erase`, and the entry of `graph_pools_freeable` with it. -/
def erasePool (id : MempoolId) : M Unit :=
  modify fun s =>
    { s with
      graphPools := Function.update s.graphPools id none
      graphPoolsFreeable := s.graphPoolsFreeable.filter (· ≠ id)
      blocks := fun pool => if pool.owner = some id then [] else s.blocks pool
      unmapped := fun pool => if pool.owner = some id then [] else s.unmapped pool
      freePhysicalHandles := fun pool =>
        if pool.owner = some id then [] else s.freePhysicalHandles pool }

/-- The private pool of an entry of `graph_pools_freeable`. -/
def freeablePool (id : MempoolId) : M PrivatePool := do
  match (← get).graphPools id with
  | some privatePool => return privatePool
  | none => throw .badPointer

/-- The loop of `release_cached_blocks` over `graph_pools_freeable`. -/
def releaseFreeable (freePhysical : Bool) : List MempoolId → M Unit
  | [] => pure ()
  | id :: ids => do
    assert ((← freeablePool id).useCount = 0)
    releaseBlocks ⟨some id, true⟩ freePhysical
    releaseBlocks ⟨some id, false⟩ freePhysical
    let privatePool ← freeablePool id
    if privatePool.npuMallocCount = 0 then
      recordTrace (.erasePool privatePool)
      erasePool id
    releaseFreeable freePhysical ids

/-- `release_cached_blocks`. -/
def releaseCachedBlocks (freePhysical : Bool) : M Unit := do
  synchronizeAndFreeEvents
  releaseBlocks .large freePhysical
  releaseBlocks .small freePhysical
  releaseFreeable freePhysical (← get).graphPoolsFreeable

/-- What `garbage_collect_cached_blocks` counts before it drops the lock; nothing when there is no
need to collect or nothing to free. -/
def collectionStage (cfg : Config) : M (Option Stage) := do
  let s ← get
  match s.allowedMemoryMaximum with
  | none => return none
  | some maximum =>
    let gcThreshold := ⌊cfg.garbageCollectionThreshold * maximum⌋₊
    let freeable := ((s.blocks .large).filterMap s.heap).filter fun blk => !blk.isSplit
    if cfg.garbageCollectionThreshold ≤ 0 || s.totalAllocatedMemory ≤ gcThreshold ||
        freeable.isEmpty then
      return none
    else
      return some (.collect (s.totalAllocatedMemory - gcThreshold)
        (freeable.map Block.gcCount).sum freeable.length)

/-- The local variables of the loops of `garbage_collect_cached_blocks`. -/
structure Collected where
  gcReclaimed : ℕ := 0
  totalAge : ℤ
  freeableBlockCount : ℤ
  blockFreed : Bool := true

/-- The inner loop of `garbage_collect_cached_blocks`; `age` and `count` are those `age_threshold` is
the quotient of. -/
def collectOld (age count : ℤ) : Collected → List BlockId → M Collected
  | c, [] => return c
  | c, b :: bs => do
    let blk ← deref b
    if !blk.isSplit && age ≤ blk.gcCount * count then
      releaseBlock b
      collectOld age count
        { gcReclaimed := c.gcReclaimed + blk.size
          totalAge := c.totalAge - blk.gcCount
          freeableBlockCount := c.freeableBlockCount - 1
          blockFreed := true } bs
    else
      collectOld age count c bs

/-- The outer loop of `garbage_collect_cached_blocks`: every round but the last frees a block. -/
def collectRounds (targetSize : ℕ) : ℕ → Collected → M Unit
  | 0, _ => pure ()
  | fuel + 1, c => do
    if c.gcReclaimed < targetSize && c.blockFreed && 0 < c.freeableBlockCount then
      let c ← collectOld c.totalAge c.freeableBlockCount { c with blockFreed := false }
        ((← get).blocks .large)
      collectRounds targetSize fuel c
    else
      pure ()

/-- `garbage_collect_cached_blocks` once it has the lock again. -/
def garbageCollectCachedBlocks (targetSize totalAge freeableBlockCount : ℕ) : M Unit := do
  let rounds := ((← get).blocks .large).length + 1
  collectRounds targetSize rounds { totalAge, freeableBlockCount }

/-- The part of `release_available_cached_blocks` before the lock is dropped: the iterator. -/
def availableIterator (cfg : Config) (p : AllocParams) : M (Option Iterator) := do
  let s ← get
  let size := if p.size < cfg.maxSplitSize then cfg.maxSplitSize else p.size
  let key : Block := { stream := p.stream, size, pool := p.pool, ptr := 0 }
  match fromLowerBound comparatorSize s.heap key (s.blocks p.pool) with
  | [] => return none
  | b :: _ => return some ⟨b, s.insertions b⟩

/-- The loop of `release_available_cached_blocks`, going down from the largest block. -/
def releaseDownwards (cfg : Config) (p : AllocParams) (keySize : ℕ) : ℕ → List BlockId → M ℕ
  | totalReleased, [] => return totalReleased
  | totalReleased, b :: bs => do
    let blk ← deref b
    if totalReleased < keySize && cfg.maxSplitSize ≤ blk.size && blk.stream = p.stream then
      releaseBlock b
      releaseDownwards cfg p keySize (totalReleased + blk.size) bs
    else
      return totalReleased

/-- `release_available_cached_blocks` once it has the lock again. -/
def releaseAvailableCachedBlocks (cfg : Config) (p : AllocParams) (it : Option Iterator) :
    M Bool := do
  let keySize := if p.size < cfg.maxSplitSize then cfg.maxSplitSize else p.size
  let s ← get
  match it with
  | none =>
    if s.blocks p.pool = [] then
      return false
    let totalReleased ← releaseDownwards cfg p keySize 0 (s.blocks p.pool).reverse
    return keySize ≤ totalReleased
  | some it =>
    if !(s.blocks p.pool).contains it.block || s.insertions it.block ≠ it.insertion then
      throw .badPointer
    let blk ← deref it.block
    if blk.stream ≠ p.stream then
      let before := (s.blocks p.pool).takeWhile (· ≠ it.block)
      if before = [] then
        return false
      let totalReleased ← releaseDownwards cfg p keySize 0 before.reverse
      return keySize ≤ totalReleased
    else
      releaseBlock it.block
      return true

/-! ### Allocation -/

/-- The lambda `expandable_size` of `get_free_block`. -/
def expandableSize (b : BlockId) : M ℕ := do
  let blk ← deref b
  match blk.next with
  | none => return blk.size
  | some next =>
    let nextBlk ← deref next
    return blk.size + if nextBlk.mapped then 0 else nextBlk.size

/-- The best-fit search among expandable blocks. -/
def bestFit (stream : Stream) (it : BlockId) : List BlockId → M BlockId
  | [] => return it
  | next :: rest => do
    if (← deref it).expandableSegment.isNone then
      return it
    if (← deref next).stream ≠ stream then
      return it
    if (← expandableSize next) < (← expandableSize it) then
      bestFit stream next rest
    else
      return it

/-- The search for a block that is not expandable. -/
def skipExpandable (stream : Stream) : List BlockId → M (Option BlockId)
  | [] => return none
  | it :: rest => do
    let blk ← deref it
    if blk.expandableSegment.isSome && blk.stream = stream then
      skipExpandable stream rest
    else if blk.stream ≠ stream then
      return none
    else
      return some it

/-- The search of `get_free_block` from `lower_bound` on. -/
def searchFree (cfg : Config) (stream : Stream) : List BlockId → M (Option BlockId)
  | [] => return none
  | it :: rest => do
    let blk ← deref it
    if blk.stream ≠ stream then
      return none
    if blk.expandableSegment.isNone then
      return some it
    if cfg.expandableSegments then
      return some (← bestFit stream it rest)
    else
      skipExpandable stream rest

/-- `++b->gc_count` for the blocks of a pool. -/
def ageBlocks (pool : PoolId) : M Unit :=
  modify fun s =>
    { s with
      heap := fun x =>
        if x ∈ s.blocks pool then (s.heap x).map fun blk => { blk with gcCount := blk.gcCount + 1 }
        else s.heap x }

/-- `get_free_block`. -/
def getFreeBlock (cfg : Config) (p : AllocParams) : M (Option BlockId) := do
  if (← get).allowedMemoryMaximum.isSome && 0 < cfg.garbageCollectionThreshold then
    ageBlocks p.pool
  let s ← get
  let key : Block := { stream := p.stream, size := p.size, pool := p.pool, ptr := 0 }
  match ← searchFree cfg p.stream (fromLowerBound comparatorSize s.heap key (s.blocks p.pool)) with
  | none => return none
  | some it =>
    let blk ← deref it
    if p.size < cfg.maxSplitSize && cfg.maxSplitSize ≤ blk.size then
      return none
    if cfg.maxSplitSize ≤ p.size && (p.size + kLargeBuffer) % 2 ^ 64 ≤ blk.size then
      return none
    store it fun blk => { blk with gcCount := 0 }
    eraseBlock p.pool it
    recordTrace (.handOut (← deref it))
    return some it

/-- The condition of `alloc_block` on `allowed_memory_maximum`. -/
def State.exceeds (s : State) (size : ℕ) : Bool :=
  match s.allowedMemoryMaximum with
  | none => false
  | some maximum => maximum < s.totalAllocatedMemory + size

/-- `alloc_block` with expandable segments. -/
def allocExpandable (cfg : Config) (p : AllocParams) : M (Except Exception BlockId) := do
  match ← tryAllocateExpandableBlock cfg p.stream p.pool p.size with
  | some b =>
    countMalloc p.pool
    recordTrace (.handOut (← deref b))
    return .ok b
  | none => return .error .outOfMemory

/-- `alloc_block` with a segment of its own. -/
def allocSegment (p : AllocParams) : M (Except Exception BlockId) := do
  match ← aclrtMalloc p.allocSize with
  | .ok ptr =>
    countMalloc p.pool
    modify fun s => { s with totalAllocatedMemory := s.totalAllocatedMemory + p.allocSize }
    let b ← newBlock { stream := p.stream, size := p.allocSize, pool := p.pool, ptr }
    updateStats p.pool fun stats =>
      { stats with
        segment := stats.segment + 1
        reservedBytes := stats.reservedBytes + p.allocSize }
    recordTrace (.handOut (← deref b))
    return .ok b
  | .error err => return .error err

/-- `alloc_block`. -/
def allocBlock (cfg : Config) (p : AllocParams) : M (Except Exception BlockId) := do
  if (← get).exceeds p.allocSize then
    return .error .outOfMemory
  else if cfg.expandableSegments then
    allocExpandable cfg p
  else
    allocSegment p

/-- `should_split`. -/
def shouldSplit (cfg : Config) (blk : Block) (size : ℕ) : Bool :=
  let remaining := blk.size - size
  if blk.pool.isSmall || cfg.expandableSegments then kMinBlockSize ≤ remaining
  else size < cfg.maxSplitSize && kSmallSize < remaining

/-- The part of `malloc` that aligns the address of the block. -/
def alignBlock (cfg : Config) (p : AllocParams) (b : BlockId) : M BlockId := do
  let blk ← deref b
  let alignRound := cfg.baseAddrAlignedSize
  if kRoundLarge ≤ p.size && cfg.expandableSegments && alignRound ≠ 0 &&
      blk.ptr % alignRound ≠ 0 then
    let offsetSize := blk.ptr + alignRound - blk.ptr % alignRound - blk.ptr
    if offsetSize + p.size ≤ blk.size then
      let new ← cutBack chain b offsetSize p.stream p.pool true
      insertBlock p.pool b
      return new
  return b

/-- What splitting a block of a segment does to the statistics: `remaining` is its rest, and it was
`alreadySplit` or not. -/
def Stats.split (stats : Stats) (alreadySplit : Bool) (size : ℕ) (remaining : Block) : Stats :=
  if alreadySplit then { stats with inactiveSplitBytes := stats.inactiveSplitBytes - size }
  else
    { stats with
      inactiveSplitBytes := stats.inactiveSplitBytes + remaining.size
      inactiveSplit := stats.inactiveSplit + 1 }

/-- The first half of `alloc_found_block`: the block that is to be allocated. -/
def splitFound (p : AllocParams) (b : BlockId) (splitRemainder : Bool) : M BlockId := do
  let blk ← deref b
  if splitRemainder then
    let new ← cutFront chain b p.size p.stream p.pool
    insertBlock p.pool b
    if blk.expandableSegment.isNone then
      let remaining ← deref b
      updateStats p.pool fun stats => stats.split blk.isSplit p.size remaining
    return new
  else
    if blk.isSplit && blk.expandableSegment.isNone then
      updateStats p.pool fun stats =>
        { stats with
          inactiveSplitBytes := stats.inactiveSplitBytes - blk.size
          inactiveSplit := stats.inactiveSplit - 1 }
    return b

/-- The second half of `alloc_found_block`. -/
def activate (p : AllocParams) (b : BlockId) : M Unit := do
  store b fun blk => { blk with allocated := true }
  insertActive b
  let blk ← deref b
  updateStats p.pool fun stats =>
    { stats with
      allocation := stats.allocation + 1
      allocatedBytes := stats.allocatedBytes + blk.size
      active := stats.active + 1
      activeBytes := stats.activeBytes + blk.size }

/-- `alloc_found_block`. -/
def allocFoundBlock (p : AllocParams) (b : BlockId) (splitRemainder : Bool) : M Unit := do
  activate p (← splitFound p b splitRemainder)

/-- The end of `malloc`, once a block is found. -/
def finishMalloc (cfg : Config) (p : AllocParams) (b : BlockId) : M Unit := do
  let b ← alignBlock cfg p b
  let blk ← deref b
  allocFoundBlock p b (shouldSplit cfg blk p.size)

/-- The thread drops the lock inside `malloc`. -/
def unlock (t : Thread) (pending : Pending) : M Unit :=
  modify fun s => { s with mallocs := Function.update s.mallocs t (some pending) }

/-- No block was found; outside of captures the cached blocks are released for another try. -/
def fallBack (t : Thread) (p : AllocParams) (err : Exception) : M Unit := do
  if (← get).capturesUnderway.isEmpty then
    unlock t ⟨p, .cached⟩
  else
    throw err

/-- The part of `malloc` from the first `alloc_block` on. -/
def allocate (cfg : Config) (t : Thread) (p : AllocParams) : M Unit := do
  match ← allocBlock cfg p with
  | .ok b => finishMalloc cfg p b
  | .error err =>
    if cfg.maxSplitSize = sizeMax then
      fallBack t p err
    else
      unlock t ⟨p, .available (← availableIterator cfg p) err⟩

/-- `get_pool`; `captured` has the captures whose filter takes the stream. -/
def getPool (captured : List MempoolId) (size : ℕ) : M PoolId := do
  match (← get).capturesUnderway.find? fun id => decide (id ∈ captured) with
  | none => return poolOf none size
  | some id =>
    assert ((← get).graphPools id).isSome
    return poolOf (some id) size

/-- The search of `malloc` among the free blocks. -/
def findFree (cfg : Config) (p : AllocParams) : M (Option BlockId) := do
  let found ← getFreeBlock cfg p
  if cfg.multiStreamLazyReclaim && (← get).capturesUnderway.isEmpty then
    let sum := ((← get).npuEvents.map (·.2.length)).sum
    if found.isNone || kLazyQuerySize < sum then
      processEvents
    if found.isNone then
      getFreeBlock cfg p
    else
      return found
  else
    return found

/-- `malloc` up to the first place where it drops the lock. -/
def malloc (cfg : Config) (t : Thread) (captured : List MempoolId) (origSize : ℕ)
    (stream : Stream) : M Unit := do
  if !cfg.multiStreamLazyReclaim && (← get).capturesUnderway.isEmpty then
    processEvents
  let size := roundSize cfg origSize
  let pool ← getPool captured size
  let p : AllocParams := ⟨size, stream, pool, Allocator.allocSize cfg size⟩
  match ← findFree cfg p with
  | some b => finishMalloc cfg p b
  | none =>
    match ← collectionStage cfg with
    | some stage => unlock t ⟨p, stage⟩
    | none => allocate cfg t p

/-- `malloc` after the device has been synchronised. -/
def resumeMalloc (cfg : Config) (t : Thread) (pending : Pending) : M Unit := do
  modify fun s => { s with mallocs := Function.update s.mallocs t none }
  let p := pending.params
  match pending.stage with
  | .collect targetSize totalAge freeableBlockCount =>
    garbageCollectCachedBlocks targetSize totalAge freeableBlockCount
    allocate cfg t p
  | .available it err =>
    if ← releaseAvailableCachedBlocks cfg p it then
      match ← allocBlock cfg p with
      | .ok b => finishMalloc cfg p b
      | .error err => fallBack t p err
    else
      fallBack t p err
  | .cached =>
    releaseCachedBlocks true
    match ← allocBlock cfg p with
    | .ok b => finishMalloc cfg p b
    | .error err => throw err

/-! ### The other operations -/

/-- `free`; `initFlag` is `NpuSysCtrl::GetInitFlag`. -/
def free (b : BlockId) (initFlag : Bool) : M Unit := do
  store b fun blk => { blk with allocated := false }
  let blk ← deref b
  updateStats blk.pool fun stats =>
    { stats with
      allocation := stats.allocation - 1
      allocatedBytes := stats.allocatedBytes - blk.size }
  if !blk.streamUses.isEmpty && initFlag then
    if (← get).capturesUnderway.isEmpty then
      insertEvents b
    else
      modify fun s =>
        { s with
          needsEventsDeferredUntilNoCapture := s.needsEventsDeferredUntilNoCapture ++ [b] }
  else
    freeBlock b

/-- `std::set::insert` of a stream. -/
def insertStream (stream : Stream) (streams : List Stream) : List Stream :=
  if stream ∈ streams then streams else stream :: streams

/-- `recordStream`. -/
def recordStream (b : BlockId) (stream : Stream) : M Unit := do
  store b fun blk => { blk with streamUses := insertStream stream blk.streamUses }
  if !(← get).capturesUnderway.isEmpty then
    modify fun s =>
      { s with
        blockToNpugraphStreamUses := Function.update s.blockToNpugraphStreamUses b
          (some (insertStream stream ((s.blockToNpugraphStreamUses b).getD []))) }

/-- The loop of `eraseStream` over the queue of the stream; `kept` are the entries it has passed. -/
def eraseEvents (b : BlockId) (done : List (Stream × List BlockId)) (stream : Stream)
    (rest : List (Stream × List BlockId)) (kept : List BlockId) : List BlockId → M Unit
  | [] => pure ()
  | x :: queue => do
    if x ≠ b then
      eraseEvents b done stream rest (kept ++ [x]) queue
    else
      modify fun s => { s with npuEvents := done ++ (stream, kept ++ queue) :: rest }
      store b fun blk => { blk with eventCount := blk.eventCount - 1 }
      if (← deref b).eventCount = 0 then
        freeBlock b
      else
        eraseEvents b done stream rest kept queue

/-- `npu_events[stream]`, which adds an empty queue for a stream that has none, and the loop over
it. -/
def eraseFromQueue (b : BlockId) (stream : Stream) (done : List (Stream × List BlockId)) :
    List (Stream × List BlockId) → M Unit
  | [] => modify fun s => { s with npuEvents := done ++ [(stream, [])] }
  | (st, queue) :: rest =>
    if st = stream then eraseEvents b done stream rest [] queue
    else eraseFromQueue b stream (done ++ [(st, queue)]) rest

/-- `eraseStream`. -/
def eraseStream (b : BlockId) (stream : Stream) : M Unit := do
  store b fun blk => { blk with streamUses := blk.streamUses.filter (· ≠ stream) }
  eraseFromQueue b stream [] (← get).npuEvents

/-! ### Graph captures -/

/-- `beginAllocateToPool`; the last check comes after the pool has been made or counted. -/
def beginAllocateToPool (id : MempoolId) : M Unit := do
  match (← get).graphPools id with
  | none => setPool id {}
  | some privatePool => do
    assert (0 < privatePool.useCount)
    setPool id { privatePool with useCount := privatePool.useCount + 1 }
  assert (!(← get).capturesUnderway.contains id)
  modify fun s => { s with capturesUnderway := s.capturesUnderway ++ [id] }

/-- `endAllocateToPool`. -/
def endAllocateToPool (id : MempoolId) : M Unit := do
  assert ((← get).capturesUnderway.contains id)
  modify fun s => { s with capturesUnderway := s.capturesUnderway.erase id }

/-- `releasePool`. -/
def releasePool (id : MempoolId) : M Unit := do
  match (← get).graphPools id with
  | none => throw .internalAssert
  | some privatePool => do
    let uc := privatePool.useCount - 1
    setPool id { privatePool with useCount := uc }
    assert (0 ≤ uc)
    if uc = 0 then
      assert (!(← get).graphPoolsFreeable.contains id)
      modify fun s => { s with graphPoolsFreeable := s.graphPoolsFreeable ++ [id] }

/-! ### Steps -/

/-- A step: the thread that takes it, with what it asks for, the configuration it reads and the
answers of the driver.  A block that is freed or recorded is one that `get_allocated_block` finds;
`process_events` runs outside of captures only.  `getCheckpointState` is a step for what it does to the
deferred blocks.  `rehash` changes the order in which the map of events is iterated. -/
inductive Label
  | malloc (cfg : Config) (t : Thread) (captured : List MempoolId) (origSize : ℕ) (stream : Stream)
      (answers : List Answer)
  | resumeMalloc (cfg : Config) (t : Thread) (answers : List Answer)
  | free (b : BlockId) (initFlag : Bool)
  | recordStream (b : BlockId) (stream : Stream)
  | eraseStream (b : BlockId) (stream : Stream)
  | processEvents (answers : List Answer)
  | emptyCache (freePhysical : Bool) (answers : List Answer)
  | rehash (events : List (Stream × List BlockId))
  | getCheckpointState
  | beginAllocateToPool (id : MempoolId)
  | endAllocateToPool (id : MempoolId)
  | releasePool (id : MempoolId)
  | setMemoryFraction (maximum : ℕ)

/-- The state an operation ends in; there is none when the driver's answers do not fit or when the
operation follows a bad pointer. -/
def State.after (s : State) (x : M Unit) : Option State :=
  match x s with
  | .ok _ s' => some s'
  | .error .unanswered _ => none
  | .error .badPointer _ => none
  | .error _ s' => some s'

/-- `b` is one of `allocated_blocks`. -/
def State.isAllocated (s : State) (b : BlockId) : Bool :=
  match s.heap b with
  | some blk => blk.allocated
  | none => false

def State.next (s : State) : Label → Option State
  | .malloc cfg t captured origSize stream answers =>
    if (s.mallocs t).isSome then none
    else ({ s with answers } : State).after (Allocator.malloc cfg t captured origSize stream)
  | .resumeMalloc cfg t answers =>
    match s.mallocs t with
    | none => none
    | some pending => ({ s with answers } : State).after (Allocator.resumeMalloc cfg t pending)
  | .free b initFlag => if s.isAllocated b then s.after (Allocator.free b initFlag) else none
  | .recordStream b stream =>
    if s.isAllocated b then s.after (Allocator.recordStream b stream) else none
  | .eraseStream b stream =>
    if s.isAllocated b then s.after (Allocator.eraseStream b stream) else none
  | .processEvents answers =>
    if s.capturesUnderway.isEmpty then ({ s with answers } : State).after Allocator.processEvents
    else none
  | .emptyCache freePhysical answers =>
    ({ s with answers } : State).after (releaseCachedBlocks freePhysical)
  | .rehash events => if events.Perm s.npuEvents then some { s with npuEvents := events } else none
  | .getCheckpointState => s.after insertEventsDeferredUntilNoCapture
  | .beginAllocateToPool id => s.after (Allocator.beginAllocateToPool id)
  | .endAllocateToPool id => s.after (Allocator.endAllocateToPool id)
  | .releasePool id => s.after (Allocator.releasePool id)
  | .setMemoryFraction maximum => some { s with allowedMemoryMaximum := some maximum }

/-- The state after the steps `ls` of a new allocator. -/
def runFromInit (ls : List Label) : Option State :=
  Machine.run State.next {} ls

end TorchNpu.Allocator
