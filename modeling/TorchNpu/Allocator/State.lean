/-
  The state of `DeviceCachingAllocator` (`NPUCachingAllocator.cpp`) and the steps its operations are
  made of.

  A `Block *` is a number: `new Block` takes one that has not been used before and `delete` empties its
  cell, so a pointer to a deleted block is a number whose cell is empty.  Following it, or a null
  pointer, is undefined behaviour; here it is an exception of its own, `badPointer`.  An operation is a
  computation of `EStateM`: an exception leaves the state as it was when it was thrown.

  What the driver answers is not known to the allocator.  `answers` lists the answers to the calls to
  come; addresses the driver hands out are free, and an answer that does not fit the call ends the
  computation with `unanswered`, which is no outcome of the program.  `device` lists the live results
  of `aclrtMalloc`.

  The two sets of a pool are lists in the order of their comparators, in which no two elements compare
  equal.  An iterator of `blocks` remembers how often the block it points to has been inserted: after
  an erasure the iterator dangles, also when the block has come back.

  The map `npu_events` is a list of streams with their queues; its order is that of the iteration.

  `trace` is a record for the reader of a run: which blocks were handed out, what `release_block` was
  called with, and what became of the private pools.
-/
import Mathlib.Data.Nat.Bitwise
import Mathlib.Data.Nat.Log
import Mathlib.Data.Rat.Floor
import Mathlib.Tactic.Ring
import TorchNpu.Lib.Tiling

/-!
  The sizes the caching allocator works with (`NPUCachingAllocator.cpp`, `NPUAllocatorConfig.cpp`).

  Sizes are 64-bit unsigned numbers.  Requests come from outside, so the arithmetic on them is written
  with the wrap-around it has; the sizes of blocks are those of memory the device has handed out, and
  computations on them do not wrap.
-/

namespace TorchNpu.Allocator

/-! ### Constants -/

def kMinBlockSize : ℕ := 512

def kSmallSize : ℕ := 1048576

def kSmallBuffer : ℕ := 2097152

def kLargeBuffer : ℕ := 20971520

def kExtraLargeBuffer : ℕ := 1073741824

def kMinLargeAlloc : ℕ := 10485760

def kRoundLarge : ℕ := 2097152

def kLazyQuerySize : ℕ := 512

def kRoundUpPowerOfTwoStart : ℕ := 2 ^ 20

def kRoundUpPowerOfTwoIntervals : ℕ := 16

/-- `std::numeric_limits<size_t>::max()`. -/
def sizeMax : ℕ := 2 ^ 64 - 1

/-- What the operations below read from `CachingAllocatorConfig`.  `page1G` is the answer of
`IsMallocPage1GMem` for the large pools; sizes are in bytes. -/
structure Config where
  maxSplitSize : ℕ := sizeMax
  garbageCollectionThreshold : ℚ := 0
  expandableSegments : Bool := false
  baseAddrAlignedSize : ℕ := 16384
  page1G : Bool := false
  segmentSizeMb : ℕ := 0
  roundupPower2Divisions : List ℕ := List.replicate 16 0
  multiStreamLazyReclaim : Bool := false

/-- `MempoolId_t`. -/
abbrev MempoolId := ℕ

/-- A `BlockPool`: one of the two of the allocator, or of the two of a private pool. -/
structure PoolId where
  owner : Option MempoolId := none
  isSmall : Bool
  deriving DecidableEq

/-- `small_blocks`. -/
def PoolId.small : PoolId := { isSmall := true }

/-- `large_blocks`. -/
def PoolId.large : PoolId := { isSmall := false }

/-! ### Rounding a request -/

/-- `CachingAllocatorConfig::roundup_power2_divisions`. -/
def Config.roundupPower2DivisionsOf (cfg : Config) (size : ℕ) : ℕ :=
  if size = 0 ∨ cfg.roundupPower2Divisions = [] then 0
  else
    let logSize := Nat.log2 size
    let intervalStart := Nat.log2 kRoundUpPowerOfTwoStart
    let index := if intervalStart < logSize then logSize - intervalStart else 0
    cfg.roundupPower2Divisions.getD (min index (kRoundUpPowerOfTwoIntervals - 1)) 0

/-- `roundup_power2_next_division`, called with two divisions or more. -/
def roundupPower2NextDivision (size divisions : ℕ) : ℕ :=
  if 2 ^ Nat.log2 size = size then size
  else
    let power2Floor := 2 ^ Nat.log2 size
    let power2Division := power2Floor >>> Nat.log2 divisions
    if power2Division = 0 then (power2Floor <<< 1) % 2 ^ 64
    else
      let roundSizeFloor := size &&& (2 ^ 64 - power2Division)
      if roundSizeFloor = size then size else (roundSizeFloor + power2Division) % 2 ^ 64

/-- `round_size`. -/
def roundSize (cfg : Config) (size : ℕ) : ℕ :=
  let size := (size + 32) % 2 ^ 64
  if size < kMinBlockSize then kMinBlockSize
  else
    let divisions := cfg.roundupPower2DivisionsOf size
    if 1 < divisions ∧ kMinBlockSize * divisions % 2 ^ 64 < size then
      roundupPower2NextDivision size divisions
    else kMinBlockSize * ((size + kMinBlockSize - 1) % 2 ^ 64 / kMinBlockSize)

/-- The pool for a size, of the allocator or of the private pool `owner`. -/
def poolOf (owner : Option MempoolId) (size : ℕ) : PoolId :=
  { owner := owner, isSmall := decide (size ≤ kSmallSize) }

/-- `get_allocation_size`. -/
def getAllocationSize (size : ℕ) : ℕ :=
  if size ≤ kSmallSize then kSmallBuffer
  else if size < kMinLargeAlloc then kLargeBuffer
  else kRoundLarge * ((size + kRoundLarge - 1) % 2 ^ 64 / kRoundLarge)

/-- `IsMallocPage1GMem`. -/
def Config.isMallocPage1GMem (cfg : Config) (isSmallPool : Bool) : Bool :=
  !isSmallPool && cfg.page1G

/-- The `alloc_size` of `malloc`. -/
def allocSize (cfg : Config) (size : ℕ) : ℕ :=
  if cfg.isMallocPage1GMem (decide (size ≤ kSmallSize)) then
    kExtraLargeBuffer * ((size + kExtraLargeBuffer - 1) % 2 ^ 64 / kExtraLargeBuffer)
  else getAllocationSize size

/-! ### What rounding yields -/

/-- Rounding up to a multiple either reaches the size or wraps around to zero. -/
theorem le_roundUp_or_eq_zero {m n : ℕ} (hm : 0 < m) (hm' : m < 2 ^ 64) (hn : n < 2 ^ 64) :
    n ≤ m * ((n + m - 1) % 2 ^ 64 / m) ∨ m * ((n + m - 1) % 2 ^ 64 / m) = 0 := by
  by_cases hwrap : n + m - 1 < 2 ^ 64
  · rw [Nat.mod_eq_of_lt hwrap]
    have hdiv := Nat.lt_mul_div_succ (n + m - 1) hm
    rw [Nat.mul_add, Nat.mul_one] at hdiv
    left
    omega
  · have hmod : (n + m - 1) % 2 ^ 64 = n + m - 1 - 2 ^ 64 := by omega
    rw [hmod, Nat.div_eq_of_lt (by omega)]
    right
    rfl

theorem le_allocSize {cfg : Config} {size : ℕ} (hsize : size < 2 ^ 64)
    (hpos : 0 < allocSize cfg size) : size ≤ allocSize cfg size := by
  unfold allocSize getAllocationSize at hpos ⊢
  split_ifs at hpos ⊢ with h1 h2 h3
  · have := le_roundUp_or_eq_zero (m := kExtraLargeBuffer) (by decide) (by decide) hsize
    omega
  · exact h2.trans (by decide)
  · exact h3.le.trans (by decide)
  · have := le_roundUp_or_eq_zero (m := kRoundLarge) (by decide) (by decide) hsize
    omega

theorem roundupPower2NextDivision_lt {size divisions : ℕ} (hsize : size < 2 ^ 64) :
    roundupPower2NextDivision size divisions < 2 ^ 64 := by
  unfold roundupPower2NextDivision
  dsimp only
  split_ifs
  · exact hsize
  · exact Nat.mod_lt _ (by decide)
  · exact hsize
  · exact Nat.mod_lt _ (by decide)

theorem roundSize_lt (cfg : Config) (size : ℕ) : roundSize cfg size < 2 ^ 64 := by
  unfold roundSize
  dsimp only
  have hmod := Nat.mod_lt (size + 32) (show 0 < 2 ^ 64 by decide)
  split_ifs
  · decide
  · exact roundupPower2NextDivision_lt hmod
  · have hdiv := Nat.mul_div_le (((size + 32) % 2 ^ 64 + kMinBlockSize - 1) % 2 ^ 64) kMinBlockSize
    have hmod' := Nat.mod_lt ((size + 32) % 2 ^ 64 + kMinBlockSize - 1)
      (show 0 < 2 ^ 64 by decide)
    omega

end TorchNpu.Allocator

namespace TorchNpu.Allocator

/-! ### Data -/

abbrev BlockId := ℕ

abbrev Stream := ℕ

abbrev Thread := ℕ

/-- A handle of physical memory (`aclrtDrvMemHandle`). -/
abbrev Handle := ℕ

/-- The part of an `ExpandableSegment` that does not change; `handles` of the state has the rest. -/
structure ExpandableSegment where
  ptr : ℕ
  segmentSize : ℕ
  maxHandles : ℕ
  deriving DecidableEq

def ExpandableSegment.size (e : ExpandableSegment) : ℕ :=
  e.maxHandles * e.segmentSize

def ExpandableSegment.range (e : ExpandableSegment) : Range :=
  ⟨e.ptr, e.size⟩

structure Block where
  stream : Stream
  streamUses : List Stream := []
  size : ℕ
  pool : PoolId
  ptr : ℕ
  allocated : Bool := false
  mapped : Bool := true
  prev : Option BlockId := none
  next : Option BlockId := none
  eventCount : ℕ := 0
  gcCount : ℕ := 0
  expandableSegment : Option ExpandableSegment := none

/-- `is_split`. -/
def Block.isSplit (blk : Block) : Bool :=
  blk.prev.isSome || blk.next.isSome

/-- `AllocParams`. -/
structure AllocParams where
  size : ℕ
  stream : Stream
  pool : PoolId
  allocSize : ℕ

/-- An iterator of a `blocks` set that is not `end()`. -/
structure Iterator where
  block : BlockId
  insertion : ℕ

inductive Exception
  | outOfMemory
  | aclError
  | internalAssert
  | badPointer
  | unanswered
  deriving DecidableEq

/-- Where a `malloc` has dropped the lock to synchronise the device: in
`garbage_collect_cached_blocks`, with `target_size`, `total_age` and `freeable_block_count`; in
`release_available_cached_blocks`, with the iterator computed before and the error of `alloc_block`;
or ahead of `release_cached_blocks`. -/
inductive Stage
  | collect (targetSize totalAge freeableBlockCount : ℕ)
  | available (it : Option Iterator) (err : Exception)
  | cached

structure Pending where
  params : AllocParams
  stage : Stage

/-- What a call of the driver comes back with: an address (with the number of pages, for a reserved
range), a handle of physical memory, success, `ACL_ERROR_RT_MEMORY_ALLOCATION`, another error, or
whether an event is complete. -/
inductive Answer
  | address (ptr : ℕ)
  | reserved (ptr maxHandles : ℕ)
  | physical (handle : Handle)
  | done
  | memoryAllocation
  | failure
  | event (complete : Bool)

/-- A `PrivatePool`, without its two pools of blocks. -/
structure PrivatePool where
  useCount : ℤ := 1
  npuMallocCount : ℕ := 0

inductive StatType
  | aggregate
  | smallPool
  | largePool
  deriving DecidableEq

/-- The `current` values of one `StatType` of `DeviceStats`. -/
structure Stats where
  allocation : ℤ := 0
  allocatedBytes : ℤ := 0
  active : ℤ := 0
  activeBytes : ℤ := 0
  inactiveSplit : ℤ := 0
  inactiveSplitBytes : ℤ := 0
  segment : ℤ := 0
  reservedBytes : ℤ := 0

/-- A block handed out by `get_free_block` or `alloc_block`; a call of `release_block`, with whether the
block is in the free set of its pool; a private pool whose `npuMalloc_count` is about to go down, and one
that is about to be erased. -/
inductive TraceEntry
  | handOut (blk : Block)
  | segmentFree (blk : Block) (isFree : Bool)
  | countFree (privatePool : PrivatePool)
  | erasePool (privatePool : PrivatePool)

structure State where
  heap : BlockId → Option Block := fun _ => none
  fresh : BlockId := 0
  blocks : PoolId → List BlockId := fun _ => []
  unmapped : PoolId → List BlockId := fun _ => []
  insertions : BlockId → ℕ := fun _ => 0
  activeBlocks : List BlockId := []
  npuEvents : List (Stream × List BlockId) := []
  device : List Range := []
  expandableSegments : List ExpandableSegment := []
  handles : ℕ → List (Option Handle) := fun _ => []
  freePhysicalHandles : PoolId → List Handle := fun _ => []
  mallocs : Thread → Option Pending := fun _ => none
  answers : List Answer := []
  /-- The ids of `captures_underway`. -/
  capturesUnderway : List MempoolId := []
  needsEventsDeferredUntilNoCapture : List BlockId := []
  blockToNpugraphStreamUses : BlockId → Option (List Stream) := fun _ => none
  graphPools : MempoolId → Option PrivatePool := fun _ => none
  graphPoolsFreeable : List MempoolId := []
  /-- `allowed_memory_maximum`, when `set_fraction` is true. -/
  allowedMemoryMaximum : Option ℕ := none
  totalAllocatedMemory : ℕ := 0
  stats : StatType → Stats := fun _ => {}
  trace : List TraceEntry := []

abbrev M := EStateM Exception State

/-! ### Blocks -/

def deref (b : BlockId) : M Block := do
  match (← get).heap b with
  | some blk => pure blk
  | none => throw .badPointer

/-- Assign fields of `*b`. -/
def store (b : BlockId) (f : Block → Block) : M Unit := do
  let blk ← deref b
  modify fun s => { s with heap := Function.update s.heap b (some (f blk)) }

def newBlock (blk : Block) : M BlockId := do
  let s ← get
  set { s with heap := Function.update s.heap s.fresh (some blk), fresh := s.fresh + 1 }
  pure s.fresh

def deleteBlock (b : BlockId) : M Unit :=
  modify fun s => { s with heap := Function.update s.heap b none }

/-- `record_trace`. -/
def recordTrace (e : TraceEntry) : M Unit :=
  modify fun s => { s with trace := s.trace ++ [e] }

/-- `if (o) o->prev = b`. -/
def setPrev (o : Option BlockId) (b : BlockId) : M Unit :=
  match o with
  | none => pure ()
  | some x => store x fun blk => { blk with prev := some b }

/-- `if (o) o->next = b`. -/
def setNext (o : Option BlockId) (b : BlockId) : M Unit :=
  match o with
  | none => pure ()
  | some x => store x fun blk => { blk with next := some b }

/-- `TORCH_INTERNAL_ASSERT`, `AT_ASSERT`. -/
def assert (c : Bool) : M Unit :=
  if c then pure () else throw .internalAssert

/-- The first half of `Block::splice`. -/
def spliceAfter (b : BlockId) (before after : Option BlockId) : M Unit := do
  match before with
  | none => pure ()
  | some x =>
    assert ((← deref x).next = after)
    store x fun blk => { blk with next := some b }

/-- The second half of `Block::splice`. -/
def spliceBefore (b : BlockId) (before after : Option BlockId) : M Unit := do
  match after with
  | none => pure ()
  | some y =>
    assert ((← deref y).prev = before)
    store y fun blk => { blk with prev := some b }

/-- `Block::splice`. -/
def splice (b : BlockId) (before after : Option BlockId) : M Unit := do
  spliceAfter b before after
  store b fun blk => { blk with prev := before }
  spliceBefore b before after
  store b fun blk => { blk with next := after }

/-- The same without the assertions, as `malloc` and `alloc_found_block` have it. -/
def chain (b : BlockId) (before after : Option BlockId) : M Unit := do
  setNext before b
  store b fun blk => { blk with prev := before }
  setPrev after b
  store b fun blk => { blk with next := after }

/-! ### The sets -/

/-- `BlockComparatorSize`. -/
def comparatorSize (x y : Block) : Bool :=
  if x.stream ≠ y.stream then x.stream < y.stream
  else if x.size ≠ y.size then x.size < y.size
  else x.ptr < y.ptr

/-- `BlockComparatorAddress`. -/
def comparatorAddress (x y : Block) : Bool :=
  if x.stream ≠ y.stream then x.stream < y.stream
  else x.ptr < y.ptr

/-- The comparator on pointers. -/
def onHeap (less : Block → Block → Bool) (heap : BlockId → Option Block) (x y : BlockId) : Bool :=
  match heap x, heap y with
  | some bx, some by' => less bx by'
  | _, _ => false

/-- `std::set::insert`: nothing happens when the set has an element that compares equal. -/
def setInsert (less : BlockId → BlockId → Bool) (b : BlockId) : List BlockId → List BlockId
  | [] => [b]
  | x :: xs =>
    if less x b then x :: setInsert less b xs
    else if less b x then b :: x :: xs
    else x :: xs

/-- `std::set::erase`. -/
def setErase (b : BlockId) (l : List BlockId) : List BlockId :=
  l.filter (· ≠ b)

/-- The elements from `lower_bound(&key)` on. -/
def fromLowerBound (less : Block → Block → Bool) (heap : BlockId → Option Block) (key : Block)
    (l : List BlockId) : List BlockId :=
  l.filter fun x =>
    match heap x with
    | some blk => !less blk key
    | none => true

/-- `pool.blocks.insert(b)`. -/
def insertBlock (pool : PoolId) (b : BlockId) : M Unit :=
  modify fun s =>
    { s with
      blocks := Function.update s.blocks pool
        (setInsert (onHeap comparatorSize s.heap) b (s.blocks pool))
      insertions := Function.update s.insertions b (s.insertions b + 1) }

/-- `pool.blocks.erase(b)`. -/
def eraseBlock (pool : PoolId) (b : BlockId) : M Unit :=
  modify fun s => { s with blocks := Function.update s.blocks pool (setErase b (s.blocks pool)) }

/-- `pool.unmapped.insert(b)`. -/
def insertUnmapped (pool : PoolId) (b : BlockId) : M Unit :=
  modify fun s =>
    { s with
      unmapped := Function.update s.unmapped pool
        (setInsert (onHeap comparatorAddress s.heap) b (s.unmapped pool)) }

/-- `pool.unmapped.erase(b)`. -/
def eraseUnmapped (pool : PoolId) (b : BlockId) : M Unit :=
  modify fun s =>
    { s with unmapped := Function.update s.unmapped pool (setErase b (s.unmapped pool)) }

/-- `active_blocks.insert(b)`. -/
def insertActive (b : BlockId) : M Unit :=
  modify fun s => { s with activeBlocks := b :: s.activeBlocks.filter (· ≠ b) }

/-- `active_blocks.erase(b)`. -/
def eraseActive (b : BlockId) : M Unit :=
  modify fun s => { s with activeBlocks := s.activeBlocks.filter (· ≠ b) }

/-! ### Pools and statistics -/

/-- The private pool that owns a pool of blocks, if there is one; it may have been erased. -/
def derefPool (pool : PoolId) : M (Option (MempoolId × PrivatePool)) := do
  match pool.owner with
  | none => return none
  | some id =>
    match (← get).graphPools id with
    | some privatePool => return some (id, privatePool)
    | none => throw .badPointer

def setPool (id : MempoolId) (privatePool : PrivatePool) : M Unit :=
  modify fun s => { s with graphPools := Function.update s.graphPools id (some privatePool) }

/-- `++npuMalloc_count`, for a pool of a private pool. -/
def countMalloc (pool : PoolId) : M Unit := do
  match ← derefPool pool with
  | none => pure ()
  | some (id, privatePool) =>
    setPool id { privatePool with npuMallocCount := privatePool.npuMallocCount + 1 }

/-- `--npuMalloc_count`, which must be positive. -/
def countFree (pool : PoolId) : M Unit := do
  match ← derefPool pool with
  | none => pure ()
  | some (id, privatePool) =>
    recordTrace (.countFree privatePool)
    assert (0 < privatePool.npuMallocCount)
    setPool id { privatePool with npuMallocCount := privatePool.npuMallocCount - 1 }

/-- `get_stat_types_for_pool`. -/
def statTypesForPool (pool : PoolId) : List StatType :=
  [.aggregate, if pool.isSmall then .smallPool else .largePool]

/-- `for_each_selected_stat_type` with the types of a pool. -/
def updateStats (pool : PoolId) (f : Stats → Stats) : M Unit := do
  let _ ← derefPool pool
  modify fun s =>
    { s with stats := fun t => if t ∈ statTypesForPool pool then f (s.stats t) else s.stats t }

/-! ### The driver -/

/-- The address ranges in use. -/
def State.ranges (s : State) : List Range :=
  s.device ++ s.expandableSegments.map ExpandableSegment.range

/-- A range the driver can hand out: not empty, with addresses that a signed 64-bit number holds, and
apart from every range in use. -/
def State.Available (s : State) (r : Range) : Prop :=
  0 < r.lo ∧ 0 < r.size ∧ r.lo + r.size ≤ 2 ^ 63 ∧ ∀ q ∈ s.ranges, r.Disjoint q

instance (s : State) (r : Range) : Decidable (s.Available r) :=
  inferInstanceAs (Decidable (_ ∧ _ ∧ _ ∧ _))

def answer : M Answer := do
  let s ← get
  match s.answers with
  | [] => throw .unanswered
  | a :: as => do
    set { s with answers := as }
    pure a

/-- A call that succeeds or not, under `NPU_CHECK_ERROR`. -/
def checkError : M Unit := do
  match ← answer with
  | .done => pure ()
  | .memoryAllocation | .failure => throw .aclError
  | _ => throw .unanswered

/-- `AclrtMallocAlign32`. -/
def aclrtMalloc (size : ℕ) : M (Except Exception ℕ) := do
  match ← answer with
  | .address ptr => do
    let s ← get
    if s.Available ⟨ptr, size⟩ then
      set { s with device := ⟨ptr, size⟩ :: s.device }
      pure (.ok ptr)
    else throw .unanswered
  | .memoryAllocation => pure (.error .outOfMemory)
  | .failure => pure (.error .aclError)
  | _ => throw .unanswered

/-- `aclrtFree`, whose result nobody looks at: an address that is not the start of an allocation is
refused. -/
def aclrtFree (ptr : ℕ) : M Unit :=
  modify fun s => { s with device := s.device.filter (·.lo ≠ ptr) }

/-- `EventPool::Event::query`. -/
def queryEvent : M Bool := do
  match ← answer with
  | .event complete => pure complete
  | _ => throw .unanswered

end TorchNpu.Allocator
