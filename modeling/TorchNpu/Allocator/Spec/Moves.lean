/-
  The moves that the operations of the allocator are made of.

  An operation is a long computation; what the claims about it need is a short list of things that it can
  do to the state.  A `Move` is one of them, from one `Moment` inside an operation to the next; it comes
  with everything that was tested before.  `Refinement` shows that every operation, wherever it is cut
  off by an exception, is a sequence of moves, so that a property that every move keeps is kept by every
  run.

  A moment is a state together with what only the operation knows: the block that a `malloc` has found,
  the block that is on its way to become free, the blocks of the outstanding events, the blocks that
  wait for the end of a capture, and how many bytes of physical memory the allocation may still map.
  The last three have a counterpart in the state, from which they differ while a loop goes through it.

  `Licence` is for what only some steps may do; for a step of the allocator it is read off its label and
  the state before it.
-/
import TorchNpu.Allocator.Spec.Blocks
import Mathlib.Data.Multiset.Replicate
import Mathlib.Logic.Relation

namespace TorchNpu.Allocator

open Tiling

/-! ### Moments -/

structure Moment where
  state : State
  found : Option BlockId := none
  held : Option BlockId := none
  pend : Multiset BlockId
  deferred : List BlockId
  budget : ℕ := 0

/-- The moment between two operations. -/
def State.rest (s : State) : Moment :=
  { state := s, pend := s.pending, deferred := s.needsEventsDeferredUntilNoCapture }

structure Licence where
  /-- A block may become free although streams are recorded for it. -/
  uses : Prop
  /-- Events may be processed while a `malloc` has a block in its hands. -/
  lazy : Prop
  /-- The block may be released although it has neighbours. -/
  split : BlockId → Prop
  /-- The size of a request. -/
  size : ℕ → Prop
  /-- The address of a block may be aligned although its segment is not expandable. -/
  align : Prop
  /-- The page size of an expandable segment. -/
  page : ℕ → Prop
  /-- The pools that expandable segments are made for. -/
  expandable : PoolId → Prop
  /-- Memory may be allocated with `aclrtMalloc`. -/
  segment : Prop
  /-- The limit of the memory may be set. -/
  limit : Prop
  /-- How many bytes may be mapped for a request in a state, given its `alloc_size`. -/
  grant : State → ℕ → ℕ → Prop

/-! ### Parts of moves -/

namespace State

variable (s : State)

/-- `s'` differs from `s` in nothing that concerns the blocks, the pools and the statistics. -/
structure Quiet (s s' : State) : Prop where
  heap : s'.heap = s.heap
  fresh : s'.fresh = s.fresh
  blocks : s'.blocks = s.blocks
  unmapped : s'.unmapped = s.unmapped
  activeBlocks : s'.activeBlocks = s.activeBlocks
  device : s'.device = s.device
  expandableSegments : s'.expandableSegments = s.expandableSegments
  mallocs : s'.mallocs = s.mallocs
  graphPools : s'.graphPools = s.graphPools
  graphPoolsFreeable : s'.graphPoolsFreeable = s.graphPoolsFreeable
  allowedMemoryMaximum : s'.allowedMemoryMaximum = s.allowedMemoryMaximum
  totalAllocatedMemory : s'.totalAllocatedMemory = s.totalAllocatedMemory
  stats : s'.stats = s.stats
  trace : s'.trace = s.trace

def put (b : BlockId) (blk : Block) : State :=
  s.withHeap (Function.update s.heap b (some blk))

@[simp] theorem put_heap_self (b : BlockId) (blk : Block) : (s.put b blk).heap b = some blk :=
  Function.update_self ..

def insertBlock (pool : PoolId) (b : BlockId) : State :=
  { s with
    blocks := Function.update s.blocks pool
      (setInsert (onHeap comparatorSize s.heap) b (s.blocks pool))
    insertions := Function.update s.insertions b (s.insertions b + 1) }

def eraseBlock (pool : PoolId) (b : BlockId) : State :=
  { s with blocks := Function.update s.blocks pool (setErase b (s.blocks pool)) }

def insertUnmapped (pool : PoolId) (b : BlockId) : State :=
  { s with
    unmapped := Function.update s.unmapped pool
      (setInsert (onHeap comparatorAddress s.heap) b (s.unmapped pool)) }

def eraseUnmapped (pool : PoolId) (b : BlockId) : State :=
  { s with unmapped := Function.update s.unmapped pool (setErase b (s.unmapped pool)) }

def insertActive (b : BlockId) : State :=
  { s with activeBlocks := b :: s.activeBlocks.filter (· ≠ b) }

def eraseActive (b : BlockId) : State :=
  { s with activeBlocks := s.activeBlocks.filter (· ≠ b) }

def updateStats (pool : PoolId) (f : Stats → Stats) : State :=
  { s with stats := fun t => if t ∈ statTypesForPool pool then f (s.stats t) else s.stats t }

def record (e : TraceEntry) : State :=
  { s with trace := s.trace ++ [e] }

/-- The private pool that owns `pool`, if there is one. -/
def privatePool (pool : PoolId) : Option (MempoolId × PrivatePool) :=
  pool.owner.bind fun id => (s.graphPools id).map fun pp => (id, pp)

def setPool (id : MempoolId) (pp : PrivatePool) : State :=
  { s with graphPools := Function.update s.graphPools id (some pp) }

/-- `++npuMalloc_count`. -/
def countMalloc (pool : PoolId) : State :=
  match s.privatePool pool with
  | none => s
  | some (id, pp) => s.setPool id { pp with npuMallocCount := pp.npuMallocCount + 1 }

/-- The look at `npuMalloc_count` before it goes down. -/
def beforeCountFree (pool : PoolId) : State :=
  match s.privatePool pool with
  | none => s
  | some (_, pp) => s.record (.countFree pp)

/-- `--npuMalloc_count`. -/
def countFree (pool : PoolId) : State :=
  match s.privatePool pool with
  | none => s
  | some (id, pp) =>
    (s.record (.countFree pp)).setPool id { pp with npuMallocCount := pp.npuMallocCount - 1 }

theorem countMalloc_eq (pool : PoolId) :
    s.countMalloc pool = { s with graphPools := (s.countMalloc pool).graphPools } := by
  rw [countMalloc]
  split <;> rfl

theorem beforeCountFree_eq (pool : PoolId) :
    s.beforeCountFree pool = { s with trace := (s.beforeCountFree pool).trace } := by
  rw [beforeCountFree]
  split <;> rfl

theorem countFree_eq (pool : PoolId) :
    s.countFree pool =
      { s with
        graphPools := (s.countFree pool).graphPools
        trace := (s.countFree pool).trace } := by
  rw [countFree]
  split <;> rfl

/-- The private pool of `pool`, if it has one, has not been erased. -/
def HasPool (pool : PoolId) : Prop :=
  ∀ id, pool.owner = some id → (s.graphPools id).isSome = true

/-- `npuMalloc_count` is positive where there is one. -/
def Positive (pool : PoolId) : Prop :=
  ∀ id pp, s.privatePool pool = some (id, pp) → 0 < pp.npuMallocCount

end State

/-- What `free_block` does. -/
inductive Freed (b : BlockId) (blk : Block) (s : State) : State → Prop
  | intro (n₁ n₂ : ℕ) (s₁ s₂ : State) (blk₁ merged : Block) (hprev : MergePrev b blk s n₁ s₁)
      (hb₁ : s₁.heap b = some blk₁) (hnext : MergeNext b blk₁ s₁ n₂ s₂)
      (hmerged : s₂.heap b = some merged) (hpool : s₂.HasPool blk.pool) :
      Freed b blk s (((s₂.eraseActive b).insertBlock blk.pool b).updateStats blk.pool
        fun stats => stats.free blk merged [n₁, n₂])

/-- The state in `map_block` before the block is merged: `n` bytes of it are mapped, and what is left is a
block of its own. -/
def State.mapFront (s : State) (b : BlockId) (blk : Block) (n : ℕ) : State :=
  let s₁ := (s.eraseUnmapped blk.pool b).put b { blk with mapped := true }
  if n < blk.size then
    (s₁.extend (cutBackHeap s₁.heap b { blk with mapped := true } n s₁.fresh false)).insertUnmapped
      blk.pool s₁.fresh
  else s₁

/-- What `map_block` does when `n` bytes have been mapped. -/
inductive Mapped (b : BlockId) (blk : Block) (n : ℕ) (s : State) : State → Prop
  | intro (n₁ n₂ : ℕ) (s₁ s₂ : State) (blk₁ blk₂ : Block)
      (hlive : n < blk.size → s.Live blk.next)
      (hb₁ : (s.mapFront b blk n).heap b = some blk₁)
      (hprev : MergePrev b blk₁ (s.mapFront b blk n) n₁ s₁) (hb₂ : s₁.heap b = some blk₂)
      (hnext : MergeNext b blk₂ s₁ n₂ s₂) (hpool : s₂.HasPool blk.pool) :
      Mapped b blk n s
        (({ s₂.insertBlock blk.pool b with
            totalAllocatedMemory := s₂.totalAllocatedMemory + n } : State).updateStats blk.pool
          fun stats => { stats with reservedBytes := stats.reservedBytes + n })

/-- The state in `unmap_block` with the bytes before the first page cut off. -/
def State.cutBefore (s : State) (b : BlockId) (blk : Block) (k : ℕ) : State :=
  let s₁ := s.eraseBlock blk.pool b
  if 0 < k then
    (s₁.extend (cutFrontHeap s₁.heap b blk k s₁.fresh)).insertBlock blk.pool s₁.fresh
  else s₁

/-- The state in `unmap_block` with the bytes after the last page cut off: `n` bytes are left, of a block
that was to have `rest` bytes more. -/
def State.cutAfter (s : State) (b : BlockId) (blk : Block) (n rest : ℕ) : State :=
  if 0 < rest then
    (s.extend (cutBackHeap s.heap b blk n s.fresh true)).insertBlock blk.pool s.fresh
  else s

/-- What `unmap_block` does when the `n` bytes from `lo` on have been unmapped, up to the count of the
private pool. -/
inductive Unmapped (b : BlockId) (blk : Block) (lo n : ℕ) (s : State) : State → Prop
  | intro (n₁ n₂ : ℕ) (s₁ s₂ s₃ s₄ : State) (blk₁ blk₂ blk₄ : Block)
      (hlive : 0 < lo - blk.ptr → s.Live blk.prev)
      (hs₁ : s₁ = s.cutBefore b blk (lo - blk.ptr)) (hb₁ : s₁.heap b = some blk₁)
      (hlive₁ : 0 < blk.size - (lo - blk.ptr + n) → s₁.Live blk₁.next)
      (hs₂ : s₂ = s₁.cutAfter b blk₁ n (blk.size - (lo - blk.ptr + n)))
      (hb₂ : s₂.heap b = some blk₂)
      (hprev : MergePrev b { blk₂ with ptr := lo, size := n, mapped := false }
        (s₂.put b { blk₂ with ptr := lo, size := n, mapped := false }) n₁ s₃)
      (hb₄ : s₃.heap b = some blk₄) (hnext : MergeNext b blk₄ s₃ n₂ s₄)
      (hpool : s₄.HasPool blk.pool) :
      Unmapped b blk lo n s
        (({ s₄.insertUnmapped blk.pool b with
            totalAllocatedMemory := s₄.totalAllocatedMemory - n } : State).updateStats blk.pool
          fun stats => { stats with reservedBytes := stats.reservedBytes - n })

section Frames

variable {b : BlockId} {blk : Block} {s s' : State} {n lo : ℕ}

theorem Freed.eq (h : Freed b blk s s') :
    s' = { s with
      heap := s'.heap, blocks := s'.blocks, unmapped := s'.unmapped, insertions := s'.insertions
      activeBlocks := s'.activeBlocks, stats := s'.stats } := by
  obtain ⟨n₁, n₂, s₁, s₂, blk₁, merged, hprev, -, hnext, -, -⟩ := h
  simp only [State.updateStats, State.insertBlock, State.eraseActive]
  rw [hnext.eq, hprev.eq]

theorem mapFront_eq :
    s.mapFront b blk n =
      { s with
        heap := (s.mapFront b blk n).heap, fresh := (s.mapFront b blk n).fresh
        unmapped := (s.mapFront b blk n).unmapped } := by
  rw [State.mapFront]
  split_ifs <;> rfl

theorem Mapped.eq (h : Mapped b blk n s s') :
    s' = { s with
      heap := s'.heap, fresh := s'.fresh, blocks := s'.blocks, unmapped := s'.unmapped
      insertions := s'.insertions, totalAllocatedMemory := s.totalAllocatedMemory + n
      stats := s'.stats } := by
  obtain ⟨n₁, n₂, s₁, s₂, blk₁, blk₂, -, -, hprev, -, hnext, -⟩ := h
  simp only [State.updateStats, State.insertBlock]
  rw [hnext.eq, hprev.eq, mapFront_eq]

theorem cutBefore_eq :
    s.cutBefore b blk n =
      { s with
        heap := (s.cutBefore b blk n).heap, fresh := (s.cutBefore b blk n).fresh
        blocks := (s.cutBefore b blk n).blocks
        insertions := (s.cutBefore b blk n).insertions } := by
  rw [State.cutBefore]
  split_ifs <;> rfl

theorem cutAfter_eq {rest : ℕ} :
    s.cutAfter b blk n rest =
      { s with
        heap := (s.cutAfter b blk n rest).heap, fresh := (s.cutAfter b blk n rest).fresh
        blocks := (s.cutAfter b blk n rest).blocks
        insertions := (s.cutAfter b blk n rest).insertions } := by
  rw [State.cutAfter]
  split_ifs <;> rfl

theorem Unmapped.eq (h : Unmapped b blk lo n s s') :
    s' = { s with
      heap := s'.heap, fresh := s'.fresh, blocks := s'.blocks, unmapped := s'.unmapped
      insertions := s'.insertions, totalAllocatedMemory := s.totalAllocatedMemory - n
      stats := s'.stats } := by
  obtain ⟨n₁, n₂, s₁, s₂, s₃, s₄, blk₁, blk₂, blk₄, -, hs₁, -, -, hs₂, -, hprev, -, hnext, -⟩ := h
  simp only [State.updateStats, State.insertUnmapped]
  rw [hnext.eq, hprev.eq]
  simp only [State.put, State.withHeap]
  rw [hs₂, cutAfter_eq, hs₁, cutBefore_eq]

end Frames

/-- `release_block` up to the count of the private pool. -/
def State.freeSegment (s : State) (b : BlockId) (blk : Block) : State :=
  let s₁ := s.record (.segmentFree blk (decide (b ∈ s.blocks blk.pool)))
  { s₁ with
    device := s.device.filter (·.lo ≠ blk.ptr)
    totalAllocatedMemory := s.totalAllocatedMemory - blk.size }

/-- The rest of `release_block`. -/
def State.dropBlock (s : State) (b : BlockId) (blk : Block) : State :=
  let s₁ := s.updateStats blk.pool fun stats =>
    { stats with segment := stats.segment - 1, reservedBytes := stats.reservedBytes - blk.size }
  (s₁.eraseBlock blk.pool b).withHeap (Function.update s.heap b none)

/-- `release_expandable_segment`. -/
def State.dropSegment (s : State) (b : BlockId) (blk : Block) (e : ExpandableSegment) : State :=
  { s.eraseUnmapped blk.pool b with
    expandableSegments := s.expandableSegments.filter (· ≠ e)
    handles := Function.update s.handles e.ptr []
    heap := Function.update s.heap b none }

/-- The block of a new segment. -/
def newSegmentBlock (p : AllocParams) (ptr : ℕ) : Block :=
  { stream := p.stream, size := p.allocSize, pool := p.pool, ptr }

/-- `alloc_block` with a segment of its own. -/
def State.addSegment (s : State) (p : AllocParams) (ptr : ℕ) : State :=
  let s₁ := ({ s with device := ⟨ptr, p.allocSize⟩ :: s.device } : State).countMalloc p.pool
  let s₂ := ({ s₁ with totalAllocatedMemory := s.totalAllocatedMemory + p.allocSize } : State).extend
    (Function.update s.heap s.fresh (some (newSegmentBlock p ptr)))
  (s₂.updateStats p.pool fun stats =>
    { stats with
      segment := stats.segment + 1
      reservedBytes := stats.reservedBytes + p.allocSize }).record
        (.handOut (newSegmentBlock p ptr))

/-- The block of a new expandable segment. -/
def newExpandableBlock (stream : Stream) (pool : PoolId) (e : ExpandableSegment) : Block :=
  { stream, pool, size := e.size, ptr := e.ptr, mapped := false, expandableSegment := some e }

/-- The end of `find_expandable_block`. -/
def State.addExpandable (s : State) (stream : Stream) (pool : PoolId) (e : ExpandableSegment) :
    State :=
  let s₁ : State :=
    { s with
      expandableSegments := s.expandableSegments ++ [e]
      handles := Function.update s.handles e.ptr [] }
  (s₁.extend (Function.update s.heap s.fresh
    (some (newExpandableBlock stream pool e)))).insertUnmapped pool s.fresh

/-- The alignment in `malloc`. -/
def State.align (s : State) (b : BlockId) (blk : Block) (k : ℕ) : State :=
  (s.extend (cutBackHeap s.heap b blk k s.fresh true)).insertBlock blk.pool b

/-- The split in `alloc_found_block`. -/
def State.splitFound (s : State) (b : BlockId) (blk : Block) (k : ℕ) : State :=
  let s₁ := (s.extend (cutFrontHeap s.heap b blk k s.fresh)).insertBlock blk.pool b
  if blk.expandableSegment.isNone then
    s₁.updateStats blk.pool fun stats => stats.split blk.isSplit k
      { blk with ptr := blk.ptr + k, size := blk.size - k, prev := some s.fresh }
  else s₁

/-- `alloc_found_block` where there is nothing to split. -/
def State.takeWhole (s : State) (blk : Block) : State :=
  if blk.isSplit && blk.expandableSegment.isNone then
    s.updateStats blk.pool fun stats =>
      { stats with
        inactiveSplitBytes := stats.inactiveSplitBytes - blk.size
        inactiveSplit := stats.inactiveSplit - 1 }
  else s

/-- The end of `alloc_found_block`. -/
def State.activate (s : State) (b : BlockId) (blk : Block) : State :=
  ((s.put b { blk with allocated := true }).insertActive b).updateStats blk.pool fun stats =>
    { stats with
      allocation := stats.allocation + 1
      allocatedBytes := stats.allocatedBytes + blk.size
      active := stats.active + 1
      activeBytes := stats.activeBytes + blk.size }

/-- The beginning of `free`. -/
def State.deallocate (s : State) (b : BlockId) (blk : Block) : State :=
  (s.put b { blk with allocated := false }).updateStats blk.pool fun stats =>
    { stats with
      allocation := stats.allocation - 1
      allocatedBytes := stats.allocatedBytes - blk.size }

/-- `graph_pools.erase`. -/
def State.erasePool (s : State) (id : MempoolId) : State :=
  { s with
    graphPools := Function.update s.graphPools id none
    graphPoolsFreeable := s.graphPoolsFreeable.filter (· ≠ id)
    blocks := fun pool => if pool.owner = some id then [] else s.blocks pool
    unmapped := fun pool => if pool.owner = some id then [] else s.unmapped pool
    freePhysicalHandles := fun pool =>
      if pool.owner = some id then [] else s.freePhysicalHandles pool }

/-- The sizes of a request, as `malloc` computes them: rounding up has not gone wrong. -/
def AllocParams.WellSized (p : AllocParams) : Prop :=
  0 < p.allocSize → p.size ≤ p.allocSize

/-! ### Moves -/

inductive Move (L : Licence) : Moment → Moment → Prop
  | quiet {m : Moment} {s' : State} (h : m.state.Quiet s') : Move L m { m with state := s' }
  | wait {m : Moment} (t : Thread) (pending : Option Pending)
      (h : ∀ x, pending = some x → x.params.WellSized) :
      Move L m { m with
        state := { m.state with mallocs := Function.update m.state.mallocs t pending } }
  | age {m : Moment} (f : BlockId → ℕ) :
      Move L m { m with
        state := m.state.withHeap fun x =>
          (m.state.heap x).map fun blk => { blk with gcCount := f x } }
  /- `get_free_block` and `alloc_block` -/
  | take {m : Moment} (b : BlockId) (blk : Block) (hfound : m.found = none) (hheld : m.held = none)
      (hb : m.state.heap b = some blk) (hkind : blk.info.kind = some true)
      (hin : b ∈ m.state.blocks blk.pool ∨ blk.streamUses = []) :
      Move L m { m with state := m.state.eraseBlock blk.pool b, found := some b }
  | handOut {m : Moment} (b : BlockId) (blk : Block) (hfound : m.found = some b)
      (hb : m.state.heap b = some blk) :
      Move L m { m with state := m.state.record (.handOut blk) }
  | segment {m : Moment} (p : AllocParams) (ptr : ℕ) (hfound : m.found = none)
      (hheld : m.held = none) (hlicence : L.segment)
      (hfits : m.state.exceeds p.allocSize = false)
      (havailable : m.state.Available ⟨ptr, p.allocSize⟩) (hpool : m.state.HasPool p.pool) :
      Move L m { m with state := m.state.addSegment p ptr, found := some m.state.fresh }
  | grant {m : Moment} (a n : ℕ) (hfits : m.state.exceeds a = false)
      (hgrant : L.grant m.state a n) :
      Move L m { m with budget := n }
  | giveUp {m : Moment} (n : ℕ) (h : n ≤ m.budget) : Move L m { m with budget := n }
  | expand {m : Moment} (stream : Stream) (pool : PoolId) (e : ExpandableSegment)
      (hfound : m.found = none) (hheld : m.held = none) (hpage : L.page e.segmentSize)
      (hexpandable : L.expandable pool) (hpos : 0 < e.segmentSize)
      (havailable : m.state.Available e.range) :
      Move L m { m with state := m.state.addExpandable stream pool e }
  | map {m : Moment} (b : BlockId) (blk : Block) (e : ExpandableSegment) (n : ℕ) {s' : State}
      (hfound : m.found = none) (hheld : m.held = none) (hb : m.state.heap b = some blk)
      (hkind : blk.info.kind = some false) (hsegment : blk.expandableSegment = some e)
      (hpos : 0 < n) (hdvd : e.segmentSize ∣ n) (hsize : n ≤ blk.size) (hbudget : n ≤ m.budget)
      (h : Mapped b blk n m.state s') :
      Move L m { m with state := s', budget := m.budget - n }
  | count {m : Moment} (b : BlockId) (blk : Block) (hfound : m.found = some b)
      (hb : m.state.heap b = some blk) (hexpandable : L.expandable blk.pool)
      (hpool : m.state.HasPool blk.pool) :
      Move L m { m with state := m.state.countMalloc blk.pool }
  /- the end of `malloc` -/
  | align {m : Moment} (b : BlockId) (blk : Block) (k : ℕ) (hfound : m.found = some b)
      (hheld : m.held = none) (hb : m.state.heap b = some blk) (hpos : 0 < k) (hk : k < blk.size)
      (halign : blk.expandableSegment.isSome = true ∨ L.align)
      (hlive : m.state.Live blk.next) :
      Move L m { m with state := m.state.align b blk k, found := some m.state.fresh }
  | split {m : Moment} (b : BlockId) (blk : Block) (k : ℕ) (hfound : m.found = some b)
      (hheld : m.held = none) (hb : m.state.heap b = some blk) (hsize : L.size k) (hk : k < blk.size)
      (hlive : m.state.Live blk.prev) :
      Move L m { m with state := m.state.splitFound b blk k, found := some m.state.fresh }
  | whole {m : Moment} (b : BlockId) (blk : Block) (hfound : m.found = some b)
      (hb : m.state.heap b = some blk) : Move L m { m with state := m.state.takeWhole blk }
  | activate {m : Moment} (b : BlockId) (blk : Block) (hfound : m.found = some b)
      (hheld : m.held = none) (hb : m.state.heap b = some blk)
      (hpool : m.state.HasPool blk.pool) :
      Move L m { m with state := m.state.activate b blk, found := none }
  /- `free` and events -/
  | deallocate {m : Moment} (b : BlockId) (blk : Block) (hfound : m.found = none)
      (hheld : m.held = none) (hb : m.state.heap b = some blk) (halloc : blk.allocated = true)
      (hpool : m.state.HasPool blk.pool) :
      Move L m { m with state := m.state.deallocate b blk, held := some b }
  | uses {m : Moment} (b : BlockId) (blk : Block) (streams : List Stream)
      (hb : m.state.heap b = some blk) (h : blk.allocated = true ∨ m.held = some b) :
      Move L m { m with state := m.state.put b { blk with streamUses := streams } }
  | events {m : Moment} (b : BlockId) (blk : Block) (hheld : m.held = some b)
      (hb : m.state.heap b = some blk) (huses : blk.streamUses ≠ []) :
      Move L m { m with
        state := m.state.put b { blk with streamUses := [], eventCount := blk.streamUses.length }
        held := none
        pend := m.pend + Multiset.replicate blk.streamUses.length b }
  | defer {m : Moment} (b : BlockId) (blk : Block) (hheld : m.held = some b)
      (hb : m.state.heap b = some blk) (huses : blk.streamUses ≠ []) :
      Move L m { m with held := none, deferred := m.deferred ++ [b] }
  | undefer {m : Moment} (b : BlockId) (rest : List BlockId) (hheld : m.held = none)
      (hdeferred : m.deferred = b :: rest) : Move L m { m with held := some b, deferred := rest }
  | event {m : Moment} (b : BlockId) (blk : Block) (pend : Multiset BlockId)
      (hpend : m.pend = b ::ₘ pend) (hb : m.state.heap b = some blk) (hcount : 1 < blk.eventCount) :
      Move L m { m with
        state := m.state.put b { blk with eventCount := blk.eventCount - 1 }, pend := pend }
  | lastEvent {m : Moment} (b : BlockId) (blk : Block) (pend : Multiset BlockId)
      (hheld : m.held = none) (hpend : m.pend = b ::ₘ pend) (hb : m.state.heap b = some blk)
      (hcount : blk.eventCount = 1) :
      Move L m { m with
        state := m.state.put b { blk with eventCount := 0 }, held := some b, pend := pend }
  | free {m : Moment} (b : BlockId) (blk : Block) {s' : State} (hheld : m.held = some b)
      (hb : m.state.heap b = some blk) (huses : blk.streamUses = [] ∨ L.uses)
      (hlazy : m.found = none ∨ L.lazy) (h : Freed b blk m.state s') :
      Move L m { m with state := s', held := none }
  /- giving memory back -/
  | unmap {m : Moment} (b : BlockId) (blk : Block) (e : ExpandableSegment) (lo n : ℕ)
      {s₁ s₂ : State} (hfound : m.found = none) (hheld : m.held = none)
      (hb : m.state.heap b = some blk) (hin : b ∈ m.state.blocks blk.pool)
      (hsegment : blk.expandableSegment = some e) (hlo : blk.ptr ≤ lo) (hpos : 0 < n)
      (hend : lo + n ≤ blk.ptr + blk.size) (hptr : e.ptr ≤ lo) (hdvd : e.segmentSize ∣ lo - e.ptr)
      (hdvd' : e.segmentSize ∣ n) (h : Unmapped b blk lo n m.state s₁)
      (hcount : s₁.Positive blk.pool ∧ s₂ = s₁.countFree blk.pool ∨
        ¬s₁.Positive blk.pool ∧ s₂ = s₁.beforeCountFree blk.pool) :
      Move L m { m with state := s₂ }
  | release {m : Moment} (b : BlockId) (blk : Block) (hfound : m.found = none)
      (hheld : m.held = none) (hb : m.state.heap b = some blk) (hin : b ∈ m.state.blocks blk.pool)
      (hsegment : blk.expandableSegment = none) (hsplit : blk.isSplit = false ∨ L.split b)
      (hpool : m.state.HasPool blk.pool) (hpositive : m.state.Positive blk.pool) :
      Move L m { m with
        state := ((m.state.freeSegment b blk).countFree blk.pool).dropBlock b blk }
  | releaseFails {m : Moment} (b : BlockId) (blk : Block) (hfound : m.found = none)
      (hheld : m.held = none) (hb : m.state.heap b = some blk) (hin : b ∈ m.state.blocks blk.pool)
      (hsegment : blk.expandableSegment = none) (hsplit : blk.isSplit = false ∨ L.split b)
      (hpool : m.state.HasPool blk.pool) (hpositive : ¬m.state.Positive blk.pool) :
      Move L m { m with state := (m.state.freeSegment b blk).beforeCountFree blk.pool }
  | dropSegment {m : Moment} (b : BlockId) (blk : Block) (e : ExpandableSegment)
      (hfound : m.found = none) (hheld : m.held = none) (hb : m.state.heap b = some blk)
      (hkind : blk.info.kind = some false) (hsegment : blk.expandableSegment = some e)
      (hsize : blk.size = e.size) (hmem : e ∈ m.state.expandableSegments)
      (hsplit : blk.isSplit = false) :
      Move L m { m with state := m.state.dropSegment b blk e }
  /- private pools -/
  | pool {m : Moment} (id : MempoolId) (pp : PrivatePool)
      (h : m.state.graphPools id = none ∧ pp.npuMallocCount = 0 ∨
        ∃ pp', m.state.graphPools id = some pp' ∧ pp.npuMallocCount = pp'.npuMallocCount) :
      Move L m { m with state := m.state.setPool id pp }
  | freeable {m : Moment} (id : MempoolId) :
      Move L m { m with
        state := { m.state with graphPoolsFreeable := m.state.graphPoolsFreeable ++ [id] } }
  | erase {m : Moment} (id : MempoolId) (pp : PrivatePool) (hfound : m.found = none)
      (hheld : m.held = none) (hpool : m.state.graphPools id = some pp) (huse : pp.useCount = 0)
      (hcount : pp.npuMallocCount = 0) :
      Move L m { m with state := (m.state.record (.erasePool pp)).erasePool id }
  | limit {m : Moment} (maximum : ℕ) (hlicence : L.limit) :
      Move L m { m with state := { m.state with allowedMemoryMaximum := some maximum } }

/-- A sequence of moves. -/
def Moves (L : Licence) : Moment → Moment → Prop :=
  Relation.ReflTransGen (Move L)

end TorchNpu.Allocator
