/-
  `ExpandableSegment` (`NPUCachingAllocator.cpp`): a reserved address range whose pages are backed by
  physical memory one at a time.

  `handles e.ptr` is the member `handles_`: a vector with the physical handle of each page, up to the
  last page that has one.  The loops of `map` and `unmapHandles` go through the pages
  `begin, …, begin + n - 1`.
-/
import TorchNpu.Allocator.State

namespace TorchNpu.Allocator

namespace ExpandableSegment

/-- The constructor: `max_handles_` comes from the size of the device. -/
def reserve (segmentSize : ℕ) : M ExpandableSegment := do
  match ← answer with
  | .reserved ptr maxHandles => do
    let e : ExpandableSegment := ⟨ptr, segmentSize, maxHandles⟩
    let s ← get
    if s.Available e.range then
      set { s with
        expandableSegments := s.expandableSegments ++ [e]
        handles := Function.update s.handles ptr [] }
      pure e
    else throw .unanswered
  | .memoryAllocation | .failure => throw .aclError
  | _ => throw .unanswered

def numSegments (e : ExpandableSegment) (size : ℕ) : ℕ :=
  (size + e.segmentSize - 1) / e.segmentSize

def segmentLeft (e : ExpandableSegment) (p : ℕ) : ℕ :=
  (p - e.ptr) / e.segmentSize

def segmentRight (e : ExpandableSegment) (p : ℕ) : ℕ :=
  e.numSegments (p - e.ptr)

def rangeFromHandles (e : ExpandableSegment) (first last : ℕ) : Range :=
  ⟨e.ptr + e.segmentSize * first, e.segmentSize * (last - first)⟩

/-! ### The handles -/

def setHandles (e : ExpandableSegment) (f : List (Option Handle) → List (Option Handle)) : M Unit :=
  modify fun s => { s with handles := Function.update s.handles e.ptr (f (s.handles e.ptr)) }

/-- `handles_.at(i)`. -/
def handleAt (e : ExpandableSegment) (i : ℕ) : M (Option Handle) := do
  match ((← get).handles e.ptr)[i]? with
  | some h => pure h
  | none => throw .internalAssert

/-- `handles_.at(i).value()`. -/
def handleValue (e : ExpandableSegment) (i : ℕ) : M Handle := do
  match ← e.handleAt i with
  | some h => pure h
  | none => throw .internalAssert

def trimHandles (e : ExpandableSegment) : M Unit :=
  e.setHandles fun l => (l.reverse.dropWhile (·.isNone)).reverse

/-- What `map` does when the device has no memory left: the pages got so far are given back. -/
def giveBack (e : ExpandableSegment) (i : ℕ) : ℕ → M Unit
  | 0 => pure ()
  | n + 1 => do
    let _ ← e.handleValue i
    e.setHandles (·.set i none)
    checkError
    giveBack e (i + 1) n

/-- The first loop of `map`: `false` when a page could not be got. -/
def allocPages (e : ExpandableSegment) (pool : PoolId) (first i : ℕ) : ℕ → M Bool
  | 0 => pure true
  | n + 1 => do
    assert (← e.handleAt i).isNone
    match ((← get).freePhysicalHandles pool).getLast? with
    | some handle =>
      modify fun s =>
        { s with
          freePhysicalHandles := Function.update s.freePhysicalHandles pool
            (s.freePhysicalHandles pool).dropLast }
      e.setHandles (·.set i (some handle))
      allocPages e pool first (i + 1) n
    | none =>
      match ← answer with
      | .physical handle =>
        e.setHandles (·.set i (some handle))
        allocPages e pool first (i + 1) n
      | .memoryAllocation =>
        e.giveBack first (i - first)
        e.trimHandles
        pure false
      | .failure => throw .aclError
      | _ => throw .unanswered

/-- The second loop of `map`. -/
def mapPages (e : ExpandableSegment) (i : ℕ) : ℕ → M Unit
  | 0 => pure ()
  | n + 1 => do
    let _ ← e.handleValue i
    checkError
    mapPages e (i + 1) n

def map (e : ExpandableSegment) (r : Range) (pool : PoolId) : M Range := do
  let first := e.segmentLeft r.lo
  let last := e.segmentRight (r.lo + r.size)
  assert (e.ptr + first * e.segmentSize = r.lo)
  if first = last then
    return e.rangeFromHandles first last
  e.setHandles fun l => l ++ List.replicate (last - l.length) none
  if ← e.allocPages pool first first (last - first) then
    e.mapPages first (last - first)
    return e.rangeFromHandles first last
  else
    return e.rangeFromHandles first first

/-- The loop of `unmapHandles`; the handles go to `pool`, if there is one. -/
def unmapPages (e : ExpandableSegment) (pool : Option PoolId) (i : ℕ) : ℕ → M Unit
  | 0 => pure ()
  | n + 1 => do
    let handle ← e.handleValue i
    e.setHandles (·.set i none)
    checkError
    match pool with
    | none => checkError
    | some pool =>
      modify fun s =>
        { s with
          freePhysicalHandles := Function.update s.freePhysicalHandles pool
            (s.freePhysicalHandles pool ++ [handle]) }
    unmapPages e pool (i + 1) n

def unmapHandles (e : ExpandableSegment) (first last : ℕ) (pool : Option PoolId) : M Unit := do
  e.unmapPages pool first (last - first)
  e.trimHandles

def unmap (e : ExpandableSegment) (r : Range) (pool : Option PoolId) : M Range := do
  let first := e.segmentRight r.lo
  let last := e.segmentLeft (r.lo + r.size)
  if last ≤ first then
    return ⟨r.lo, 0⟩
  e.unmapHandles first last pool
  return e.rangeFromHandles first last

/-- The destructor: every page that is still backed is unmapped and the range is given back.  A
failure here is thrown out of a destructor and ends the process. -/
def release (e : ExpandableSegment) : M Unit :=
  modify fun s =>
    { s with
      expandableSegments := s.expandableSegments.filter (· ≠ e)
      handles := Function.update s.handles e.ptr [] }

end ExpandableSegment

end TorchNpu.Allocator
