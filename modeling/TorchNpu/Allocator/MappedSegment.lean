/-
  `ExpandableSegment::map` and `unmap` with what the driver knows: which physical handles are live, and what the pages
  of the reserved range are mapped to.

  There is one such class for the device (`NPUCachingAllocator.cpp`) and one for the host
  (`CachingHostAllocator.cpp`); only the first one keeps physical handles in its pool.  A call that fails changes
  nothing at the driver, and a handle it gives out is not live.
-/
import TorchNpu.Allocator.ExpandableSegment

namespace TorchNpu.Allocator

/-- A segment with the cached handles of its pool and with what the driver knows. -/
structure MappedSegment where
  handles : List (Option Handle) := []
  freePhysicalHandles : List Handle := []
  physical : List Handle := []
  mapped : ℕ → Option Handle := fun _ => none
  answers : List Answer := []

abbrev SegmentM := EStateM Exception MappedSegment

namespace MappedSegment

/-! ### The driver -/

def nextAnswer : SegmentM Answer := do
  let m ← get
  match m.answers with
  | [] => throw .unanswered
  | a :: as => do
    set { m with answers := as }
    pure a

/-- A call under `NPU_CHECK_ERROR`, with what it does if it succeeds. -/
def check (effect : MappedSegment → MappedSegment) : SegmentM Unit := do
  match ← nextAnswer with
  | .done => modify effect
  | .memoryAllocation | .failure => throw .aclError
  | _ => throw .unanswered

/-- `AclrtFreePhysical` -/
def freePhysical (handle : Handle) : SegmentM Unit :=
  check fun m => { m with physical := m.physical.erase handle }

/-- `AclrtMapMem` -/
def mapMem (i : ℕ) (handle : Handle) : SegmentM Unit :=
  check fun m => { m with mapped := Function.update m.mapped i (some handle) }

/-- `AclrtUnmapMem` -/
def unmapMem (i : ℕ) : SegmentM Unit :=
  check fun m => { m with mapped := Function.update m.mapped i none }

/-! ### The handles -/

def setHandles (f : List (Option Handle) → List (Option Handle)) : SegmentM Unit :=
  modify fun m => { m with handles := f m.handles }

/-- `handles_.at(i)` -/
def handleAt (i : ℕ) : SegmentM (Option Handle) := do
  match (← get).handles[i]? with
  | some h => pure h
  | none => throw .internalAssert

/-- `handles_.at(i).value()` -/
def handleValue (i : ℕ) : SegmentM Handle := do
  match ← handleAt i with
  | some h => pure h
  | none => throw .internalAssert

/-- The vector without the empty elements at its end. -/
def trim (l : List (Option Handle)) : List (Option Handle) :=
  (l.reverse.dropWhile (·.isNone)).reverse

def trimHandles : SegmentM Unit :=
  setHandles trim

/-! ### `map` -/

/-- The loop of `map` that gives the pages of a range back. -/
def giveBack (i : ℕ) : ℕ → SegmentM Unit
  | 0 => pure ()
  | n + 1 => do
    let handle ← handleValue i
    setHandles (·.set i none)
    freePhysical handle
    giveBack (i + 1) n

/-- `pool->free_physical_handles_`, for a segment that has such a pool -/
def cached (hasPool : Bool) (m : MappedSegment) : List Handle :=
  if hasPool then m.freePhysicalHandles else []

/-- The first loop of `map`: `false` when a page could not be got. -/
def allocPages (hasPool : Bool) (first i : ℕ) : ℕ → SegmentM Bool
  | 0 => pure true
  | n + 1 => do
    if (← handleAt i).isSome then throw .internalAssert
    match (cached hasPool (← get)).getLast? with
    | some handle =>
      modify fun m => { m with freePhysicalHandles := m.freePhysicalHandles.dropLast }
      setHandles (·.set i (some handle))
      allocPages hasPool first (i + 1) n
    | none =>
      match ← nextAnswer with
      | .physical handle =>
        if handle ∈ (← get).physical then throw .unanswered
        modify fun m => { m with physical := handle :: m.physical }
        setHandles (·.set i (some handle))
        allocPages hasPool first (i + 1) n
      | .memoryAllocation =>
        giveBack first (i - first)
        trimHandles
        pure false
      | .failure => throw .aclError
      | _ => throw .unanswered

/-- The second loop of `map` -/
def mapPages (i : ℕ) : ℕ → SegmentM Unit
  | 0 => pure ()
  | n + 1 => do
    let handle ← handleValue i
    mapMem i handle
    mapPages (i + 1) n

/-- What is common to the two functions `map`. -/
def mapRange (hasPool : Bool) (e : ExpandableSegment) (r : Range) : SegmentM Range := do
  let first := e.segmentLeft r.lo
  let last := e.segmentRight (r.lo + r.size)
  if e.ptr + first * e.segmentSize ≠ r.lo then throw .internalAssert
  if first = last then
    return e.rangeFromHandles first last
  setHandles fun l => l ++ List.replicate (last - l.length) none
  if ← allocPages hasPool first first (last - first) then
    mapPages first (last - first)
    return e.rangeFromHandles first last
  else
    return e.rangeFromHandles first first

/-- `map` of the segments of the device -/
def map (e : ExpandableSegment) (r : Range) : SegmentM Range :=
  mapRange true e r

/-- `map` of the segments of the host -/
def hostMap (e : ExpandableSegment) (r : Range) : SegmentM Range :=
  mapRange false e r

/-! ### `unmap` -/

/-- The loop of `unmapHandles`; the handles go to the pool, if there is one. -/
def unmapPages (hasPool : Bool) (i : ℕ) : ℕ → SegmentM Unit
  | 0 => pure ()
  | n + 1 => do
    let handle ← handleValue i
    setHandles (·.set i none)
    unmapMem i
    if hasPool then modify fun m => { m with freePhysicalHandles := m.freePhysicalHandles ++ [handle] }
    else freePhysical handle
    unmapPages hasPool (i + 1) n

/-- What is common to the two functions `unmap`. -/
def unmapRange (hasPool : Bool) (e : ExpandableSegment) (r : Range) : SegmentM Range := do
  let first := e.segmentRight r.lo
  let last := e.segmentLeft (r.lo + r.size)
  if last ≤ first then
    return ⟨r.lo, 0⟩
  unmapPages hasPool first (last - first)
  trimHandles
  return e.rangeFromHandles first last

/-- `unmap` of the segments of the device -/
def unmap (e : ExpandableSegment) (r : Range) : SegmentM Range :=
  unmapRange true e r

/-- `unmap` of the segments of the host -/
def hostUnmap (e : ExpandableSegment) (r : Range) : SegmentM Range :=
  unmapRange false e r

end MappedSegment

end TorchNpu.Allocator
