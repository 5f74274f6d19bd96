/-
  The allocator of workspaces (`NPUWorkspaceAllocator.cpp`).

  A device has one block for each stream.  The block is handed out to every request of the stream, and is exchanged
  for a larger one if a request does not fit.  The state of the system has two parts that the allocator does not
  have: what the device has allocated, and what the callers have been handed out and have not deleted yet.
-/
import TorchNpu.Lib.AListSum
import TorchNpu.Lib.Machine

namespace TorchNpu.NPUWorkspaceAllocator

/-- Blocks are aligned to 2 MiB. -/
def kRoundLarge : ℕ := 2097152

structure Stat where
  current : ℤ := 0
  peak : ℤ := 0
  allocated : ℤ := 0
  freed : ℤ := 0

/-- `update_stat` -/
def Stat.update (stat : Stat) (amount : ℤ) : Stat :=
  let current := stat.current + amount
  {
    current
    peak := max current stat.peak
    allocated := if 0 < amount then stat.allocated + amount else stat.allocated
    freed := if amount < 0 then stat.freed + -amount else stat.freed
  }

/-- A null pointer is `none`. -/
structure WorkspaceBlock where
  dataPtr : Option ℕ := none
  size : ℕ := 0
  deriving DecidableEq

/-! ### `DeviceWorkspaceAllocator` -/

/-- The allocator of a device, with its `stats`; `memory` is what the device has allocated, by address. -/
structure DeviceWorkspaceAllocator where
  blocks : AList fun _ : ℕ => WorkspaceBlock := ∅
  allocatedBytes : Stat := {}
  reservedBytes : Stat := {}
  allocatedSize : ℕ := 0
  memory : AList fun _ : ℕ => ℕ := ∅

namespace DeviceWorkspaceAllocator

variable (allocator : DeviceWorkspaceAllocator)

/-- `blocks[stream]`, which is emplaced if it is not there. -/
def block (stream : ℕ) : WorkspaceBlock :=
  (allocator.blocks.lookup stream).getD {}

/-- `getStreamPtr` -/
def getStreamPtr (stream : ℕ) : Option ℕ :=
  (allocator.blocks.lookup stream).bind WorkspaceBlock.dataPtr

/-- `aclrtFree` of the memory of a block. -/
def release (block : WorkspaceBlock) : DeviceWorkspaceAllocator :=
  match block.dataPtr with
  | none => allocator
  | some ptr =>
    { allocator with
      memory := allocator.memory.erase ptr
      reservedBytes := allocator.reservedBytes.update (-block.size) }

/-- `alloc_size`, a `size_t` -/
def allocSize (size : ℕ) : ℕ :=
  (size + 32) % 2 ^ 64

/-- `block->size` for a new block -/
def roundSize (allocSize : ℕ) : ℕ :=
  kRoundLarge * ((allocSize + kRoundLarge - 1) % 2 ^ 64 / kRoundLarge)

/-- The end of `malloc`. -/
def handOut (block : WorkspaceBlock) : DeviceWorkspaceAllocator × Option ℕ :=
  ({ allocator with
      allocatedSize := block.size
      allocatedBytes := allocator.allocatedBytes.update block.size }, block.dataPtr)

/-- `malloc`: `answer` is what the device answers if it is asked for memory, and there is no such step if the device
has allocated that address.  The pointer that is returned is null if the request fails. -/
def malloc (size stream : ℕ) (answer : Option ℕ) : Option (DeviceWorkspaceAllocator × Option ℕ) :=
  let block := allocator.block stream
  if block.size < allocSize size then
    let allocator := allocator.release block
    let blockSize := roundSize (allocSize size)
    -- The size is written before the device is asked.
    let failed := { allocator with blocks := allocator.blocks.insert stream { dataPtr := none, size := blockSize } }
    if blockSize < allocSize size then some (failed, none)
    else
      match answer with
      | none => some (failed, none)
      | some ptr =>
        if ptr ∈ allocator.memory then none
        else
          let block : WorkspaceBlock := { dataPtr := some ptr, size := blockSize }
          some (handOut
            { allocator with
              blocks := allocator.blocks.insert stream block
              memory := allocator.memory.insert ptr blockSize
              reservedBytes := allocator.reservedBytes.update blockSize }
            block)
  else some (handOut { allocator with blocks := allocator.blocks.insert stream block } block)

/-- `free` -/
def free : DeviceWorkspaceAllocator :=
  { allocator with allocatedBytes := allocator.allocatedBytes.update (-allocator.allocatedSize) }

/-- `empty_cache` -/
def emptyCache : DeviceWorkspaceAllocator :=
  { allocator.blocks.entries.foldl (fun allocator entry => allocator.release entry.2) allocator with blocks := ∅ }

end DeviceWorkspaceAllocator

/-! ### `NpuWorkspaceAllocator` -/

structure NpuWorkspaceAllocator where
  deviceAllocator : ℕ → DeviceWorkspaceAllocator
  allocatedPtrs : AList fun _ : ℕ => ℕ := ∅

namespace NpuWorkspaceAllocator

variable (allocator : NpuWorkspaceAllocator)

/-- `replace_allocated_ptr` -/
def replaceAllocatedPtr (newPtr : ℕ) (srcPtr : Option ℕ) (device : ℕ) : NpuWorkspaceAllocator :=
  let allocatedPtrs :=
    match srcPtr with
    | none => allocator.allocatedPtrs
    | some ptr => allocator.allocatedPtrs.erase ptr
  { allocator with allocatedPtrs := allocatedPtrs.insert newPtr device }

/-- `malloc`; the pointer is null if it raises an error. -/
def malloc (device size stream : ℕ) (answer : Option ℕ) : Option (NpuWorkspaceAllocator × Option ℕ) := do
  let srcPtr := (allocator.deviceAllocator device).getStreamPtr stream
  let (deviceAllocator, newPtr) ← (allocator.deviceAllocator device).malloc size stream answer
  let allocator :=
    { allocator with deviceAllocator := Function.update allocator.deviceAllocator device deviceAllocator }
  match newPtr with
  | none => some (allocator, none)
  | some ptr =>
    some (if newPtr ≠ srcPtr then allocator.replaceAllocatedPtr ptr srcPtr device else allocator, newPtr)

/-- `free` of a pointer that is not null. -/
def free (ptr : ℕ) : NpuWorkspaceAllocator :=
  match allocator.allocatedPtrs.lookup ptr with
  | none => allocator
  | some device =>
    { allocator with
      deviceAllocator :=
        Function.update allocator.deviceAllocator device (allocator.deviceAllocator device).free }

/-- `empty_cache` -/
def emptyCache (device : ℕ) : NpuWorkspaceAllocator :=
  {
    deviceAllocator :=
      Function.update allocator.deviceAllocator device (allocator.deviceAllocator device).emptyCache
    allocatedPtrs := ∅
  }

end NpuWorkspaceAllocator

/-! ### The allocator and its callers -/

/-- A pointer that a request was handed out, with the size of its block. -/
structure Handout where
  device : ℕ
  ptr : ℕ
  size : ℕ
  request : ℕ
  deriving DecidableEq

structure System where
  allocator : NpuWorkspaceAllocator
  handedOut : List Handout

def System.initial : System :=
  { allocator := { deviceAllocator := fun _ => {} }, handedOut := [] }

inductive Action
  /-- `malloc_with_stream` on the current device. -/
  | mallocWithStream (device size stream : ℕ) (answer : Option ℕ)
  /-- The deletion of a pointer that was handed out. -/
  | delete (handout : Handout)
  | emptyCache (device : ℕ)
  deriving DecidableEq

/-- A request for no bytes gets a null pointer. -/
def step (s : System) : Action → Option System
  | .mallocWithStream device size stream answer =>
    if size = 0 then some s
    else
      (s.allocator.malloc device size stream answer).map fun (allocator, newPtr) =>
        match newPtr with
        | none => { s with allocator }
        | some ptr =>
          let handout :=
            { device, ptr, size := ((allocator.deviceAllocator device).block stream).size, request := size }
          { allocator, handedOut := handout :: s.handedOut }
  | .delete handout =>
    if handout ∈ s.handedOut then
      some { allocator := s.allocator.free handout.ptr, handedOut := s.handedOut.erase handout }
    else none
  | .emptyCache device => some { s with allocator := s.allocator.emptyCache device }

end TorchNpu.NPUWorkspaceAllocator
