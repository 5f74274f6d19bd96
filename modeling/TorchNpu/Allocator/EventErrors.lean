/-
  `process_events` and `synchronize_and_free_events` (`NPUCachingAllocator.cpp`) on a device that may
  refuse to look at an event or to wait for it.

  An entry of `npu_events` is a pair of an event and a block.  Both loops move the event out of the
  entry before they ask the device about it.  `moved` lists the entries whose event is null, by their
  stream and their place in its queue; an event that is put back leaves it, and so does an entry that
  is popped.  Everything else is done by the functions of `Operations`, which leave `moved` alone.
-/
import TorchNpu.Allocator.Operations

namespace TorchNpu.Allocator

structure EventState where
  state : State
  moved : List (Stream × ℕ) := []

abbrev EventM := EStateM Exception EventState

namespace EventM

/-- A part of an operation that does not touch the events. -/
def lift {α : Type} (x : M α) : EventM α := fun es =>
  match x es.state with
  | .ok a s => .ok a { es with state := s }
  | .error err s => .error err { es with state := s }

/-- `EventPool::Event event = std::move(e.first)`, for the entry at place `i`.  The event is followed
right after, which must not be done with one that is null. -/
def takeEvent (stream : Stream) (i : ℕ) : EventM Unit := do
  if (stream, i) ∈ (← get).moved then
    throw .badPointer
  modify fun es => { es with moved := (stream, i) :: es.moved }

/-- `e.first = std::move(event)`. -/
def putBack (stream : Stream) (i : ℕ) : EventM Unit :=
  modify fun es => { es with moved := es.moved.filter (· ≠ (stream, i)) }

/-- The entries of a queue after `pop_front`. -/
def popFront (stream : Stream) : EventM Unit :=
  modify fun es =>
    { es with
      moved := (es.moved.filter (· ≠ (stream, 0))).map fun (st, i) =>
        if st = stream then (st, i - 1) else (st, i) }

/-- `NPUEvent::query`. -/
def query : EventM Bool := do
  match ← lift answer with
  | .event complete => return complete
  | .memoryAllocation | .failure => throw .aclError
  | _ => throw .unanswered

/-- `aclrtSynchronizeEvent`, whose error is thrown or only logged. -/
def synchronizeEvent (checkError : Bool) : EventM Unit := do
  match ← lift answer with
  | .done => pure ()
  | .memoryAllocation | .failure => if checkError then throw .aclError
  | _ => throw .unanswered

/-! ### `process_events` -/

def processQueue (done : List (Stream × List BlockId)) (stream : Stream)
    (rest : List (Stream × List BlockId)) : List BlockId → EventM (List BlockId)
  | [] => return []
  | b :: queue => do
    takeEvent stream 0
    if ← query then
      lift (finishEvent b)
      popFront stream
      lift (modify fun s => { s with npuEvents := done ++ (stream, queue) :: rest })
      processQueue done stream rest queue
    else
      putBack stream 0
      return b :: queue

def processStreams (done : List (Stream × List BlockId)) :
    List (Stream × List BlockId) → EventM Unit
  | [] => pure ()
  | (stream, queue) :: rest => do
    let left ← processQueue done stream rest queue
    if left = [] then
      lift (modify fun s => { s with npuEvents := done ++ rest })
      processStreams done rest
    else
      processStreams (done ++ [(stream, left)]) rest

def processEvents : EventM Unit := do
  lift insertEventsDeferredUntilNoCapture
  processStreams [] (← get).state.npuEvents

/-! ### `synchronize_and_free_events` -/

def synchronizeQueue (checkError : Bool) (stream : Stream) : ℕ → List BlockId → EventM Unit
  | _, [] => pure ()
  | i, b :: queue => do
    takeEvent stream i
    synchronizeEvent checkError
    lift (finishEvent b)
    synchronizeQueue checkError stream (i + 1) queue

def synchronizeStreams (checkError : Bool) : List (Stream × List BlockId) → EventM Unit
  | [] => pure ()
  | (stream, queue) :: rest => do
    synchronizeQueue checkError stream 0 queue
    synchronizeStreams checkError rest

def synchronizeAndFreeEvents (checkError : Bool) : EventM Unit := do
  lift (assert (← get).state.capturesUnderway.isEmpty)
  lift insertEventsDeferredUntilNoCapture
  synchronizeStreams checkError (← get).state.npuEvents
  lift (modify fun s => { s with npuEvents := [] })
  modify fun es => { es with moved := [] }

end EventM

end TorchNpu.Allocator
