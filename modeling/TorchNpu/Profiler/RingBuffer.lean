/-
  The ring buffer of the profiler (`ring_buffer.h`), with any number of threads that call `Push` and one
  that calls `Pop`.

  Each atomic load, store and compare-exchange is a step of its own, and so are the assignment to a slot and
  the move out of one.  The indices are of type `size_t`, and `size_t` arithmetic is modulo 2⁶⁴.  The buffer
  is initialised and stays so; the counters of failed pushes are left out.

  An element is told apart from others by the number of reservations before its own.  `reserved` has what
  was reserved for, `pushed` the elements whose `Push` returned true, `popped` what `Pop` returned (`none` is
  a slot with no element) and `overwritten` what was in a slot when another element was assigned to it.
-/
import TorchNpu.Lib.Machine
import Mathlib.Algebra.GroupWithZero.Nat

namespace TorchNpu.Profiler

/-- What is pushed, with the number of its reservation. -/
abbrev Element (T : Type*) := ℕ × T

/-- Where a thread is in `Push`. -/
inductive PushPc (T : Type*)
  | idle
  /-- Ahead of the load of `read_index_`, with `cycles`. -/
  | loadRead (data : T) (cycles : ℕ)
  /-- Ahead of the load of `idle_write_index_` and the test for a full buffer. -/
  | loadWrite (data : T) (cycles currReadIndex : ℕ)
  /-- Ahead of the compare-exchange. -/
  | exchange (data : T) (cycles currWriteIndex : ℕ)
  /-- Ahead of the assignment to the slot. -/
  | assign (element : Element T) (currWriteIndex : ℕ)
  /-- Ahead of `write_index_++`. -/
  | publish (element : Element T) (currWriteIndex : ℕ)

/-- Where the consumer is in `Pop`. -/
inductive PopPc (T : Type*)
  | idle
  /-- Ahead of the load of `write_index_` and the test for an empty buffer. -/
  | loadWrite (currReadIndex : ℕ)
  /-- Ahead of the move out of the slot. -/
  | take (currReadIndex : ℕ)
  /-- Ahead of `read_index_++`. -/
  | advance (data : Option (Element T))

structure RingBuffer (T : Type*) where
  capacity : ℕ
  readIndex : ℕ := 0
  writeIndex : ℕ := 0
  idleWriteIndex : ℕ := 0
  dataQueue : ℕ → Option (Element T) := fun _ => none
  producers : ℕ → PushPc T := fun _ => .idle
  consumer : PopPc T := .idle
  reserved : List T := []
  pushed : List (Element T) := []
  popped : List (Option (Element T)) := []
  overwritten : List (Element T) := []

namespace RingBuffer

variable {T : Type*} (s : RingBuffer T)

/-- `++` on a `size_t`. -/
def increment (index : ℕ) : ℕ :=
  (index + 1) % 2 ^ 64

/-- `mask_`: `capacity_ - 1` as a `size_t`. -/
def mask : ℕ :=
  (s.capacity + (2 ^ 64 - 1)) % 2 ^ 64

/-- `cycle_limit`. -/
def cycleLimit : ℕ :=
  1024

/-- One step of `Push` of thread `i`; `weak` says that the compare-exchange fails although it need not. -/
def stepPush (i : ℕ) (weak : Bool) : Option (RingBuffer T) :=
  let goTo pc : RingBuffer T := { s with producers := Function.update s.producers i pc }
  match s.producers i with
  | .idle => none
  | .loadRead data cycles =>
    if cycleLimit ≤ cycles + 1 then some (goTo .idle)
    else some (goTo (.loadWrite data (cycles + 1) s.readIndex))
  | .loadWrite data cycles currReadIndex =>
    if increment s.idleWriteIndex &&& s.mask = currReadIndex &&& s.mask then some (goTo .idle)
    else some (goTo (.exchange data cycles s.idleWriteIndex))
  | .exchange data cycles currWriteIndex =>
    if s.idleWriteIndex = currWriteIndex ∧ ¬weak then
      some { goTo (.assign (s.reserved.length, data) currWriteIndex) with
        idleWriteIndex := increment currWriteIndex
        reserved := s.reserved ++ [data] }
    else some (goTo (.loadRead data cycles))
  | .assign element currWriteIndex =>
    some { goTo (.publish element currWriteIndex) with
      dataQueue := Function.update s.dataQueue (currWriteIndex &&& s.mask) (some element)
      overwritten := s.overwritten ++ (s.dataQueue (currWriteIndex &&& s.mask)).toList }
  | .publish element _ =>
    some { goTo .idle with
      writeIndex := increment s.writeIndex
      pushed := s.pushed ++ [element] }

/-- One step of `Pop`. -/
def stepPop : RingBuffer T :=
  match s.consumer with
  | .idle => { s with consumer := .loadWrite s.readIndex }
  | .loadWrite currReadIndex =>
    if currReadIndex &&& s.mask = s.writeIndex &&& s.mask then { s with consumer := .idle }
    else { s with consumer := .take currReadIndex }
  | .take currReadIndex =>
    { s with
      consumer := .advance (s.dataQueue (currReadIndex &&& s.mask))
      dataQueue := Function.update s.dataQueue (currReadIndex &&& s.mask) none }
  | .advance data =>
    { s with
      consumer := .idle
      readIndex := increment s.readIndex
      popped := s.popped ++ [data] }

/-- A thread that is idle calls `Push`, a thread takes a step of its `Push`, or the consumer takes a step,
which is the first of a call of `Pop` when it is idle. -/
inductive Label (T : Type*)
  | push (i : ℕ) (data : T)
  | producer (i : ℕ) (weak : Bool)
  | consumer

def next : Label T → Option (RingBuffer T)
  | .push i data =>
    match s.producers i with
    | .idle => some { s with producers := Function.update s.producers i (.loadRead data 0) }
    | _ => none
  | .producer i weak => s.stepPush i weak
  | .consumer => some s.stepPop

end RingBuffer

end TorchNpu.Profiler
