/-
  The flight recorder (`HCCLTraceBuffer` in `TraceUtils.h`).

  The machine has one step for each stretch of code under the mutex.  `retire_id` drops it while it computes a
  duration, and so it has two steps; `retiring` says which id a thread is about to finish.  What the events
  answer, the times and the durations come with the labels.

  `id_` and the other counters are natural numbers.  The traceback of an entry and the status of the process
  groups are left out.
-/
import TorchNpu.Lib.Machine
import Mathlib.Algebra.Order.Ring.Rat
import Mathlib.Logic.Function.Basic

namespace TorchNpu.Distributed

/-- What an entry keeps of a tensor; the type is a number. -/
structure TracedTensor where
  sizes : List ℤ
  dtype : ℤ

/-- The arguments of `record`; `timeCreated` is the time at which the entry is made. -/
structure RecordArgs (E : Type*) where
  pgId : ℕ
  pgName : String × String
  collectiveSeqId : ℕ
  p2pSeqId : ℕ
  opId : ℕ
  profilingName : String
  inputs : List TracedTensor
  outputs : List TracedTensor
  start : Option E
  end_ : Option E
  timeoutMs : ℤ
  isP2P : Bool
  timeCreated : ℤ

structure Entry (E : Type*) where
  id : ℕ
  pgId : ℕ
  pgName : String × String
  collectiveSeqId : ℕ
  p2pSeqId : ℕ
  opId : ℕ
  profilingName : String
  start : Option E
  end_ : Option E
  timeCreated : ℤ
  timeoutMs : ℤ
  isP2P : Bool
  duration : Option ℚ := none
  timeDiscoveredStarted : Option ℤ := none
  timeDiscoveredCompleted : Option ℤ := none
  inputDims : List ℤ
  inputDtypes : List ℤ
  outputDims : List ℤ
  outputDtypes : List ℤ
  sizes : List ℤ
  retired : Bool := false

/-- What the events of an entry answer to `query`, and the time then. -/
structure Observation where
  started : Bool
  completed : Bool
  timeStarted : ℤ
  timeCompleted : ℤ

variable {E : Type*}

namespace Entry

/-- The entry that `record` makes. -/
def ofArgs (id : ℕ) (args : RecordArgs E) : Entry E where
  id := id
  pgId := args.pgId
  pgName := args.pgName
  collectiveSeqId := args.collectiveSeqId
  p2pSeqId := args.p2pSeqId
  opId := args.opId
  profilingName := args.profilingName
  start := args.start
  end_ := args.end_
  timeCreated := args.timeCreated
  timeoutMs := args.timeoutMs
  isP2P := args.isP2P
  inputDims := args.inputs.map fun input => (input.sizes.length : ℤ)
  inputDtypes := args.inputs.map TracedTensor.dtype
  outputDims := args.outputs.map fun output => (output.sizes.length : ℤ)
  outputDtypes := args.outputs.map TracedTensor.dtype
  sizes := args.inputs.flatMap TracedTensor.sizes ++ args.outputs.flatMap TracedTensor.sizes

/-- `update_state` -/
def updateState (r : Entry E) (seen : Observation) : Entry E :=
  let r :=
    if r.start.isSome ∧ seen.started ∧ r.timeDiscoveredStarted = none then
      { r with timeDiscoveredStarted := some seen.timeStarted }
    else r
  if r.end_.isSome ∧ seen.completed ∧ r.timeDiscoveredCompleted = none then
    { r with timeDiscoveredCompleted := some seen.timeCompleted }
  else r

end Entry

structure TraceBuffer (E : Type*) where
  maxEntries : ℕ
  entries : List (Entry E) := []
  next : ℕ := 0
  id : ℕ := 0
  /-- The threads that compute the duration of an id. -/
  retiring : ℕ → Option ℕ := fun _ => none
  /-- All the records so far. -/
  recorded : List (RecordArgs E) := []

inductive TraceLabel (E : Type*)
  | record (args : RecordArgs E)
  | updateState (index : ℕ) (seen : Observation)
  /-- The first part of `retire_id`. -/
  | retireId (thread : ℕ) (id : Option ℕ) (computeDuration : Bool) (seen : Observation)
  /-- The second part, with the duration. -/
  | setDuration (thread : ℕ) (duration : Option ℚ)

namespace TraceBuffer

variable (b : TraceBuffer E)

/-- `enabled_` -/
def enabled : Bool :=
  0 < b.maxEntries

/-- The end of `record`, where the entry is put. -/
def pushEntry (te : Entry E) : TraceBuffer E :=
  if b.entries.length < b.maxEntries then { b with entries := b.entries ++ [te] }
  else
    { b with
      entries := b.entries.set b.next te
      next := if b.next + 1 = b.maxEntries then 0 else b.next + 1 }

/-- The buffer after `record`; what is returned is `id_`, or nothing if the buffer is not enabled. -/
def record (args : RecordArgs E) : TraceBuffer E × Option ℕ :=
  if !b.enabled then (b, none)
  else
    ({ b.pushEntry (Entry.ofArgs b.id args) with id := b.id + 1, recorded := b.recorded ++ [args] }, some b.id)

/-- `dump_entries`; `look` is what the events of an entry answer. -/
def dumpEntries (look : Entry E → Observation) : List (Entry E) :=
  (b.entries.drop b.next ++ b.entries.take b.next).map fun r =>
    { r.updateState (look r) with start := none, end_ := none }

/-- `can_compute_duration`, for an entry after `update_state`. -/
def canComputeDuration (entry : Entry E) (computeDuration : Bool) : Bool :=
  computeDuration && entry.timeDiscoveredCompleted.isSome && entry.start.isSome && entry.end_.isSome

/-- `retire_id` until it returns or drops the mutex; `none` stands for the exception of `at`. -/
def retireId (thread : ℕ) (id : Option ℕ) (computeDuration : Bool) (seen : Observation) :
    Option (TraceBuffer E) :=
  match id with
  | none => some b
  | some id =>
    if !b.enabled then some b
    else
      (b.entries[id % b.maxEntries]?).map fun entry =>
        if entry.id = id then
          let entry := entry.updateState seen
          { b with
            entries := b.entries.set (id % b.maxEntries)
              { entry with retired := true, start := none, end_ := none }
            retiring := if canComputeDuration entry computeDuration then
              Function.update b.retiring thread (some id) else b.retiring }
        else b

/-- The rest of `retire_id`. -/
def setDuration (thread id : ℕ) (duration : Option ℚ) : Option (TraceBuffer E) :=
  let b := { b with retiring := Function.update b.retiring thread none }
  (b.entries[id % b.maxEntries]?).map fun entry =>
    if entry.id ≠ id then b
    else if duration.isSome then
      { b with entries := b.entries.set (id % b.maxEntries) { entry with duration } }
    else b

/-- A step.  An exception leaves everything as it is. -/
def step : TraceLabel E → Option (TraceBuffer E)
  | .record args => some (b.record args).1
  | .updateState index seen =>
    (b.entries[index]?).map fun entry => { b with entries := b.entries.set index (entry.updateState seen) }
  | .retireId thread id computeDuration seen =>
    if b.retiring thread = none then some ((b.retireId thread id computeDuration seen).getD b) else none
  | .setDuration thread duration =>
    (b.retiring thread).map fun id => (b.setDuration thread id duration).getD b

/-- The buffer after a run from the start. -/
def runFromStart (maxEntries : ℕ) (ls : List (TraceLabel E)) : Option (TraceBuffer E) :=
  Machine.run step { maxEntries } ls

end TraceBuffer

end TorchNpu.Distributed
