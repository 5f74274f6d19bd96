/-
  A random number generator and the graphs that have captured draws from it (`NPUGeneratorImpl.cpp`, and `NPUGraph.cpp`
  as far as it deals with generators).

  There is one state of the generator, registered with every graph; `capture` is the graph whose capture is under way on
  the stream.  A call that raises has no next world.  `drawn` lists what the kernels have read of the Philox sequence, in
  the order of the stream.
-/
import TorchNpu.Lib.LittleEndian
import TorchNpu.Lib.Machine
import Mathlib.Logic.Function.Basic

namespace TorchNpu.Core.Generator

/-- `NPUGeneratorState`; the two tensors are their contents. -/
structure NPUGeneratorState where
  seed : UInt64
  philoxOffsetPerThread : UInt64 := 0
  offsetIntragraph : UInt32 := 0
  capturing : Bool := false
  seedExtragraph : UInt64 := 0
  offsetExtragraph : UInt64 := 0

/-- `((increment + 3) / 4) * 4` -/
def roundToFour (increment : UInt64) : UInt64 :=
  (increment + 3) / 4 * 4

namespace NPUGeneratorState

variable (s : NPUGeneratorState)

/-- `streamCapturing`: `currentStreamCaptureStatus()` is not `None`. -/
def increase (streamCapturing : Bool) (increment : UInt64) : Option NPUGeneratorState :=
  let increment := roundToFour increment
  if streamCapturing then
    if s.capturing ∧ s.offsetIntragraph % 4 = 0 ∧
        s.offsetIntragraph.toUInt64 ≤ UInt32.toUInt64 0xffffffff - increment then
      some { s with offsetIntragraph := (s.offsetIntragraph.toUInt64 + increment).toUInt32 }
    else none
  else if ¬s.capturing ∧ s.philoxOffsetPerThread % 4 = 0 then
    some { s with philoxOffsetPerThread := s.philoxOffsetPerThread + increment }
  else none

def capturePrologue : NPUGeneratorState :=
  { s with capturing := true, offsetIntragraph := 0, seedExtragraph := s.seed, offsetExtragraph := 0 }

def captureEpilogue : UInt64 × NPUGeneratorState :=
  (s.offsetIntragraph.toUInt64, { s with capturing := false })

def replayPrologue (streamCapturing : Bool) (wholegraphIncrement : UInt64) : Option NPUGeneratorState :=
  if streamCapturing then none
  else if wholegraphIncrement = 0 then some s
  else
    { s with seedExtragraph := s.seed, offsetExtragraph := s.philoxOffsetPerThread }.increase streamCapturing
      wholegraphIncrement

def setCurrentSeed (streamCapturing : Bool) (seed : UInt64) : Option NPUGeneratorState :=
  if streamCapturing then if s.seed = seed then some s else none
  else some { s with seed, philoxOffsetPerThread := 0 }

/-- `set_philox_offset_per_thread` -/
def setPhiloxOffset (streamCapturing : Bool) (offset : UInt64) : Option NPUGeneratorState :=
  if offset % 4 = 0 then
    some (if streamCapturing then { s with offsetIntragraph := offset.toUInt32 }
      else { s with philoxOffsetPerThread := offset })
  else none

/-- `get_state`: the seed, and the offset as an `int64_t`. -/
def getState (streamCapturing : Bool) : List UInt8 :=
  leEncode 8 s.seed.toNat ++ leEncode 8
    (if streamCapturing then s.offsetIntragraph.toNat else s.philoxOffsetPerThread.toNat)

/-- `set_state`; a state of eight bytes has no offset. -/
def setState (streamCapturing : Bool) (newState : List UInt8) : Option NPUGeneratorState :=
  if newState.length = 8 ∨ newState.length = 16 then do
    let s ← s.setCurrentSeed streamCapturing (.ofNat (leDecode (newState.take 8)))
    s.setPhiloxOffset streamCapturing (.ofNat (leDecode (newState.drop 8)))
  else none

end NPUGeneratorState

/-- What a kernel reads: `increment` numbers of each thread's sequence from `offset` on. -/
structure Draw where
  seed : UInt64
  offset : UInt64
  increment : UInt64

/-- A kernel that asks for no numbers reads none. -/
def draws (seed offset increment : UInt64) : List Draw :=
  if increment = 0 then [] else [⟨seed, offset, increment⟩]

/-- A kernel of a graph, with what `PhiloxNpuState` holds of the capture. -/
structure CapturedKernel where
  offsetIntragraph : UInt32
  increment : UInt64

/-- `wholegraph_increments`, and the kernels of `model_ri_`. -/
structure NPUGraph where
  hasGraphExec : Bool := false
  wholegraphIncrement : UInt64 := 0
  kernels : List CapturedKernel := []

abbrev GraphId := ℕ

structure World where
  gen : NPUGeneratorState
  capture : Option GraphId := none
  graphs : GraphId → NPUGraph := fun _ => {}
  drawn : List Draw := []

inductive GeneratorCall
  /-- A kernel is launched with `philox_npu_state(increment)`. -/
  | philoxNpuState (increment : UInt64)
  | philoxEngineInputs (increment : UInt64)
  | captureBegin (g : GraphId)
  | captureEnd
  | replay (g : GraphId)
  | reset (g : GraphId)
  | setCurrentSeed (seed : UInt64)
  | setOffset (offset : UInt64)
  | setState (newState : List UInt8)

namespace World

variable (w : World)

def setGraph (g : GraphId) (graph : NPUGraph) : World :=
  { w with graphs := Function.update w.graphs g graph }

/-- The kernel runs at once, or becomes one of the graph. -/
def philoxNpuState (increment : UInt64) : Option World := do
  let gen ← w.gen.increase w.capture.isSome increment
  match w.capture with
  | none => some { w with gen, drawn := w.drawn ++ draws w.gen.seed w.gen.philoxOffsetPerThread increment }
  | some g =>
    let kernel := ⟨w.gen.offsetIntragraph, increment⟩
    some { w.setGraph g { w.graphs g with kernels := (w.graphs g).kernels ++ [kernel] } with gen }

def philoxEngineInputs (increment : UInt64) : Option World :=
  if w.capture.isSome then none else w.philoxNpuState increment

def captureBegin (g : GraphId) : Option World :=
  if (w.graphs g).hasGraphExec ∨ w.capture.isSome then none
  else some { w.setGraph g {} with gen := w.gen.capturePrologue, capture := some g }

def captureEnd : Option World :=
  w.capture.map fun g =>
    let (wholegraphIncrement, gen) := w.gen.captureEpilogue
    { w.setGraph g { w.graphs g with hasGraphExec := true, wholegraphIncrement } with gen, capture := none }

/-- A kernel of a graph adds its own offset to that of the tensor. -/
def replay (g : GraphId) : Option World :=
  if (w.graphs g).hasGraphExec then do
    let gen ← w.gen.replayPrologue w.capture.isSome (w.graphs g).wholegraphIncrement
    let drawn := (w.graphs g).kernels.flatMap fun kernel =>
      draws gen.seedExtragraph (gen.offsetExtragraph + kernel.offsetIntragraph.toUInt64) kernel.increment
    some { w with gen, drawn := w.drawn ++ drawn }
  else none

/-- `set_offset` refuses to be called in a capture. -/
def setOffset (offset : UInt64) : Option World :=
  if w.capture.isSome then none else (w.gen.setPhiloxOffset false offset).map fun gen => { w with gen }

def next : GeneratorCall → Option World
  | .philoxNpuState increment => w.philoxNpuState increment
  | .philoxEngineInputs increment => w.philoxEngineInputs increment
  | .captureBegin g => w.captureBegin g
  | .captureEnd => w.captureEnd
  | .replay g => w.replay g
  | .reset g => some (w.setGraph g { w.graphs g with hasGraphExec := false })
  | .setCurrentSeed seed => (w.gen.setCurrentSeed w.capture.isSome seed).map fun gen => { w with gen }
  | .setOffset offset => w.setOffset offset
  | .setState newState => (w.gen.setState w.capture.isSome newState).map fun gen => { w with gen }

end World

end TorchNpu.Core.Generator
