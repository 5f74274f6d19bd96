/-
  The tree of the events of a profile (`_event_tree_parser.py`).

  An object of Python is its place in the list of the events, since two objects with the same fields are
  two events.  The fields that change (`finished`, `parent`, `children`) stand in the state.
-/
import TorchNpu.Profiler.EventTreeParser
import TorchNpu.Lib.Naming

namespace TorchNpu.Profiler.EventTreeParser

/-! ### Events -/

structure ModuleParam where
  name : Text
  tensor : Option TensorMetadata
  grad : Option TensorMetadata

structure OptimizerParam where
  tensor : Option TensorMetadata
  grad : Option TensorMetadata
  state : Option (List (Text × Option TensorMetadata))

inductive ExtraFields
  | torchOp (endTimeNs forwardTid : ℤ) (inputs : List Input)
  | allocation (ptr allocSize deviceType deviceIndex : ℤ)
  | pyCall (endTimeNs : ℤ) (key : Option ℤ) (moduleParameters : Option (List (Option ModuleParam)))
      (optimizerParameters : Option (List (Option OptimizerParam)))

structure ProfilerEvent where
  tid : ℤ
  startTimeNs : ℤ
  extraFields : ExtraFields

namespace ProfilerEvent

def endTimeNs (event : ProfilerEvent) : ℤ :=
  match event.extraFields with
  | .torchOp endTimeNs _ _ => endTimeNs
  | .allocation .. => event.startTimeNs
  | .pyCall endTimeNs _ _ _ => endTimeNs

/-- `fwd_tid` -/
def fwdTid (event : ProfilerEvent) : ℤ :=
  match event.extraFields with
  | .torchOp _ forwardTid _ => forwardTid
  | _ => 0

end ProfilerEvent

/-! ### `build_event_tree` -/

/-- The error returns, and the end of the rounds that the model allows to the loop of `pop_event`. -/
inductive BuildError
  | finished
  | hadParent
  | childNotFinished
  | currentEventNone
  | parentNone
  | endless

variable {n : ℕ}

structure BuildState (n : ℕ) where
  finished : Fin n → Bool
  parent : Fin n → Option (Fin n)
  children : Fin n → List (Fin n)
  /-- The current event of each thread. -/
  threadEvent : ℤ → Option (Fin n)
  /-- The entries of the priority queue, in the order in which they were put. -/
  unfinishedEvents : List (ℤ × Fin n)
  /-- How many entries the queue has given. -/
  gets : ℕ

/-- Fresh events. -/
def BuildState.start : BuildState n where
  finished _ := false
  parent _ := none
  children _ := []
  threadEvent _ := none
  unfinishedEvents := []
  gets := 0

def markFinished (s : BuildState n) (event : Fin n) : Except BuildError (BuildState n) :=
  if s.finished event then .error .finished
  else .ok { s with finished := Function.update s.finished event true }

variable (events : Fin n → ProfilerEvent)

/-- `parent` of `push_event`. -/
def findParent (s : BuildState n) (event : ProfilerEvent) : Option (Fin n) :=
  match s.threadEvent event.tid with
  | some parent => some parent
  | none => if event.fwdTid ≠ 0 then s.threadEvent event.fwdTid else none

/-- The event becomes the last child of its parent. -/
def linkParent (s : BuildState n) (event : Fin n) : Option (Fin n) → BuildState n
  | some parent =>
    { s with
      parent := Function.update s.parent event (some parent)
      children := Function.update s.children parent (s.children parent ++ [event]) }
  | none => s

def pushEvent (s : BuildState n) (event : Fin n) : Except BuildError (BuildState n) :=
  if (s.parent event).isSome then .error .hadParent
  else if (s.children event).any fun child => !s.finished child then .error .childNotFinished
  else if s.finished event then .error .finished
  else
    let linked := linkParent s event (findParent s (events event))
    if (events event).startTimeNs < (events event).endTimeNs then
      .ok { linked with
        threadEvent := Function.update linked.threadEvent (events event).tid (some event)
        unfinishedEvents := linked.unfinishedEvents ++ [((events event).endTimeNs, event)] }
    else markFinished linked event

/-- The loop of `pop_event`. -/
def finishAbove (event : Fin n) : (rounds : ℕ) → BuildState n → (curEvent : Fin n) →
    Except BuildError (BuildState n)
  | 0, _, _ => .error .endless
  | rounds + 1, s, curEvent =>
    if curEvent = event then .ok s
    else do
      let s ← markFinished s curEvent
      match s.parent curEvent with
      | none => .error .parentNone
      | some parent => finishAbove event rounds s parent

/-- A parent comes before its children, so that `n` rounds are enough. -/
def popEvent (s : BuildState n) (event : Fin n) : Except BuildError (BuildState n) :=
  if s.finished event then .ok s
  else
    match s.threadEvent (events event).tid with
    | none => .error .currentEventNone
    | some curEvent => do
      let s ← finishAbove event n s curEvent
      let s ← markFinished s event
      return { s with threadEvent := Function.update s.threadEvent (events event).tid (s.parent event) }

/-! ### The priority queue

The heap of `PriorityQueue` gives an entry with the least end time.  Between entries with the same end time
`__lt__` says nothing, and the heap decides: `ties k` is its choice at the `k`-th `get`. -/

/-- Whether no entry ends earlier. -/
def isLeast (entries : List (ℤ × Fin n)) (entry : ℤ × Fin n) : Bool :=
  entries.all fun other => entry.1 ≤ other.1

/-- `queue[0]` -/
def topEvent (ties : ℕ → ℕ) (s : BuildState n) : Option (ℤ × Fin n) :=
  let least := s.unfinishedEvents.filter (isLeast s.unfinishedEvents)
  least[ties s.gets % least.length]?

/-- `get` of the entry `queue[0]`. -/
def getTop (s : BuildState n) (entry : ℤ × Fin n) : BuildState n :=
  { s with unfinishedEvents := s.unfinishedEvents.erase entry, gets := s.gets + 1 }

/-- The entries that end as `retire` says are taken from the queue.  Each round takes one, so that as many
rounds as there are entries are enough. -/
def popWhile (ties : ℕ → ℕ) (retire : ℤ → Bool) : (rounds : ℕ) → BuildState n →
    Except BuildError (BuildState n)
  | 0, s => .ok s
  | rounds + 1, s =>
    match topEvent ties s with
    | none => .ok s
    | some entry =>
      if retire entry.1 then do
        let s ← popEvent events (getTop s entry) entry.2
        popWhile ties retire rounds s
      else .ok s

/-- One round of the stack replay loop. -/
def replayEvent (ties : ℕ → ℕ) (s : BuildState n) (event : Fin n) : Except BuildError (BuildState n) := do
  let s ← popWhile events ties (fun endTime => endTime < (events event).startTimeNs)
    s.unfinishedEvents.length s
  pushEvent events s event

/-- The stack replay loop, and the clean up of the remaining events. -/
def replay (ties : ℕ → ℕ) : Except BuildError (BuildState n) := do
  let s ← (List.finRange n).foldlM (replayEvent events ties) .start
  popWhile events ties (fun _ => true) s.unfinishedEvents.length s

def buildEventTree (ties : ℕ → ℕ) (sortedEvents : List ProfilerEvent) :
    Except BuildError (BuildState sortedEvents.length) :=
  replay sortedEvents.get ties

end TorchNpu.Profiler.EventTreeParser

/-!
  The ids of the tensors and of their storages (`get_tensor_info` and `calculate_unique_id` of
  `_event_tree_parser.py`).

  `none` is an exception of Python, where a function may raise one.
-/

namespace TorchNpu.Profiler.EventTreeParser

structure RawTensorInfo where
  impl : Option ℤ
  ptr : Option ℤ
  deviceType : ℤ
  deviceIndex : ℤ
  isFree : Bool

def RawTensorInfo.key (t : RawTensorInfo) : Option ℤ × ℤ × ℤ :=
  (t.ptr, t.deviceType, t.deviceIndex)

structure IdReference where
  tensorId : Option ℕ
  allocationId : Option ℕ

/-! ### `get_tensor_info` -/

def rawTensor (t : TensorMetadata) : RawTensorInfo where
  impl := some t.impl
  ptr := t.ptr
  deviceType := t.deviceType
  deviceIndex := t.deviceIndex
  isFree := false

/-- `None` has no attribute `impl`. -/
def readTensor (t : Option TensorMetadata) : Option RawTensorInfo :=
  t.map rawTensor

/-- What the inputs of an operator give. -/
def itemTensors : Input → Option (List RawTensorInfo)
  | .tensor t => some (t.map rawTensor).toList
  | .tensorList ts => ts.mapM readTensor
  | .text _ => some []

def moduleParamTensors : Option ModuleParam → Option (List RawTensorInfo)
  | none => some []
  | some p => do
    let tensor ← readTensor p.tensor
    return tensor :: (p.grad.map rawTensor).toList

/-- A state that is `None` cannot be iterated over. -/
def optimizerParamTensors : Option OptimizerParam → Option (List RawTensorInfo)
  | none => some []
  | some p => do
    let tensor ← readTensor p.tensor
    let state ← p.state
    let states ← state.mapM fun entry => readTensor entry.2
    return tensor :: ((p.grad.map rawTensor).toList ++ states)

/-- What the parameters of a Python call give. -/
def paramTensors (moduleParameters : Option (List (Option ModuleParam)))
    (optimizerParameters : Option (List (Option OptimizerParam))) : Option (List RawTensorInfo) :=
  match moduleParameters, optimizerParameters with
  | some ps, _ => (ps.mapM moduleParamTensors).map List.flatten
  | none, some ps => (ps.mapM optimizerParamTensors).map List.flatten
  | none, none => some []

/-- One round of the loop: what an event gives, and the keys of the Python calls seen after it. -/
def eventTensors (seenPycalls : List ℤ) : ExtraFields → Option (List RawTensorInfo × List ℤ)
  | .torchOp _ _ inputs => (inputs.mapM itemTensors).map fun tensors => (tensors.flatten, seenPycalls)
  | .allocation ptr allocSize deviceType deviceIndex =>
    some ([{ impl := none, ptr := some ptr, deviceType, deviceIndex, isFree := allocSize < 0 }], seenPycalls)
  | .pyCall _ none _ _ => some ([], seenPycalls)
  | .pyCall _ (some key) moduleParameters optimizerParameters =>
    if key ∈ seenPycalls then some ([], seenPycalls)
    else (paramTensors moduleParameters optimizerParameters).map fun tensors => (tensors, key :: seenPycalls)

def tensorLoop : List ProfilerEvent → (seenPycalls : List ℤ) → Option (List RawTensorInfo)
  | [], _ => some []
  | ev :: sortedEvents, seenPycalls => do
    let (tensors, seenPycalls) ← eventTensors seenPycalls ev.extraFields
    let rest ← tensorLoop sortedEvents seenPycalls
    return tensors ++ rest

def getTensorInfo (sortedEvents : List ProfilerEvent) : Option (List RawTensorInfo) :=
  tensorLoop sortedEvents []

/-! ### `calculate_unique_id` -/

/-- Step 2.  The naming stands for `storage_map` and `counter`. -/
def allocationIds (tensors : List RawTensorInfo) : List (Option ℕ) :=
  Naming.names (tensors.map fun t => (t.key, t.isFree)) .empty

/-- `tensor_set` of step 3. -/
def tensorSet (tensors : List RawTensorInfo) (ids : List (Option ℕ)) : List (Option ℕ) :=
  ((tensors.zip ids).filter fun entry => entry.1.impl.isSome).map Prod.snd

/-- `id_map` of step 4, over the tensors that step 3 keeps. -/
def idMap (kept ids : List (Option ℕ)) : Naming (Option ℕ) :=
  (ids.filter (· ∈ kept)).foldl Naming.enter .empty

/-- Step 5.  What has no id yet stays as it was made when the function returns early. -/
def writeBack (kept : List (Option ℕ)) (idMap : Naming (Option ℕ)) : List (Option ℕ) → List IdReference
  | [] => []
  | allocationId :: ids =>
    if allocationId ∈ kept then
      match idMap.map allocationId with
      | none => (allocationId :: ids).map fun allocationId => { tensorId := none, allocationId }
      | some tensorId => { tensorId := some tensorId, allocationId } :: writeBack kept idMap ids
    else { tensorId := none, allocationId } :: writeBack kept idMap ids

/-- The ids of the tensors that `get_tensor_info` returned. -/
def assignIds (tensors : List RawTensorInfo) : List IdReference :=
  let ids := allocationIds tensors
  let kept := tensorSet tensors ids
  writeBack kept (idMap kept ids) ids

def calculateUniqueId (sortedEvents : List ProfilerEvent) : Option (List IdReference) :=
  (getTensorInfo sortedEvents).map assignIds

end TorchNpu.Profiler.EventTreeParser
