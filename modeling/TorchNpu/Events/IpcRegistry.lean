/-
  The events of a process and the registry of the IPC events among them (`NPUEvent.cpp`,
  `NPUEventManager.cpp`).

  Any number of threads create events, open the handles of IPC events and give events up; five threads of
  a pool destroy what has been given up and queued.  One step is a call of the runtime or a critical section
  of the manager.  The runtime may return the same `aclrtEvent` for another event as soon as
  `aclrtDestroyEvent` on it has returned, so an event is also told apart by the number of events created
  before it.  What an event has been used for is left out: any event may be complete, or not, when
  `QueryAndDestroyEvent` asks.
-/
import TorchNpu.Events.EventManager
import TorchNpu.Lib.Machine
import Mathlib.Data.Finset.Basic

namespace TorchNpu.Events

/-- An event that the runtime has created. -/
structure RuntimeEvent where
  number : ℕ
  ipc : Bool

/-- The state of the process.  A list of handles such as `adding` has the calls that have got to that
point. -/
structure IpcRegistry where
  existCreateEventExWithFlag : Bool
  perStreamQueue : Bool
  /-- The events of the runtime. -/
  live : Event → Option RuntimeEvent := fun _ => none
  created : ℕ := 0
  ipcEvents : Finset Event := ∅
  /-- Ahead of `AddIpcEvent`. -/
  adding : List Event := []
  /-- The numbers of the events for which `AddIpcEvent` has failed. -/
  failed : List ℕ := []
  /-- In `LazyDestroy`, ahead of the test. -/
  testing : List Event := []
  /-- In `LazyDestroy`, ahead of `aclrtDestroyEvent`. -/
  destroyingAtOnce : List Event := []
  /-- In `LazyDestroy`, ahead of `push_back`. -/
  pushing : List Event := []
  npuEvents : List Event := []
  /-- The tasks of the thread pool that no thread has taken. -/
  tasks : List Event := []
  /-- In `run`, ahead of `aclrtDestroyEvent`. -/
  destroying : List Event := []
  /-- In `run`, ahead of `RemoveIpcEvent`. -/
  removing : List Event := []
  /-- The numbers of the events that have been given up. -/
  retired : List ℕ := []
  /-- The numbers of the events that have been destroyed. -/
  destroyed : List ℕ := []

inductive IpcLabel
  /-- `AclrtCreateEventWithFlag` returns `event`. -/
  | create (event : Event) (ipc : Bool)
  /-- `AclIpcOpenEventHandle` returns `event`. -/
  | openHandle (event : Event)
  | addIpcEvent (event : Event)
  /-- The owner of the event gives it up. -/
  | lazyDestroy (event : Event)
  /-- The test of `LazyDestroy`. -/
  | test (event : Event)
  /-- `aclrtDestroyEvent` in `LazyDestroy`; `ok` says that it succeeds. -/
  | destroyAtOnce (event : Event) (ok : Bool)
  | pushBack (event : Event)
  /-- `QueryAndDestroyEvent` finds that the first event is complete. -/
  | dispatch
  /-- A thread of the pool takes the next task. -/
  | take
  /-- `aclrtDestroyEvent` in `run`. -/
  | destroy (event : Event) (ok : Bool)
  | removeIpcEvent (event : Event)

namespace IpcRegistry

variable (s : IpcRegistry)

/-- The size of `thread_pool_`. -/
def threads : ℕ := 5

/-- The runtime creates an event; `adding` has the ones that go into the registry. -/
def aclrtCreateEvent (event : Event) (ipc : Bool) : Option IpcRegistry :=
  if (s.live event).isNone then
    some { s with
      live := Function.update s.live event (some ⟨s.created, ipc⟩)
      created := s.created + 1
      adding := if ipc then event :: s.adding else s.adding }
  else none

/-- A call of `aclrtDestroyEvent` that succeeds. -/
def aclrtDestroyEvent (event : Event) : Option IpcRegistry :=
  match s.live event with
  | none => none
  | some runtimeEvent =>
    some { s with
      live := Function.update s.live event none
      destroyed := s.destroyed ++ [runtimeEvent.number] }

/-- `AddIpcEvent`; the check fails if the handle is already in the set. -/
def addIpcEvent (event : Event) : IpcRegistry :=
  if event ∈ s.ipcEvents then
    { s with
      adding := s.adding.erase event
      failed := ((s.live event).map RuntimeEvent.number).toList ++ s.failed }
  else
    { s with
      adding := s.adding.erase event
      ipcEvents := insert event s.ipcEvents }

/-- `RemoveIpcEvent`. -/
def removeIpcEvent (event : Event) : IpcRegistry :=
  { s with ipcEvents := s.ipcEvents.erase event }

def isIpcEvent (event : Event) : Bool :=
  event ∈ s.ipcEvents

/-- The event has an owner: it is complete, its `AddIpcEvent` has not failed, and it has not been given up. -/
def owned (event : Event) : Bool :=
  match s.live event with
  | none => false
  | some runtimeEvent =>
    event ∉ s.adding && runtimeEvent.number ∉ s.failed && runtimeEvent.number ∉ s.retired

def next : IpcLabel → Option IpcRegistry
  | .create event ipc => s.aclrtCreateEvent event ipc
  | .openHandle event => s.aclrtCreateEvent event true
  | .addIpcEvent event => if event ∈ s.adding then some (s.addIpcEvent event) else none
  | .lazyDestroy event =>
    if s.owned event then
      some { s with
        testing := event :: s.testing
        retired := ((s.live event).map RuntimeEvent.number).toList ++ s.retired }
    else none
  | .test event =>
    if event ∈ s.testing then
      if s.existCreateEventExWithFlag && !s.perStreamQueue && !s.isIpcEvent event then
        some { s with
          testing := s.testing.erase event
          destroyingAtOnce := event :: s.destroyingAtOnce }
      else
        some { s with
          testing := s.testing.erase event
          pushing := event :: s.pushing }
    else none
  | .destroyAtOnce event ok =>
    if event ∈ s.destroyingAtOnce then
      let s' := { s with destroyingAtOnce := s.destroyingAtOnce.erase event }
      -- If the call fails, `LazyDestroy` returns its error or throws.
      if ok then s'.aclrtDestroyEvent event else some s'
    else none
  | .pushBack event =>
    if event ∈ s.pushing then
      some { s with
        pushing := s.pushing.erase event
        npuEvents := s.npuEvents ++ [event] }
    else none
  | .dispatch =>
    match s.npuEvents with
    | [] => none
    | event :: npuEvents => some { s with npuEvents, tasks := s.tasks ++ [event] }
  | .take =>
    match s.tasks with
    | [] => none
    | event :: tasks =>
      if s.destroying.length + s.removing.length < threads then
        some { s with tasks, destroying := event :: s.destroying }
      else none
  | .destroy event ok =>
    if event ∈ s.destroying then
      let s' := { s with destroying := s.destroying.erase event }
      -- If the call fails, `run` returns or throws, and `RemoveIpcEvent` is not called.
      if ok then { s' with removing := event :: s.removing }.aclrtDestroyEvent event else some s'
    else none
  | .removeIpcEvent event =>
    if event ∈ s.removing then
      some { s.removeIpcEvent event with removing := s.removing.erase event }
    else none

/-- The run of the labels from the start of the process. -/
def runFromStart (existCreateEventExWithFlag perStreamQueue : Bool) (ls : List IpcLabel) :
    Option IpcRegistry :=
  Machine.run next { existCreateEventExWithFlag, perStreamQueue } ls

end IpcRegistry

end TorchNpu.Events
