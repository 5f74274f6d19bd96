/-
  `NPUEvent` (`NPUEvent.cpp`): the calls of a host program and the order in which they reach the driver.

  A host program records events on streams, blocks streams on events and destroys events.  A call goes to
  the driver at once where the stream launches synchronously, and through a task queue otherwise: one
  queue for each device, or one for each stream (`GetPerStreamQueue`).  The consumers of the queues run at
  any speed.  Each call has a number, its place in the program; `issued` lists the driver calls
  `aclrtRecordEvent`, `aclrtStreamWaitEvent` and `aclrtDestroyEvent` in their order.

  The first task of a queue is executed before the call that enqueues it returns: the status of the queue
  is `INIT` until then (`enCurrentNPUStream`).  `block` spins in some modes until the event is recorded;
  until then it is not a step.  What `block` does while a graph is captured (it drains all queues) only
  restricts the consumers and is left out, as are external events, whose calls write and wait for values.
  An event that has been destroyed is not used again, and its handle is not given to another event.
-/
import TorchNpu.Events.EventManager

namespace TorchNpu.Events

/-! ### Data -/

/-- What a process is configured with: `GetPerStreamQueue`, `IsExistCreateEventExWithFlag`,
`GetTaskQueueEnable`, and which events have the flag `ACL_EVENT_IPC`. -/
structure Mode where
  perStreamQueue : Bool := false
  existCreateEventExWithFlag : Bool := true
  taskQueueEnable : Bool := true
  ipc : Event → Bool := fun _ => false

/-- `NPUStream`. -/
structure Stream where
  deviceIndex : ℕ
  index : ℕ
  isSyncLaunchStream : Bool := false

/-- A queue: that of a device, or of one of its streams. -/
structure QueueId where
  deviceIndex : ℕ
  stream : Option ℕ := none
  deriving DecidableEq

/-- The `repo` that `enCurrentNPUStream` takes. -/
def Mode.queueOf (mode : Mode) (stream : Stream) : QueueId :=
  { deviceIndex := stream.deviceIndex
    stream := if mode.perStreamQueue then some stream.index else none }

/-- A call for the stream does not go through a queue. -/
def Mode.isDirect (mode : Mode) (stream : Stream) : Bool :=
  stream.isSyncLaunchStream || !mode.taskQueueEnable

/-- The records and waits of the event are looked up in the counts of the manager. -/
def Mode.isCounted (mode : Mode) (event : Event) : Bool :=
  mode.perStreamQueue || mode.ipc event

inductive DriverCall
  | record
  | wait
  | destroy
  deriving DecidableEq

/-- A call with its number in the program. -/
structure Issue where
  number : ℕ
  call : DriverCall
  event : Event
  deriving DecidableEq

def Issue.task (x : Issue) : Task :=
  match x.call with
  | .record => ⟨.recordEvent, x.event⟩
  | .wait => ⟨.waitEvent, x.event⟩
  | .destroy => ⟨.lazyDestroyEvent, x.event⟩

/-- `is_created_` and `device_index_`. -/
inductive EventState
  | unused
  | created (deviceIndex : ℕ)
  | destroyed
  deriving DecidableEq

structure Process where
  events : Event → EventState := fun _ => .unused
  program : List Issue := []
  /-- The tasks of all queues, oldest first. -/
  tasks : List (QueueId × Issue) := []
  /-- The queues whose status is not `INIT` any more. -/
  started : QueueId → Bool := fun _ => false
  manager : NPUEventManager := {}
  /-- `npu_events_`. -/
  npuEvents : List Issue := []
  issued : List Issue := []

/-! ### Tasks -/

namespace Process

variable (mode : Mode) (s : Process)

def issue (x : Issue) : Process :=
  { s with issued := s.issued ++ [x] }

/-- `LazyDestroy`. -/
def lazyDestroy (x : Issue) : Process :=
  if mode.existCreateEventExWithFlag && !mode.perStreamQueue && !mode.ipc x.event then s.issue x
  else { s with npuEvents := s.npuEvents ++ [x] }

/-- `AsncExecFunc`; without an entry in the counts the consumer terminates the process. -/
def execute (x : Issue) : Option Process :=
  match x.call with
  | .destroy => some (s.lazyDestroy mode x)
  | .record | .wait => (s.manager.execute x.task).map fun manager => { s with manager }.issue x

/-- `enCurrentNPUStream`. -/
def enqueue (queue : QueueId) (x : Issue) : Option Process :=
  if s.started queue then some { s with tasks := s.tasks ++ [(queue, x)] }
  else ({ s with started := Function.update s.started queue true } : Process).execute mode x

/-- `LaunchRecordTask` and `LaunchWaitTask`. -/
def launch (call : DriverCall) (event : Event) (stream : Stream) : Option Process :=
  let x : Issue := ⟨s.program.length, call, event⟩
  let s₁ : Process := { s with program := s.program ++ [x] }
  if mode.isDirect stream then some (s₁.issue x)
  else ({ s₁ with manager := s.manager.launch x.task } : Process).enqueue mode (mode.queueOf stream) x

/-- `LaunchLazyDestroyTask`: whether it goes through a queue depends on the current stream, the queue on the
current stream of the device of the event. -/
def launchLazyDestroy (event : Event) (current target : Stream) : Option Process :=
  let x : Issue := ⟨s.program.length, .destroy, event⟩
  let s₁ : Process := { s with program := s.program ++ [x] }
  if mode.isDirect current then some (s₁.lazyDestroy mode x)
  else s₁.enqueue mode (mode.queueOf target) x

/-- The oldest task of a queue, and the other tasks. -/
def takeFirst (queue : QueueId) :
    List (QueueId × Issue) → Option (Issue × List (QueueId × Issue))
  | [] => none
  | (q, x) :: tasks =>
    if q = queue then some (x, tasks)
    else (takeFirst queue tasks).map fun (y, rest) => (y, (q, x) :: rest)

/-! ### Steps -/

inductive Step
  /-- `NPUEvent(device_index, handle)`. -/
  | openHandle (event : Event) (deviceIndex : ℕ)
  | record (event : Event) (stream : Stream)
  | block (event : Event) (stream : Stream)
  /-- `~NPUEvent`, with the current stream and the current stream of the device of the event. -/
  | destroy (event : Event) (current target : Stream)
  /-- The consumer of a queue executes a task. -/
  | dequeue (queue : QueueId)
  /-- One round of the loop of `QueryAndDestroyEvent`; `complete` is what the driver says about an event
  that is not counted. -/
  | queryAndDestroy (complete : Bool)

def next : Step → Option Process
  | .openHandle event deviceIndex =>
    if s.events event = .unused ∧ mode.ipc event then
      some { s with events := Function.update s.events event (.created deviceIndex) }
    else none
  | .record event stream =>
    match s.events event with
    | .unused =>
      ({ s with events := Function.update s.events event (.created stream.deviceIndex) } :
        Process).launch mode .record event stream
    | .created deviceIndex =>
      if deviceIndex = stream.deviceIndex then s.launch mode .record event stream else some s
    | .destroyed => none
  | .block event stream =>
    match s.events event with
    | .unused => some s
    | .created _ =>
      if mode.isCounted event && !s.manager.isEventRecorded event then none
      else s.launch mode .wait event stream
    | .destroyed => none
  | .destroy event current target =>
    match s.events event with
    | .unused => some { s with events := Function.update s.events event .destroyed }
    | .created deviceIndex =>
      if target.deviceIndex = deviceIndex then
        ({ s with events := Function.update s.events event .destroyed } :
          Process).launchLazyDestroy mode event current target
      else none
    | .destroyed => none
  | .dequeue queue =>
    (takeFirst queue s.tasks).bind fun (x, tasks) => ({ s with tasks } : Process).execute mode x
  | .queryAndDestroy complete =>
    match s.npuEvents with
    | [] => none
    | x :: rest =>
      if (if mode.isCounted x.event then
          s.manager.isEventRecorded x.event && s.manager.isEventWaited x.event else complete) then
        some (({ s with npuEvents := rest } : Process).issue x)
      else some s

/-- The state after the steps `ls`. -/
def runFromInit (ls : List Step) : Option Process :=
  Machine.run (next mode) {} ls

end Process

end TorchNpu.Events
