/-
  `NPUEventManager` (`NPUEventManager.cpp`) and the tasks that count events.

  `event_unrecorded_count_` and `event_unwaited_count_` are maps from events to positive counts; an event
  without an entry has been recorded, or waited for.  The counts go up where a task is launched
  (`AsyncTaskQueueInterface.cpp`) and down where a task queue executes it (`OpParamMaker.cpp`).
-/
import TorchNpu.Queue.Repository
import Mathlib.Algebra.BigOperators.Fin

namespace TorchNpu.Events

/-- `aclrtEvent`. -/
abbrev Event := ℕ

/-! ### Counts -/

/-- `std::map<aclrtEvent, int>`. -/
abbrev CountMap := Event → Option ℕ

namespace CountMap

/-- `IncreaseUnrecordedCount`, `IncreaseUnwaitedCount`. -/
def increase (counts : CountMap) (event : Event) : CountMap :=
  match counts event with
  | some n => Function.update counts event (some (n + 1))
  | none => Function.update counts event (some 1)

/-- `DecreaseUnrecordedCount`, `DecreaseUnwaitedCount`; without an entry the check fails. -/
def decrease (counts : CountMap) (event : Event) : Option CountMap :=
  match counts event with
  | none => none
  | some n =>
    some (if n = 1 then Function.update counts event none
      else Function.update counts event (some (n - 1)))

/-- `IsEventRecorded`, `IsEventWaited`. -/
def isDone (counts : CountMap) (event : Event) : Bool :=
  (counts event).isNone

end CountMap

/-! ### Tasks -/

/-- A task of a queue with its `EventParas`. -/
structure Task where
  paramType : Queue.QueueParamType
  event : Event := 0
  deriving DecidableEq

/-- A task that `LaunchRecordTask` enqueues. -/
def Task.isRecord (task : Task) : Bool :=
  task.paramType = .recordEvent || task.paramType = .writeValue

/-- A task that `LaunchWaitTask` enqueues. -/
def Task.isWait (task : Task) : Bool :=
  task.paramType = .waitEvent || task.paramType = .waitValue

/-- The two maps of the manager. -/
structure NPUEventManager where
  eventUnrecordedCount : CountMap := fun _ => none
  eventUnwaitedCount : CountMap := fun _ => none

namespace NPUEventManager

/-- What `LaunchRecordTask` and `LaunchWaitTask` do before they enqueue the task. -/
def launch (manager : NPUEventManager) (task : Task) : NPUEventManager :=
  if task.isRecord then
    { manager with eventUnrecordedCount := manager.eventUnrecordedCount.increase task.event }
  else if task.isWait then
    { manager with eventUnwaitedCount := manager.eventUnwaitedCount.increase task.event }
  else manager

/-- `AsncExecFunc`: `RecordEventFunc` and `ValueWriteFunc` decrease the unrecorded count,
`WaitEventFunc` decreases the unwaited count, `ValueWaitResetFunc` and the other functions none. -/
def execute (manager : NPUEventManager) (task : Task) : Option NPUEventManager :=
  match task.paramType with
  | .recordEvent | .writeValue =>
    (manager.eventUnrecordedCount.decrease task.event).map fun counts =>
      { manager with eventUnrecordedCount := counts }
  | .waitEvent =>
    (manager.eventUnwaitedCount.decrease task.event).map fun counts =>
      { manager with eventUnwaitedCount := counts }
  | _ => some manager

/-- `ClearUnrecordedCount`. -/
def clearUnrecordedCount (manager : NPUEventManager) : NPUEventManager :=
  { manager with eventUnrecordedCount := fun _ => none }

/-- `IsEventRecorded`. -/
def isEventRecorded (manager : NPUEventManager) (event : Event) : Bool :=
  manager.eventUnrecordedCount.isDone event

/-- `IsEventWaited`. -/
def isEventWaited (manager : NPUEventManager) (event : Event) : Bool :=
  manager.eventUnwaitedCount.isDone event

end NPUEventManager

end TorchNpu.Events

/-!
  The task queues of all devices, the threads that launch tasks, and the event manager they share.

  A queue is the list of the tasks it has accepted and not yet taken out, oldest first.  A launch of a
  record or a wait first counts the event and then calls `Enqueue`; between the two it is in `calls`.
  `Enqueue` accepts the task, or gives it up: it throws or returns while the status of the queue is
  neither `RUN` nor `INIT`.  A task that has been taken in by the launch counts as accepted until it is
  given up, executed or discarded.

  A consumer executes the oldest task.  When that fails, `ReadQueue` drops all the other tasks of its
  queue and clears the unrecorded counts; `Dequeue` does the same as long as the status is one of
  `deviceErrorMap`.  An exception of a failed check in the consumer thread is not caught: the process ends,
  which `terminated` stands for.
-/

namespace TorchNpu.Events

/-- The queues `Fin n`, one for each device. -/
structure TaskQueues (n : ℕ) where
  manager : NPUEventManager := {}
  queues : Fin n → List Task := fun _ => []
  status : Fin n → Queue.RepoStatus := fun _ => .init
  calls : List (Fin n × Task) := []
  terminated : Bool := false

inductive Label (n : ℕ)
  /-- A thread launches a task. -/
  | launch (device : Fin n) (task : Task)
  /-- `WriteQueue` of a launched task returns true. -/
  | write (device : Fin n) (task : Task)
  /-- `Enqueue` of a launched task gives it up. -/
  | giveUp (device : Fin n) (task : Task)
  /-- `ReadQueue`, the task succeeds. -/
  | dequeue (device : Fin n)
  /-- `ReadQueue`, the task fails and `CheckDeviceError` sets the status. -/
  | fail (device : Fin n) (status : Queue.RepoStatus)
  /-- `Dequeue` with a status of `deviceErrorMap`. -/
  | clear (device : Fin n)
  /-- Another thread sets the status. -/
  | setStatus (device : Fin n) (status : Queue.RepoStatus)

namespace TaskQueues

variable {n : ℕ} (s : TaskQueues n)

/-- `ClearQueue` and `ClearUnrecordedCount`. -/
def clearQueue (device : Fin n) : TaskQueues n :=
  { s with
    manager := s.manager.clearUnrecordedCount
    queues := Function.update s.queues device [] }

def next : Label n → Option (TaskQueues n)
  | .launch device task =>
    if s.terminated then none
    else some { s with manager := s.manager.launch task, calls := (device, task) :: s.calls }
  | .write device task =>
    if s.terminated = false ∧ (device, task) ∈ s.calls then
      some { s with
        queues := Function.update s.queues device (s.queues device ++ [task])
        calls := s.calls.erase (device, task) }
    else none
  | .giveUp device task =>
    if s.terminated = false ∧ (device, task) ∈ s.calls ∧ s.status device ≠ .run ∧
        s.status device ≠ .init then
      some { s with calls := s.calls.erase (device, task) }
    else none
  | .dequeue device =>
    match s.terminated, s.queues device with
    | false, task :: rest =>
      match s.manager.execute task with
      | some manager => some { s with manager, queues := Function.update s.queues device rest }
      | none => some { s with terminated := true }
    | _, _ => none
  | .fail device status =>
    match s.terminated, s.queues device with
    | false, task :: _ =>
      match s.manager.execute task with
      | some manager =>
        some { ({ s with manager } : TaskQueues n).clearQueue device with
          status := Function.update s.status device status }
      | none => some { s with terminated := true }
    | _, _ => none
  | .clear device =>
    if s.terminated = false ∧ (Queue.deviceErrorMap (s.status device)).isSome then
      some (s.clearQueue device)
    else none
  | .setStatus device status =>
    if s.terminated then none
    else some { s with status := Function.update s.status device status }

/-- The state after the steps `ls`, from empty queues. -/
def runFromInit (ls : List (Label n)) : Option (TaskQueues n) :=
  Machine.run next {} ls

/-- How many tasks with the property `p` there are in the queues and in the calls. -/
def pendingIn (queues : Fin n → List Task) (calls : List (Fin n × Task)) (p : Task → Bool) : ℕ :=
  (∑ device, (queues device).countP p) + calls.countP fun call => p call.2

/-- How many tasks with the property `p` are launched, accepted, and not yet executed or dropped. -/
def pending (p : Task → Bool) : ℕ :=
  pendingIn s.queues s.calls p

end TaskQueues

end TorchNpu.Events
