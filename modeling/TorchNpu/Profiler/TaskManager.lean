/-
  The scheduler of the profiler's analysis (`_task_manager.py`).

  A `TaskInfo` is known by the name of its task; the names are distinct.  Python sets are `Finset`s, and the
  order in which a set is iterated is part of the label of the step.  `none` is `None`.

  `run` is a machine whose steps are the pieces of `__schedule` and `__listen` between which something else
  can happen.  What a task returns, and when its messages and its exit arrive, is up to the environment; a
  task sends its result once.  An exception ends `run`.  `log` is a record for the reader of a run.

  Times, the printing of text and the progress bar are left out, and so is what `finalize` does once `run`
  has ended.
-/
import TorchNpu.Lib.Machine
import Mathlib.Data.Finset.Basic
import TorchNpu.Lib.LittleEndian

namespace TorchNpu.Profiler

/-! ### Data -/

/-- `ConcurrentMode`, by its bits; `MAIN_PROCESS` is the absence of `SUB_PROCESS` and `PTHREAD`. -/
structure ConcurrentMode where
  subProcess : Bool := false
  pthread : Bool := false
  nonBlocking : Bool := false
  deriving DecidableEq

/-- The task runs inside `__run_one_task`. -/
def ConcurrentMode.inMainProcess (mode : ConcurrentMode) : Bool :=
  !mode.subProcess && !mode.pthread

variable {α V : Type*}

structure ConcurrentTask (α : Type*) where
  name : α
  deps : List α
  mode : ConcurrentMode
  deriving DecidableEq

inductive TaskStatus
  | init
  | running
  | succeed
  | failed
  deriving DecidableEq

structure TaskInfo (α V : Type*) where
  task : ConcurrentTask α
  preTasks : Finset α
  postTasks : Finset α := ∅
  status : TaskStatus := .init
  output : Option V := none

/-- What `__on_task_done` does to the task itself. -/
def TaskInfo.finish (info : TaskInfo α V) (retCode : ℤ) (output : Option V) : TaskInfo α V :=
  if retCode = 0 then { info with status := .succeed, output := output.or info.output }
  else { info with status := .failed }

/-- What `__on_task_exit` does to the task itself. -/
def TaskInfo.leave (info : TaskInfo α V) : TaskInfo α V :=
  if info.status ≠ .succeed then { info with status := .failed } else info

/-- What happened to the tasks. -/
inductive TaskEvent (α : Type*)
  | started (name : α)
  | succeeded (name : α)
  deriving DecidableEq

/-- Where `run` is: about to call `__schedule`; in its loop, with the tasks still to start and
`tasks_wait_schedule`; about to call `__listen`; in its loop over the events; or at its end, with whether
an exception led there. -/
inductive Position (α : Type*)
  | schedule
  | starting (slice waiting : List α)
  | listen
  | poll
  | ended (raised : Bool)
  deriving DecidableEq

structure Manager (α V : Type*) where
  taskInfos : α → Option (TaskInfo α V) := fun _ => none
  listeningInfos : List α := []
  readyTasks : List α := []
  maxConcurrentNum : ℕ := 16
  position : Position α := .schedule
  log : List (TaskEvent α) := []

variable [DecidableEq α]

namespace Manager

/-- Assign fields of a `TaskInfo`. -/
def store (m : Manager α V) (name : α) (info : TaskInfo α V) : Manager α V :=
  { m with taskInfos := Function.update m.taskInfos name (some info) }

/-! ### Adding tasks -/

/-- `add_task`, without the `TypeError`; a dependency that is not known is a `ValueError`. -/
def addTask (m : Manager α V) (task : ConcurrentTask α) : Option (Manager α V) :=
  if ∀ dep ∈ task.deps, (m.taskInfos dep).isSome then
    some
      { m with
        taskInfos := Function.update
          (fun name => (m.taskInfos name).map fun info =>
            if name ∈ task.deps then { info with postTasks := insert task.name info.postTasks } else info)
          task.name (some { task, preTasks := task.deps.toFinset })
        readyTasks := if task.deps = [] then m.readyTasks ++ [task.name] else m.readyTasks }
  else none

/-- The manager after `add_task` for each of the tasks. -/
def addTasks (m : Manager α V) : List (ConcurrentTask α) → Option (Manager α V)
  | [] => some m
  | task :: tasks => (m.addTask task).bind fun m => m.addTasks tasks

/-! ### The end of a task -/

/-- The loop of `__on_task_done` over the tasks that depend on `name`; `none` is an exception. -/
def notify (name : α) : List α → Manager α V → Option (Manager α V)
  | [], m => some m
  | post :: posts, m => do
    let info ← m.taskInfos post
    if name ∈ info.preTasks then
      let preTasks := info.preTasks.erase name
      let m := m.store post { info with preTasks }
      notify name posts (if preTasks = ∅ then { m with readyTasks := m.readyTasks ++ [post] } else m)
    else none

/-- The loop of `__on_task_done` over the dependencies of `name`. -/
def forget (name : α) : List α → Manager α V → Option (Manager α V)
  | [], m => some m
  | dep :: deps, m => do
    let info ← m.taskInfos dep
    if name ∈ info.postTasks then
      let postTasks := info.postTasks.erase name
      forget name deps
        (m.store dep { info with postTasks, output := if postTasks = ∅ then none else info.output })
    else none

/-- `__on_task_done`; `order` is the order in which `post_tasks` is iterated. -/
def onTaskDone (m : Manager α V) (name : α) (retCode : ℤ) (output : Option V) (order : List α) :
    Option (Manager α V) := do
  let info ← m.taskInfos name
  let m := m.store name (info.finish retCode output)
  if retCode = 0 then
    let m := { m with log := m.log ++ [.succeeded name] }
    let m ← notify name order m
    forget name info.task.deps m
  else
    some m

/-- `__on_task_exit`. -/
def onTaskExit (m : Manager α V) (name : α) : Option (Manager α V) := do
  let info ← m.taskInfos name
  some { m.store name info.leave with listeningInfos := m.listeningInfos.erase name }

/-! ### `run` -/

/-- What becomes of `task.run`: an exception, or a return code and an output, with the order in which
`post_tasks` is iterated when the task is done. -/
inductive Outcome (α V : Type*)
  | raises
  | returns (retCode : ℤ) (output : Option V) (order : List α)

inductive Label (α V : Type*)
  /-- `__schedule` up to its loop. -/
  | schedule
  /-- One turn of its loop; the outcome is that of a task that runs in the main process. -/
  | start (outcome : Outcome α V)
  /-- The end of `__schedule`. -/
  | scheduled
  /-- `__listen` up to its loop. -/
  | listen
  /-- `RET_CODE` is received. -/
  | retCode (name : α) (code : ℤ) (order : List α)
  /-- `OUTPUT` is received, or a thread assigns its output. -/
  | output (name : α) (value : Option V)
  /-- The pipe of a task is closed. -/
  | exit (name : α)
  /-- The end of `__listen`. -/
  | listened

/-- The tasks that are blocking. -/
def isBlocking (m : Manager α V) (name : α) : Bool :=
  (m.taskInfos name).any fun info => !info.task.mode.nonBlocking

/-- The tasks that run outside the main process. -/
def isListened (m : Manager α V) (name : α) : Bool :=
  (m.taskInfos name).any fun info => !info.task.mode.inMainProcess

/-- The end of a `run` in which a call raised an exception. -/
def orRaise (m : Manager α V) (position : Position α) (result : Option (Manager α V)) : Manager α V :=
  match result with
  | some m' => { m' with position }
  | none => { m with position := .ended true }

/-- An iteration of `post_tasks`. -/
def Iterates (m : Manager α V) (name : α) (order : List α) : Prop :=
  ∀ info ∈ m.taskInfos name, order.Nodup ∧ order.toFinset = info.postTasks

instance (m : Manager α V) (name : α) (order : List α) : Decidable (m.Iterates name order) :=
  inferInstanceAs (Decidable (∀ info ∈ m.taskInfos name, _))

/-- `__run_one_task`, ahead of the branches. -/
def begin (m : Manager α V) (name : α) (info : TaskInfo α V) : Manager α V :=
  { m.store name { info with status := .running } with log := m.log ++ [.started name] }

/-- `free_channel`; there are never more than `max_concurrent_num` listening tasks. -/
def freeChannel (m : Manager α V) : ℕ :=
  m.maxConcurrentNum - m.listeningInfos.length

def next (m : Manager α V) : Label α V → Option (Manager α V)
  | .schedule =>
    if m.position = .schedule then
      some { m with
        position := .starting (m.readyTasks.take m.freeChannel) (m.readyTasks.drop m.freeChannel) }
    else none
  | .start outcome =>
    match m.position with
    | .starting (name :: slice) waiting =>
      (m.taskInfos name).bind fun info =>
        let m' := m.begin name info
        if info.task.mode.inMainProcess then
          match outcome with
          | .raises => some { m' with position := .ended true }
          | .returns retCode output order =>
            if m.Iterates name order then
              some (m'.orRaise (.starting slice waiting) (m'.onTaskDone name retCode output order))
            else none
        else
          some { m' with
            listeningInfos := m'.listeningInfos ++ [name]
            position := .starting slice waiting }
    | _ => none
  | .scheduled =>
    match m.position with
    | .starting [] waiting => some { m with readyTasks := waiting, position := .listen }
    | _ => none
  | .listen =>
    if m.position = .listen then
      some { m with
        position := if m.listeningInfos.any m.isBlocking then .poll else .ended false }
    else none
  | .retCode name code order =>
    if m.position = .poll ∧ name ∈ m.listeningInfos ∧ m.Iterates name order ∧
        (m.taskInfos name).any (fun info => info.status = .running) then
      some (m.orRaise .poll (m.onTaskDone name code none order))
    else none
  | .output name value =>
    if name ∈ m.listeningInfos then
      (m.taskInfos name).map fun info => m.store name { info with output := value }
    else none
  | .exit name =>
    if m.position = .poll ∧ name ∈ m.listeningInfos then
      some (m.orRaise .poll (m.onTaskExit name))
    else none
  | .listened =>
    if m.position = .poll then some { m with position := .schedule } else none

end Manager

end TorchNpu.Profiler

/-!
  How the result of a task gets to the manager (`_task_manager.py`).

  A sub-process writes its prints and its result to a pipe as messages of type, length and value; a thread
  assigns its output and sends the return code; a task of the main process hands both over directly.  The
  manager reads the pipe in pieces and puts the messages together again.

  `none` is `None` where an output is meant, and an exception where a call may raise one.  An empty
  `recv_buffer` stands for `None` too, which the code does not tell apart.  `Pickle` is what the code uses of
  Python values and of `pickle`.
-/

namespace TorchNpu.Profiler

abbrev Bytes := List UInt8

/-! ### Numbers -/

/-- `to_bytes(4, "big")`, which raises `OverflowError` for a number that does not fit. -/
def toBytes (v : ℤ) : Option Bytes :=
  if 0 ≤ v ∧ v < 0x100000000 then some (leEncode 4 v.toNat).reverse else none

/-- `int.from_bytes(value, "big")`. -/
def fromBytes (bs : Bytes) : ℕ :=
  leDecode bs.reverse

/-! ### Sending -/

/-- What is used of Python: the truth of a value, which some values refuse to tell, and its pickled form. -/
structure Pickle (V : Type*) where
  truth : V → Option Bool
  dumps : V → Bytes
  loads : Bytes → Option V

inductive TaskMsgType
  | retCode
  | output
  | print

def TaskMsgType.value : TaskMsgType → ℤ
  | .retCode => 1
  | .output => 2
  | .print => 3

/-- A message: type, length and value. -/
def message (type : TaskMsgType) (value : Bytes) : Option Bytes := do
  return (← toBytes type.value) ++ (← toBytes value.length) ++ value

variable {V : Type*} (p : Pickle V)

/-- The message `OUTPUT`, which is sent only `if output`. -/
def outputMessage : Option V → Option Bytes
  | none => some []
  | some v => do
    if ← p.truth v then message .output (p.dumps v) else return []

/-- `send_result_to_manager`: what it writes. -/
def sendResultToManager (retCode : ℤ) (output : Option V) : Option Bytes := do
  return (← outputMessage p output) ++ (← message .retCode (← toBytes retCode))

/-- A text that was printed: `send_print_req_to_manager` raises when it is too long. -/
abbrev Printed := { text : Bytes // text.length < 0x100000000 }

/-- `send_print_req_to_manager`: what it writes. -/
def sendPrintReqToManager (text : Printed) : Option Bytes :=
  message .print text.val

/-- What a sub-process writes to its pipe: its prints and, if `send_result_to_manager` does not raise, its
result. -/
def subprocessBytes (prints : List Printed) (retCode : ℤ) (output : Option V) : Bytes :=
  (prints.flatMap fun text => (sendPrintReqToManager text).getD []) ++
    (sendResultToManager p retCode (if retCode = 0 then output else none)).getD []

/-! ### Receiving -/

/-- What the manager has of a task: the bytes it could not use yet, the return code that
`__on_task_done` was called with, and the `TaskInfo`. -/
structure Received (α V : Type*) where
  info : TaskInfo α V
  recvBuffer : Bytes := []
  retCode : Option ℤ := none

namespace Received

variable {α : Type*} (r : Received α V)

/-- The effect on the task of `__on_task_done`. -/
def onTaskDone (retCode : ℤ) (output : Option V) : Received α V :=
  { r with retCode := some retCode, info := r.info.finish retCode output }

/-- The effect on the task of `__on_task_exit`. -/
def onTaskExit : Received α V :=
  { r with info := r.info.leave }

/-- An assignment of the output. -/
def setOutput (output : Option V) : Received α V :=
  { r with info := { r.info with output } }

/-- The branches of `__on_recv_msg` on the type of a message. -/
def onMessage (valueType : ℕ) (value : Bytes) : Option (Received α V) :=
  if (valueType : ℤ) = TaskMsgType.retCode.value then some (r.onTaskDone (fromBytes value) none)
  else if (valueType : ℤ) = TaskMsgType.output.value then
    (p.loads value).map fun output => r.setOutput (some output)
  else some r

/-- The loop of `__on_recv_msg`. -/
def consume (r : Received α V) (restMsg : Bytes) : Option (Received α V) :=
  if restMsg.length < 8 then some { r with recvBuffer := restMsg }
  else if restMsg.length < 8 + fromBytes ((restMsg.take 8).drop 4) then some { r with recvBuffer := restMsg }
  else
    let valueLen := fromBytes ((restMsg.take 8).drop 4)
    (r.onMessage p (fromBytes (restMsg.take 4)) ((restMsg.drop 8).take valueLen)).bind fun r =>
      r.consume (restMsg.drop (8 + valueLen))
termination_by restMsg.length
decreasing_by simp; omega

/-- `__on_recv_msg` with the bytes of one read. -/
def onRecvMsg (msg : Bytes) : Option (Received α V) :=
  consume p { r with recvBuffer := [] } (r.recvBuffer ++ msg)

/-- `__on_recv_msg` for the reads one after the other. -/
def onReads (r : Received α V) : List Bytes → Option (Received α V)
  | [] => some r
  | msg :: reads => (r.onRecvMsg p msg).bind fun r => r.onReads reads

/-! ### The three modes -/

/-- A sub-process: the reads of its pipe, and its exit. -/
def runInSubprocess (reads : List Bytes) : Option (Received α V) :=
  (r.onReads p reads).map onTaskExit

/-- A thread assigns its output, and the manager reads the return code and sees the exit.  A thread whose
`send_result_to_manager` raises does not close its pipe. -/
def runInPthread (retCode : ℤ) (output : Option V) (reads : List Bytes) : Option (Received α V) :=
  let r := if retCode = 0 then r.setOutput output else r
  if (sendResultToManager p retCode none).isSome then (r.onReads p reads).map onTaskExit else some r

/-- A task of the main process hands over what it returns. -/
def runInMainprocess (retCode : ℤ) (output : Option V) : Received α V :=
  r.onTaskDone retCode output

end Received

end TorchNpu.Profiler
