/-
  The task queue of a device: `Repository` (`NPUQueue.h`, `NPUQueue.cpp`).

  Any number of threads call `Enqueue` and `MakeSureQueueEmpty` while one consumer thread runs
  `StartConsume`.  The state is the object they share together with the point each thread has
  reached, and one step is one access to the shared object with the thread-local code up to the next
  access; a mutex is released together with the last access made under it.  Where the two indices are
  compared by a thread that owns neither of them the two loads are two steps, in the order of the
  source text.  Memory is sequentially consistent.

  The counter of an eventfd is a natural number: `eventfd_write` adds to it and `eventfd_read` takes
  all of it, waiting while it is zero.  Waiting may be interrupted by a signal (`EINTR`); the
  descriptors are open, so there is no other failure.  `ReadQueue` polls an empty ring when
  `TASK_QUEUE_ENABLE=2`; the polls that find nothing change nothing and are not steps.

  `accepted`, `executed` and `released` record what has happened so far; no step looks at them except
  to number the tasks and to remember how many there were when a call began.
-/
import TorchNpu.Lib.Machine
import TorchNpu.Lib.Ring
import Mathlib.Data.Int.Basic
import Mathlib.Logic.Function.Basic

namespace TorchNpu.Queue

/-! ### Data -/

inductive RepoStatus
  | init
  | run
  | needExit
  | canExit
  | errorExit
  | uceExit
  | stopExit
  | hbmEccExit
  | suspectMemExit
  | hccsLinkExit
  | hcclOpRetryExit
  | suspectRemoteExit
  deriving DecidableEq

/-- `deviceErrorMap`: the status values a device error leads to, with the text that is thrown. -/
def deviceErrorMap : RepoStatus → Option String
  | .uceExit => some "UCE ERROR"
  | .hbmEccExit => some "HBM MULTI BIT ECC ERROR"
  | .stopExit => some "FORCE STOP"
  | .suspectMemExit => some "SUSPECT MEM ERROR"
  | .hccsLinkExit => some "HCCS LINK ERROR"
  | .hcclOpRetryExit => some "HCCL OP RETRY FAILED"
  | .suspectRemoteExit => some "SUSPECT REMOTE ERROR"
  | .init | .run | .needExit | .canExit | .errorExit => none

inductive QueueParamType
  | compileAndExecute
  | asyncMemcpy
  | recordEvent
  | waitEvent
  | lazyDestroyEvent
  | resetEvent
  | executeOpapi
  | executeOpapiV2
  | writeValue
  | waitValue
  deriving DecidableEq

structure QueueParas where
  paramType : QueueParamType := .compileAndExecute
  paramVal : ℕ := 0
  deriving DecidableEq

/-- The parameters in a slot, with the number of tasks accepted before them. -/
structure Task where
  number : ℕ := 0
  paras : QueueParas := {}
  deriving DecidableEq

/-- `sring_idx`. -/
structure SringIdx where
  working : Bool := false
  idx : ℕ := 0

def kQueueCapacity : ℕ := 4096

/-- `(idx + 1) & (kQueueCapacity - 1)`. -/
def nextIdx (idx : ℕ) : ℕ :=
  (idx + 1) &&& (kQueueCapacity - 1)

/-- The object, shared by the threads `Fin n` and the consumer. -/
structure Repository (n : ℕ) where
  datas : ℕ → Task := fun _ => {}
  readIdx : SringIdx := {}
  writeIdx : SringIdx := {}
  efdRead : ℕ := 0
  efdWrite : ℕ := 0
  efdEmpty : ℕ := 0
  repoStatus : RepoStatus := .init
  needEmpty : Bool := false
  muEmpty : Option (Fin n) := none
  muEnqueue : Option (Fin n) := none
  aclError : String := ""
  /-- The tasks `WriteQueue` has returned true for. -/
  accepted : List Task := []
  /-- The tasks handed to `manager().Call`, with what it returned. -/
  executed : List (Task × ℤ) := []
  /-- The tasks handed to `manager().Release`. -/
  released : List Task := []

namespace Repository

variable {n : ℕ} (s : Repository n)

def isEmptyQueue : Bool :=
  s.readIdx.idx = s.writeIdx.idx

def isFullQueue : Bool :=
  nextIdx s.writeIdx.idx = s.readIdx.idx

def setStatus (desired : RepoStatus) : Repository n :=
  { s with repoStatus := desired }

/-- `ChangeStatus`: a compare and exchange. -/
def changeStatus (expected desired : RepoStatus) : Repository n :=
  if s.repoStatus = expected then s.setStatus desired else s

def setReadWorking (isWorking : Bool) : Repository n :=
  { s with readIdx := { s.readIdx with working := isWorking } }

def setWriteWorking (isWorking : Bool) : Repository n :=
  { s with writeIdx := { s.writeIdx with working := isWorking } }

def setReadIdx (idx : ℕ) : Repository n :=
  { s with readIdx := { s.readIdx with idx } }

/-- `manager().Copy` into the slot at the write index. -/
def copy (paras : QueueParas) : Repository n :=
  { s with
    datas := Function.update s.datas s.writeIdx.idx { number := s.accepted.length, paras } }

/-- `WriteQueue` moves the write index past the slot it has filled. -/
def publish (paras : QueueParas) : Repository n :=
  { s with
    writeIdx := { s.writeIdx with idx := nextIdx s.writeIdx.idx }
    accepted := s.accepted ++ [{ number := s.accepted.length, paras }]
    muEnqueue := none }

/-- The task at the read index. -/
def front : Task :=
  s.datas s.readIdx.idx

/-- `manager().Call` on the slot at the read index. -/
def call (ret : ℤ) : Repository n :=
  { s with executed := s.executed ++ [(s.front, ret)] }

/-- `manager().Release` on the slot at the read index. -/
def release : Repository n :=
  { s with released := s.released ++ [s.front] }

end Repository

/-! ### Errors -/

/-- What a call throws. -/
inductive Thrown
  /-- The text of a device error. -/
  | device (errorText : String)
  /-- "The Inner error is reported as above." -/
  | inner
  deriving DecidableEq

/-- `ThrowDeviceError`.  The tasks a destructor enqueues never throw. -/
def throwDeviceError (currentStatus : RepoStatus) (curParas : QueueParas) : Option Thrown :=
  if curParas.paramType = .lazyDestroyEvent ∨ curParas.paramType = .recordEvent then none
  else (deviceErrorMap currentStatus).map .device

/-- The tests of `CheckDeviceError` in their order: a status, the return code that stands for it, and
the texts in the message that do. -/
def deviceFaults : List (RepoStatus × ℤ × List String) :=
  [(.uceExit, 507053, ["reason=[device mem error]", "reason=device mem error"]),
    (.hbmEccExit, 507054, ["reason=[hbm Multi-bit ECC error]", "reason=hbm Multi-bit ECC error"]),
    (.suspectMemExit, 507055,
      ["reason=[suspect device mem error]", "reason=suspect device mem error"]),
    (.hccsLinkExit, 507056,
      ["reason=[link error]", "reason=link error", "reason=device network link error"]),
    (.hcclOpRetryExit, 507904, ["reason=[hccl op retry failed]", "reason=hccl op retry failed"]),
    (.suspectRemoteExit, 507057, ["reason=[suspect remote error]", "reason=suspect remote error"])]

/-- `text.find(part) != npos`. -/
def finds (text part : String) : Bool :=
  decide (part.toList <:+: text.toList)

/-- The first test of `CheckDeviceError` that succeeds. -/
def deviceFault (ret : ℤ) (aclError : String) : Option RepoStatus :=
  (deviceFaults.find? fun fault =>
    ret = fault.2.1 || fault.2.2.any (finds aclError)).map Prod.fst

/-! ### Threads -/

/-- A call of `MakeSureQueueEmpty`, with the number of tasks accepted before it began. -/
structure Drain where
  checkError : Bool
  began : ℕ
  deriving DecidableEq

/-- How a call ended. -/
inductive Ending
  | enqueue (thrown : Option Thrown)
  /-- `MakeSureQueueEmpty` read `status` last; without a throw it returns `NPU_STATUS_SUCCESS`. -/
  | drain (call : Drain) (status : RepoStatus) (thrown : Option Thrown)
  deriving DecidableEq

/-- The next access of a thread that calls `Enqueue` or `MakeSureQueueEmpty`. -/
inductive ThreadPc
  | idle (ended : Option Ending)
  /-- `Enqueue`: `current_status = GetStatus()`. -/
  | enqueueStatus (paras : QueueParas)
  /-- `SetStatus(CAN_EXIT)`, then throw. -/
  | enqueueReport
  /-- `SetWriteWorking(true)`. -/
  | writeWorkingOn (paras : QueueParas)
  /-- `GetStatus() == RUN`. -/
  | loopRun (paras : QueueParas)
  /-- `GetStatus() == INIT`. -/
  | loopInit (paras : QueueParas)
  /-- `WriteQueue`: lock `mu_enqueue`. -/
  | lockEnqueue (paras : QueueParas)
  /-- `current_status = GetStatus()`, `ThrowDeviceError`. -/
  | writeStatus (paras : QueueParas)
  /-- `IsFullQueue()` under the lock. -/
  | writeFull (paras : QueueParas)
  /-- `manager().Copy`. -/
  | writeCopy (paras : QueueParas)
  /-- `write_idx.idx = ...`. -/
  | writePublish (paras : QueueParas)
  /-- `WriteQueue` returned false: `SetWriteWorking(false)`. -/
  | writeWorkingOff (paras : QueueParas)
  /-- `IsFullQueue()`: load `write_idx.idx`. -/
  | fullWrite (paras : QueueParas)
  /-- `IsFullQueue()`: load `read_idx.idx`. -/
  | fullRead (paras : QueueParas) (write : ℕ)
  /-- `eventfd_read(efd_write)`. -/
  | waitWrite (paras : QueueParas)
  /-- `WriteQueue` returned true: `IsReadWorking()`. -/
  | checkRead
  /-- `eventfd_write(efd_read)`. -/
  | wakeRead
  /-- `SetWriteWorking(false)` at the end. -/
  | enqueueEnd
  /-- `MakeSureQueueEmpty`: `IsEmptyQueue()` of the loop, load `read_idx.idx`. -/
  | emptyRead (drain : Drain)
  /-- The same, load `write_idx.idx`. -/
  | emptyWrite (drain : Drain) (read : ℕ)
  /-- Lock `mu_empty`. -/
  | lockEmpty (drain : Drain)
  /-- `need_empty = true`. -/
  | needEmptyOn (drain : Drain)
  /-- The double check, load `read_idx.idx`. -/
  | recheckRead (drain : Drain)
  /-- The double check, load `write_idx.idx`. -/
  | recheckWrite (drain : Drain) (read : ℕ)
  /-- `eventfd_read(efd_empty)`. -/
  | waitEmpty (drain : Drain)
  /-- `need_empty = false`. -/
  | needEmptyOff (drain : Drain)
  /-- `current_status = GetStatus()`. -/
  | drainStatus (drain : Drain)
  /-- `SetStatus(CAN_EXIT)`. -/
  | drainReport (drain : Drain)
  deriving DecidableEq

section

variable {n : ℕ} (t : Fin n) (interrupted : Bool) (s : Repository n)

/-- One step of a thread inside `Enqueue` or `MakeSureQueueEmpty`. -/
def threadStep : ThreadPc → Option (Repository n × ThreadPc)
  | .idle _ => none
  | .enqueueStatus paras =>
    match throwDeviceError s.repoStatus paras with
    | some thrown => some (s, .idle (some (.enqueue (some thrown))))
    | none =>
      match s.repoStatus with
      | .errorExit => some (s, .enqueueReport)
      | .run | .init => some (s, .writeWorkingOn paras)
      | _ => some (s, .idle (some (.enqueue none)))
  | .enqueueReport => some (s.setStatus .canExit, .idle (some (.enqueue (some .inner))))
  | .writeWorkingOn paras => some (s.setWriteWorking true, .loopRun paras)
  | .loopRun paras =>
    some (s, if s.repoStatus = .run then .lockEnqueue paras else .loopInit paras)
  | .loopInit paras =>
    some (s, if s.repoStatus = .init then .lockEnqueue paras else .enqueueEnd)
  | .lockEnqueue paras =>
    if s.muEnqueue = none then some ({ s with muEnqueue := some t }, .writeStatus paras) else none
  | .writeStatus paras =>
    match throwDeviceError s.repoStatus paras with
    | some thrown =>
      some ({ s with muEnqueue := none }, .idle (some (.enqueue (some thrown))))
    | none => some (s, .writeFull paras)
  | .writeFull paras =>
    if s.isFullQueue then some ({ s with muEnqueue := none }, .writeWorkingOff paras)
    else some (s, .writeCopy paras)
  | .writeCopy paras => some (s.copy paras, .writePublish paras)
  | .writePublish paras => some (s.publish paras, .checkRead)
  | .writeWorkingOff paras => some (s.setWriteWorking false, .fullWrite paras)
  | .fullWrite paras => some (s, .fullRead paras s.writeIdx.idx)
  | .fullRead paras write =>
    some (s, if nextIdx write = s.readIdx.idx then .waitWrite paras else .loopRun paras)
  | .waitWrite paras =>
    if interrupted then some (s, .loopRun paras)
    else if 0 < s.efdWrite then some ({ s with efdWrite := 0 }, .writeWorkingOn paras)
    else none
  | .checkRead => some (s, if s.readIdx.working then .enqueueEnd else .wakeRead)
  | .wakeRead => some ({ s with efdRead := s.efdRead + 1 }, .enqueueEnd)
  | .enqueueEnd => some (s.setWriteWorking false, .idle (some (.enqueue none)))
  | .emptyRead drain => some (s, .emptyWrite drain s.readIdx.idx)
  | .emptyWrite drain read =>
    some (s, if read = s.writeIdx.idx then .drainStatus drain else .lockEmpty drain)
  | .lockEmpty drain =>
    if s.muEmpty = none then some ({ s with muEmpty := some t }, .needEmptyOn drain) else none
  | .needEmptyOn drain => some ({ s with needEmpty := true }, .recheckRead drain)
  | .recheckRead drain => some (s, .recheckWrite drain s.readIdx.idx)
  | .recheckWrite drain read =>
    some (s, if read = s.writeIdx.idx then .needEmptyOff drain else .waitEmpty drain)
  | .waitEmpty drain =>
    if interrupted then some ({ s with muEmpty := none }, .emptyRead drain)
    else if 0 < s.efdEmpty then some ({ s with efdEmpty := 0 }, .needEmptyOff drain)
    else none
  | .needEmptyOff drain =>
    some ({ s with needEmpty := false, muEmpty := none }, .emptyRead drain)
  | .drainStatus drain =>
    match deviceErrorMap s.repoStatus with
    | some errorText =>
      let thrown := if drain.checkError then some (Thrown.device errorText) else none
      some (s, .idle (some (.drain drain s.repoStatus thrown)))
    | none =>
      if s.repoStatus = .errorExit then some (s, .drainReport drain)
      else some (s, .idle (some (.drain drain s.repoStatus none)))
  | .drainReport drain =>
    let thrown := if drain.checkError then some Thrown.inner else none
    some (s.setStatus .canExit, .idle (some (.drain drain .errorExit thrown)))

end

/-! ### The consumer -/

/-- Where `ClearQueue` is called from. -/
inductive ClearSite
  /-- `Dequeue`, in a device error status. -/
  | dequeue
  /-- `ReadQueue`, after a task has failed. -/
  | readQueue
  deriving DecidableEq

/-- The next access of the consumer thread. -/
inductive ConsumerPc
  /-- `StartConsume`: `GetStatus() != CAN_EXIT`. -/
  | startCan
  /-- `StartConsume`: `GetStatus() != ERROR_EXIT`. -/
  | startError
  /-- `SetReadWorking(true)`. -/
  | readWorkingOn
  /-- `Dequeue`: `GetStatus() != CAN_EXIT`. -/
  | loop
  /-- `deviceErrorMap.find(GetStatus())`. -/
  | loopDevice
  /-- `ReadQueue`: `IsEmptyQueue()`. -/
  | readEmpty
  /-- `manager().Call`. -/
  | call
  /-- `manager().Release`. -/
  | release
  /-- `read_idx.idx = ...`. -/
  | advance
  /-- The task has failed: `IsEmptyQueue()` of the loop that ignores the other tasks. -/
  | drain (ret : ℤ)
  /-- `manager().Release` in that loop. -/
  | drainRelease (ret : ℤ)
  /-- `read_idx.idx = ...` in that loop. -/
  | drainAdvance (ret : ℤ)
  /-- `CheckDeviceError`. -/
  | checkDevice (ret : ℤ)
  /-- `SetStatus(ERROR_EXIT)`. -/
  | setError
  /-- `ClearQueue`: load `write_idx.idx`. -/
  | clearLoad (site : ClearSite)
  /-- `ClearQueue`: store `read_idx.idx`. -/
  | clearStore (site : ClearSite) (write : ℕ)
  /-- `eventfd_write(efd_empty)`. -/
  | clearEmpty (site : ClearSite)
  /-- `eventfd_write(efd_write)`. -/
  | clearWrite (site : ClearSite)
  /-- `ReadQueue` returned false: `GetStatus() == NEED_EXIT`. -/
  | failNeed
  /-- `ChangeStatus(NEED_EXIT, CAN_EXIT)`. -/
  | failChange
  /-- `GetStatus() == ERROR_EXIT`. -/
  | failError
  /-- `GetStatus() == STOP_EXIT`. -/
  | failStop
  /-- `SetReadWorking(false)` before waiting. -/
  | readWorkingOff
  /-- `IsEmptyQueue()` before waiting. -/
  | sleepEmpty
  /-- `eventfd_read(efd_read)`. -/
  | waitRead
  /-- `ReadQueue` returned true: load `need_empty`. -/
  | notifyNeed
  /-- `IsEmptyQueue()` of `notify_empty`. -/
  | notifyEmpty
  /-- `eventfd_write(efd_empty)`. -/
  | wakeEmpty
  /-- `IsWriteWorking()`. -/
  | checkWrite
  /-- `eventfd_write(efd_write)`. -/
  | wakeWrite
  /-- `SetReadWorking(false)` at the end of `Dequeue`. -/
  | finish
  /-- `StartConsume` has returned. -/
  | left
  deriving DecidableEq

/-- What comes after `ClearQueue`. -/
def ClearSite.resume : ClearSite → ConsumerPc
  | .dequeue => .loop
  | .readQueue => .failNeed

/-- What the consumer's surroundings answer in a step: whether the wait is interrupted, what
`manager().Call` returns, the message of `c10_npu_get_error_message`, and whether
`checkUceErrAndRepair` finds the memory error. -/
structure Answer where
  interrupted : Bool := false
  ret : ℤ := 0
  message : String := ""
  uce : Bool := false

section

variable {n : ℕ} (a : Answer) (s : Repository n)

/-- `acl_error` in `CheckDeviceError`: two return codes keep the message of an earlier failure. -/
def currentAclError (ret : ℤ) : String :=
  if ret ≠ 107022 ∧ ret ≠ 507053 then a.message else s.aclError

/-- `CheckDeviceError` up to its last branch, where the status is stored in a step of its own. -/
def checkDeviceError (ret : ℤ) : Repository n × ConsumerPc :=
  let s' := { s with aclError := currentAclError a s ret }
  match deviceFault ret s'.aclError with
  | some .uceExit => (if a.uce then s'.setStatus .uceExit else s', .clearLoad .readQueue)
  | some status => (s'.setStatus status, .clearLoad .readQueue)
  | none => (s', if s'.repoStatus ≠ .stopExit then .setError else .clearLoad .readQueue)

/-- One step of the consumer thread. -/
def consumerStep : ConsumerPc → Option (Repository n × ConsumerPc)
  | .startCan => some (s, if s.repoStatus ≠ .canExit then .startError else .left)
  | .startError => some (s, if s.repoStatus ≠ .errorExit then .readWorkingOn else .left)
  | .readWorkingOn => some (s.setReadWorking true, .loop)
  | .loop => some (s, if s.repoStatus ≠ .canExit then .loopDevice else .finish)
  | .loopDevice =>
    some (s, if (deviceErrorMap s.repoStatus).isSome then .clearLoad .dequeue else .readEmpty)
  | .readEmpty => some (s, if s.isEmptyQueue then .failNeed else .call)
  | .call => some (s.call a.ret, if a.ret ≠ 0 then .drain a.ret else .release)
  | .release => some (s.release, .advance)
  | .advance => some (s.setReadIdx (nextIdx s.readIdx.idx), .notifyNeed)
  | .drain ret => some (s, if s.isEmptyQueue then .checkDevice ret else .drainRelease ret)
  | .drainRelease ret => some (s.release, .drainAdvance ret)
  | .drainAdvance ret => some (s.setReadIdx (nextIdx s.readIdx.idx), .drain ret)
  | .checkDevice ret => some (checkDeviceError a s ret)
  | .setError => some (s.setStatus .errorExit, .clearLoad .readQueue)
  | .clearLoad site => some (s, .clearStore site s.writeIdx.idx)
  | .clearStore site write => some (s.setReadIdx write, .clearEmpty site)
  | .clearEmpty site => some ({ s with efdEmpty := s.efdEmpty + 1 }, .clearWrite site)
  | .clearWrite site => some ({ s with efdWrite := s.efdWrite + 1 }, site.resume)
  | .failNeed => some (s, if s.repoStatus = .needExit then .failChange else .failError)
  | .failChange => some (s.changeStatus .needExit .canExit, .finish)
  | .failError => some (s, if s.repoStatus = .errorExit then .finish else .failStop)
  | .failStop => some (s, if s.repoStatus = .stopExit then .loop else .readWorkingOff)
  | .readWorkingOff => some (s.setReadWorking false, .sleepEmpty)
  | .sleepEmpty => some (s, if s.isEmptyQueue then .waitRead else .loop)
  | .waitRead =>
    if a.interrupted then some (s, .loop)
    else if 0 < s.efdRead then some ({ s with efdRead := 0 }, .readWorkingOn)
    else none
  | .notifyNeed => some (s, if s.needEmpty then .notifyEmpty else .checkWrite)
  | .notifyEmpty => some (s, if s.isEmptyQueue then .wakeEmpty else .checkWrite)
  | .wakeEmpty => some ({ s with efdEmpty := s.efdEmpty + 1 }, .checkWrite)
  | .checkWrite => some (s, if s.writeIdx.working then .finish else .wakeWrite)
  | .wakeWrite => some ({ s with efdWrite := s.efdWrite + 1 }, .finish)
  | .finish => some (s.setReadWorking false, .startCan)
  | .left => none

end

/-! ### The system -/

structure State (n : ℕ) where
  repo : Repository n := {}
  threads : Fin n → ThreadPc := fun _ => .idle none
  consumer : ConsumerPc := .startCan

/-- Who moves.  The last three are calls from outside the queue: the status of a device is set when
it is stopped and restarted, and the destructor ends the consumer's wait. -/
inductive Label (n : ℕ)
  | enqueue (t : Fin n) (paras : QueueParas)
  | makeSureQueueEmpty (t : Fin n) (checkError : Bool)
  | thread (t : Fin n) (interrupted : Bool)
  | consumer (a : Answer)
  | setStatus (desired : RepoStatus)
  | changeStatus (expected desired : RepoStatus)
  | escapeWait

namespace State

variable {n : ℕ} (s : State n)

def setThread (t : Fin n) (pc : ThreadPc) : State n :=
  { s with threads := Function.update s.threads t pc }

/-- A thread that is in neither call begins one. -/
def begin (t : Fin n) (pc : ThreadPc) : Option (State n) :=
  match s.threads t with
  | .idle _ => some (s.setThread t pc)
  | _ => none

def next : Label n → Option (State n)
  | .enqueue t paras => s.begin t (.enqueueStatus paras)
  | .makeSureQueueEmpty t checkError =>
    s.begin t (.emptyRead { checkError, began := s.repo.accepted.length })
  | .thread t interrupted =>
    (threadStep t interrupted s.repo (s.threads t)).map fun (repo, pc) =>
      { s with repo, threads := Function.update s.threads t pc }
  | .consumer a =>
    (consumerStep a s.repo s.consumer).map fun (repo, consumer) => { s with repo, consumer }
  | .setStatus desired => some { s with repo := s.repo.setStatus desired }
  | .changeStatus expected desired =>
    some { s with repo := s.repo.changeStatus expected desired }
  | .escapeWait => some { s with repo := { s.repo with efdRead := s.repo.efdRead + 1 } }

end State

/-- The run along `ls` from the state `InitRepo` leaves. -/
def runFromInit {n : ℕ} (ls : List (Label n)) : Option (State n) :=
  Machine.run State.next {} ls

end TorchNpu.Queue
