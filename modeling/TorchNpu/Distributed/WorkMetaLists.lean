/-
  The works that process groups have enqueued, and the counter of pending event queries
  (`ProcessGroupHCCL.cpp`, `NPUGraph.cpp`).

  A call of `collective` or `pointToPoint` counts its work and then enqueues it, or takes the count back;
  `endCoalescing` counts the work of a batch only if it enqueues it.  From the count to the end of
  `workEnqueue` a call is in `calls`.  The watchdog of a group visits the works of its list, removes those
  that are completed and takes their counts back; it has the lock of the list all the way through a pass,
  and the removal of a work and of its count is one step.  An exception in a watchdog ends the process,
  which `aborted` stands for.

  Errors that an event query or `SetDevice` finds are kept in two variables that all groups share.
-/
import TorchNpu.Lib.Machine
import Mathlib.Algebra.BigOperators.Fin

namespace TorchNpu.Distributed

inductive WatchdogStatus
  | init | run | stop
  deriving DecidableEq

inductive ErrorHandlingMode
  | noHandling | tearDown | cleanUpOnly | skipCleanUp
  deriving DecidableEq

/-- Where a watchdog is in `runLoop`. -/
inductive WatchdogPc
  /-- Ahead of the test of `terminateProcessGroup_`. -/
  | head
  /-- In `wait_for`. -/
  | waiting
  /-- At the work with index `it` of the list, with the lock. -/
  | scanning (it : ℕ)
  /-- After the loop. -/
  | leaving
  | exited
  deriving DecidableEq

/-- What the visit of a work comes to. -/
inductive Visit
  | completed | pending | throws
  deriving DecidableEq

/-- Where a call is, after the increment of the counter. -/
inductive CallPc
  /-- Ahead of the test whether the work is enqueued; `capturing` is the capture status. -/
  | counted (capturing : Bool)
  /-- In `workEnqueue`, ahead of the test of `device_error_msg`. -/
  | testDeviceError
  | testForceStop
  | testStatus
  | testTerminate
  /-- Ahead of `emplace_back`. -/
  | emplace
  deriving DecidableEq

/-- A call of group `group` for the work `work`. -/
structure Call (n : ℕ) where
  group : Fin n
  work : ℕ
  pc : CallPc
  deriving DecidableEq

/-- The groups `Fin n`; `errorHandling` is `asyncErrorHandling_`. -/
structure WorkMetaLists (n : ℕ) where
  errorHandling : Fin n → ErrorHandlingMode
  workMetaList : Fin n → List ℕ := fun _ => []
  watchdog : Fin n → WatchdogPc := fun _ => .head
  watchdogStatus : Fin n → WatchdogStatus := fun _ => .run
  terminateProcessGroup : Fin n → Bool := fun _ => false
  destroyed : Fin n → Bool := fun _ => false
  calls : List (Call n) := []
  deviceError : Bool := false
  forceStopError : Bool := false
  pendingEventQueries : ℕ := 0
  /-- A decrement has found the counter at 0. -/
  underflow : Bool := false
  aborted : Bool := false

inductive WorkLabel (n : ℕ)
  /-- The increment in `collective` or `pointToPoint`. -/
  | collective (group : Fin n) (work : ℕ) (capturing : Bool)
  /-- The increment in `endCoalescing`, if there is one. -/
  | endCoalescing (group : Fin n) (work : ℕ) (capturing : Bool)
  /-- The next step of a call. -/
  | advance (call : Call n)
  /-- The next step of a watchdog. -/
  | watchdog (group : Fin n) (visit : Visit)
  | clearWorkMetaList (group : Fin n)
  | setWatchdogStatus (group : Fin n) (status : WatchdogStatus)
  /-- `terminateProcessGroup_` is set. -/
  | shutdown (group : Fin n)
  /-- The destructor, after it has joined the watchdog. -/
  | destroy (group : Fin n)
  /-- A query finds a device error. -/
  | findDeviceError
  /-- A query finds a forced stop. -/
  | findForceStop
  /-- `capture_begin` gets past its loop. -/
  | captureBegin

namespace WorkMetaLists

variable {n : ℕ} (s : WorkMetaLists n)

/-- `inc_pending_event_queries`. -/
def incPendingEventQueries : WorkMetaLists n :=
  { s with pendingEventQueries := s.pendingEventQueries + 1 }

/-- `dec_pending_event_queries`; the assertion throws. -/
def decPendingEventQueries : WorkMetaLists n :=
  if 0 < s.pendingEventQueries then { s with pendingEventQueries := s.pendingEventQueries - 1 }
  else { s with underflow := true }

/-- The call `call` is in progress. -/
def start (call : Call n) : WorkMetaLists n :=
  { s with calls := call :: s.calls }

/-- The call `call` returns or throws. -/
def finish (call : Call n) : WorkMetaLists n :=
  { s with calls := s.calls.erase call }

/-- The call `call` goes on to `pc`. -/
def goTo (call : Call n) (pc : CallPc) : WorkMetaLists n :=
  { s with calls := { call with pc } :: s.calls.erase call }

def setList (group : Fin n) (works : List ℕ) : WorkMetaLists n :=
  { s with workMetaList := Function.update s.workMetaList group works }

def setWatchdog (group : Fin n) (pc : WatchdogPc) : WorkMetaLists n :=
  { s with watchdog := Function.update s.watchdog group pc }

/-- The watchdog of the group has the lock of its list. -/
def locked (group : Fin n) : Bool :=
  match s.watchdog group with
  | .scanning _ => true
  | _ => false

/-- The end of `collective` and of `pointToPoint`, and `workEnqueue`. -/
def stepCall (call : Call n) : Option (WorkMetaLists n) :=
  match call.pc with
  | .counted capturing =>
    if s.errorHandling call.group ≠ .noHandling ∧ capturing = false then
      some (s.goTo call .testDeviceError)
    else some (s.decPendingEventQueries.finish call)
  | .testDeviceError =>
    -- The error is reset, and thrown.
    if s.deviceError then some { s.finish call with deviceError := false }
    else some (s.goTo call .testForceStop)
  | .testForceStop =>
    if s.forceStopError then some { s.finish call with forceStopError := false }
    else some (s.goTo call .testStatus)
  | .testStatus =>
    if s.watchdogStatus call.group = .stop then some (s.finish call)
    else some (s.goTo call .testTerminate)
  | .testTerminate =>
    if s.terminateProcessGroup call.group then some (s.finish call)
    else some (s.goTo call .emplace)
  | .emplace =>
    if s.locked call.group then none
    else some ((s.setList call.group (s.workMetaList call.group ++ [call.work])).finish call)

/-- `Watchdog::runLoop`. -/
def stepWatchdog (group : Fin n) (visit : Visit) : Option (WorkMetaLists n) :=
  match s.watchdog group with
  | .head =>
    some (s.setWatchdog group (if s.terminateProcessGroup group then .leaving else .waiting))
  | .waiting =>
    if s.watchdogStatus group = .stop then some (s.setWatchdog group .head)
    -- `checkHcclComms` may throw.
    else if visit = .throws then some { s with aborted := true }
    else some (s.setWatchdog group (.scanning 0))
  | .scanning it =>
    if it < (s.workMetaList group).length then
      match visit with
      | .completed =>
        let s' := (s.setList group ((s.workMetaList group).eraseIdx it)).decPendingEventQueries
        some { s' with aborted := s'.underflow }
      | .pending => some (s.setWatchdog group (.scanning (it + 1)))
      | .throws => some { s with aborted := true }
    else some (s.setWatchdog group .head)
  | .leaving => some ((s.setList group []).setWatchdog group .exited)
  | .exited => none

/-- One step of the process, while it has not ended. -/
def next (l : WorkLabel n) : Option (WorkMetaLists n) :=
  if s.aborted then none
  else
    match l with
    | .collective group work capturing =>
      if s.destroyed group then none
      else some (s.incPendingEventQueries.start ⟨group, work, .counted capturing⟩)
    | .endCoalescing group work capturing =>
      if s.destroyed group then none
      else if capturing then some s
      else some (s.incPendingEventQueries.start ⟨group, work, .testDeviceError⟩)
    | .advance call => if call ∈ s.calls then s.stepCall call else none
    | .watchdog group visit => s.stepWatchdog group visit
    | .clearWorkMetaList group => if s.locked group then none else some (s.setList group [])
    | .setWatchdogStatus group status =>
      let s' := { s with watchdogStatus := Function.update s.watchdogStatus group status }
      some (if status = .run then { s' with deviceError := false, forceStopError := false } else s')
    | .shutdown group =>
      some { s with terminateProcessGroup := Function.update s.terminateProcessGroup group true }
    | .destroy group =>
      if s.watchdog group = .exited ∧ ∀ call ∈ s.calls, call.group ≠ group then
        some { s.setList group [] with destroyed := Function.update s.destroyed group true }
      else none
    | .findDeviceError => some { s with deviceError := true }
    | .findForceStop => some { s with forceStopError := true }
    | .captureBegin => if s.pendingEventQueries = 0 then some s else none

/-- The run of the labels from the start, with the error handling modes of the groups. -/
def runFromStart (errorHandling : Fin n → ErrorHandlingMode) (ls : List (WorkLabel n)) :
    Option (WorkMetaLists n) :=
  Machine.run next { errorHandling } ls

end WorkMetaLists

end TorchNpu.Distributed
