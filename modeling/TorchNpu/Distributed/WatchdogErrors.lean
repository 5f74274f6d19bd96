/-
  The errors of the device that the watchdog finds and `workEnqueue` throws (`ProcessGroupHCCL.cpp`).

  `device_error_msg` and `force_stop_error_flag` are of the process, and nothing guards them.  A step is what a thread
  does between one access to them and the next: `workEnqueue` looks at a variable in one step and takes what it found
  in the next, and `setWatchdogStatus` clears the two variables in two steps.  The exceptions, with their messages, are
  chosen by the labels.
-/
import TorchNpu.Lib.Machine
import TorchNpu.Lib.Text

namespace TorchNpu.Distributed.WatchdogErrors

/-- `text.find(part) != npos` -/
def finds (text part : Text) : Bool :=
  decide (part <:+: text)

def deviceErrors : List Text :=
  ["UCE ERROR".toList, "HBM MULTI BIT ECC ERROR".toList, "SUSPECT MEM ERROR".toList, "HCCS LINK ERROR".toList,
    "UB LINK ERROR".toList, "HCCL OP RETRY FAILED".toList, "SUSPECT REMOTE ERROR".toList]

/-- `get_device_error` -/
def getDeviceError (errorMsg : Text) : Text :=
  (deviceErrors.find? (finds errorMsg)).getD []

def forceStop : Text :=
  "FORCE STOP".toList

inductive WatchdogStatus
  | init
  | run
  | stop
  deriving DecidableEq

/-- How far a thread of the user is in `workEnqueue` or `setWatchdogStatus`. -/
inductive Phase
  | outside
  /-- In `workEnqueue`, after `!device_error_msg.empty()`. -/
  | foundDeviceError
  /-- In `workEnqueue`, after `device_error_msg.empty()`. -/
  | foundNoDeviceError
  /-- In `workEnqueue`, after `force_stop_error_flag`. -/
  | foundForceStop
  /-- In `setWatchdogStatus`, before `device_error_msg = ""`. -/
  | clearsDeviceError
  /-- In `setWatchdogStatus`, before `force_stop_error_flag = false`. -/
  | clearsForceStop
  deriving DecidableEq

structure State where
  deviceErrorMsg : Text := []
  forceStopErrorFlag : Bool := false
  watchdogStatus : WatchdogStatus := .run
  needSetDevice : Bool := true
  phase : ℕ → Phase := fun _ => .outside

/-! ### Finding errors -/

/-- What querying the events of a work comes to. -/
inductive Queried
  | events (ready : Bool)
  | raised (exceptionMsg : Text)

/-- How a query for the threads ends. -/
inductive Answer
  | returns (result : Bool)
  | throws

/-- The `catch` of `startedNPUExecutionInternal` and `finishedNPUExecutionInternal`; `throws` says whether another
exception is thrown on. -/
def catchQuery (s : State) (exceptionMsg : Text) (throws : Bool) : State × Answer :=
  let deviceError := getDeviceError exceptionMsg
  if !deviceError.isEmpty then ({ s with deviceErrorMsg := deviceError }, .returns false)
  else if finds exceptionMsg forceStop then ({ s with forceStopErrorFlag := true }, .returns false)
  else if !finds exceptionMsg "driver shutting down".toList && throws then (s, .throws)
  else (s, .returns true)

/-- `startedNPUExecutionInternal` -/
def startedNPUExecutionInternal (s : State) (shouldTearDown : Bool) : Queried → State × Answer
  | .events ready => (s, .returns ready)
  | .raised exceptionMsg => catchQuery s exceptionMsg shouldTearDown

/-- `finishedNPUExecutionInternal` -/
def finishedNPUExecutionInternal (s : State) (initFlag : Bool) (queried : Queried) : State × Answer :=
  if !initFlag then (s, .returns false)
  else
    match queried with
    | .events ready => (s, .returns ready)
    | .raised exceptionMsg => catchQuery s exceptionMsg true

/-- The `catch` of the watchdog, for setting the device. -/
def catchSetDevice (s : State) (exceptionMsg : Text) : State :=
  let deviceError := getDeviceError exceptionMsg
  let s := if !deviceError.isEmpty then { s with deviceErrorMsg := deviceError } else s
  if !finds exceptionMsg forceStop then { s with forceStopErrorFlag := true } else s

/-! ### Throwing them -/

/-- What `workEnqueue` throws. -/
inductive Thrown
  | deviceError (errorMsg : Text)
  | forceStop
  deriving DecidableEq

def State.enter (s : State) (u : ℕ) (phase : Phase) : State :=
  { s with phase := Function.update s.phase u phase }

/-- Thread `u` calls `workEnqueue`: `if (!device_error_msg.empty())`. -/
def workEnqueue (s : State) (u : ℕ) : State :=
  s.enter u (if !s.deviceErrorMsg.isEmpty then .foundDeviceError else .foundNoDeviceError)

/-- Thread `u` calls `setWatchdogStatus`: `watchdogStatus = WatchdogStatus(status); if (.. == WatchdogStatus::RUN)`. -/
def setWatchdogStatus (s : State) (u : ℕ) (status : WatchdogStatus) : State :=
  let s := { s with watchdogStatus := status }
  s.enter u (if status = .run then .clearsDeviceError else .outside)

/-- Thread `u` goes on in the function that it is in. -/
def proceed (s : State) (u : ℕ) : Option (State × Option Thrown) :=
  match s.phase u with
  | .outside => none
  | .foundDeviceError =>
    some (({ s with deviceErrorMsg := [] } : State).enter u .outside,
      some (.deviceError (s.deviceErrorMsg ++ " happened with workEnqueue.".toList)))
  | .foundNoDeviceError => some (s.enter u (if s.forceStopErrorFlag then .foundForceStop else .outside), none)
  | .foundForceStop => some (({ s with forceStopErrorFlag := false } : State).enter u .outside, some .forceStop)
  | .clearsDeviceError => some (({ s with deviceErrorMsg := [] } : State).enter u .clearsForceStop, none)
  | .clearsForceStop => some (({ s with forceStopErrorFlag := false } : State).enter u .outside, none)

/-! ### Steps -/

inductive Label
  /-- The watchdog sets the device, until it succeeds. -/
  | setDevice (raised : Option Text)
  | queryStart (shouldTearDown : Bool) (queried : Queried)
  | queryEnd (initFlag : Bool) (queried : Queried)
  | workEnqueue (u : ℕ)
  | setWatchdogStatus (u : ℕ) (status : WatchdogStatus)
  | proceed (u : ℕ)

def step (s : State) : Label → Option State
  | .setDevice raised =>
    if s.needSetDevice then
      match raised with
      | none => some { s with needSetDevice := false }
      | some exceptionMsg => some (catchSetDevice s exceptionMsg)
    else none
  | .queryStart shouldTearDown queried => some (startedNPUExecutionInternal s shouldTearDown queried).1
  | .queryEnd initFlag queried => some (finishedNPUExecutionInternal s initFlag queried).1
  | .workEnqueue u => if s.phase u = .outside then some (WatchdogErrors.workEnqueue s u) else none
  | .setWatchdogStatus u status =>
    if s.phase u = .outside then some (WatchdogErrors.setWatchdogStatus s u status) else none
  | .proceed u => (WatchdogErrors.proceed s u).map Prod.fst

end TorchNpu.Distributed.WatchdogErrors
