/-
  When the profiler starts and stops the backend (`profile` in `profiler.py`, `ProfActionController` in
  `_profiler_action_controller.py`).

  `backendCalls` are the calls in the order in which they are made; each of them is taken to return.  The marks
  of the steps in the trace and the place of the output are left out.
-/
import TorchNpu.Lib.Machine
import TorchNpu.Lib.BinaryFloat

namespace TorchNpu.Profiler

/-- `ProfilerAction` -/
inductive ProfilerAction
  | none
  | warmup
  | record
  | recordAndSave
  deriving DecidableEq

/-- What an action list consists of; all but `printWarnMsg` and `onTraceReady` are methods of `_ProfInterface`. -/
inductive BackendCall
  | initTrace
  | warmupTrace
  | startTrace
  | stopTrace
  | finalizeTrace
  | deleteProfDir
  | onTraceReady
  | printWarnMsg (msg : String)
  deriving DecidableEq

/-- `action_map.get`; the action that is current at the exit is followed by `none`.  `traceReady` is what
`_trace_ready` does. -/
def actionMap (traceReady : List BackendCall) : ProfilerAction → Option ProfilerAction → List BackendCall
  | .none, some .none => []
  | .none, some .warmup => [.initTrace, .warmupTrace]
  | .none, some .record => [.initTrace, .startTrace]
  | .none, some .recordAndSave => [.initTrace, .startTrace]
  | .warmup, some .none =>
    [.printWarnMsg "Incorrect schedule: WARMUP followed by NONE", .startTrace, .stopTrace, .finalizeTrace]
  | .warmup, some .warmup => []
  | .warmup, some .record => [.startTrace]
  | .warmup, some .recordAndSave => [.startTrace]
  | .record, some .none =>
    [.printWarnMsg "Incorrect schedule: RECORD followed by NONE", .stopTrace, .finalizeTrace]
  | .record, some .warmup =>
    [.printWarnMsg "Incorrect schedule: RECORD followed by WARMUP", .stopTrace, .finalizeTrace]
  | .record, some .record => []
  | .record, some .recordAndSave => []
  | .recordAndSave, some .none => [.stopTrace, .finalizeTrace] ++ traceReady
  | .recordAndSave, some .warmup =>
    [.stopTrace, .finalizeTrace] ++ traceReady ++ [.initTrace, .warmupTrace]
  | .recordAndSave, some .record =>
    [.stopTrace, .finalizeTrace] ++ traceReady ++ [.initTrace, .startTrace]
  | .recordAndSave, some .recordAndSave =>
    [.stopTrace, .finalizeTrace] ++ traceReady ++ [.initTrace, .startTrace]
  | .none, .none => []
  | .warmup, .none =>
    [.printWarnMsg ("Incorrect schedule: Stop profiler while current state is WARMUP " ++
      "which will result in empty parsed data."), .finalizeTrace, .deleteProfDir]
  | .record, .none =>
    [.printWarnMsg ("Incorrect schedule: Stop profiler while current state is RECORD " ++
      "which may result in incomplete parsed data."), .stopTrace, .finalizeTrace] ++ traceReady
  | .recordAndSave, .none =>
    [.printWarnMsg ("Stop profiler while current state is RECORD_AND_SAVE, " ++
      "perhaps the scheduling cycle has not yet completed."), .stopTrace, .finalizeTrace] ++ traceReady

/-- The calls of the user. -/
inductive ProfileCall
  | start
  | step
  | stop
  deriving DecidableEq

/-- `profile` -/
structure Profile where
  schedule : ℕ → ProfilerAction
  /-- Whether there is a handler for a trace that is ready. -/
  onTraceReady : Bool
  stepNum : ℕ := 0
  currentAction : ProfilerAction := schedule stepNum
  stopped : Bool := false
  backendCalls : List BackendCall := []

namespace Profile

/-- `_trace_ready` -/
def traceReady (p : Profile) : List BackendCall :=
  if p.onTraceReady then [.onTraceReady] else []

def transitAction (p : Profile) (prevAction : ProfilerAction) (currentAction : Option ProfilerAction) : Profile :=
  { p with backendCalls := p.backendCalls ++ actionMap p.traceReady prevAction currentAction }

def start (p : Profile) : Profile :=
  { p with stopped := false }.transitAction .none p.currentAction

def stop (p : Profile) : Profile :=
  { p.transitAction p.currentAction none with stopped := true }

def step (p : Profile) : Profile :=
  if p.stopped then
    { p with backendCalls := p.backendCalls ++ [.printWarnMsg "Profiler is stopped, step takes no effect!"] }
  else
    { p with
      stepNum := p.stepNum + 1
      currentAction := p.schedule (p.stepNum + 1) }.transitAction p.currentAction
        (p.schedule (p.stepNum + 1))

def perform (p : Profile) : ProfileCall → Profile
  | .start => p.start
  | .step => p.step
  | .stop => p.stop

/-- The profiler after calls to it. -/
def afterCalls (schedule : ℕ → ProfilerAction) (onTraceReady : Bool) (calls : List ProfileCall) : Profile :=
  calls.foldl perform { schedule, onTraceReady }

end Profile

end TorchNpu.Profiler

/-!
  The schedule of the steps to profile (`Schedule` in `scheduler.py`), and `profile` in `profiler.py` under it.

  Steps are counted from 0, so that the check for a negative one is left out.  `step / num_steps` is a float, the
  nearest to the quotient of the integers; where it would be too large Python raises an `OverflowError`.
-/

namespace TorchNpu.Profiler

/-- `Schedule`, with what `_check_params` makes of its arguments. -/
structure Schedule where
  wait : ℕ
  active : ℕ
  warmup : ℕ := 0
  /-- `repeat` -/
  repeats : ℕ := 0
  skipFirst : ℕ := 0
  active_pos : 0 < active := by decide

/-- A check of `_check_params` and its warning; an argument is none if it is not an `int`. -/
def checkParam (name : String) (least : ℕ) (value : Option ℤ) : ℕ × List String :=
  match value.filter fun value => (least : ℤ) ≤ value with
  | some value => (value.toNat, [])
  | none => (least, ["Invalid parameter " ++ name ++ ", reset it to " ++ toString least ++ "."])

theorem le_checkParam (name : String) (least : ℕ) (value : Option ℤ) : least ≤ (checkParam name least value).1 := by
  unfold checkParam
  split
  next value' heq =>
    have hle : (least : ℤ) ≤ value' := by simpa using (Option.filter_eq_some_iff.mp heq).2
    show least ≤ value'.toNat
    omega
  next => exact le_rfl

namespace Schedule

/-- `Schedule(..)`, with the warnings of `_check_params`. -/
def init (wait active warmup repeats skipFirst : Option ℤ) : Schedule × List String :=
  let wait := checkParam "wait" 0 wait
  let warmup := checkParam "warmup" 0 warmup
  let checkedActive := checkParam "active" 1 active
  let repeats := checkParam "repeat" 0 repeats
  let skipFirst := checkParam "skip_first" 0 skipFirst
  ({ wait := wait.1
     active := checkedActive.1
     warmup := warmup.1
     repeats := repeats.1
     skipFirst := skipFirst.1
     active_pos := le_checkParam "active" 1 active },
    wait.2 ++ warmup.2 ++ checkedActive.2 ++ repeats.2 ++ skipFirst.2 ++
      if warmup.1 = 0 then ["Profiler won't be using warmup, this can skew profiler results"] else [])

variable (sch : Schedule)

/-- `num_steps` -/
def numSteps : ℕ :=
  sch.wait + sch.warmup + sch.active

/-- `self.repeat > 0 and step / num_steps >= self.repeat` -/
def ended (step : ℕ) : Option Bool :=
  if 0 < sch.repeats then
    (BinaryFloat.binary64.trueDivide step sch.numSteps).map fun quotient => (sch.repeats : ℚ) ≤ quotient
  else some false

/-- `__call__`; none is an `OverflowError`. -/
def call (step : ℕ) : Option ProfilerAction :=
  if step < sch.skipFirst then some .none
  else
    let step := step - sch.skipFirst
    (sch.ended step).map fun ended =>
      if ended then .none
      else
        let modStep := step % sch.numSteps
        if modStep < sch.wait then .none
        else if modStep < sch.wait + sch.warmup then .warmup
        else if modStep < sch.numSteps - 1 then .record
        else .recordAndSave

/-! ### `profile` under a schedule -/

/-- `profile(schedule=.., on_trace_ready=..)` -/
def profile : Profile where
  schedule step := (sch.call step).getD .none
  onTraceReady := true

/-- `step`; an exception of the schedule is logged and dropped by `no_exception_func`. -/
def step (p : Profile) : Profile :=
  if p.stopped = false ∧ sch.call (p.stepNum + 1) = none then { p with stepNum := p.stepNum + 1 } else p.step

/-- The profiler after `start` and steps. -/
def afterSteps : ℕ → Profile
  | 0 => sch.profile.start
  | n + 1 => sch.step (afterSteps n)

end Schedule

end TorchNpu.Profiler
