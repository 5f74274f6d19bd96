/-
  `_DynamicProfile` in `dynamic_profile.py`, with what it asks of a `ConfigContext`.

  The monitor hands a config to a step (`shm_to_prof_conf_context`); how the config got there is in
  `DynamicProfile.lean`.  `profs` are the profiles that have been made, each with the calls that it got.  A profile
  is taken to be made when `enable_prof` asks for it.  The time of a step, the marks of the steps in the trace and
  the messages are left out.
-/
import TorchNpu.Profiler.ActionController

namespace TorchNpu.Profiler

/-! ### `ConfigContext` -/

/-- `ConfigContext`, with the values of the config; one that is not an `int` is none. -/
structure ConfigContext where
  activeValue : Option ℤ := some 1
  warmupValue : Option ℤ := some 0
  startStepValue : Option ℤ := some 0
  deriving DecidableEq

namespace ConfigContext

variable (cfg : ConfigContext)

/-- `DEFAULT_ACTIVE_NUM` -/
def defaultActiveNum : ℕ := 1

/-- `DEFAULT_START_STEP` -/
def defaultStartStep : ℤ := 0

/-- `INSTANT_START_STEP` -/
def instantStartStep : ℤ := -1

/-- `DEFAULT_WARMUP` -/
def defaultWarmup : ℕ := 0

def active : ℕ :=
  match cfg.activeValue with
  | some value => if value ≤ 0 then defaultActiveNum else value.toNat
  | none => defaultActiveNum

def warmup : ℕ :=
  match cfg.warmupValue with
  | some value => if value < 0 then defaultWarmup else value.toNat
  | none => defaultWarmup

/-- `start_step`, as `_parse_start_step` sets it. -/
def startStep : ℤ :=
  match cfg.startStepValue with
  | some value => if value < instantStartStep then defaultStartStep else value
  | none => defaultStartStep

def start : Bool :=
  cfg.startStep = instantStartStep

/-- The schedule of the profile that `enable_prof` makes. -/
def schedule : Schedule :=
  (Schedule.init (some 0) (some cfg.active) (some cfg.warmup) (some 1) (some 0)).1

end ConfigContext

/-! ### Profiles -/

/-- A profile that `enable_prof` has made. -/
structure DynamicProf where
  cfgCtx : ConfigContext
  /-- `_step_num_offset` -/
  stepNumOffset : ℕ
  calls : List ProfileCall := []
  deriving DecidableEq

/-- A call of the profile under its schedule. -/
def DynamicProf.perform (prof : DynamicProf) (p : Profile) : ProfileCall → Profile
  | .start => p.start
  | .step => prof.cfgCtx.schedule.step p
  | .stop => p.stop

/-- The profile after its calls. -/
def DynamicProf.profile (prof : DynamicProf) : Profile :=
  prof.calls.foldl prof.perform prof.cfgCtx.schedule.profile

/-! ### `_DynamicProfile` -/

/-- `ProfilerStatus` -/
inductive ProfilerStatus
  | idle
  | running
  | ready

/-- `_DynamicProfile`, and the status that the monitor is to report. -/
structure DynamicProfiler where
  /-- The profiles that have been made. -/
  profs : List DynamicProf := []
  /-- The place of `prof` among them. -/
  prof : Option ℕ := none
  cfgCtx : Option ConfigContext := none
  stepNum : ℤ := 0
  curStep : ℕ := 0
  profilerStatus : ProfilerStatus := .idle
  /-- `CURRENT_STEP` -/
  reportedStep : ℤ := -1
  /-- `START_STEP` -/
  reportedStart : ℤ := -1
  /-- `STOP_STEP` -/
  reportedStop : ℤ := -1

/-- What `shm_to_prof_conf_context` does in a step: there is nothing new for this rank, it returns a config, or the
config cannot be parsed and it raises. -/
inductive Poll
  | nothing
  | config (cfg : ConfigContext)
  | raises

/-- A call of the user; `start` is given the config that it reads, if it can read one. -/
inductive DynamicCall
  | step (poll : Poll)
  | start (cfg : Option ConfigContext)

namespace DynamicProfiler

variable (s : DynamicProfiler)

/-- A method of a profile. -/
def callProf (prof : ℕ) (call : ProfileCall) : DynamicProfiler :=
  { s with profs := s.profs.modify prof fun p => { p with calls := p.calls ++ [call] } }

def enableProf (cfg : ConfigContext) : DynamicProfiler :=
  { s with
    profs := s.profs ++ [{ cfgCtx := cfg, stepNumOffset := s.curStep, calls := [.start] }]
    prof := some s.profs.length }

/-- `step`, for a profile that runs. -/
def stepProf (prof : ℕ) : DynamicProfiler :=
  let s := s.callProf prof .step
  let s := { s with stepNum := s.stepNum - 1 }
  if 0 = s.stepNum then { s.callProf prof .stop with profilerStatus := .idle, prof := none } else s

/-- `step`, for a config that waits for its step. -/
def stepConfig (cfg : ConfigContext) : DynamicProfiler :=
  let stepNum : ℤ := cfg.active + cfg.warmup
  if s.curStep > cfg.startStep ∧ ¬cfg.start then { s with profilerStatus := .idle, cfgCtx := none }
  else if s.curStep = cfg.startStep ∨ cfg.start then
    { { s with
        stepNum
        reportedStart := s.curStep
        reportedStop := s.curStep + stepNum
        profilerStatus := .running }.enableProf cfg with
      cfgCtx := none }
  else if s.curStep < cfg.startStep then
    { s with
      reportedStart := cfg.startStep
      reportedStop := cfg.startStep + stepNum
      profilerStatus := .ready }
  else s

/-- `step`, after the config has been polled; the profile comes before the config. -/
def stepPolled : DynamicProfiler :=
  match s.prof, s.cfgCtx with
  | some prof, _ => s.stepProf prof
  | none, some cfg => s.stepConfig cfg
  | none, none => s

/-- `step`; an exception of the poll is logged and dropped by `no_exception_func`. -/
def step (poll : Poll) : DynamicProfiler :=
  let s := { s with curStep := s.curStep + 1 }
  match poll with
  | .raises => s
  | .config cfg =>
    let s := { s with cfgCtx := some cfg }.stepPolled
    { s with reportedStep := s.curStep }
  | .nothing =>
    let s := s.stepPolled
    { s with reportedStep := s.curStep }

def start (cfg : Option ConfigContext) : DynamicProfiler :=
  match s.prof, cfg with
  | none, some cfg =>
    let s := { s with cfgCtx := some cfg, stepNum := cfg.active + cfg.warmup }
    { s.enableProf cfg with cfgCtx := none }
  | some _, _ | none, none => s

def next : DynamicCall → DynamicProfiler
  | .step poll => s.step poll
  | .start cfg => s.start cfg

/-- The state after calls. -/
def afterCalls (calls : List DynamicCall) : DynamicProfiler :=
  calls.foldl next {}

end DynamicProfiler

end TorchNpu.Profiler
