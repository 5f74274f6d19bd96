/-
  Whether the calls of the backend are well bracketed.

  The action lists are right one by one, except that RECORD followed by WARMUP ends the trace and begins no other
  one.  `Usage` follows the calls of the user and the schedule alone; its steps are the orderly ones, and
  from it alone the bracket of the backend is known (`Tracks`).
-/
import TorchNpu.Profiler.ActionController

namespace TorchNpu.Profiler

/-! ### Brackets -/

/-- What the backend is in the middle of. -/
inductive Bracket
  | idle
  | initialized
  | started

/-- `start_trace` needs an `init_trace` that is not finalized yet, `stop_trace` a `start_trace` that is not
stopped yet, and an `init_trace` is finalized before the next one. -/
def Bracket.next : Bracket → BackendCall → Option Bracket
  | .idle, .initTrace => some .initialized
  | .initialized, .startTrace => some .started
  | .started, .stopTrace => some .initialized
  | .initialized, .finalizeTrace => some .idle
  | _, .initTrace | _, .startTrace | _, .stopTrace | _, .finalizeTrace => none
  | b, .warmupTrace | b, .deleteProfDir | b, .onTraceReady | b, .printWarnMsg _ => some b

/-- What the backend is in the middle of after its calls, if they are well bracketed. -/
def brackets (calls : List BackendCall) : Option Bracket :=
  Machine.run Bracket.next .idle calls

theorem brackets_append (calls more : List BackendCall) :
    brackets (calls ++ more) = (brackets calls).bind fun b => Machine.run Bracket.next b more :=
  Machine.run_append_eq_bind _ _ _

namespace Profile

/-- The calls of the backend are well bracketed, and at the end of the last stop every trace is finalized. -/
def WellBracketed (schedule : ℕ → ProfilerAction) (onTraceReady : Bool) (calls : List ProfileCall) : Prop :=
  (brackets (afterCalls schedule onTraceReady calls).backendCalls).isSome ∧
  ∀ before after, calls = before ++ .stop :: after → .stop ∉ after →
    brackets (afterCalls schedule onTraceReady (before ++ [.stop])).backendCalls = some .idle

/-! ### Orderly calls -/

/-- Stopped, running, or running although the trace has been finalized: a RECORD was followed by a WARMUP. -/
inductive Phase
  | stopped
  | running
  | lost
  deriving DecidableEq

/-- What is known of the profiler from the calls of the user. -/
structure Usage where
  stepNum : ℕ := 0
  phase : Phase := .stopped

/-- The orderly calls.  A running profiler is started only if its action is NONE, and a stopped one is stopped
only if its action is NONE.  When RECORD was followed by WARMUP, more WARMUP or a start follows. -/
def Usage.next (schedule : ℕ → ProfilerAction) (u : Usage) (call : ProfileCall) : Option Usage :=
  let action := schedule u.stepNum
  let nextAction := schedule (u.stepNum + 1)
  match u.phase, call with
  | .stopped, .start | .lost, .start => some { u with phase := .running }
  | .running, .start => if action = .none then some u else none
  | .stopped, .step => some u
  | .running, .step =>
    some ⟨u.stepNum + 1, if action = .record ∧ nextAction = .warmup then .lost else .running⟩
  | .lost, .step => if nextAction = .warmup then some ⟨u.stepNum + 1, .lost⟩ else none
  | .stopped, .stop => if action = .none then some u else none
  | .running, .stop => some { u with phase := .stopped }
  | .lost, .stop => none

/-- The calls are orderly, one after the other. -/
def Orderly (schedule : ℕ → ProfilerAction) (calls : List ProfileCall) : Prop :=
  (Machine.run (Usage.next schedule) {} calls).isSome

instance (schedule : ℕ → ProfilerAction) (calls : List ProfileCall) : Decidable (Orderly schedule calls) :=
  inferInstanceAs (Decidable (_ = _))

/-! ### The action lists -/

/-- What the backend is in the middle of during an action. -/
def bracketOf : ProfilerAction → Bracket
  | .none => .idle
  | .warmup => .initialized
  | .record | .recordAndSave => .started

/-- What the backend is in the middle of. -/
def Usage.bracket (u : Usage) (schedule : ℕ → ProfilerAction) : Bracket :=
  match u.phase with
  | .stopped | .lost => .idle
  | .running => bracketOf (schedule u.stepNum)

variable {p : Profile}

/-- The list of a transition, from where its action was. -/
theorem run_actionMap (prevAction currentAction : ProfilerAction) :
    Machine.run Bracket.next (bracketOf prevAction) (actionMap p.traceReady prevAction (some currentAction)) =
      some (if prevAction = .record ∧ currentAction = .warmup then .idle else bracketOf currentAction) := by
  rw [traceReady]
  cases prevAction <;> cases currentAction <;> split_ifs <;> first | rfl | contradiction

/-- A start of a profiler that is running already. -/
theorem run_actionMap_restart (currentAction : ProfilerAction) :
    Machine.run Bracket.next (bracketOf currentAction) (actionMap p.traceReady .none (some currentAction)) =
      if currentAction = .none then some .idle else none := by
  cases currentAction <;> rfl

/-- A step when there is no trace during a WARMUP. -/
theorem run_actionMap_lost (currentAction : ProfilerAction) :
    Machine.run Bracket.next .idle (actionMap p.traceReady .warmup (some currentAction)) =
      if currentAction = .warmup then some .idle else none := by
  cases currentAction <;> rfl

theorem run_actionMap_exit (currentAction : ProfilerAction) :
    Machine.run Bracket.next (bracketOf currentAction) (actionMap p.traceReady currentAction none) =
      some .idle := by
  rw [traceReady]
  cases currentAction <;> split_ifs <;> rfl

/-- A stop when there is no trace. -/
theorem run_actionMap_exit_idle (currentAction : ProfilerAction) :
    Machine.run Bracket.next .idle (actionMap p.traceReady currentAction none) =
      if currentAction = .none then some .idle else none := by
  cases currentAction <;> rfl

/-! ### One call -/

/-- The profiler has been used in this way, and the brackets of the backend are those of the phase. -/
structure Tracks (p : Profile) (u : Usage) : Prop where
  stepNum : p.stepNum = u.stepNum
  currentAction : p.currentAction = p.schedule u.stepNum
  stopped : p.stopped = decide (u.phase = .stopped)
  lost : u.phase = .lost → p.currentAction = .warmup
  brackets : brackets p.backendCalls = some (u.bracket p.schedule)

variable {u u' : Usage} {call : ProfileCall}

/-- A transition adds the calls of its list. -/
theorem Tracks.brackets_append (h : p.Tracks u) (more : List BackendCall) :
    Profiler.brackets (p.backendCalls ++ more) = Machine.run Bracket.next (u.bracket p.schedule) more := by
  rw [Profiler.brackets_append, h.brackets, Option.bind_some]

/-- The brackets after a call are those of the next phase; they are broken if there is none. -/
theorem Tracks.brackets_perform (h : p.Tracks u) (call : ProfileCall) :
    Profiler.brackets (p.perform call).backendCalls =
      (u.next p.schedule call).map fun u' => u'.bracket p.schedule := by
  obtain ⟨stepNum, phase⟩ := u
  have haction := h.currentAction
  cases call with
  | start =>
    show Profiler.brackets (p.backendCalls ++ actionMap p.traceReady .none (some p.currentAction)) = _
    rw [h.brackets_append]
    cases phase with
    | stopped | lost =>
      have hrun := run_actionMap (p := p) .none p.currentAction
      rw [if_neg (by simp), haction] at hrun
      rwa [haction]
    | running =>
      rw [Usage.bracket, ← haction, run_actionMap_restart, haction]
      dsimp only [Usage.next]
      split_ifs with hnone
      · rw [Option.map_some, Usage.bracket, hnone]
        rfl
      · rfl
  | stop =>
    show Profiler.brackets (p.backendCalls ++ actionMap p.traceReady p.currentAction none) = _
    rw [h.brackets_append]
    cases phase with
    | running =>
      rw [Usage.bracket, ← haction, run_actionMap_exit]
      rfl
    | stopped =>
      rw [Usage.bracket, run_actionMap_exit_idle, haction]
      dsimp only [Usage.next]
      split_ifs <;> rfl
    | lost =>
      rw [Usage.bracket, run_actionMap_exit_idle, h.lost rfl]
      rfl
  | step =>
    have hstopped := h.stopped
    rw [Profile.perform, Profile.step]
    cases phase with
    | stopped =>
      rw [if_pos (by simpa using hstopped)]
      show Profiler.brackets (p.backendCalls ++ [_]) = _
      rw [h.brackets_append]
      rfl
    | running =>
      rw [if_neg (by simpa using hstopped)]
      show Profiler.brackets (p.backendCalls ++
        actionMap p.traceReady p.currentAction (some (p.schedule (p.stepNum + 1)))) = _
      rw [h.brackets_append, h.stepNum, Usage.bracket, ← haction, run_actionMap, haction]
      dsimp only [Usage.next]
      split_ifs with hlost
      · rfl
      · rfl
    | lost =>
      rw [if_neg (by simpa using hstopped)]
      show Profiler.brackets (p.backendCalls ++
        actionMap p.traceReady p.currentAction (some (p.schedule (p.stepNum + 1)))) = _
      rw [h.brackets_append, h.stepNum, Usage.bracket, h.lost rfl, run_actionMap_lost]
      dsimp only [Usage.next]
      split_ifs with hwarmup
      · rfl
      · rfl

@[simp]
theorem schedule_perform (p : Profile) (call : ProfileCall) : (p.perform call).schedule = p.schedule := by
  cases call with
  | start | stop => rfl
  | step =>
    rw [Profile.perform, Profile.step]
    split_ifs <;> rfl

/-- An orderly call is tracked. -/
theorem Tracks.perform (h : p.Tracks u) (hnext : u.next p.schedule call = some u') :
    (p.perform call).Tracks u' := by
  have hbrackets : Profiler.brackets (p.perform call).backendCalls =
      some (u'.bracket (p.perform call).schedule) := by
    rw [h.brackets_perform, hnext, schedule_perform]
    rfl
  have haction := h.currentAction
  have hstopped := h.stopped
  obtain ⟨stepNum, phase⟩ := u
  cases call with
  | start =>
    obtain rfl : u' = ⟨stepNum, .running⟩ := by
      cases phase <;> simp_all [Usage.next]
    exact ⟨h.stepNum, haction, rfl, nofun, hbrackets⟩
  | stop =>
    obtain rfl : u' = ⟨stepNum, .stopped⟩ := by
      cases phase <;> simp_all [Usage.next]
    exact ⟨h.stepNum, haction, rfl, nofun, hbrackets⟩
  | step =>
    rw [Profile.perform, Profile.step] at hbrackets ⊢
    cases phase with
    | stopped =>
      obtain rfl : ⟨stepNum, .stopped⟩ = u' := Option.some.inj hnext
      rw [if_pos (by simpa using hstopped)] at hbrackets ⊢
      exact ⟨h.stepNum, haction, hstopped, nofun, hbrackets⟩
    | running =>
      cases hnext
      rw [if_neg (by simpa using hstopped)] at hbrackets ⊢
      refine ⟨congrArg (· + 1) h.stepNum, congrArg (fun n => p.schedule (n + 1)) h.stepNum, ?_, ?_, hbrackets⟩
      · refine hstopped.trans ?_
        dsimp only
        split_ifs <;> rfl
      · intro hlost
        dsimp only at hlost
        split_ifs at hlost with hwarmup
        refine Eq.trans ?_ hwarmup.2
        exact congrArg (fun n => p.schedule (n + 1)) h.stepNum
    | lost =>
      rw [if_neg (by simpa using hstopped)] at hbrackets ⊢
      dsimp only [Usage.next] at hnext
      split_ifs at hnext with hwarmup
      cases hnext
      have hnextAction : p.schedule (p.stepNum + 1) = .warmup := by rw [h.stepNum, hwarmup]
      exact ⟨congrArg (· + 1) h.stepNum, congrArg (fun n => p.schedule (n + 1)) h.stepNum, hstopped,
        fun _ => hnextAction, hbrackets⟩

/-! ### Sequences of calls -/

/-- Broken brackets stay broken. -/
theorem brackets_foldl_none {calls : List ProfileCall} (h : Profiler.brackets p.backendCalls = none) :
    Profiler.brackets (calls.foldl Profile.perform p).backendCalls = none := by
  induction calls generalizing p with
  | nil => exact h
  | cons call calls ih =>
    apply ih
    obtain ⟨more, hmore⟩ : ∃ more, (p.perform call).backendCalls = p.backendCalls ++ more := by
      cases call with
      | start | stop => exact ⟨_, rfl⟩
      | step =>
        rw [Profile.perform, Profile.step]
        split_ifs <;> exact ⟨_, rfl⟩
    rw [hmore, Profiler.brackets_append, h]
    rfl

theorem Tracks.foldl (h : p.Tracks u) {calls : List ProfileCall}
    (hrun : Machine.run (Usage.next p.schedule) u calls = some u') :
    (calls.foldl Profile.perform p).Tracks u' := by
  induction calls generalizing p u with
  | nil =>
    cases hrun
    exact h
  | cons call calls ih =>
    obtain ⟨v, hv, hrun⟩ := Machine.run_cons.mp hrun
    apply ih (h.perform hv)
    rwa [schedule_perform]

/-- The brackets hold only after orderly calls. -/
theorem Tracks.orderly (h : p.Tracks u) {calls : List ProfileCall}
    (hbrackets : (Profiler.brackets (calls.foldl Profile.perform p).backendCalls).isSome) :
    (Machine.run (Usage.next p.schedule) u calls).isSome := by
  induction calls generalizing p u with
  | nil => rfl
  | cons call calls ih =>
    rw [Machine.run]
    cases hnext : u.next p.schedule call with
    | none =>
      have hnone : Profiler.brackets (p.perform call).backendCalls = none := by
        rw [h.brackets_perform, hnext]
        rfl
      rw [List.foldl_cons, brackets_foldl_none hnone] at hbrackets
      cases hbrackets
    | some v =>
      have horderly := ih (h.perform hnext) hbrackets
      rwa [schedule_perform] at horderly

theorem tracks_start (schedule : ℕ → ProfilerAction) (onTraceReady : Bool) :
    (afterCalls schedule onTraceReady [.start]).Tracks ⟨0, .running⟩ := by
  refine ⟨rfl, rfl, rfl, nofun, ?_⟩
  have hrun := run_actionMap (p := { schedule, onTraceReady }) .none (schedule 0)
  rw [if_neg (by simp)] at hrun
  exact hrun

theorem Usage.phase_stop {schedule : ℕ → ProfilerAction} {u u' : Usage}
    (h : u.next schedule .stop = some u') : u'.phase = .stopped := by
  obtain ⟨stepNum, phase⟩ := u
  cases phase with
  | stopped =>
    dsimp only [Usage.next] at h
    split at h
    · cases h
      rfl
    · cases h
  | running =>
    cases h
    rfl
  | lost => cases h

/-- From a start on, the calls of the backend are well bracketed exactly if the calls of the user are orderly. -/
theorem wellBracketed_iff (schedule : ℕ → ProfilerAction) (onTraceReady : Bool) (calls : List ProfileCall) :
    WellBracketed schedule onTraceReady (.start :: calls) ↔ Orderly schedule (.start :: calls) := by
  have htracks := tracks_start schedule onTraceReady
  constructor
  · rintro ⟨hbrackets, -⟩
    exact htracks.orderly hbrackets
  · intro horderly
    obtain ⟨u, hu⟩ := Option.isSome_iff_exists.mp horderly
    refine ⟨Option.isSome_iff_exists.mpr ⟨_, (htracks.foldl hu).brackets⟩, ?_⟩
    intro before after hcalls _
    cases before with
    | nil => cases hcalls
    | cons call before =>
      obtain ⟨rfl, rfl⟩ := List.cons.inj hcalls
      have hrun : Machine.run (Usage.next schedule) ⟨0, .running⟩ (before ++ .stop :: after) = some u := hu
      obtain ⟨v, hv, hrun⟩ := Machine.run_append.mp hrun
      obtain ⟨w, hw, -⟩ := Machine.run_cons.mp hrun
      have hstop : Machine.run (Usage.next schedule) ⟨0, .running⟩ (before ++ [.stop]) = some w :=
        Machine.run_append.mpr ⟨v, hv, Machine.run_cons.mpr ⟨w, hw, rfl⟩⟩
      have hbrackets := (htracks.foldl hstop).brackets
      rwa [Usage.bracket, Usage.phase_stop hw] at hbrackets

/-- A schedule of RECORD, WARMUP, RECORD. -/
theorem not_wellBracketed_recordThenWarmup :
    ¬ WellBracketed (fun stepNum => if stepNum = 1 then .warmup else .record) false [.start, .step, .step] := by
  rintro ⟨hbrackets, -⟩
  exact absurd hbrackets (by decide)

/-- With the same schedule a start during the WARMUP begins another trace. -/
example : Orderly (fun stepNum => if stepNum = 1 then .warmup else .record)
    [.start, .step, .start, .step, .stop] := by
  decide

end Profile

end TorchNpu.Profiler
