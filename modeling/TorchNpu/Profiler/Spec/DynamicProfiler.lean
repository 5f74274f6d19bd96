/-
  When the dynamic profiler starts and stops profiles.

  A profile gets every step from its start on until it has had its warmup and active ones; so `Inv` says what the
  calls to a profile are, from the step and its offset alone.  A config that waits is lost when `start` is called,
  because `start` puts the config that it reads in the same place.
-/
import TorchNpu.Profiler.DynamicProfiler
import TorchNpu.Profiler.Spec.Scheduler
import Mathlib.Tactic.IntervalCases

namespace TorchNpu.Profiler

/-! ### What is claimed -/

namespace DynamicProf

variable (prof : DynamicProf)

/-- The steps that a profile is to get. -/
def numSteps : ℕ :=
  prof.cfgCtx.warmup + prof.cfgCtx.active

/-- The profile has had its steps. -/
def Over (curStep : ℕ) : Prop :=
  prof.numSteps ≤ curStep - prof.stepNumOffset

instance (curStep : ℕ) : Decidable (prof.Over curStep) :=
  inferInstanceAs (Decidable (_ ≤ _))

/-- The calls to a profile that is stopped when it has had its steps. -/
def callsAt (curStep : ℕ) : List ProfileCall :=
  .start :: List.replicate (min prof.numSteps (curStep - prof.stepNumOffset)) .step ++
    if prof.Over curStep then [.stop] else []

/-- The traces that have been ready. -/
def traces : ℕ :=
  prof.profile.backendCalls.count .onTraceReady

end DynamicProf

namespace DynamicProfiler

/-- At most one profile is active.  Each one is started once, gets every step until it has had its warmup and active
ones, and is stopped then, and has a trace by then and no other. -/
structure Managed (s : DynamicProfiler) : Prop where
  active : ∀ (i j : ℕ) (prof prof' : DynamicProf), s.profs[i]? = some prof → s.profs[j]? = some prof' →
    prof.profile.stopped = false → prof'.profile.stopped = false → i = j
  calls : ∀ prof ∈ s.profs, prof.calls = prof.callsAt s.curStep
  traces : ∀ prof ∈ s.profs, prof.traces = prof.calls.count .stop

/-- The state before call `i`. -/
def before (calls : List DynamicCall) (i : ℕ) : DynamicProfiler :=
  afterCalls (calls.take i)

/-- Call `i` delivers a config at a step not after its start step, and call `j` is that step: then a profile of that
config starts in it, unless a later config has been delivered or a profile is still running. -/
def Begins (calls : List DynamicCall) : Prop :=
  ∀ (i j : ℕ) (cfg : ConfigContext) (poll : Poll), i ≤ j → calls[i]? = some (.step (.config cfg)) →
    calls[j]? = some (.step poll) → ((before calls i).curStep + 1 : ℤ) ≤ cfg.startStep →
    ((before calls j).curStep + 1 : ℤ) = cfg.startStep →
    (∀ k cfg', i < k → k ≤ j → calls[k]? ≠ some (.step (.config cfg'))) →
    (∀ prof ∈ (before calls j).profs, prof.profile.stopped) →
    (before calls (j + 1)).profs = (before calls j).profs ++
      [{ cfgCtx := cfg, stepNumOffset := (before calls j).curStep + 1, calls := [.start] }]

def Obeys (calls : List DynamicCall) : Prop :=
  (∀ n, Managed (before calls n)) ∧ Begins calls

/-! ### The condition -/

/-- Comparing floats ends the schedule of a config at the right step. -/
def RoundsRight (cfg : ConfigContext) : Prop :=
  ∀ step ≤ cfg.warmup + cfg.active, cfg.schedule.RoundsRight step

/-- The config that waits after a poll. -/
def waiting (s : DynamicProfiler) : Poll → Option ConfigContext
  | .config cfg => some cfg
  | .nothing | .raises => s.cfgCtx

/-- The condition on a call.  A poll raises only if no profile runs and no config is due at the step.  `start` makes a
profile only if no config waits for a later step.  The schedule of a profile that is made is rounded right. -/
def Sound (s : DynamicProfiler) : DynamicCall → Prop
  | .step .raises => s.prof = none ∧ ∀ cfg ∈ s.cfgCtx, cfg.startStep ≠ s.curStep + 1
  | .step poll => s.prof = none → ∀ cfg ∈ s.waiting poll, cfg.startStep = s.curStep + 1 ∨ cfg.start → RoundsRight cfg
  | .start none => True
  | .start (some cfg) =>
    s.prof = none → (∀ cfg' ∈ s.cfgCtx, cfg'.startStep ≤ s.curStep) ∧ RoundsRight cfg

end DynamicProfiler

/-! ### The schedule of a profile -/

namespace ConfigContext

variable {cfg : ConfigContext}

theorem active_pos : 0 < cfg.active := by
  unfold active
  split
  next value _ =>
    split_ifs with hle
    · exact Nat.one_pos
    · omega
  next => exact Nat.one_pos

/-- The schedule has one cycle of warmup and active steps. -/
theorem schedule_eq : cfg.schedule =
    { wait := 0, active := cfg.active, warmup := cfg.warmup, repeats := 1, skipFirst := 0, active_pos := active_pos } :=
  Schedule.init_self
    { wait := 0, active := cfg.active, warmup := cfg.warmup, repeats := 1, skipFirst := 0, active_pos := active_pos }

@[simp] theorem repeats_schedule : cfg.schedule.repeats = 1 := by
  rw [schedule_eq]

@[simp] theorem skipFirst_schedule : cfg.schedule.skipFirst = 0 := by
  rw [schedule_eq]

@[simp] theorem numSteps_schedule : cfg.schedule.numSteps = cfg.warmup + cfg.active := by
  rw [schedule_eq, Schedule.numSteps]
  show 0 + cfg.warmup + cfg.active = _
  omega

/-- The only cycle is over after the warmup and active steps. -/
theorem length_cyclesBefore {n : ℕ} (h : n ≤ cfg.warmup + cfg.active) :
    (cfg.schedule.cyclesBefore n).length = if cfg.warmup + cfg.active ≤ n then 1 else 0 := by
  have hpos : 0 < cfg.active := active_pos
  rw [Schedule.cyclesBefore_eq_range, List.length_range, Schedule.cycleCount, numSteps_schedule, repeats_schedule,
    skipFirst_schedule, if_pos Nat.one_pos, Nat.sub_zero]
  split_ifs with hn
  · rw [le_antisymm h hn, Nat.div_self (by omega), Nat.min_self]
  · rw [Nat.div_eq_of_lt (by omega), Nat.min_zero]

theorem not_isActive : ¬cfg.schedule.IsActive (cfg.warmup + cfg.active) := by
  apply Schedule.not_isActive_of_over
  · rw [repeats_schedule]
    exact Nat.one_pos
  · rw [numSteps_schedule, repeats_schedule, skipFirst_schedule]
    omega

end ConfigContext

/-! ### The calls to a profile -/

namespace DynamicProf

variable {prof : DynamicProf} {k n : ℕ}

theorem foldl_replicate_step (prof : DynamicProf) (k : ℕ) :
    (List.replicate k .step).foldl prof.perform (prof.cfgCtx.schedule.afterSteps 0) =
      prof.cfgCtx.schedule.afterSteps k := by
  induction k with
  | zero => rfl
  | succ k ih =>
    rw [List.replicate_succ', List.foldl_append, ih]
    rfl

/-- The profile when it has been started and has had `k` steps. -/
theorem profile_of_calls (h : prof.calls = .start :: List.replicate k .step) :
    prof.profile = prof.cfgCtx.schedule.afterSteps k := by
  unfold profile
  rw [h, List.foldl_cons]
  exact foldl_replicate_step prof k

/-- The profile when it has been stopped, too. -/
theorem profile_of_calls_stop (h : prof.calls = .start :: List.replicate k .step ++ [.stop]) :
    prof.profile = (prof.cfgCtx.schedule.afterSteps k).stop := by
  unfold profile
  rw [h, List.foldl_append, List.foldl_cons]
  exact congrArg Profile.stop (foldl_replicate_step prof k)

/-- The traces of a profile that has had no more than its steps. -/
theorem count_afterSteps {cfg : ConfigContext} (hround : ∀ step ≤ cfg.warmup + cfg.active, cfg.schedule.RoundsRight step)
    (h : k ≤ cfg.warmup + cfg.active) : (cfg.schedule.afterSteps k).backendCalls.count .onTraceReady =
      if cfg.warmup + cfg.active ≤ k then 1 else 0 := by
  have hcounted := Schedule.counted_of_roundsRight cfg.schedule k fun i hi => hround i (hi.trans h)
  rw [hcounted.calls]
  exact ConfigContext.length_cyclesBefore h

/-- The stop after the last step makes no trace. -/
theorem count_stop {cfg : ConfigContext} (hround : ∀ step ≤ cfg.warmup + cfg.active, cfg.schedule.RoundsRight step) :
    (cfg.schedule.afterSteps (cfg.warmup + cfg.active)).stop.backendCalls.count .onTraceReady = 1 := by
  have hcounted := Schedule.counted_of_roundsRight cfg.schedule _ hround
  have hready := congrArg List.length (hcounted.stop_of_not_active ConfigContext.not_isActive)
  have hbefore := count_afterSteps hround le_rfl
  rw [if_pos le_rfl] at hbefore
  have hcalls : (cfg.schedule.afterSteps (cfg.warmup + cfg.active)).stop.backendCalls =
      (cfg.schedule.afterSteps (cfg.warmup + cfg.active)).backendCalls ++ actionMap _ _ none := rfl
  rw [Schedule.stopped, Schedule.length_ready_calls, hcalls, List.drop_left] at hready
  rw [hcalls, List.count_append, hbefore]
  omega

variable {curStep : ℕ}

theorem Over.succ (h : prof.Over curStep) : prof.Over (curStep + 1) := by
  unfold Over at h ⊢
  omega

theorem callsAt_of_over (h : prof.Over curStep) :
    prof.callsAt curStep = .start :: List.replicate prof.numSteps .step ++ [.stop] := by
  unfold callsAt
  rw [if_pos h, Nat.min_eq_left h]

theorem callsAt_of_not_over (h : ¬prof.Over curStep) :
    prof.callsAt curStep = .start :: List.replicate (curStep - prof.stepNumOffset) .step := by
  unfold callsAt
  rw [if_neg h, Nat.min_eq_right (not_le.mp h).le, List.append_nil]

/-- The next step of a profile that has not had its steps, and the stop if it is the last one. -/
theorem callsAt_succ (hle : prof.stepNumOffset ≤ curStep) (h : ¬prof.Over curStep) :
    prof.callsAt (curStep + 1) =
      prof.callsAt curStep ++ [.step] ++ if prof.Over (curStep + 1) then [.stop] else [] := by
  have hlt : curStep - prof.stepNumOffset < prof.numSteps := not_le.mp h
  have hmin : min prof.numSteps (curStep + 1 - prof.stepNumOffset) = curStep - prof.stepNumOffset + 1 := by omega
  rw [callsAt_of_not_over h, callsAt, hmin, List.replicate_succ']
  rfl

/-- A profile that has had every step from its start on, as many as it is to get, and whose schedule is rounded
right. -/
structure Kept (prof : DynamicProf) (curStep : ℕ) : Prop where
  le : prof.stepNumOffset ≤ curStep
  calls : prof.calls = prof.callsAt curStep
  round : DynamicProfiler.RoundsRight prof.cfgCtx

theorem Kept.succ (h : prof.Kept curStep) (hover : prof.Over curStep) : prof.Kept (curStep + 1) where
  le := h.le.trans (Nat.le_succ _)
  calls := by rw [h.calls, callsAt_of_over hover, callsAt_of_over hover.succ]
  round := h.round

theorem Kept.stopped_iff (h : prof.Kept curStep) : prof.profile.stopped = true ↔ prof.Over curStep := by
  by_cases hover : prof.Over curStep
  · rw [profile_of_calls_stop (h.calls.trans (callsAt_of_over hover))]
    exact iff_of_true rfl hover
  · rw [profile_of_calls (h.calls.trans (callsAt_of_not_over hover)), (Schedule.running_afterSteps _).stopped]
    exact iff_of_false Bool.false_ne_true hover

/-- The trace of a profile is ready when it has had its steps. -/
theorem Kept.traces_eq (h : prof.Kept curStep) : prof.traces = prof.calls.count .stop := by
  unfold traces
  by_cases hover : prof.Over curStep
  · have hcalls := h.calls.trans (callsAt_of_over hover)
    rw [profile_of_calls_stop hcalls, hcalls, numSteps, count_stop h.round]
    simp [List.count_replicate]
  · have hcalls := h.calls.trans (callsAt_of_not_over hover)
    have hlt : ¬prof.cfgCtx.warmup + prof.cfgCtx.active ≤ curStep - prof.stepNumOffset := hover
    rw [profile_of_calls hcalls, hcalls, count_afterSteps h.round (not_le.mp hlt).le, if_neg hlt]
    simp [List.count_replicate]

end DynamicProf

namespace DynamicProfiler

variable {s : DynamicProfiler} {cfg : ConfigContext} {prof : DynamicProf} {i : ℕ}

/-! ### The invariant -/

/-- Every profile has had its steps, except the one that runs, and `step_num` says how many that one is to get. -/
structure Inv (s : DynamicProfiler) : Prop where
  kept : ∀ prof ∈ s.profs, prof.Kept s.curStep
  ended : ∀ i prof, s.profs[i]? = some prof → s.prof ≠ some i → prof.Over s.curStep
  running : ∀ i, s.prof = some i → ∃ prof, s.profs[i]? = some prof ∧ ¬prof.Over s.curStep ∧
    s.stepNum = prof.numSteps - (s.curStep - prof.stepNumOffset : ℕ)

theorem Inv.managed (h : Inv s) : Managed s where
  active i j prof prof' hi hj hactive hactive' := by
    have hrunning : ∀ i prof, s.profs[i]? = some prof → prof.profile.stopped = false → s.prof = some i := by
      intro i prof hi hactive
      by_contra hne
      have hstopped := (h.kept prof (List.mem_of_getElem? hi)).stopped_iff.mpr (h.ended i prof hi hne)
      rw [hactive] at hstopped
      exact Bool.false_ne_true hstopped
    exact Option.some_inj.mp ((hrunning i prof hi hactive).symm.trans (hrunning j prof' hj hactive'))
  calls prof hprof := (h.kept prof hprof).calls
  traces prof hprof := (h.kept prof hprof).traces_eq

/-- No profile runs if all are stopped. -/
theorem Inv.prof_eq_none (h : Inv s) (hstopped : ∀ prof ∈ s.profs, prof.profile.stopped) : s.prof = none := by
  apply Option.eq_none_iff_forall_ne_some.mpr
  intro i hi
  obtain ⟨prof, hprof, hover, -⟩ := h.running i hi
  have hmem := List.mem_of_getElem? hprof
  exact hover ((h.kept prof hmem).stopped_iff.mp (hstopped prof hmem))

/-! ### One call -/

theorem Inv.succ_of_none (h : Inv s) (hnone : s.prof = none) : Inv { s with curStep := s.curStep + 1 } where
  kept prof hprof := by
    obtain ⟨i, hi⟩ := List.mem_iff_getElem?.mp hprof
    exact (h.kept prof hprof).succ (h.ended i prof hi (by rw [hnone]; exact Option.some_ne_none i |>.symm))
  ended i prof hi hne := (h.ended i prof hi hne).succ
  running i hi := by
    rw [show s.prof = some i from hi] at hnone
    exact absurd hnone (Option.some_ne_none i)

/-- A step of the profile that runs. -/
theorem Inv.stepProf (h : Inv s) (hi : s.prof = some i) : Inv ({ s with curStep := s.curStep + 1 }.stepProf i) := by
  obtain ⟨prof, hprof, hover, hnum⟩ := h.running i hi
  have hkept := h.kept prof (List.mem_of_getElem? hprof)
  have hcalls := DynamicProf.callsAt_succ hkept.le hover
  have hlt : s.curStep - prof.stepNumOffset < prof.numSteps := not_le.mp hover
  have hle := hkept.le
  -- The profiles that do not run have had their steps.
  have hothers : ∀ j prof', s.profs[j]? = some prof' → i ≠ j →
      prof'.Kept (s.curStep + 1) ∧ prof'.Over (s.curStep + 1) := by
    intro j prof' hj hne
    have hover' := h.ended j prof' hj (by rw [hi]; exact fun heq => hne (Option.some_inj.mp heq))
    exact ⟨(h.kept prof' (List.mem_of_getElem? hj)).succ hover', hover'.succ⟩
  have hzero : 0 = s.stepNum - 1 ↔ prof.Over (s.curStep + 1) := by
    unfold DynamicProf.Over
    omega
  have hcurrent : ({ prof with calls := prof.callsAt (s.curStep + 1) } : DynamicProf).Kept (s.curStep + 1) :=
    ⟨hle.trans (Nat.le_succ _), rfl, hkept.round⟩
  have hmodify : ∀ (f : DynamicProf → DynamicProf) (j : ℕ) (prof' : DynamicProf),
      f prof = { prof with calls := prof.callsAt (s.curStep + 1) } → (s.profs.modify i f)[j]? = some prof' →
        i = j ∧ prof' = { prof with calls := prof.callsAt (s.curStep + 1) } ∨
          i ≠ j ∧ prof'.Kept (s.curStep + 1) ∧ prof'.Over (s.curStep + 1) := by
    intro f j prof' hf hj
    by_cases hij : i = j
    · subst hij
      rw [List.getElem?_modify_eq, hprof] at hj
      exact .inl ⟨rfl, (Option.some_inj.mp hj).symm.trans hf⟩
    · rw [List.getElem?_modify_ne _ _ hij] at hj
      exact .inr ⟨hij, hothers j prof' hj hij⟩
  unfold DynamicProfiler.stepProf callProf
  simp only [hzero]
  split_ifs with hlast
  · -- The last step and the stop.
    rw [if_pos hlast, hkept.calls.symm] at hcalls
    have hstop := fun j prof' => hmodify (fun p => { p with calls := p.calls ++ [.step] ++ [.stop] }) j prof'
      (by rw [hcalls])
    rw [List.modify_modify_eq]
    constructor
    · intro prof' hmem
      obtain ⟨j, hj⟩ := List.mem_iff_getElem?.mp hmem
      rcases hstop j prof' hj with ⟨-, rfl⟩ | ⟨-, hother, -⟩
      · exact hcurrent
      · exact hother
    · intro j prof' hj _
      rcases hstop j prof' hj with ⟨-, rfl⟩ | ⟨-, -, hother⟩
      · exact hlast
      · exact hother
    · intro j hj
      exact absurd hj (Option.some_ne_none j).symm
  · -- A step that is not the last one.
    rw [if_neg hlast, hkept.calls.symm, List.append_nil] at hcalls
    have hstep := fun j prof' => hmodify (fun p => { p with calls := p.calls ++ [.step] }) j prof' (by rw [hcalls])
    constructor
    · intro prof' hmem
      obtain ⟨j, hj⟩ := List.mem_iff_getElem?.mp hmem
      rcases hstep j prof' hj with ⟨-, rfl⟩ | ⟨-, hother, -⟩
      · exact hcurrent
      · exact hother
    · intro j prof' hj hne
      rcases hstep j prof' hj with ⟨rfl, -⟩ | ⟨-, -, hother⟩
      · exact absurd hi hne
      · exact hother
    · intro j hj
      obtain rfl : i = j := Option.some_inj.mp (hi.symm.trans hj)
      refine ⟨{ prof with calls := prof.callsAt (s.curStep + 1) }, ?_, hlast, ?_⟩
      · show (s.profs.modify i _)[i]? = _
        rw [List.getElem?_modify_eq, hprof, Option.map_eq_map, Option.map_some, hcalls]
      · show s.stepNum - 1 = (prof.numSteps : ℤ) - (s.curStep + 1 - prof.stepNumOffset : ℕ)
        omega

/-- A profile that is made when none runs. -/
theorem Inv.enableProf (h : Inv s) (hnone : s.prof = none) (hround : RoundsRight cfg)
    (hnum : s.stepNum = cfg.active + cfg.warmup) (waits : Option ConfigContext) :
    Inv { s.enableProf cfg with cfgCtx := waits } := by
  have hpos : 0 < cfg.active := ConfigContext.active_pos
  have hnotOver : ¬DynamicProf.Over ⟨cfg, s.curStep, [.start]⟩ s.curStep := by
    show ¬cfg.warmup + cfg.active ≤ s.curStep - s.curStep
    omega
  have hnew : DynamicProf.Kept ⟨cfg, s.curStep, [.start]⟩ s.curStep := by
    refine ⟨le_rfl, ?_, hround⟩
    rw [DynamicProf.callsAt_of_not_over hnotOver, Nat.sub_self]
    rfl
  have hsplit : ∀ (j : ℕ) (prof' : DynamicProf), (s.profs ++ [⟨cfg, s.curStep, [.start]⟩])[j]? = some prof' →
      s.profs[j]? = some prof' ∨ j = s.profs.length ∧ prof' = ⟨cfg, s.curStep, [.start]⟩ := by
    intro j prof' hj
    rcases Nat.lt_or_ge j s.profs.length with hlt | hge
    · rw [List.getElem?_append_left hlt] at hj
      exact .inl hj
    · have hlt := (List.getElem?_eq_some_iff.mp hj).1
      rw [List.length_append, List.length_singleton] at hlt
      obtain rfl : j = s.profs.length := by omega
      rw [List.getElem?_concat_length] at hj
      exact .inr ⟨rfl, (Option.some_inj.mp hj).symm⟩
  unfold DynamicProfiler.enableProf
  constructor
  · intro prof' hmem
    rcases List.mem_append.mp hmem with hmem | hmem
    · exact h.kept prof' hmem
    · rw [List.mem_singleton.mp hmem]
      exact hnew
  · intro j prof' hj hne
    rcases hsplit j prof' hj with hold | ⟨rfl, -⟩
    · exact h.ended j prof' hold (by rw [hnone]; exact (Option.some_ne_none j).symm)
    · exact absurd rfl hne
  · intro j hj
    obtain rfl : s.profs.length = j := Option.some_inj.mp hj
    refine ⟨⟨cfg, s.curStep, [.start]⟩, List.getElem?_concat_length, hnotOver, ?_⟩
    show s.stepNum = ((cfg.warmup + cfg.active : ℕ) : ℤ) - (s.curStep - s.curStep : ℕ)
    omega

/-- The invariant is about the profiles, the one that runs and the two counters alone. -/
theorem Inv.congr (h : Inv s) (s' : DynamicProfiler) (hprofs : s'.profs = s.profs) (hprof : s'.prof = s.prof)
    (hcur : s'.curStep = s.curStep) (hnum : s.prof ≠ none → s'.stepNum = s.stepNum) : Inv s' where
  kept prof hmem := by
    rw [hcur]
    exact h.kept prof (hprofs ▸ hmem)
  ended i prof hi hne := by
    rw [hcur]
    exact h.ended i prof (hprofs ▸ hi) (hprof ▸ hne)
  running i hi := by
    rw [hcur, hnum (by rw [← hprof, hi]; exact Option.some_ne_none i), hprofs]
    exact h.running i (hprof ▸ hi)

/-- A step with a config that waits, in the state after its step is counted. -/
theorem Inv.stepConfig (h : Inv s) (hnone : s.prof = none)
    (hround : cfg.startStep = s.curStep ∨ cfg.start → RoundsRight cfg) : Inv (s.stepConfig cfg) := by
  unfold DynamicProfiler.stepConfig
  split_ifs with hlate hdue hearly
  · exact h.congr _ rfl rfl rfl fun _ => rfl
  · have h := h.congr { s with
      stepNum := cfg.active + cfg.warmup
      reportedStart := s.curStep
      reportedStop := s.curStep + (cfg.active + cfg.warmup)
      profilerStatus := .running } rfl rfl rfl fun hne => absurd hnone hne
    exact h.enableProf hnone (hround (hdue.imp_left Eq.symm)) rfl none
  · exact h.congr _ rfl rfl rfl fun _ => rfl
  · exact h

theorem stepPolled_of_prof (h : s.prof = some i) : s.stepPolled = s.stepProf i := by
  unfold stepPolled
  rw [h]

theorem stepPolled_of_cfgCtx (h : s.prof = none) (hcfg : s.cfgCtx = some cfg) : s.stepPolled = s.stepConfig cfg := by
  unfold stepPolled
  rw [h, hcfg]

theorem stepPolled_of_none (h : s.prof = none) (hcfg : s.cfgCtx = none) : s.stepPolled = s := by
  unfold stepPolled
  rw [h, hcfg]

/-- A step after its poll. -/
theorem Inv.stepPolled (h : Inv s) (waits : Option ConfigContext)
    (hround : s.prof = none → ∀ cfg ∈ waits, cfg.startStep = s.curStep + 1 ∨ cfg.start → RoundsRight cfg) :
    Inv { s with curStep := s.curStep + 1, cfgCtx := waits }.stepPolled := by
  have h : Inv { s with cfgCtx := waits } := h.congr _ rfl rfl rfl fun _ => rfl
  rcases Option.eq_none_or_eq_some s.prof with hprof | ⟨i, hprof⟩
  · have hnext := h.succ_of_none hprof
    rcases waits with - | cfg
    · rw [stepPolled_of_none (by exact hprof) rfl]
      exact hnext
    · rw [stepPolled_of_cfgCtx (by exact hprof) rfl]
      apply hnext.stepConfig hprof
      intro hdue
      apply hround hprof cfg rfl
      exact hdue.imp_left fun heq => heq.trans (Nat.cast_succ _)
  · rw [stepPolled_of_prof (i := i) (by exact hprof)]
    exact h.stepProf hprof

/-- What a call keeps. -/
theorem Inv.next {call : DynamicCall} (h : Inv s) (hsound : s.Sound call) : Inv (s.next call) := by
  cases call with
  | step poll =>
    cases poll with
    | raises => exact h.succ_of_none hsound.1
    | nothing => exact (h.stepPolled s.cfgCtx hsound).congr _ rfl rfl rfl fun _ => rfl
    | config cfg => exact (h.stepPolled (some cfg) hsound).congr _ rfl rfl rfl fun _ => rfl
  | start cfg =>
    show Inv (s.start cfg)
    unfold DynamicProfiler.start
    split
    next cfg hprof =>
      have h := h.congr { s with cfgCtx := some cfg, stepNum := cfg.active + cfg.warmup } rfl rfl rfl
        fun hne => absurd hprof hne
      exact h.enableProf hprof (hsound hprof).2 rfl none
    all_goals exact h

/-! ### Runs -/

/-- Every call meets the condition in the state before it. -/
def AllSound (calls : List DynamicCall) : Prop :=
  ∀ i call, calls[i]? = some call → (before calls i).Sound call

variable {calls : List DynamicCall}

theorem before_succ {call : DynamicCall} (h : calls[i]? = some call) :
    before calls (i + 1) = (before calls i).next call := by
  unfold before afterCalls
  rw [List.take_add_one, h, Option.toList_some, List.foldl_append, List.foldl_cons, List.foldl_nil]

theorem inv_before (h : AllSound calls) (n : ℕ) : Inv (before calls n) := by
  induction n with
  | zero => exact ⟨fun _ hmem => absurd hmem List.not_mem_nil, fun _ _ hi => absurd hi (by simp [before, afterCalls]),
      fun _ hi => absurd hi (Option.some_ne_none _).symm⟩
  | succ n ih =>
    cases hcall : calls[n]? with
    | some call =>
      rw [before_succ hcall]
      exact ih.next (h n call hcall)
    | none =>
      have htake : calls.take (n + 1) = calls.take n := by
        rw [List.take_add_one, hcall, Option.toList_none, List.append_nil]
      unfold before at ih ⊢
      rw [htake]
      exact ih

/-! ### A config that waits -/

theorem curStep_stepProf (s : DynamicProfiler) (i : ℕ) : (s.stepProf i).curStep = s.curStep := by
  unfold stepProf callProf
  dsimp only
  split <;> rfl

theorem curStep_stepConfig (s : DynamicProfiler) (cfg : ConfigContext) : (s.stepConfig cfg).curStep = s.curStep := by
  unfold stepConfig
  split_ifs <;> rfl

theorem curStep_stepPolled (s : DynamicProfiler) : s.stepPolled.curStep = s.curStep := by
  unfold stepPolled
  split
  · exact curStep_stepProf s _
  · exact curStep_stepConfig s _
  · rfl

theorem curStep_le_next (s : DynamicProfiler) (call : DynamicCall) : s.curStep ≤ (s.next call).curStep := by
  cases call with
  | step poll =>
    have hstep : (s.step poll).curStep = s.curStep + 1 := by
      cases poll with
      | nothing | config _ => exact curStep_stepPolled _
      | raises => rfl
    exact (Nat.le_succ _).trans hstep.ge
  | start cfg =>
    show s.curStep ≤ (s.start cfg).curStep
    unfold start
    split <;> exact le_rfl

theorem curStep_mono (calls : List DynamicCall) : Monotone fun i => (before calls i).curStep := by
  apply monotone_nat_of_le_succ
  intro i
  cases hcall : calls[i]? with
  | some call =>
    rw [before_succ hcall]
    exact curStep_le_next _ _
  | none =>
    unfold before
    rw [List.take_add_one, hcall, Option.toList_none, List.append_nil]

/-- A config for a later step goes on waiting. -/
theorem cfgCtx_stepPolled (h : s.cfgCtx = some cfg) (hlt : s.curStep < cfg.startStep) :
    s.stepPolled.cfgCtx = some cfg := by
  rcases Option.eq_none_or_eq_some s.prof with hprof | ⟨i, hprof⟩
  · rw [stepPolled_of_cfgCtx hprof h]
    have hstart : ¬cfg.start := by
      unfold ConfigContext.start
      rw [decide_eq_true_iff, ConfigContext.instantStartStep]
      omega
    have hlate : ¬(s.curStep > cfg.startStep ∧ ¬cfg.start) := fun hlate => by omega
    have hdue : ¬(s.curStep = cfg.startStep ∨ cfg.start) := not_or.mpr ⟨hlt.ne, hstart⟩
    unfold stepConfig
    rw [if_neg hlate, if_neg hdue, if_pos hlt]
    exact h
  · rw [stepPolled_of_prof hprof]
    unfold stepProf callProf
    dsimp only
    split_ifs <;> exact h

/-- At its step, a config that waits starts a profile. -/
theorem profs_stepPolled (hprof : s.prof = none) (h : s.cfgCtx = some cfg) (hdue : s.curStep = cfg.startStep) :
    s.stepPolled.profs = s.profs ++ [⟨cfg, s.curStep, [.start]⟩] := by
  rw [stepPolled_of_cfgCtx hprof h]
  have hlate : ¬(s.curStep > cfg.startStep ∧ ¬cfg.start) := fun hlate => by omega
  unfold stepConfig
  rw [if_neg hlate, if_pos (.inl hdue)]
  rfl

/-- What keeps a config waiting: no call but the delivery of another one takes its place. -/
theorem cfgCtx_next {call : DynamicCall} (h : s.cfgCtx = some cfg) (hlt : (s.next call).curStep < cfg.startStep)
    (hsound : s.Sound call) (hcall : ∀ cfg', call ≠ .step (.config cfg')) : (s.next call).cfgCtx = some cfg := by
  cases call with
  | step poll =>
    cases poll with
    | raises => exact h
    | nothing =>
      have hstep : (s.next (.step .nothing)).curStep = s.curStep + 1 := curStep_stepPolled _
      rw [hstep] at hlt
      exact cfgCtx_stepPolled (s := { s with curStep := s.curStep + 1 }) h hlt
    | config cfg' => exact absurd rfl (hcall cfg')
  | start cfg' =>
    have hle := curStep_le_next s (.start cfg')
    show (s.start cfg').cfgCtx = some cfg
    unfold DynamicProfiler.start
    split
    next hprof =>
      -- `start` would put its own config in the place of this one.
      have hearly := (hsound hprof).1 cfg h
      omega
    all_goals exact h

/-- A config waits from its delivery on. -/
theorem cfgCtx_before (hsound : AllSound calls) {i j : ℕ} (hij : i < j)
    (hdeliver : calls[i]? = some (.step (.config cfg))) (hlt : (before calls j).curStep < cfg.startStep)
    (hlater : ∀ k cfg', i < k → k < j → calls[k]? ≠ some (.step (.config cfg'))) :
    (before calls j).cfgCtx = some cfg := by
  induction j, hij using Nat.le_induction with
  | base =>
    rw [before_succ hdeliver] at hlt ⊢
    have hstep : ((before calls i).next (.step (.config cfg))).curStep = (before calls i).curStep + 1 :=
      curStep_stepPolled _
    rw [hstep] at hlt
    exact cfgCtx_stepPolled (s := { before calls i with curStep := (before calls i).curStep + 1, cfgCtx := some cfg })
      rfl hlt
  | succ j hij ih =>
    have hle : (before calls j).curStep ≤ (before calls (j + 1)).curStep := curStep_mono calls (Nat.le_succ j)
    have hwaits := ih (by omega) fun k cfg' hik hkj => hlater k cfg' hik (by omega)
    cases hcall : calls[j]? with
    | some call =>
      rw [before_succ hcall] at hlt ⊢
      refine cfgCtx_next hwaits hlt (hsound j call hcall) ?_
      rintro cfg' rfl
      exact hlater j cfg' hij (Nat.lt_succ_self j) hcall
    | none =>
      have htake : before calls (j + 1) = before calls j := by
        unfold before
        rw [List.take_add_one, hcall, Option.toList_none, List.append_nil]
      rw [htake]
      exact hwaits

theorem begins_of_allSound (hsound : AllSound calls) : Begins calls := by
  intro i j cfg poll hij hdeliver hstep hearly hdue hlater hstopped
  have hnone : (before calls j).prof = none := (inv_before hsound j).prof_eq_none hstopped
  -- The config waits when the step comes, or comes with it.
  have hwaits : (before calls j).waiting poll = some cfg := by
    rcases hij.lt_or_eq with hlt | rfl
    · have hcfg := cfgCtx_before hsound hlt hdeliver (by omega) fun k cfg' hik hkj => hlater k cfg' hik hkj.le
      cases poll with
      | nothing | raises => exact hcfg
      | config cfg' => exact absurd hstep (hlater j cfg' hlt le_rfl)
    · rw [hstep] at hdeliver
      obtain rfl : poll = .config cfg := by simpa using hdeliver
      rfl
  rw [before_succ hstep]
  have hdue' : (((before calls j).curStep + 1 : ℕ) : ℤ) = cfg.startStep := (Nat.cast_succ _).trans hdue
  cases poll with
  | raises => exact absurd hdue.symm ((hsound j _ hstep).2 cfg hwaits)
  | nothing =>
    exact profs_stepPolled (s := { before calls j with curStep := (before calls j).curStep + 1 }) hnone hwaits hdue'
  | config cfg' =>
    exact profs_stepPolled
      (s := { before calls j with curStep := (before calls j).curStep + 1, cfgCtx := some cfg' }) hnone hwaits hdue'

/-- Profiles are started, stepped and stopped as they should be, as long as `start` does not come while a config
waits. -/
theorem obeys_of_allSound (calls : List DynamicCall) (hsound : AllSound calls) : Obeys calls :=
  ⟨fun n => (inv_before hsound n).managed, begins_of_allSound hsound⟩

theorem roundsRight_of_le (h : cfg.warmup + cfg.active ≤ 2 ^ 53) : RoundsRight cfg := by
  intro step _
  apply Schedule.roundsRight_of_le
  rw [ConfigContext.repeats_schedule, ConfigContext.numSteps_schedule, Nat.one_mul]
  exact h

/-- A config that waits for its step, and a call of `start` when its profile is over. -/
def orderlyCalls : List DynamicCall :=
  [.step (.config ⟨some 1, some 1, some 2⟩), .step .nothing, .step .nothing, .step .nothing, .start (some {}),
    .step .nothing]

theorem obeys_orderlyCalls : Obeys orderlyCalls := by
  apply obeys_of_allSound
  intro i call hcall
  have hsmall : RoundsRight ⟨some 1, some 1, some 2⟩ ∧ RoundsRight {} :=
    ⟨roundsRight_of_le (by decide), roundsRight_of_le (by decide)⟩
  match i with
  | 0 | 1 =>
    cases hcall
    intro _ cfg hcfg _
    cases hcfg
    exact hsmall.1
  | 2 | 3 =>
    cases hcall
    intro _ cfg hcfg _
    cases hcfg
  | 4 =>
    cases hcall
    intro _
    refine ⟨fun cfg hcfg => ?_, hsmall.2⟩
    cases hcfg
  | 5 =>
    cases hcall
    intro _ cfg hcfg _
    cases hcfg
  | i + 6 => cases hcall

/-- `start` takes the place of a config that waits for step 4. -/
def lostConfig : List DynamicCall :=
  [.step (.config ⟨some 1, some 0, some 4⟩), .start (some {}), .step .nothing, .step .nothing, .step .nothing]

theorem not_obeys_lostConfig : ¬∀ calls, Obeys calls := by
  intro h
  have hbegins := (h lostConfig).2 0 4 ⟨some 1, some 0, some 4⟩ .nothing (by decide) rfl rfl (by decide) (by decide)
  have hlater : ∀ k cfg', 0 < k → k ≤ 4 → lostConfig[k]? ≠ some (.step (.config cfg')) := by
    intro k cfg' hpos hle
    interval_cases k <;> simp [lostConfig]
  have hstopped : ∀ prof ∈ (before lostConfig 4).profs, prof.profile.stopped := by
    have hprofs : (before lostConfig 4).profs = [⟨{}, 1, [.start, .step, .stop]⟩] := by decide
    intro prof hmem
    rw [hprofs, List.mem_singleton] at hmem
    rw [hmem]
    rfl
  have hprofs := hbegins hlater hstopped
  revert hprofs
  decide

end DynamicProfiler

end TorchNpu.Profiler
