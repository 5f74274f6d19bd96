/-
  Which steps are profiled, and when a trace is ready.

  The steps of a cycle are counted right; it is the number of cycles that is compared as a float, so that with very
  many steps the last ones of the last cycle are lost.  `Recorder` follows the calls of the backend and knows nothing
  of the schedule.
-/
import TorchNpu.Profiler.ActionController

namespace TorchNpu.Profiler

/-! ### What the backend records -/

/-- The steps that a trace covers: those of the one that is being taken or that was taken last, and those of every
trace that was ready. -/
structure Recorder where
  tracing : Bool := false
  trace : List ℕ := []
  ready : List (List ℕ) := []

def Recorder.call (r : Recorder) : BackendCall → Recorder
  | .startTrace => { r with tracing := true, trace := [] }
  | .stopTrace => { r with tracing := false }
  | .onTraceReady => { r with ready := r.ready ++ [r.trace] }
  | _ => r

def Recorder.calls (r : Recorder) (calls : List BackendCall) : Recorder :=
  calls.foldl Recorder.call r

/-- The step after some calls. -/
def Recorder.during (r : Recorder) (step : ℕ) : Recorder :=
  if r.tracing then { r with trace := r.trace ++ [step] } else r

namespace Schedule

variable (sch : Schedule)

/-- What is recorded up to a step. -/
def recorder : ℕ → Recorder
  | 0 => (Recorder.calls {} (sch.afterSteps 0).backendCalls).during 0
  | n + 1 =>
    let calls := (sch.afterSteps (n + 1)).backendCalls.drop (sch.afterSteps n).backendCalls.length
    ((recorder n).calls calls).during (n + 1)

/-- What is recorded if `stop` is called in a step. -/
def stopped (n : ℕ) : Recorder :=
  (sch.recorder n).calls ((sch.afterSteps n).stop.backendCalls.drop (sch.afterSteps n).backendCalls.length)

/-! ### What is to be recorded -/

/-- There is a cycle `k`. -/
def HasCycle (k : ℕ) : Prop :=
  0 < sch.repeats → k < sch.repeats

instance (k : ℕ) : Decidable (sch.HasCycle k) :=
  inferInstanceAs (Decidable (_ → _))

/-- The first active step of cycle `k`. -/
def firstActive (k : ℕ) : ℕ :=
  sch.skipFirst + k * sch.numSteps + sch.wait + sch.warmup

def IsActive (step : ℕ) : Prop :=
  ∃ k j, sch.HasCycle k ∧ j < sch.active ∧ step = sch.firstActive k + j

/-- The cycles whose last active step is before `step`. -/
def cyclesBefore (step : ℕ) : List ℕ :=
  (List.range step).filter fun k => sch.HasCycle k ∧ sch.firstActive k + (sch.active - 1) < step

def activeSteps (k : ℕ) : List ℕ :=
  List.range' (sch.firstActive k) sch.active

/-- In the `n`-th step after `start`, the steps that are traced are the active ones, `on_trace_ready` has been called
once for each cycle that is over, with its active steps, and `stop` would call it once more in an active step only. -/
structure Counted (n : ℕ) : Prop where
  tracing : ∀ i ≤ n, (sch.recorder i).tracing ↔ sch.IsActive i
  calls : (sch.afterSteps n).backendCalls.count .onTraceReady = (sch.cyclesBefore n).length
  ready : (sch.recorder n).ready = (sch.cyclesBefore n).map sch.activeSteps
  stop_of_active : sch.IsActive n → ∃ trace, (sch.stopped n).ready = (sch.recorder n).ready ++ [trace]
  stop_of_not_active : ¬sch.IsActive n → (sch.stopped n).ready = (sch.recorder n).ready

/-- Comparing floats counts the cycles right for this step: it is not before the cycles or its place is not an active
one, or the rounded quotient is as large as `repeat` only if the cycles are over; and where the quotient is too large,
they were over in the step before. -/
def RoundsRight (step : ℕ) : Prop :=
  0 < sch.repeats → sch.skipFirst ≤ step →
    match BinaryFloat.binary64.trueDivide (step - sch.skipFirst) sch.numSteps with
    | some quotient => sch.wait + sch.warmup ≤ (step - sch.skipFirst) % sch.numSteps →
        ((sch.repeats : ℚ) ≤ quotient ↔ sch.repeats * sch.numSteps ≤ step - sch.skipFirst)
    | none => sch.repeats * sch.numSteps < step - sch.skipFirst

theorem checkParam_of_le {name : String} {least value : ℕ} (h : least ≤ value) :
    checkParam name least (some (value : ℤ)) = (value, []) := by
  simp [checkParam, Option.filter, h]

/-- `_check_params` leaves the arguments of a schedule as they are. -/
theorem init_self : (init (some sch.wait) (some sch.active) (some sch.warmup) (some sch.repeats)
    (some sch.skipFirst)).1 = sch := by
  have := sch.active_pos
  simp [init, checkParam_of_le, Nat.one_le_iff_ne_zero, this.ne']

/-! ### Places in cycles -/

variable {sch} {k m n : ℕ}

theorem numSteps_pos : 0 < sch.numSteps := by
  have := sch.active_pos
  unfold numSteps
  omega

theorem exists_place (h : sch.skipFirst ≤ n) :
    ∃ k m, m < sch.numSteps ∧ n = sch.skipFirst + k * sch.numSteps + m := by
  refine ⟨(n - sch.skipFirst) / sch.numSteps, (n - sch.skipFirst) % sch.numSteps, Nat.mod_lt _ numSteps_pos, ?_⟩
  have hdiv := Nat.div_add_mod' (n - sch.skipFirst) sch.numSteps
  omega

theorem sub_skipFirst : sch.skipFirst + k * sch.numSteps + m - sch.skipFirst = k * sch.numSteps + m := by
  omega

theorem place_mod (hm : m < sch.numSteps) : (k * sch.numSteps + m) % sch.numSteps = m := by
  rw [Nat.mul_add_mod', Nat.mod_eq_of_lt hm]

theorem place_div (hm : m < sch.numSteps) : (k * sch.numSteps + m) / sch.numSteps = k := by
  rw [Nat.add_comm, Nat.add_mul_div_right _ _ numSteps_pos, Nat.div_eq_of_lt hm, Nat.zero_add]

theorem place_inj {k' m' : ℕ} (hm : m < sch.numSteps) (hm' : m' < sch.numSteps)
    (h : k * sch.numSteps + m = k' * sch.numSteps + m') : k = k' ∧ m = m' := by
  have hdiv := congrArg (· / sch.numSteps) h
  have hmod := congrArg (· % sch.numSteps) h
  simp only [place_div hm, place_div hm', place_mod hm, place_mod hm'] at hdiv hmod
  exact ⟨hdiv, hmod⟩

/-- The step is an active one if there is the cycle and the place in it is active. -/
theorem isActive_place (hm : m < sch.numSteps) :
    sch.IsActive (sch.skipFirst + k * sch.numSteps + m) ↔ sch.HasCycle k ∧ sch.wait + sch.warmup ≤ m := by
  constructor
  · rintro ⟨k', j, hcycle, hj, heq⟩
    have hplace : sch.wait + sch.warmup + j < sch.numSteps := by
      unfold numSteps
      omega
    unfold firstActive at heq
    obtain ⟨rfl, rfl⟩ := place_inj hm hplace (by omega : k * sch.numSteps + m = k' * sch.numSteps + _)
    exact ⟨hcycle, by omega⟩
  · rintro ⟨hcycle, hle⟩
    refine ⟨k, m - (sch.wait + sch.warmup), hcycle, ?_, ?_⟩
    · unfold numSteps at hm
      omega
    · unfold firstActive
      omega

theorem le_of_isActive (h : sch.IsActive n) : sch.skipFirst ≤ n := by
  obtain ⟨k, j, -, -, rfl⟩ := h
  unfold firstActive
  omega

/-- No step is active when the cycles are over. -/
theorem not_isActive_of_over (hrepeats : 0 < sch.repeats)
    (h : sch.repeats * sch.numSteps ≤ n - sch.skipFirst) : ¬sch.IsActive n := by
  intro hactive
  obtain ⟨k, m, hm, rfl⟩ := exists_place (le_of_isActive hactive)
  rw [sub_skipFirst] at h
  have hk : k < sch.repeats := ((isActive_place hm).mp hactive).1 hrepeats
  have hle : (k + 1) * sch.numSteps ≤ sch.repeats * sch.numSteps := Nat.mul_le_mul_right _ hk
  rw [Nat.succ_mul] at hle
  omega

/-- The step is the last of a cycle. -/
def IsLast (sch : Schedule) (step : ℕ) : Prop :=
  ∃ k, sch.HasCycle k ∧ step = sch.skipFirst + k * sch.numSteps + (sch.numSteps - 1)

theorem isLast_place (hm : m < sch.numSteps) :
    sch.IsLast (sch.skipFirst + k * sch.numSteps + m) ↔ sch.HasCycle k ∧ m = sch.numSteps - 1 := by
  constructor
  · rintro ⟨k', hcycle, heq⟩
    have hlast : sch.numSteps - 1 < sch.numSteps := Nat.sub_one_lt numSteps_pos.ne'
    obtain ⟨rfl, rfl⟩ := place_inj hm hlast (by omega : k * sch.numSteps + m = k' * sch.numSteps + _)
    exact ⟨hcycle, rfl⟩
  · rintro ⟨hcycle, rfl⟩
    exact ⟨k, hcycle, rfl⟩

theorem IsLast.isActive (h : sch.IsLast n) : sch.IsActive n := by
  obtain ⟨k, hcycle, rfl⟩ := h
  have := sch.active_pos
  apply (isActive_place (Nat.sub_one_lt numSteps_pos.ne')).mpr
  refine ⟨hcycle, ?_⟩
  unfold numSteps
  omega

/-! ### Cycles that are over -/

/-- How many cycles are over before a step. -/
def cycleCount (sch : Schedule) (step : ℕ) : ℕ :=
  if 0 < sch.repeats then min sch.repeats ((step - sch.skipFirst) / sch.numSteps)
  else (step - sch.skipFirst) / sch.numSteps

theorem lt_cycleCount_iff {step : ℕ} :
    k < sch.cycleCount step ↔ sch.HasCycle k ∧ sch.firstActive k + (sch.active - 1) < step := by
  have hlast : sch.firstActive k + (sch.active - 1) < step ↔ k < (step - sch.skipFirst) / sch.numSteps := by
    rw [Nat.lt_iff_add_one_le, Nat.lt_iff_add_one_le, Nat.le_div_iff_mul_le numSteps_pos, Nat.succ_mul]
    have := sch.active_pos
    have hsteps : sch.numSteps = sch.wait + sch.warmup + sch.active := rfl
    unfold firstActive
    omega
  rw [hlast, cycleCount, HasCycle]
  split_ifs with hrepeats
  · simp [hrepeats]
  · simp [hrepeats]

theorem cycleCount_le (step : ℕ) : sch.cycleCount step ≤ step := by
  have hdiv : (step - sch.skipFirst) / sch.numSteps ≤ step := (Nat.div_le_self _ _).trans (Nat.sub_le _ _)
  unfold cycleCount
  split_ifs <;> omega

theorem cyclesBefore_eq_range (step : ℕ) : sch.cyclesBefore step = List.range (sch.cycleCount step) := by
  obtain ⟨rest, hrest⟩ := Nat.exists_eq_add_of_le (sch.cycleCount_le step)
  simp only [cyclesBefore, ← lt_cycleCount_iff]
  rw [congrArg List.range hrest, List.range_add, List.filter_append]
  have hbefore : (List.range (sch.cycleCount step)).filter (fun k => k < sch.cycleCount step) =
      List.range (sch.cycleCount step) :=
    List.filter_eq_self.mpr fun k hk => by simpa using hk
  have hafter : ((List.range rest).map (sch.cycleCount step + ·)).filter (fun k => k < sch.cycleCount step) = [] := by
    simp [List.filter_eq_nil_iff]
  rw [hbefore, hafter, List.append_nil]

theorem cycleCount_place (hm : m < sch.numSteps) : sch.cycleCount (sch.skipFirst + k * sch.numSteps + m) =
    if 0 < sch.repeats then min sch.repeats k else k := by
  rw [cycleCount, sub_skipFirst, place_div hm]

theorem cyclesBefore_succ_of_hasCycle (hcycle : sch.HasCycle k)
    (h : n = sch.skipFirst + k * sch.numSteps + (sch.numSteps - 1)) :
    sch.cyclesBefore (n + 1) = sch.cyclesBefore n ++ [k] := by
  have hpos : 0 < sch.numSteps := numSteps_pos
  have hnext : n + 1 = sch.skipFirst + (k + 1) * sch.numSteps + 0 := by
    rw [Nat.succ_mul]
    omega
  have hcount : sch.cycleCount n = k := by
    rw [h, cycleCount_place (Nat.sub_one_lt hpos.ne')]
    split_ifs with hrepeats
    · exact Nat.min_eq_right (hcycle hrepeats).le
    · rfl
  have hcountNext : sch.cycleCount (n + 1) = k + 1 := by
    rw [hnext, cycleCount_place hpos]
    split_ifs with hrepeats
    · exact Nat.min_eq_right (hcycle hrepeats)
    · rfl
  rw [cyclesBefore_eq_range, cyclesBefore_eq_range, hcount, hcountNext, List.range_succ]

theorem cyclesBefore_succ_of_not_isLast (h : ¬sch.IsLast n) : sch.cyclesBefore (n + 1) = sch.cyclesBefore n := by
  rw [cyclesBefore_eq_range, cyclesBefore_eq_range]
  congr 1
  rcases Nat.lt_or_ge n sch.skipFirst with hlt | hle
  · rw [cycleCount, cycleCount, Nat.sub_eq_zero_of_le hlt, Nat.sub_eq_zero_of_le hlt.le]
  obtain ⟨k, m, hm, rfl⟩ := exists_place hle
  rcases Nat.lt_or_ge (m + 1) sch.numSteps with hnext | hlast
  · rw [Nat.add_assoc, cycleCount_place hnext, cycleCount_place hm]
  · -- The last step of a cycle that there is not.
    have hm' : m = sch.numSteps - 1 := by omega
    have hcycle : ¬sch.HasCycle k := fun hcycle => h ((isLast_place hm).mpr ⟨hcycle, hm'⟩)
    obtain ⟨hrepeats, hk⟩ : 0 < sch.repeats ∧ sch.repeats ≤ k := by simpa [HasCycle] using hcycle
    have hplace : sch.skipFirst + k * sch.numSteps + m + 1 = sch.skipFirst + (k + 1) * sch.numSteps + 0 := by
      rw [Nat.succ_mul]
      omega
    rw [hplace, cycleCount_place numSteps_pos, cycleCount_place hm, if_pos hrepeats, if_pos hrepeats,
      Nat.min_eq_left hk, Nat.min_eq_left (hk.trans (Nat.le_succ k))]

/-! ### The profiler under the schedule -/

/-- The backend is to trace during the action. -/
def Records (action : ProfilerAction) : Prop :=
  action = .record ∨ action = .recordAndSave

theorem over_place (hm : m < sch.numSteps) :
    sch.repeats * sch.numSteps ≤ k * sch.numSteps + m ↔ sch.repeats ≤ k := by
  rw [← Nat.le_div_iff_mul_le numSteps_pos, place_div hm]

theorem ended_place {ended : Bool} (hm : m < sch.numSteps)
    (hround : sch.RoundsRight (sch.skipFirst + k * sch.numSteps + m)) (hplace : sch.wait + sch.warmup ≤ m)
    (h : sch.ended (k * sch.numSteps + m) = some ended) : ended = true ↔ ¬sch.HasCycle k := by
  unfold Schedule.ended at h
  split_ifs at h with hrepeats
  · obtain ⟨quotient, hquotient, rfl⟩ := Option.map_eq_some_iff.mp h
    have hround := hround hrepeats (by omega)
    rw [sub_skipFirst, hquotient] at hround
    have hright := hround (by rwa [place_mod hm])
    rw [decide_eq_true_iff, hright, over_place hm, HasCycle]
    simp [hrepeats]
  · obtain rfl : false = ended := by simpa using h
    simp [HasCycle, hrepeats]

/-- The action of a step that is rounded right. -/
theorem call_place {action : ProfilerAction} (hm : m < sch.numSteps)
    (hround : sch.RoundsRight (sch.skipFirst + k * sch.numSteps + m))
    (h : sch.call (sch.skipFirst + k * sch.numSteps + m) = some action) :
    (Records action ↔ sch.HasCycle k ∧ sch.wait + sch.warmup ≤ m) ∧
      (action = .recordAndSave ↔ sch.HasCycle k ∧ m = sch.numSteps - 1) := by
  have hlast : sch.wait + sch.warmup ≤ sch.numSteps - 1 := by
    have := sch.active_pos
    unfold numSteps
    omega
  rw [call, if_neg (by omega), sub_skipFirst, Option.map_eq_some_iff] at h
  obtain ⟨ended, hended, haction⟩ := h
  rw [place_mod hm] at haction
  have hcycle : sch.wait + sch.warmup ≤ m → (ended = true ↔ ¬sch.HasCycle k) :=
    fun hplace => ended_place hm hround hplace hended
  cases ended with
  | true =>
    obtain rfl : ProfilerAction.none = action := haction
    simp only [Records, reduceCtorEq, or_self, false_iff, not_and]
    simp only [true_iff] at hcycle
    exact ⟨fun hk hplace => hcycle hplace hk, fun hk heq => hcycle (heq ▸ hlast) hk⟩
  | false =>
    simp only [Bool.false_eq_true, ↓reduceIte, false_iff, not_not] at haction hcycle
    split_ifs at haction with hwait hwarmup hrecord
    · subst haction
      exact ⟨by simp [Records]; omega, by simp; omega⟩
    · subst haction
      exact ⟨by simp [Records]; omega, by simp; omega⟩
    · subst haction
      have hk : sch.HasCycle k := hcycle (by omega)
      exact ⟨by simp [Records, hk]; omega, by simp; omega⟩
    · subst haction
      have hk : sch.HasCycle k := hcycle (by omega)
      exact ⟨by simp [Records, hk]; omega, by simp [hk]; omega⟩

theorem over_of_call_eq_none (hround : sch.RoundsRight n) (h : sch.call n = none) :
    0 < sch.repeats ∧ sch.repeats * sch.numSteps < n - sch.skipFirst := by
  unfold call at h
  split_ifs at h with hskip
  rw [Option.map_eq_none_iff, Schedule.ended] at h
  split_ifs at h with hrepeats
  have hround := hround hrepeats (by omega)
  rw [Option.map_eq_none_iff.mp h] at hround
  exact ⟨hrepeats, hround⟩

/-- A running profiler. -/
structure Running (sch : Schedule) (n : ℕ) (p : Profile) : Prop where
  stopped : p.stopped = false
  stepNum : p.stepNum = n
  onTraceReady : p.onTraceReady = true
  schedule : p.schedule = sch.profile.schedule

theorem running_afterSteps (n : ℕ) : sch.Running n (sch.afterSteps n) := by
  induction n with
  | zero => exact ⟨rfl, rfl, rfl, rfl⟩
  | succ n ih =>
    obtain ⟨hstopped, hnum, hready, hschedule⟩ := ih
    rw [afterSteps, step]
    split_ifs with hraised
    · exact ⟨hstopped, congrArg (· + 1) hnum, hready, hschedule⟩
    · rw [Profile.step, if_neg (by simp [hstopped])]
      exact ⟨hstopped, congrArg (· + 1) hnum, hready, hschedule⟩

/-- The calls of the backend between one step and the next. -/
def transition (sch : Schedule) (n : ℕ) : List BackendCall :=
  match sch.call (n + 1) with
  | some action => actionMap [.onTraceReady] (sch.afterSteps n).currentAction (some action)
  | none => []

theorem traceReady_afterSteps (n : ℕ) : (sch.afterSteps n).traceReady = [.onTraceReady] := by
  rw [Profile.traceReady, (running_afterSteps n).onTraceReady, if_pos rfl]

theorem afterSteps_succ (n : ℕ) :
    (sch.afterSteps (n + 1)).currentAction = (sch.call (n + 1)).getD (sch.afterSteps n).currentAction ∧
      (sch.afterSteps (n + 1)).backendCalls = (sch.afterSteps n).backendCalls ++ sch.transition n := by
  obtain ⟨hstopped, hnum, hready, hschedule⟩ : sch.Running n (sch.afterSteps n) := running_afterSteps n
  rw [afterSteps, step, hnum, transition]
  cases hcall : sch.call (n + 1) with
  | none => simp [hstopped]
  | some action =>
    have haction : (sch.afterSteps n).schedule (n + 1) = action := by
      rw [hschedule]
      simp [profile, hcall]
    rw [if_neg (by simp), Profile.step, if_neg (by simp [hstopped]), hnum, haction]
    refine ⟨rfl, ?_⟩
    show _ ++ actionMap (sch.afterSteps n).traceReady _ _ = _
    rw [traceReady_afterSteps]

theorem afterSteps_zero :
    (sch.afterSteps 0).currentAction = (sch.call 0).getD .none ∧
      (sch.afterSteps 0).backendCalls = actionMap [.onTraceReady] .none (some ((sch.call 0).getD .none)) :=
  ⟨rfl, rfl⟩

theorem call_classified {action : ProfilerAction} (hround : sch.RoundsRight n) (h : sch.call n = some action) :
    (Records action ↔ sch.IsActive n) ∧ (action = .recordAndSave ↔ sch.IsLast n) := by
  rcases Nat.lt_or_ge n sch.skipFirst with hlt | hle
  · have hactive : ¬sch.IsActive n := fun hactive => absurd (le_of_isActive hactive) (by omega)
    rw [call, if_pos hlt, Option.some_inj] at h
    subst h
    exact ⟨by simp [Records, hactive], by simp [mt IsLast.isActive hactive]⟩
  · obtain ⟨k, m, hm, rfl⟩ := exists_place hle
    rw [isActive_place hm, isLast_place hm]
    exact call_place hm hround h

/-- The current action says whether the step is active, and whether it is the last of its cycle. -/
theorem currentAction_classified (hround : ∀ i ≤ n, sch.RoundsRight i) :
    (Records (sch.afterSteps n).currentAction ↔ sch.IsActive n) ∧
      ((sch.afterSteps n).currentAction = .recordAndSave ↔ sch.IsLast n) := by
  induction n with
  | zero =>
    rw [afterSteps_zero.1]
    cases hcall : sch.call 0 with
    | some action => exact call_classified (hround 0 le_rfl) hcall
    | none =>
      have := over_of_call_eq_none (hround 0 le_rfl) hcall
      omega
  | succ n ih =>
    rw [(afterSteps_succ n).1]
    cases hcall : sch.call (n + 1) with
    | some action => exact call_classified (hround _ le_rfl) hcall
    | none =>
      -- The cycles were over in the step before, too.
      obtain ⟨hrepeats, hover⟩ := over_of_call_eq_none (hround _ le_rfl) hcall
      have hbefore : ¬sch.IsActive n := not_isActive_of_over hrepeats (by omega)
      have hafter : ¬sch.IsActive (n + 1) := not_isActive_of_over hrepeats hover.le
      obtain ⟨hrecords, hsave⟩ := ih fun i hi => hround i (by omega)
      rw [Option.getD_none, hrecords, hsave]
      exact ⟨iff_of_false hbefore hafter, iff_of_false (mt IsLast.isActive hbefore) (mt IsLast.isActive hafter)⟩

/-! ### The recorder -/

variable {r : Recorder} {before after : ProfilerAction}

theorem recorder_succ (n : ℕ) :
    sch.recorder (n + 1) = ((sch.recorder n).calls (sch.transition n)).during (n + 1) := by
  rw [recorder, (afterSteps_succ n).2, List.drop_left]

theorem ready_during (step : ℕ) : (r.during step).ready = r.ready := by
  unfold Recorder.during
  split_ifs <;> rfl

theorem tracing_during (step : ℕ) : (r.during step).tracing = r.tracing := by
  unfold Recorder.during
  split_ifs <;> rfl

theorem ready_calls_actionMap : (r.calls (actionMap [.onTraceReady] before (some after))).ready =
    r.ready ++ if before = .recordAndSave then [r.trace] else [] := by
  cases before <;> cases after <;> simp [actionMap, Recorder.calls, Recorder.call]

theorem tracing_calls_actionMap (h : r.tracing ↔ Records before) :
    (r.calls (actionMap [.onTraceReady] before (some after))).tracing ↔ Records after := by
  cases before <;> cases after <;> simp_all [actionMap, Recorder.calls, Recorder.call, Records]

/-- The trace goes on from RECORD and starts anew from every other action. -/
theorem trace_calls_actionMap (h : Records after) : (r.calls (actionMap [.onTraceReady] before (some after))).trace =
    if before = .record then r.trace else [] := by
  rcases h with rfl | rfl <;> cases before <;> simp [actionMap, Recorder.calls, Recorder.call]

theorem tracing_recorder (n : ℕ) : (sch.recorder n).tracing ↔ Records (sch.afterSteps n).currentAction := by
  induction n with
  | zero =>
    rw [recorder, tracing_during, afterSteps_zero.2, afterSteps_zero.1]
    apply tracing_calls_actionMap
    simp [Records]
  | succ n ih =>
    rw [recorder_succ, tracing_during, (afterSteps_succ n).1, transition]
    cases sch.call (n + 1) with
    | none => exact ih
    | some action => exact tracing_calls_actionMap ih

theorem length_ready_calls (calls : List BackendCall) :
    (r.calls calls).ready.length = r.ready.length + calls.count .onTraceReady := by
  induction calls generalizing r with
  | nil => rfl
  | cons call calls ih =>
    rw [Recorder.calls, List.foldl_cons]
    refine ih.trans ?_
    cases call <;> simp [Recorder.call]
    omega

theorem length_ready (n : ℕ) :
    (sch.recorder n).ready.length = (sch.afterSteps n).backendCalls.count .onTraceReady := by
  induction n with
  | zero =>
    rw [recorder, ready_during, length_ready_calls]
    exact Nat.zero_add _
  | succ n ih =>
    rw [recorder_succ, ready_during, length_ready_calls, (afterSteps_succ n).2, List.count_append, ih]

/-- The recorded steps: those of the cycles that are over, and those of this cycle so far. -/
structure Traces (sch : Schedule) (n : ℕ) : Prop where
  ready : (sch.recorder n).ready = (sch.cyclesBefore n).map sch.activeSteps
  trace : ∀ k, sch.HasCycle k → sch.firstActive k ≤ n → n < sch.firstActive k + sch.active →
    (sch.recorder n).trace = List.range' (sch.firstActive k) (n + 1 - sch.firstActive k)

theorem isActive_of_le (hcycle : sch.HasCycle k) (hle : sch.firstActive k ≤ n)
    (hlt : n < sch.firstActive k + sch.active) : sch.IsActive n :=
  ⟨k, n - sch.firstActive k, hcycle, by omega, by omega⟩

theorem trace_during_calls (hrecords : Records after) (htracing : r.tracing ↔ Records before) (step : ℕ) :
    ((r.calls (actionMap [.onTraceReady] before (some after))).during step).trace =
      (if before = .record then r.trace else []) ++ [step] := by
  rw [Recorder.during, if_pos ((tracing_calls_actionMap htracing).mpr hrecords)]
  exact congrArg (· ++ [step]) (trace_calls_actionMap hrecords)

/-- The action before an active step is RECORD exactly when this is not the first one of its cycle. -/
theorem currentAction_eq_record_iff (hround : ∀ i ≤ n, sch.RoundsRight i) (hcycle : sch.HasCycle k)
    (hle : sch.firstActive k ≤ n + 1) (hlt : n + 1 < sch.firstActive k + sch.active) :
    (sch.afterSteps n).currentAction = .record ↔ sch.firstActive k ≤ n := by
  obtain ⟨hrecords, hsave⟩ := currentAction_classified hround
  have hsteps : sch.numSteps = sch.wait + sch.warmup + sch.active := rfl
  have hfirst : sch.firstActive k = sch.skipFirst + k * sch.numSteps + (sch.wait + sch.warmup) := by
    unfold firstActive
    omega
  constructor
  · intro hrecord
    by_contra! hbefore
    have hactive : sch.IsActive n := hrecords.mp (.inl hrecord)
    have hlast : ¬sch.IsLast n := by
      rw [← hsave, hrecord]
      simp
    -- The next step would be in the same cycle, after an active place.
    obtain ⟨k', m, hm, rfl⟩ := exists_place (le_of_isActive hactive)
    rw [isActive_place hm] at hactive
    rw [isLast_place hm] at hlast
    have hm' : m ≠ sch.numSteps - 1 := fun heq => hlast ⟨hactive.1, heq⟩
    have hnext : k' * sch.numSteps + (m + 1) = k * sch.numSteps + (sch.wait + sch.warmup) := by omega
    obtain ⟨-, heq⟩ := place_inj (by omega) (by have := sch.active_pos; omega) hnext
    omega
  · intro hbefore
    have hactive : sch.IsActive n := isActive_of_le hcycle hbefore (by omega)
    have hlast : ¬sch.IsLast n := by
      have hm : sch.wait + sch.warmup + (n - sch.firstActive k) < sch.numSteps := by omega
      have hplace : n = sch.skipFirst + k * sch.numSteps + (sch.wait + sch.warmup + (n - sch.firstActive k)) := by
        omega
      rw [hplace, isLast_place hm]
      omega
    exact (hrecords.mpr hactive).resolve_right (mt hsave.mp hlast)

theorem traces (hround : ∀ i ≤ n, sch.RoundsRight i) : sch.Traces n := by
  induction n with
  | zero =>
    constructor
    · rw [recorder, ready_during, afterSteps_zero.2, ready_calls_actionMap]
      rfl
    · intro k hcycle hle hlt
      obtain ⟨hrecords, -⟩ := currentAction_classified hround
      rw [afterSteps_zero.1] at hrecords
      rw [recorder, afterSteps_zero.2, trace_during_calls (hrecords.mpr (isActive_of_le hcycle hle hlt)) (by
        simp [Records]), Nat.le_zero.mp hle]
      rfl
  | succ n ih =>
    obtain ⟨hready, htrace⟩ := ih fun i hi => hround i (by omega)
    have hroundBefore : ∀ i ≤ n, sch.RoundsRight i := fun i hi => hround i (by omega)
    obtain ⟨-, hsave⟩ := currentAction_classified hroundBefore
    obtain ⟨hrecords, -⟩ := currentAction_classified hround
    have htracing : (sch.recorder n).tracing ↔ Records (sch.afterSteps n).currentAction := tracing_recorder n
    rw [(afterSteps_succ n).1] at hrecords
    constructor <;> rw [recorder_succ, transition]
    · rw [ready_during]
      cases hcall : sch.call (n + 1) with
      | none =>
        obtain ⟨hrepeats, hover⟩ := over_of_call_eq_none (hround _ le_rfl) hcall
        have hactive : ¬sch.IsActive n := not_isActive_of_over hrepeats (by omega)
        rw [cyclesBefore_succ_of_not_isLast (mt IsLast.isActive hactive)]
        exact hready
      | some after =>
        refine ready_calls_actionMap.trans ?_
        by_cases hlast : sch.IsLast n
        · obtain ⟨k, hcycle, hn⟩ := hlast
          have hfirst : n + 1 = sch.firstActive k + sch.active := by
            have := sch.active_pos
            have hsteps : sch.numSteps = sch.wait + sch.warmup + sch.active := rfl
            unfold firstActive
            omega
          have := sch.active_pos
          rw [if_pos (hsave.mpr ⟨k, hcycle, hn⟩), hready, cyclesBefore_succ_of_hasCycle hcycle hn, List.map_append,
            List.map_singleton, activeSteps, htrace k hcycle (by omega) (by omega), hfirst, Nat.add_sub_cancel_left]
        · rw [if_neg (mt hsave.mp hlast), List.append_nil, cyclesBefore_succ_of_not_isLast hlast]
          exact hready
    · intro k hcycle hle hlt
      have hactive : sch.IsActive (n + 1) := isActive_of_le hcycle hle hlt
      cases hcall : sch.call (n + 1) with
      | none =>
        obtain ⟨hrepeats, hover⟩ := over_of_call_eq_none (hround _ le_rfl) hcall
        exact absurd hactive (not_isActive_of_over hrepeats hover.le)
      | some after =>
        rw [hcall, Option.getD_some] at hrecords
        show ((_ : Recorder).during (n + 1)).trace = _
        rw [trace_during_calls (hrecords.mpr hactive) htracing]
        simp only [currentAction_eq_record_iff hroundBefore hcycle hle hlt]
        split_ifs with hbefore
        · rw [htrace k hcycle hbefore (by omega), Nat.succ_sub (hbefore.trans (Nat.le_succ n)), List.range'_1_concat,
            Nat.add_sub_cancel' (hbefore.trans (Nat.le_succ n))]
        · have hfirst : sch.firstActive k = n + 1 := by omega
          rw [hfirst, Nat.add_sub_cancel_left]
          rfl

/-- Cycles are counted right as long as every step is rounded right. -/
theorem counted_of_roundsRight (sch : Schedule) (n : ℕ) (hround : ∀ i ≤ n, sch.RoundsRight i) : sch.Counted n := by
  obtain ⟨hrecords, -⟩ := currentAction_classified hround
  obtain ⟨hready, -⟩ := traces hround
  have hstopped : (sch.stopped n).ready =
      ((sch.recorder n).calls (actionMap [.onTraceReady] (sch.afterSteps n).currentAction none)).ready := by
    rw [stopped, Profile.stop, Profile.transitAction, traceReady_afterSteps, List.drop_left]
  refine ⟨fun i hi => ?_, ?_, hready, fun hactive => ?_, fun hactive => ?_⟩
  · rw [tracing_recorder]
    exact (currentAction_classified fun j hj => hround j (hj.trans hi)).1
  · rw [← length_ready, hready, List.length_map]
  · refine ⟨(sch.recorder n).trace, ?_⟩
    rw [hstopped]
    rcases hrecords.mpr hactive with haction | haction <;> rw [haction] <;> rfl
  · rw [hstopped]
    cases haction : (sch.afterSteps n).currentAction with
    | none | warmup => rfl
    | record | recordAndSave =>
      rw [haction] at hrecords
      exact absurd (hrecords.mp (by simp [Records])) hactive

/-- Every step is rounded right if the steps of all cycles have no more digits than a float. -/
theorem roundsRight_of_le (h : sch.repeats * sch.numSteps ≤ 2 ^ 53) (step : ℕ) : sch.RoundsRight step := by
  intro _ _
  cases hquotient : BinaryFloat.binary64.trueDivide (step - sch.skipFirst) sch.numSteps with
  | some quotient =>
    intro _
    rw [BinaryFloat.Format.trueDivide, Option.ite_none_right_eq_some] at hquotient
    obtain ⟨-, hquotient⟩ := hquotient
    rw [← Option.some_inj.mp hquotient]
    exact BinaryFloat.natCast_le_round_div_iff _ numSteps_pos h
  | none =>
    by_contra! hle
    exact BinaryFloat.trueDivide_ne_none _ numSteps_pos (hle.trans h) hquotient

theorem counted_twoCycles : Counted { wait := 1, active := 2, warmup := 1, repeats := 2, skipFirst := 1 } 9 :=
  counted_of_roundsRight _ 9 fun i _ => roundsRight_of_le (by decide) i

/-- One cycle of `2 ^ 54` steps, the last one active. -/
def lost : Schedule where
  wait := 2 ^ 54 - 1
  active := 1
  repeats := 1

theorem not_counted_lost : ¬∀ (sch : Schedule) (n : ℕ), sch.Counted n := by
  intro h
  have hactive : lost.IsActive (2 ^ 54 - 2 + 1) := ⟨0, 0, by decide, by decide, by decide +kernel⟩
  have hrecords := (tracing_recorder _).mp (((h lost (2 ^ 54 - 2 + 1)).tracing _ le_rfl).mpr hactive)
  -- The quotient is rounded to 1.
  have hcall : lost.call (2 ^ 54 - 2 + 1) = some .none := by decide +kernel
  rw [(afterSteps_succ _).1, hcall] at hrecords
  simp [Records] at hrecords

end Schedule

end TorchNpu.Profiler
