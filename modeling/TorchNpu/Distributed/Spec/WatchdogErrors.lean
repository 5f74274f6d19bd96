/-
  What `workEnqueue` throws has been raised before.

  Where setting the device fails, the test for FORCE STOP is the other way round than in the two queries, so that a
  message without it makes `workEnqueue` throw FORCE STOP.  And an error that a thread has found may have been thrown
  by another one, or cleared, by the time that it is taken.
-/
import TorchNpu.Distributed.WatchdogErrors

namespace TorchNpu.Distributed.WatchdogErrors

/-! ### Classifying messages -/

/-- A device error if there is one in the message, else FORCE STOP if that is in it. -/
def classify (s : State) (exceptionMsg : Text) : State :=
  if getDeviceError exceptionMsg ≠ [] then { s with deviceErrorMsg := getDeviceError exceptionMsg }
  else if finds exceptionMsg forceStop then { s with forceStopErrorFlag := true }
  else s

/-- The message of the exception that is raised. -/
def raisedMsg : Label → Option Text
  | .setDevice raised => raised
  | .queryStart _ (.raised exceptionMsg) => some exceptionMsg
  | .queryEnd true (.raised exceptionMsg) => some exceptionMsg
  | _ => none

def Alike (l : Label) : Prop :=
  ∀ exceptionMsg ∈ raisedMsg l, ∀ s, ∀ s' ∈ step s l, s' = classify s exceptionMsg

theorem catchQuery_fst (s : State) (exceptionMsg : Text) (throws : Bool) :
    (catchQuery s exceptionMsg throws).1 = classify s exceptionMsg := by
  unfold catchQuery classify
  by_cases hdevice : getDeviceError exceptionMsg = []
  · by_cases hstop : finds exceptionMsg forceStop
    · simp [hdevice, hstop]
    · simp only [hdevice, hstop, List.isEmpty_nil, Bool.not_true, Bool.false_eq_true, ↓reduceIte, ne_eq,
        not_true_eq_false]
      split <;> rfl
  · simp [hdevice]

/-- The message has a device error and FORCE STOP. -/
def HasBoth (exceptionMsg : Text) : Prop :=
  getDeviceError exceptionMsg ≠ [] ∧ finds exceptionMsg forceStop

theorem catchSetDevice_eq_classify_iff (exceptionMsg : Text) :
    (∀ s, s.needSetDevice → catchSetDevice s exceptionMsg = classify s exceptionMsg) ↔ HasBoth exceptionMsg := by
  constructor
  · intro h
    have hflag : (catchSetDevice {} exceptionMsg).forceStopErrorFlag = (classify {} exceptionMsg).forceStopErrorFlag :=
      congrArg State.forceStopErrorFlag (h {} rfl)
    unfold catchSetDevice classify at hflag
    by_cases hdevice : getDeviceError exceptionMsg = [] <;> by_cases hstop : finds exceptionMsg forceStop <;>
      simp_all [HasBoth]
  · rintro ⟨hdevice, hstop⟩ s -
    simp [catchSetDevice, classify, hdevice, hstop]

/-- A message is classified as everywhere else exactly when it is not raised by setting the device, or has a device
error and FORCE STOP. -/
theorem alike_iff {l : Label} :
    Alike l ↔ ∀ exceptionMsg, l = .setDevice (some exceptionMsg) → HasBoth exceptionMsg := by
  cases l with
  | setDevice raised =>
    simp only [Alike, raisedMsg, Label.setDevice.injEq, Option.mem_def, step, Option.ite_none_right_eq_some]
    refine forall₂_congr fun exceptionMsg hraised => ?_
    rw [← catchSetDevice_eq_classify_iff, hraised]
    simp
  | queryStart shouldTearDown queried =>
    refine iff_of_true ?_ (by simp)
    cases queried with
    | events ready => simp [Alike, raisedMsg]
    | raised exceptionMsg => simp [Alike, raisedMsg, step, startedNPUExecutionInternal, catchQuery_fst]
  | queryEnd initFlag queried =>
    refine iff_of_true ?_ (by simp)
    cases queried <;> cases initFlag <;>
      simp [Alike, raisedMsg, step, finishedNPUExecutionInternal, catchQuery_fst]
  | workEnqueue u => simp [Alike, raisedMsg]
  | setWatchdogStatus u status => simp [Alike, raisedMsg]
  | proceed u => simp [Alike, raisedMsg]

/-! ### What has been raised -/

/-- The state with the messages that have been raised since `force_stop_error_flag` and `device_error_msg` were last
cleared: by throwing what they say, or by `setWatchdogStatus`. -/
structure Observed where
  state : State := {}
  stopMsgs : List Text := []
  errorMsgs : List Text := []

def clearsDeviceError (s : State) : Label → Bool
  | .proceed u => s.phase u = .foundDeviceError ∨ s.phase u = .clearsDeviceError
  | _ => false

def clearsForceStop (s : State) : Label → Bool
  | .proceed u => s.phase u = .foundForceStop ∨ s.phase u = .clearsForceStop
  | _ => false

def Observed.next (o : Observed) (l : Label) (s : State) : Observed where
  state := s
  stopMsgs := if clearsForceStop o.state l then [] else (raisedMsg l).toList ++ o.stopMsgs
  errorMsgs := if clearsDeviceError o.state l then [] else (raisedMsg l).toList ++ o.errorMsgs

def Observed.step (o : Observed) (l : Label) : Option Observed :=
  (WatchdogErrors.step o.state l).map (o.next l)

/-- What is thrown in a step of `workEnqueue`. -/
def thrown (s : State) : Label → Option Thrown
  | .proceed u => (proceed s u).bind Prod.snd
  | _ => none

/-- There is a message to be told of. -/
def Owed (o : Observed) : Thrown → Prop
  | .deviceError errorMsg => ∃ exceptionMsg ∈ o.errorMsgs, getDeviceError exceptionMsg ≠ [] ∧
      errorMsg = getDeviceError exceptionMsg ++ " happened with workEnqueue.".toList
  | .forceStop => ∃ exceptionMsg ∈ o.stopMsgs, finds exceptionMsg forceStop

/-- What is thrown is owed, and is not any more from then on; every message is classified alike. -/
structure Reported (o : Observed) (l : Label) : Prop where
  owed : ∀ e ∈ thrown o.state l, Owed o e
  alike : Alike l

/-- A message that setting the device raises has a device error and FORCE STOP, and an error that a thread has found is
still there when it is taken. -/
def Undisturbed (s : State) : Label → Prop
  | .setDevice (some exceptionMsg) => HasBoth exceptionMsg
  | .proceed u =>
    (s.phase u = .foundDeviceError → s.deviceErrorMsg ≠ []) ∧ (s.phase u = .foundForceStop → s.forceStopErrorFlag)
  | _ => True

instance (s : State) : (l : Label) → Decidable (Undisturbed s l)
  | .setDevice (some _) => inferInstanceAs (Decidable (_ ∧ _))
  | .proceed _ => inferInstanceAs (Decidable (_ ∧ _))
  | .setDevice none => isTrue trivial
  | .queryStart .. => isTrue trivial
  | .queryEnd .. => isTrue trivial
  | .workEnqueue _ => isTrue trivial
  | .setWatchdogStatus .. => isTrue trivial

/-- The variables say what has been raised. -/
structure Tells (o : Observed) : Prop where
  device : o.state.deviceErrorMsg ≠ [] →
    ∃ exceptionMsg ∈ o.errorMsgs, getDeviceError exceptionMsg = o.state.deviceErrorMsg
  stop : o.state.forceStopErrorFlag → ∃ exceptionMsg ∈ o.stopMsgs, finds exceptionMsg forceStop

@[simp] theorem deviceErrorMsg_enter (s : State) (u : ℕ) (phase : Phase) :
    (s.enter u phase).deviceErrorMsg = s.deviceErrorMsg := rfl

@[simp] theorem forceStopErrorFlag_enter (s : State) (u : ℕ) (phase : Phase) :
    (s.enter u phase).forceStopErrorFlag = s.forceStopErrorFlag := rfl

theorem tells_classify {o : Observed} (h : Tells o) (exceptionMsg : Text) :
    Tells ⟨classify o.state exceptionMsg, exceptionMsg :: o.stopMsgs, exceptionMsg :: o.errorMsgs⟩ := by
  unfold classify
  by_cases hdevice : getDeviceError exceptionMsg = []
  · by_cases hstop : finds exceptionMsg forceStop
    · simp only [hdevice, hstop, ne_eq, not_true_eq_false, ↓reduceIte]
      constructor
      · intro hmsg
        obtain ⟨seen, hseen, heq⟩ := h.device hmsg
        exact ⟨seen, List.mem_cons_of_mem _ hseen, heq⟩
      · intro _
        exact ⟨exceptionMsg, List.mem_cons_self, hstop⟩
    · simp only [hdevice, hstop, ne_eq, not_true_eq_false, ↓reduceIte, Bool.false_eq_true]
      constructor
      · intro hmsg
        obtain ⟨seen, hseen, heq⟩ := h.device hmsg
        exact ⟨seen, List.mem_cons_of_mem _ hseen, heq⟩
      · intro hflag
        obtain ⟨seen, hseen, hfinds⟩ := h.stop hflag
        exact ⟨seen, List.mem_cons_of_mem _ hseen, hfinds⟩
  · simp only [hdevice, ne_eq, not_false_eq_true, ↓reduceIte]
    constructor
    · intro _
      exact ⟨exceptionMsg, List.mem_cons_self, rfl⟩
    · intro hflag
      obtain ⟨seen, hseen, hfinds⟩ := h.stop hflag
      exact ⟨seen, List.mem_cons_of_mem _ hseen, hfinds⟩

/-- A step without a message only clears the variables, each together with its messages. -/
theorem tells_next_of_raisedMsg_eq_none {o : Observed} {l : Label} {s : State} (h : Tells o)
    (hraised : raisedMsg l = none) (hs : step o.state l = some s) : Tells (o.next l s) := by
  have hsame : s.deviceErrorMsg = o.state.deviceErrorMsg → s.forceStopErrorFlag = o.state.forceStopErrorFlag →
      (∀ u, l ≠ .proceed u) → Tells (o.next l s) := by
    intro hdevice hstop hl
    have hstops : clearsForceStop o.state l = false := by
      cases l <;> first | rfl | exact absurd rfl (hl _)
    have herrors : clearsDeviceError o.state l = false := by
      cases l <;> first | rfl | exact absurd rfl (hl _)
    constructor <;> simp only [Observed.next, hraised, hstops, herrors, hdevice, hstop, Option.toList_none,
      List.nil_append, Bool.false_eq_true, ↓reduceIte]
    · exact h.device
    · exact h.stop
  cases l with
  | setDevice raised =>
    obtain rfl : raised = none := hraised
    rw [step, Option.ite_none_right_eq_some] at hs
    obtain ⟨-, hs⟩ := hs
    cases hs
    exact hsame rfl rfl (by simp)
  | queryStart shouldTearDown queried =>
    cases queried with
    | events ready =>
      cases hs
      exact hsame rfl rfl (by simp)
    | raised exceptionMsg => simp [raisedMsg] at hraised
  | queryEnd initFlag queried =>
    cases initFlag with
    | false =>
      cases hs
      exact hsame rfl rfl (by simp)
    | true =>
      cases queried with
      | events ready =>
        cases hs
        exact hsame rfl rfl (by simp)
      | raised exceptionMsg => simp [raisedMsg] at hraised
  | workEnqueue u =>
    rw [step, Option.ite_none_right_eq_some] at hs
    obtain ⟨-, hs⟩ := hs
    cases hs
    exact hsame rfl rfl (by simp)
  | setWatchdogStatus u status =>
    rw [step, Option.ite_none_right_eq_some] at hs
    obtain ⟨-, hs⟩ := hs
    cases hs
    exact hsame rfl rfl (by simp)
  | proceed u =>
    rw [step, proceed] at hs
    cases hphase : o.state.phase u with
    | outside => simp [hphase] at hs
    | foundNoDeviceError =>
      simp only [hphase, Option.map_some, Option.some.injEq] at hs
      subst hs
      constructor <;> simp [Observed.next, raisedMsg, clearsDeviceError, clearsForceStop, hphase]
      · exact h.device
      · exact h.stop
    | foundDeviceError | clearsDeviceError =>
      simp only [hphase, Option.map_some, Option.some.injEq] at hs
      subst hs
      constructor <;> simp [Observed.next, raisedMsg, clearsDeviceError, clearsForceStop, hphase]
      exact h.stop
    | foundForceStop | clearsForceStop =>
      simp only [hphase, Option.map_some, Option.some.injEq] at hs
      subst hs
      constructor <;> simp [Observed.next, raisedMsg, clearsDeviceError, clearsForceStop, hphase]
      exact h.device

theorem alike_of_undisturbed {s : State} {l : Label} (h : Undisturbed s l) : Alike l := by
  apply alike_iff.mpr
  rintro exceptionMsg rfl
  exact h

theorem tells_next {o : Observed} {l : Label} {s : State} (h : Tells o) (hundisturbed : Undisturbed o.state l)
    (hs : step o.state l = some s) : Tells (o.next l s) := by
  cases hraised : raisedMsg l with
  | none => exact tells_next_of_raisedMsg_eq_none h hraised hs
  | some exceptionMsg =>
    obtain rfl := alike_of_undisturbed hundisturbed exceptionMsg hraised o.state s hs
    have hstops : clearsForceStop o.state l = false := by
      cases l <;> first | rfl | simp [raisedMsg] at hraised
    have herrors : clearsDeviceError o.state l = false := by
      cases l <;> first | rfl | simp [raisedMsg] at hraised
    rw [Observed.next, hstops, herrors, hraised]
    exact tells_classify h exceptionMsg

theorem owed_of_undisturbed {o : Observed} {l : Label} (h : Tells o) (hundisturbed : Undisturbed o.state l) :
    ∀ e ∈ thrown o.state l, Owed o e := by
  intro e he
  cases l with
  | proceed u =>
    obtain ⟨hdevice, hstop⟩ := hundisturbed
    rw [thrown, proceed] at he
    cases hphase : o.state.phase u with
    | foundDeviceError =>
      simp only [hphase, Option.bind_some, Option.mem_def, Option.some.injEq] at he
      subst he
      obtain ⟨seen, hseen, heq⟩ := h.device (hdevice hphase)
      refine ⟨seen, hseen, ?_, by rw [heq]⟩
      rw [heq]
      exact hdevice hphase
    | foundForceStop =>
      simp only [hphase, Option.bind_some, Option.mem_def, Option.some.injEq] at he
      subst he
      exact h.stop (hstop hphase)
    | outside | foundNoDeviceError | clearsDeviceError | clearsForceStop => simp [hphase] at he
  | setDevice | queryStart | queryEnd | workEnqueue | setWatchdogStatus => simp [thrown] at he

theorem guarded_reported {ls : List Label} {o : Observed} (h : Tells o)
    (hguard : Machine.Guarded step Undisturbed o.state ls) : Machine.Guarded Observed.step Reported o ls := by
  induction ls generalizing o with
  | nil => exact trivial
  | cons l ls ih =>
    obtain ⟨hundisturbed, hguard⟩ := hguard
    refine ⟨⟨owed_of_undisturbed h hundisturbed, alike_of_undisturbed hundisturbed⟩, fun o' ho' => ?_⟩
    obtain ⟨s, hs, rfl⟩ := Option.map_eq_some_iff.mp ho'
    exact ih (tells_next h hundisturbed hs) (hguard s hs)

/-- Both errors are raised, and `workEnqueue` throws one after the other. -/
def bothErrors : List Label :=
  [.setDevice (some "HCCS LINK ERROR, FORCE STOP".toList), .queryEnd true (.raised "FORCE STOP".toList),
    .workEnqueue 0, .proceed 0, .workEnqueue 0, .proceed 0, .proceed 0]

/-- Setting the device fails, and `workEnqueue` throws FORCE STOP. -/
def unset : List Label :=
  [.setDevice (some "invalid device id".toList), .workEnqueue 0, .proceed 0, .proceed 0]

end TorchNpu.Distributed.WatchdogErrors
