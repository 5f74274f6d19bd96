/-
  The counter of pending event queries and the works it should stand for.

  `Balanced` says that the counter is the number of works in the lists and of calls between the increment
  and the end of `workEnqueue`.  `balanced_next` finds the steps that keep it: `workEnqueue` must not throw
  or return early, and a list that is cleared must be empty.
-/
import TorchNpu.Distributed.WorkMetaLists

namespace TorchNpu.Distributed.WorkMetaLists

variable {n : ℕ} {s s' : WorkMetaLists n} {group : Fin n} {call : Call n} {visit : Visit}

/-! ### The works to be counted -/

/-- The number of works in all lists and of calls in progress. -/
def tracked (s : WorkMetaLists n) : ℕ :=
  ∑ group, (s.workMetaList group).length + s.calls.length

/-- A list that no watchdog visits any more is empty. -/
def Attended (s : WorkMetaLists n) : Prop :=
  ∀ group, s.watchdog group = .exited → s.workMetaList group = []

/-- The counter counts what it should; `capture_begin` gets past its loop where there is nothing to wait
for, and waits for no work that is not going to be visited; no decrement has found the counter at 0. -/
structure Balanced (s : WorkMetaLists n) : Prop where
  counted : s.pendingEventQueries = ∑ group, (s.workMetaList group).length + s.calls.length
  released : (∀ group, s.workMetaList group = []) → s.calls = [] → s.pendingEventQueries = 0
  attended : s.Attended
  positive : s.underflow = false

theorem balanced_iff :
    s.Balanced ↔ s.pendingEventQueries = s.tracked ∧ s.Attended ∧ s.underflow = false := by
  constructor
  · rintro ⟨hcounted, -, hattended, hpositive⟩
    exact ⟨hcounted, hattended, hpositive⟩
  · rintro ⟨hcounted, hattended, hpositive⟩
    refine ⟨hcounted, fun hlists hcalls => ?_, hattended, hpositive⟩
    rw [hcounted, tracked, hcalls, List.length_nil, Nat.add_zero]
    refine Finset.sum_eq_zero fun group _ => ?_
    rw [hlists group, List.length_nil]

theorem tracked_setList (group : Fin n) (works : List ℕ) :
    (s.setList group works).tracked + (s.workMetaList group).length = s.tracked + works.length := by
  have hsum : ∑ g, (Function.update s.workMetaList group works g).length +
      (s.workMetaList group).length = ∑ g, (s.workMetaList g).length + works.length := by
    rw [← Finset.add_sum_erase _ _ (Finset.mem_univ group),
      ← Finset.add_sum_erase _ (fun g => (s.workMetaList g).length) (Finset.mem_univ group),
      Function.update_self]
    have hrest : ∑ g ∈ Finset.univ.erase group,
        (Function.update s.workMetaList group works g).length =
          ∑ g ∈ Finset.univ.erase group, (s.workMetaList g).length := by
      refine Finset.sum_congr rfl fun g hg => ?_
      rw [Function.update_of_ne (Finset.ne_of_mem_erase hg)]
    omega
  simp only [tracked, setList]
  omega

theorem tracked_finish (hcall : call ∈ s.calls) : (s.finish call).tracked + 1 = s.tracked := by
  have hlength : (s.calls.erase call).length + 1 = s.calls.length := by
    rw [List.length_erase_of_mem hcall, Nat.sub_add_cancel (List.length_pos_of_mem hcall)]
  simp only [tracked, finish]
  omega

theorem tracked_goTo (pc : CallPc) (hcall : call ∈ s.calls) : (s.goTo call pc).tracked = s.tracked := by
  have hfinish := tracked_finish hcall
  simp only [tracked, finish, goTo, List.length_cons] at hfinish ⊢
  omega

theorem tracked_start (call : Call n) : (s.start call).tracked = s.tracked + 1 := by
  simp only [tracked, start, List.length_cons, Nat.add_assoc]

theorem dec_of_pos (h : 0 < s.pendingEventQueries) :
    s.decPendingEventQueries = { s with pendingEventQueries := s.pendingEventQueries - 1 } :=
  if_pos h

theorem Attended.setList_nil (h : s.Attended) (group : Fin n) : (s.setList group []).Attended := by
  intro g hg
  change Function.update s.workMetaList group [] g = []
  by_cases hgroup : g = group
  · rw [hgroup, Function.update_self]
  · rw [Function.update_of_ne hgroup]
    exact h g hg

/-- Another list for a group whose watchdog is running. -/
theorem Attended.setList (h : s.Attended) (hpc : s.watchdog group ≠ .exited) (works : List ℕ) :
    (s.setList group works).Attended := by
  intro g hg
  have hgroup : g ≠ group := by
    rintro rfl
    exact hpc hg
  change Function.update s.workMetaList group works g = []
  rw [Function.update_of_ne hgroup]
  exact h g hg

theorem exited_of_setWatchdog {pc : WatchdogPc} (hpc : pc ≠ .exited) (g : Fin n)
    (hg : (s.setWatchdog group pc).watchdog g = .exited) : s.watchdog g = .exited := by
  change Function.update s.watchdog group pc g = .exited at hg
  by_cases hgroup : g = group
  · rw [hgroup, Function.update_self] at hg
    exact absurd hg hpc
  · rwa [Function.update_of_ne hgroup] at hg

/-! ### The condition on a step -/

/-- The test of `workEnqueue` that a call is at does not make it throw or return, and the list that it adds
its work to is still visited. -/
def Passes (s : WorkMetaLists n) (call : Call n) : Prop :=
  match call.pc with
  | .testDeviceError => s.deviceError = false
  | .testForceStop => s.forceStopError = false
  | .testStatus => s.watchdogStatus call.group ≠ .stop
  | .testTerminate => s.terminateProcessGroup call.group = false
  | .emplace => s.watchdog call.group ≠ .exited
  | .counted _ => True

/-- `workEnqueue` neither throws nor returns early nor comes too late, and a list is cleared only when it is empty: by
`clearWorkMetaList`, by a watchdog that leaves its loop and by the destructor. -/
def Careful (s : WorkMetaLists n) : WorkLabel n → Prop
  | .advance call => s.Passes call
  | .watchdog group _ => s.watchdog group = .leaving → s.workMetaList group = []
  | .clearWorkMetaList group | .destroy group => s.workMetaList group = []
  | _ => True

instance : Decidable (s.Passes call) := by
  obtain ⟨group, work, pc⟩ := call
  cases pc <;> unfold Passes <;> infer_instance

instance : DecidablePred s.Careful
  | .advance _ => inferInstanceAs (Decidable (s.Passes _))
  | .watchdog _ _ => inferInstanceAs (Decidable (_ → _))
  | .clearWorkMetaList _ | .destroy _ => inferInstanceAs (Decidable (_ = _))
  | .collective .. | .endCoalescing .. | .setWatchdogStatus .. | .shutdown _ | .findDeviceError
  | .findForceStop | .captureBegin => isTrue trivial

/-! ### One step -/

/-- A call that returns or throws, with the counter as it is. -/
theorem not_balanced_finish (h : s.Balanced) (hcall : call ∈ s.calls)
    (hcounter : s'.pendingEventQueries = s.pendingEventQueries)
    (htracked : s'.tracked = (s.finish call).tracked) : ¬ s'.Balanced := by
  intro h'
  have hfinish := tracked_finish hcall
  have hcounted : s.pendingEventQueries = s.tracked := h.counted
  have hcounted' : s'.pendingEventQueries = s'.tracked := h'.counted
  omega

theorem balanced_goTo (h : s.Balanced) (hcall : call ∈ s.calls) (pc : CallPc) :
    (s.goTo call pc).Balanced := by
  rw [balanced_iff] at h ⊢
  rw [tracked_goTo pc hcall]
  exact h

/-- A test of `workEnqueue`: the call goes on, or ends with the counter as it is. -/
theorem balanced_test {p : Prop} [Decidable p] {ended : WorkMetaLists n} {pc : CallPc} (h : s.Balanced)
    (hcall : call ∈ s.calls) (hstep : (if p then some ended else some (s.goTo call pc)) = some s')
    (hcounter : ended.pendingEventQueries = s.pendingEventQueries)
    (htracked : ended.tracked = (s.finish call).tracked) : s'.Balanced ↔ ¬ p := by
  by_cases hp : p
  · rw [if_pos hp] at hstep
    cases hstep
    exact iff_of_false (not_balanced_finish h hcall hcounter htracked) (not_not_intro hp)
  · rw [if_neg hp] at hstep
    cases hstep
    exact iff_of_true (balanced_goTo h hcall pc) hp

theorem balanced_stepCall (h : s.Balanced) (hcall : call ∈ s.calls)
    (hstep : s.stepCall call = some s') : s'.Balanced ↔ s.Passes call := by
  obtain ⟨group, work, pc⟩ := call
  unfold stepCall at hstep
  unfold Passes
  cases pc with
  | counted capturing =>
    simp only at hstep ⊢
    split at hstep
    · cases hstep
      exact iff_of_true (balanced_goTo h hcall _) trivial
    · cases hstep
      refine iff_of_true ?_ trivial
      -- The call that takes its count back is one of those that are counted.
      have hfinish := tracked_finish hcall
      rw [balanced_iff] at h ⊢
      rw [dec_of_pos (by omega)]
      refine ⟨?_, h.2⟩
      change s.pendingEventQueries - 1 = (s.finish _).tracked
      omega
  | testDeviceError =>
    simp only at hstep
    simpa using balanced_test h hcall hstep rfl rfl
  | testForceStop =>
    simp only at hstep
    simpa using balanced_test h hcall hstep rfl rfl
  | testStatus =>
    simp only at hstep
    exact balanced_test h hcall hstep rfl rfl
  | testTerminate =>
    simp only at hstep
    simpa using balanced_test h hcall hstep rfl rfl
  | emplace =>
    simp only [Option.ite_none_left_eq_some] at hstep
    obtain ⟨-, hstep⟩ := hstep
    cases hstep
    have hlist := tracked_setList (s := s) group (s.workMetaList group ++ [work])
    have hfinish := tracked_finish (s := s.setList group (s.workMetaList group ++ [work])) hcall
    rw [List.length_append, List.length_singleton] at hlist
    rw [balanced_iff] at h
    constructor
    · intro h' hexited
      have hnil := h'.attended group hexited
      simp [finish, setList] at hnil
    · intro hpc
      refine balanced_iff.mpr ⟨?_, h.2.1.setList hpc _, h.2.2⟩
      change s.pendingEventQueries = _
      omega

/-- A list is cleared, with the counter as it is. -/
theorem balanced_clear (h : s.Balanced) (hattended : s'.Attended)
    (hcounter : s'.pendingEventQueries = s.pendingEventQueries) (hunderflow : s'.underflow = s.underflow)
    (htracked : s'.tracked = (s.setList group []).tracked) :
    s'.Balanced ↔ s.workMetaList group = [] := by
  have hlist := tracked_setList (s := s) group []
  rw [List.length_nil] at hlist
  rw [balanced_iff] at h ⊢
  rw [hcounter, hunderflow, htracked, ← List.length_eq_zero_iff]
  constructor
  · rintro ⟨hcounted, -⟩
    omega
  · intro hempty
    exact ⟨by omega, hattended, h.2.2⟩

/-- A step that changes neither the counter nor what it counts. -/
theorem balanced_frame (h : s.Balanced) (hcounter : s'.pendingEventQueries = s.pendingEventQueries)
    (hunderflow : s'.underflow = s.underflow) (hlists : s'.workMetaList = s.workMetaList)
    (hcalls : s'.calls = s.calls)
    (hwatchdog : ∀ g, s'.watchdog g = .exited → s.watchdog g = .exited) : s'.Balanced := by
  refine ⟨?_, ?_, fun g hg => ?_, ?_⟩
  · rw [hcounter, hlists, hcalls]
    exact h.counted
  · rw [hcounter, hlists, hcalls]
    exact h.released
  · rw [hlists]
    exact h.attended g (hwatchdog g hg)
  · rw [hunderflow]
    exact h.positive

theorem balanced_stepWatchdog (h : s.Balanced) (hstep : s.stepWatchdog group visit = some s') :
    s'.Balanced ↔ (s.watchdog group = .leaving → s.workMetaList group = []) := by
  unfold stepWatchdog at hstep
  cases hpc : s.watchdog group with
  | head =>
    simp only [hpc] at hstep
    cases hstep
    refine iff_of_true (balanced_frame h rfl rfl rfl rfl (exited_of_setWatchdog ?_)) nofun
    split
    · exact nofun
    · exact nofun
  | waiting =>
    simp only [hpc] at hstep
    refine iff_of_true ?_ nofun
    split at hstep
    · cases hstep
      exact balanced_frame h rfl rfl rfl rfl (exited_of_setWatchdog nofun)
    · split at hstep
      · cases hstep
        exact balanced_frame h rfl rfl rfl rfl fun _ => id
      · cases hstep
        exact balanced_frame h rfl rfl rfl rfl (exited_of_setWatchdog nofun)
  | scanning it =>
    simp only [hpc] at hstep
    refine iff_of_true ?_ nofun
    by_cases hit : it < (s.workMetaList group).length
    · rw [if_pos hit] at hstep
      cases visit with
      | completed =>
        cases hstep
        -- The work that is removed is one of those that are counted.
        have hlist := tracked_setList (s := s) group ((s.workMetaList group).eraseIdx it)
        have hlength := List.length_eraseIdx_of_lt hit
        rw [balanced_iff] at h ⊢
        have hpos : 0 < s.pendingEventQueries := by omega
        have hdec := dec_of_pos (s := s.setList group ((s.workMetaList group).eraseIdx it)) hpos
        rw [hdec]
        have hrunning : s.watchdog group ≠ .exited := by
          rw [hpc]
          exact nofun
        refine ⟨?_, h.2.1.setList hrunning _, h.2.2⟩
        change s.pendingEventQueries - 1 = (s.setList _ _).tracked
        omega
      | pending =>
        cases hstep
        exact balanced_frame h rfl rfl rfl rfl (exited_of_setWatchdog nofun)
      | throws =>
        cases hstep
        exact balanced_frame h rfl rfl rfl rfl fun _ => id
    · rw [if_neg hit] at hstep
      cases hstep
      exact balanced_frame h rfl rfl rfl rfl (exited_of_setWatchdog nofun)
  | leaving =>
    simp only [hpc] at hstep
    cases hstep
    have hclear : ((s.setList group []).setWatchdog group .exited).Balanced ↔
        s.workMetaList group = [] := by
      refine balanced_clear h (fun g hg => ?_) rfl rfl rfl
      by_cases hgroup : g = group
      · rw [hgroup]
        exact Function.update_self ..
      · refine h.attended.setList_nil group g ?_
        change Function.update s.watchdog group .exited g = .exited at hg
        rwa [Function.update_of_ne hgroup] at hg
    rw [hclear]
    exact ⟨fun hlist _ => hlist, fun hlist => hlist rfl⟩
  | exited =>
    simp only [hpc] at hstep
    cases hstep

/-- A step keeps the counter in line exactly when it is careful. -/
theorem balanced_next {l : WorkLabel n} (h : s.Balanced) (hnext : s.next l = some s') :
    s'.Balanced ↔ s.Careful l := by
  unfold next at hnext
  rw [Option.ite_none_left_eq_some] at hnext
  obtain ⟨-, hnext⟩ := hnext
  cases l with
  | collective group work capturing =>
    simp only [Option.ite_none_left_eq_some] at hnext
    obtain ⟨-, hnext⟩ := hnext
    cases hnext
    refine iff_of_true ?_ trivial
    rw [balanced_iff] at h ⊢
    rw [tracked_start]
    exact ⟨congrArg (· + 1) h.1, h.2⟩
  | endCoalescing group work capturing =>
    simp only [Option.ite_none_left_eq_some] at hnext
    obtain ⟨-, hnext⟩ := hnext
    refine iff_of_true ?_ trivial
    split at hnext
    · cases hnext
      exact h
    · cases hnext
      rw [balanced_iff] at h ⊢
      rw [tracked_start]
      exact ⟨congrArg (· + 1) h.1, h.2⟩
  | advance call =>
    simp only [Option.ite_none_right_eq_some] at hnext
    exact balanced_stepCall h hnext.1 hnext.2
  | watchdog group visit => exact balanced_stepWatchdog h hnext
  | clearWorkMetaList group =>
    simp only [Option.ite_none_left_eq_some] at hnext
    obtain ⟨-, hnext⟩ := hnext
    cases hnext
    exact balanced_clear h (h.attended.setList_nil group) rfl rfl rfl
  | setWatchdogStatus group status =>
    refine iff_of_true ?_ trivial
    cases hnext
    split
    · exact balanced_frame h rfl rfl rfl rfl fun _ => id
    · exact balanced_frame h rfl rfl rfl rfl fun _ => id
  | shutdown group | findDeviceError | findForceStop =>
    cases hnext
    exact iff_of_true (balanced_frame h rfl rfl rfl rfl fun _ => id) trivial
  | destroy group =>
    simp only [Option.ite_none_right_eq_some] at hnext
    obtain ⟨-, hnext⟩ := hnext
    cases hnext
    exact balanced_clear h (h.attended.setList_nil group) rfl rfl rfl
  | captureBegin =>
    simp only [Option.ite_none_right_eq_some] at hnext
    obtain ⟨-, hnext⟩ := hnext
    cases hnext
    exact iff_of_true h trivial

/-! ### Whole runs -/

theorem balanced_start (errorHandling : Fin n → ErrorHandlingMode) :
    ({ errorHandling } : WorkMetaLists n).Balanced := by
  refine balanced_iff.mpr ⟨?_, nofun, rfl⟩
  simp [tracked]

/-- The counter is right in every state of a run exactly when all of its steps are careful. -/
theorem balanced_iff_careful (errorHandling : Fin n → ErrorHandlingMode) (ls : List (WorkLabel n))
    (hrun : runFromStart errorHandling ls = some s) :
    (∀ k t, runFromStart errorHandling (ls.take k) = some t → t.Balanced) ↔
      Machine.Guarded next Careful { errorHandling } ls :=
  Machine.forall_take_iff_guarded (fun _ _ _ => balanced_next) (balanced_start errorHandling) hrun

/-- The steps of a call whose work is enqueued. -/
def enqueueSteps (group : Fin n) (work : ℕ) : List (WorkLabel n) :=
  [.advance ⟨group, work, .counted false⟩, .advance ⟨group, work, .testDeviceError⟩,
    .advance ⟨group, work, .testForceStop⟩, .advance ⟨group, work, .testStatus⟩,
    .advance ⟨group, work, .testTerminate⟩, .advance ⟨group, work, .emplace⟩]

/-- Two groups, each with a work that its watchdog completes, and then a capture. -/
def twoGroups : List (WorkLabel 2) :=
  [WorkLabel.collective 0 1 false, .collective 1 2 false] ++ enqueueSteps 1 2 ++ enqueueSteps 0 1 ++
    [WorkLabel.watchdog 0 .pending, .watchdog 0 .pending, .watchdog 0 .completed, .watchdog 1 .pending,
      .watchdog 1 .pending, .watchdog 1 .completed, .captureBegin]

theorem balanced_twoGroups :
    (runFromStart (fun _ => .tearDown) twoGroups).isSome = true ∧
      ∀ k t, runFromStart (fun _ => .tearDown) (twoGroups.take k) = some t → t.Balanced := by
  have hsome : (runFromStart (fun _ => .tearDown) twoGroups).isSome = true := by decide +kernel
  refine ⟨hsome, ?_⟩
  refine (balanced_iff_careful (fun _ => .tearDown) twoGroups (Option.some_get hsome).symm).mpr ?_
  decide +kernel

/-- A collective while the watchdog is stopped. -/
def stoppedWatchdog : List (WorkLabel 1) :=
  [WorkLabel.setWatchdogStatus 0 .stop, .collective 0 1 false] ++ (enqueueSteps 0 1).take 4

/-- The work never gets into the list, and its count stays. -/
theorem not_balanced_stoppedWatchdog :
    ∃ s, runFromStart (fun _ => .tearDown) stoppedWatchdog = some s ∧ ¬ s.Balanced := by
  have hrun : ((runFromStart (fun _ => .tearDown) stoppedWatchdog).any fun s =>
      decide (s.pendingEventQueries = 1 ∧ s.calls = [] ∧ s.workMetaList 0 = [])) = true := by
    decide +kernel
  obtain ⟨s, hs, h⟩ := (Option.any_eq_true _ _).mp hrun
  obtain ⟨hcounter, hcalls, hlist⟩ := of_decide_eq_true h
  refine ⟨s, hs, fun hbalanced => ?_⟩
  have hzero := hbalanced.released (fun group => by rwa [Subsingleton.elim group 0]) hcalls
  omega

end TorchNpu.Distributed.WorkMetaLists
