/-
  The counts of the event manager and the tasks in the queues.

  `Mirrors` says that the counts are those of the pending tasks.  `mirrors_iff` finds the steps that keep
  it: a launch must not be given up, a wait for a value must not be executed, and where a queue is cleared
  it must hold no waits, with no record pending anywhere else.
-/
import TorchNpu.Events.EventManager
import TorchNpu.Lib.AListSum

namespace TorchNpu.Events

/-! ### Counts -/

/-- The entry of an event that is counted `n` times. -/
def entry (n : ℕ) : Option ℕ :=
  if n = 0 then none else some n

theorem entry_zero : entry 0 = none :=
  if_pos rfl

theorem entry_succ (n : ℕ) : entry (n + 1) = some (n + 1) :=
  if_neg (Nat.succ_ne_zero n)

theorem entry_injective : Function.Injective entry := by
  intro m n h
  cases m with
  | zero =>
    cases n with
    | zero => rfl
    | succ n =>
      rw [entry_zero, entry_succ] at h
      cases h
  | succ m =>
    cases n with
    | zero =>
      rw [entry_zero, entry_succ] at h
      cases h
    | succ n =>
      rw [entry_succ, entry_succ] at h
      exact Option.some_inj.mp h

theorem eq_entry_iff {o : Option ℕ} {n : ℕ} :
    o = entry n ↔ o.getD 0 = n ∧ (o.isNone = true ↔ n = 0) := by
  cases n with
  | zero =>
    rw [entry_zero]
    cases o with
    | none => simp
    | some k => simp
  | succ n =>
    rw [entry_succ]
    cases o with
    | none => simp
    | some k => simp

namespace CountMap

variable {counts : CountMap} {event : Event} {f : Event → ℕ}

theorem increase_eq (h : ∀ e, counts e = entry (f e)) (event e : Event) :
    counts.increase event e = entry (f e + if e = event then 1 else 0) := by
  have hupdate : counts.increase event = Function.update counts event (some (f event + 1)) := by
    unfold increase
    cases hf : f event with
    | zero => rw [h event, hf, entry_zero]
    | succ n => rw [h event, hf, entry_succ]
  rw [hupdate, Function.update_apply]
  by_cases he : e = event
  · rw [if_pos he, if_pos he, he, entry_succ]
  · rw [if_neg he, if_neg he, Nat.add_zero, h e]

/-- `decrease` where the event is counted. -/
theorem decrease_eq (h : ∀ e, counts e = entry (f e)) (hpos : 0 < f event) :
    ∃ counts', counts.decrease event = some counts' ∧
      ∀ e, counts' e = entry (f e - if e = event then 1 else 0) := by
  obtain ⟨n, hn⟩ : ∃ n, f event = n + 1 := ⟨f event - 1, by omega⟩
  have hentry : counts event = some (n + 1) := by rw [h event, hn, entry_succ]
  refine ⟨Function.update counts event (entry n), ?_, fun e => ?_⟩
  · unfold decrease
    rw [hentry]
    cases n with
    | zero => rfl
    | succ n => rfl
  · rw [Function.update_apply]
    by_cases he : e = event
    · rw [if_pos he, if_pos he, he, hn, Nat.add_sub_cancel]
    · rw [if_neg he, if_neg he, Nat.sub_zero, h e]

end CountMap

/-! ### The tasks of an event -/

def Task.records (event : Event) (task : Task) : Bool :=
  task.isRecord && task.event = event

def Task.waits (event : Event) (task : Task) : Bool :=
  task.isWait && task.event = event

namespace TaskQueues

variable {n : ℕ} {queues : Fin n → List Task} {calls calls' : List (Fin n × Task)} {p : Task → Bool}
  {device : Fin n} {task : Task} {rest : List Task}

theorem pendingIn_update (queues : Fin n → List Task) (calls : List (Fin n × Task))
    (p : Task → Bool) (device : Fin n) (tasks : List Task) :
    pendingIn (Function.update queues device tasks) calls p + (queues device).countP p =
      pendingIn queues calls p + tasks.countP p := by
  have hsum := sum_update_add (fun _ (queue : List Task) => queue.countP p) queues device tasks
  unfold pendingIn
  omega

theorem pendingIn_append :
    pendingIn (Function.update queues device (queues device ++ [task])) calls p =
      pendingIn queues calls p + if p task then 1 else 0 := by
  have h := pendingIn_update queues calls p device (queues device ++ [task])
  rw [List.countP_append, List.countP_singleton] at h
  omega

theorem pendingIn_cons (hqueue : queues device = task :: rest) :
    pendingIn queues calls p =
      pendingIn (Function.update queues device rest) calls p + if p task then 1 else 0 := by
  have h := pendingIn_update queues calls p device rest
  rw [hqueue, List.countP_cons] at h
  omega

theorem pendingIn_clear (device : Fin n) :
    pendingIn queues calls p =
      pendingIn (Function.update queues device []) calls p + (queues device).countP p := by
  have h := pendingIn_update queues calls p device []
  rw [List.countP_nil] at h
  omega

theorem pendingIn_call (device : Fin n) :
    pendingIn queues ((device, task) :: calls) p =
      pendingIn queues calls p + if p task then 1 else 0 := by
  unfold pendingIn
  rw [List.countP_cons, Nat.add_assoc]

theorem pendingIn_erase (hcall : (device, task) ∈ calls) :
    pendingIn queues calls p =
      pendingIn queues (calls.erase (device, task)) p + if p task then 1 else 0 := by
  rw [← pendingIn_call device]
  unfold pendingIn
  rw [(List.perm_cons_erase hcall).countP_eq]

/-- The other queues and the calls have no task with `p`. -/
def NoneElsewhere (s : TaskQueues n) (p : Task → Bool) (device : Fin n) : Prop :=
  (∀ d, d ≠ device → ∀ task ∈ s.queues d, p task = false) ∧ ∀ call ∈ s.calls, p call.2 = false

theorem pendingIn_clear_eq_zero {s : TaskQueues n} :
    pendingIn (Function.update s.queues device []) s.calls p = 0 ↔ s.NoneElsewhere p device := by
  unfold pendingIn NoneElsewhere
  simp only [Nat.add_eq_zero_iff, Finset.sum_eq_zero_iff, Finset.mem_univ, true_imp_iff,
    List.countP_eq_zero, Bool.not_eq_true]
  rw [and_congr_left_iff]
  intro _
  constructor
  · intro h d hd task htask
    refine h d task ?_
    rwa [Function.update_of_ne hd]
  · intro h d task htask
    by_cases hd : d = device
    · rw [hd, Function.update_self] at htask
      cases htask
    · rw [Function.update_of_ne hd] at htask
      exact h d hd task htask

end TaskQueues

/-! ### The manager -/

namespace NPUEventManager

variable {manager manager' : NPUEventManager} {task : Task} {f g : Event → ℕ}

/-- The unrecorded counts are given by `f`, the unwaited ones by `g`. -/
structure Counts (manager : NPUEventManager) (f g : Event → ℕ) : Prop where
  unrecorded : ∀ e, manager.eventUnrecordedCount e = entry (f e)
  unwaited : ∀ e, manager.eventUnwaitedCount e = entry (g e)

theorem isWait_of_isRecord (h : task.isRecord = true) : task.isWait = false := by
  cases task with
  | mk paramType event => cases paramType <;> simp_all [Task.isRecord, Task.isWait]

theorem Counts.launch (h : manager.Counts f g) :
    (manager.launch task).Counts (fun e => f e + if task.records e then 1 else 0)
      fun e => g e + if task.waits e then 1 else 0 := by
  unfold NPUEventManager.launch
  by_cases hrecord : task.isRecord = true
  · have hwait := isWait_of_isRecord hrecord
    rw [if_pos hrecord]
    refine ⟨fun e => ?_, fun e => ?_⟩
    · refine (CountMap.increase_eq h.unrecorded task.event e).trans ?_
      simp [Task.records, hrecord, eq_comm]
    · refine (h.unwaited e).trans ?_
      simp [Task.waits, hwait]
  · rw [if_neg hrecord]
    rw [Bool.not_eq_true] at hrecord
    by_cases hwait : task.isWait = true
    · rw [if_pos hwait]
      refine ⟨fun e => ?_, fun e => ?_⟩
      · refine (h.unrecorded e).trans ?_
        simp [Task.records, hrecord]
      · refine (CountMap.increase_eq h.unwaited task.event e).trans ?_
        simp [Task.waits, hwait, eq_comm]
    · rw [if_neg hwait]
      rw [Bool.not_eq_true] at hwait
      simpa [Task.records, Task.waits, hrecord, hwait] using h

/-- A task that the manager counts has an entry when it is executed, and loses one count; a wait for a
value keeps it. -/
theorem Counts.execute (h : manager.Counts f g) (hrecord : task.isRecord = true → 0 < f task.event)
    (hwait : task.isWait = true → 0 < g task.event) :
    ∃ manager', manager.execute task = some manager' ∧
      manager'.Counts (fun e => f e - if task.records e then 1 else 0)
        fun e => g e - if task.waits e && task.paramType ≠ .waitValue then 1 else 0 := by
  obtain ⟨paramType, event⟩ := task
  cases paramType with
  | recordEvent | writeValue =>
    obtain ⟨counts, hcounts, heq⟩ := CountMap.decrease_eq h.unrecorded (hrecord rfl)
    refine ⟨{ manager with eventUnrecordedCount := counts }, ?_, fun e => ?_, fun e => ?_⟩
    · simp [NPUEventManager.execute, hcounts]
    · refine (heq e).trans ?_
      simp [Task.records, Task.isRecord, eq_comm]
    · refine (h.unwaited e).trans ?_
      simp [Task.waits, Task.isWait]
  | waitEvent =>
    obtain ⟨counts, hcounts, heq⟩ := CountMap.decrease_eq h.unwaited (hwait rfl)
    refine ⟨{ manager with eventUnwaitedCount := counts }, ?_, fun e => ?_, fun e => ?_⟩
    · simp [NPUEventManager.execute, hcounts]
    · refine (h.unrecorded e).trans ?_
      simp [Task.records, Task.isRecord]
    · refine (heq e).trans ?_
      simp [Task.waits, Task.isWait, eq_comm]
  | compileAndExecute | asyncMemcpy | lazyDestroyEvent | resetEvent | executeOpapi | executeOpapiV2
  | waitValue =>
    refine ⟨manager, rfl, fun e => ?_, fun e => ?_⟩
    · refine (h.unrecorded e).trans ?_
      simp [Task.records, Task.isRecord]
    · refine (h.unwaited e).trans ?_
      simp [Task.waits, Task.isWait]

theorem Counts.clear (h : manager.Counts f g) :
    manager.clearUnrecordedCount.Counts (fun _ => 0) g :=
  ⟨fun _ => rfl, h.unwaited⟩

theorem Counts.congr_iff {f' g' : Event → ℕ} (h : manager.Counts f g) :
    manager.Counts f' g' ↔ (∀ e, f e = f' e) ∧ ∀ e, g e = g' e := by
  constructor
  · intro h'
    refine ⟨fun e => entry_injective ?_, fun e => entry_injective ?_⟩
    · rw [← h.unrecorded, h'.unrecorded]
    · rw [← h.unwaited, h'.unwaited]
  · rintro ⟨hf, hg⟩
    exact ⟨fun e => by rw [h.unrecorded, hf], fun e => by rw [h.unwaited, hg]⟩

end NPUEventManager

/-! ### The counts mirror the queues -/

namespace TaskQueues

variable {n : ℕ} {s s' : TaskQueues n} {device : Fin n} {task : Task} {rest : List Task}

/-- The counts are those of the pending tasks, `IsEventRecorded` and `IsEventWaited` answer true where there
are none, and no decrease has missed its event. -/
structure Mirrors (s : TaskQueues n) : Prop where
  unrecorded : ∀ e, (s.manager.eventUnrecordedCount e).getD 0 = s.pending (Task.records e)
  unwaited : ∀ e, (s.manager.eventUnwaitedCount e).getD 0 = s.pending (Task.waits e)
  recorded : ∀ e, s.manager.isEventRecorded e = true ↔ s.pending (Task.records e) = 0
  waited : ∀ e, s.manager.isEventWaited e = true ↔ s.pending (Task.waits e) = 0
  terminated : s.terminated = false

/-- The counts the manager should have. -/
abbrev Counted (s : TaskQueues n) (manager : NPUEventManager) : Prop :=
  manager.Counts (fun e => s.pending (Task.records e)) fun e => s.pending (Task.waits e)

theorem mirrors_iff_counted : s.Mirrors ↔ s.Counted s.manager ∧ s.terminated = false := by
  constructor
  · rintro ⟨hunrecorded, hunwaited, hrecorded, hwaited, hterminated⟩
    exact ⟨⟨fun e => eq_entry_iff.mpr ⟨hunrecorded e, hrecorded e⟩,
      fun e => eq_entry_iff.mpr ⟨hunwaited e, hwaited e⟩⟩, hterminated⟩
  · rintro ⟨⟨hunrecorded, hunwaited⟩, hterminated⟩
    exact ⟨fun e => (eq_entry_iff.mp (hunrecorded e)).1, fun e => (eq_entry_iff.mp (hunwaited e)).1,
      fun e => (eq_entry_iff.mp (hunrecorded e)).2, fun e => (eq_entry_iff.mp (hunwaited e)).2,
      hterminated⟩

/-- The condition on a step: a record or a wait that has been counted is not given up; no wait for a value
is executed; a queue that is cleared holds no waits, and no record is pending elsewhere. -/
def Balanced (s : TaskQueues n) : Label n → Prop
  | .giveUp _ task => task.isRecord = false ∧ task.isWait = false
  | .dequeue device =>
    match s.queues device with
    | [] => True
    | task :: _ => task.paramType ≠ .waitValue
  | .fail device _ =>
    match s.queues device with
    | [] => True
    | task :: rest => task.paramType ≠ .waitValue ∧ (∀ t ∈ rest, t.isWait = false) ∧
      s.NoneElsewhere Task.isRecord device
  | .clear device => (∀ t ∈ s.queues device, t.isWait = false) ∧ s.NoneElsewhere Task.isRecord device
  | _ => True

instance (p : Task → Bool) : Decidable (s.NoneElsewhere p device) :=
  inferInstanceAs (Decidable (_ ∧ _))

instance : DecidablePred s.Balanced
  | .giveUp _ _ => inferInstanceAs (Decidable (_ ∧ _))
  | .dequeue device =>
    match h : s.queues device with
    | [] => isTrue (by simp only [Balanced, h])
    | task :: _ =>
      decidable_of_iff (task.paramType ≠ .waitValue) (by simp only [Balanced, h])
  | .fail device _ =>
    match h : s.queues device with
    | [] => isTrue (by simp only [Balanced, h])
    | task :: rest =>
      decidable_of_iff (task.paramType ≠ .waitValue ∧ (∀ t ∈ rest, t.isWait = false) ∧
        s.NoneElsewhere Task.isRecord device) (by simp only [Balanced, h])
  | .clear _ => inferInstanceAs (Decidable (_ ∧ _))
  | .launch _ _ | .write _ _ | .setStatus _ _ => isTrue trivial

theorem forall_waits_iff {tasks : List Task} :
    (∀ e, tasks.countP (Task.waits e) = 0) ↔ ∀ t ∈ tasks, t.isWait = false := by
  simp only [List.countP_eq_zero, Task.waits]
  constructor
  · intro h t ht
    simpa using h t.event t ht
  · intro h e t ht
    simp [h t ht]

theorem forall_records_iff :
    (∀ e, s.NoneElsewhere (Task.records e) device) ↔ s.NoneElsewhere Task.isRecord device := by
  constructor
  · intro h
    refine ⟨fun d hd t ht => ?_, fun call hcall => ?_⟩
    · simpa [Task.records] using (h t.event).1 d hd t ht
    · simpa [Task.records] using (h call.2.event).2 call hcall
  · rintro ⟨hqueues, hcalls⟩ e
    refine ⟨fun d hd t ht => ?_, fun call hcall => ?_⟩
    · simp [Task.records, hqueues d hd t ht]
    · simp [Task.records, hcalls call hcall]

/-- A task in a queue is counted. -/
theorem counted_of_cons (hqueue : s.queues device = task :: rest) :
    (task.isRecord = true → 0 < s.pending (Task.records task.event)) ∧
      (task.isWait = true → 0 < s.pending (Task.waits task.event)) := by
  unfold pending
  refine ⟨fun h => ?_, fun h => ?_⟩
  · rw [pendingIn_cons hqueue]
    simp [Task.records, h]
  · rw [pendingIn_cons hqueue]
    simp [Task.waits, h]

/-- What the execution of the first task of a queue leaves of the counts. -/
theorem execute_counts (h : s.Counted s.manager) (hqueue : s.queues device = task :: rest) :
    ∃ manager, s.manager.execute task = some manager ∧
      manager.Counts
        (fun e => s.pending (Task.records e) - if task.records e then 1 else 0)
        fun e => s.pending (Task.waits e) -
          if task.waits e && task.paramType ≠ .waitValue then 1 else 0 :=
  h.execute (counted_of_cons hqueue).1 (counted_of_cons hqueue).2

theorem waits_of_waitValue (h : task.paramType = .waitValue) : task.waits task.event = true := by
  simp [Task.waits, Task.isWait, h]

theorem mirrors_dequeue (h : s.Mirrors) (hqueue : s.queues device = task :: rest)
    (hnext : s.next (.dequeue device) = some s') : s'.Mirrors ↔ task.paramType ≠ .waitValue := by
  obtain ⟨hcounted, hterminated⟩ := mirrors_iff_counted.mp h
  obtain ⟨manager, hexecute, hcounts⟩ := execute_counts hcounted hqueue
  simp only [next, hterminated, hqueue, hexecute] at hnext
  cases hnext
  simp only [mirrors_iff_counted, and_true, Counted]
  rw [hcounts.congr_iff]
  simp only [pending, pendingIn_cons (p := Task.records _) hqueue,
    pendingIn_cons (p := Task.waits _) hqueue]
  constructor
  · rintro ⟨-, hwaits⟩ hvalue
    have hself := hwaits task.event
    simp [waits_of_waitValue hvalue, hvalue] at hself
  · intro hvalue
    refine ⟨fun e => Nat.add_sub_cancel .., fun e => ?_⟩
    simp [hvalue]

theorem mirrors_fail {status : Queue.RepoStatus} (h : s.Mirrors)
    (hqueue : s.queues device = task :: rest) (hnext : s.next (.fail device status) = some s') :
    s'.Mirrors ↔ task.paramType ≠ .waitValue ∧ (∀ t ∈ rest, t.isWait = false) ∧
      s.NoneElsewhere Task.isRecord device := by
  obtain ⟨hcounted, hterminated⟩ := mirrors_iff_counted.mp h
  obtain ⟨manager, hexecute, hcounts⟩ := execute_counts hcounted hqueue
  simp only [next, hterminated, hqueue, hexecute] at hnext
  cases hnext
  simp only [mirrors_iff_counted, and_true, Counted, clearQueue]
  rw [hcounts.clear.congr_iff, ← forall_records_iff, ← forall_waits_iff]
  have hclear : ∀ e, pendingIn s.queues s.calls (Task.waits e) = _ := fun e =>
    pendingIn_clear device
  simp only [pending, hclear, hqueue, List.countP_cons, ← pendingIn_clear_eq_zero]
  constructor
  · rintro ⟨hrecords, hwaits⟩
    have hvalue : task.paramType ≠ .waitValue := by
      intro hvalue
      have hself := hwaits task.event
      simp [waits_of_waitValue hvalue, hvalue] at hself
    refine ⟨hvalue, fun e => ?_, fun e => (hrecords e).symm⟩
    simpa [hvalue, ← Nat.add_assoc] using hwaits e
  · rintro ⟨hvalue, hrest, hrecords⟩
    refine ⟨fun e => (hrecords e).symm, fun e => ?_⟩
    simp [hvalue, hrest e]

theorem mirrors_clear (h : s.Mirrors) (hnext : s.next (.clear device) = some s') :
    s'.Mirrors ↔ (∀ t ∈ s.queues device, t.isWait = false) ∧
      s.NoneElsewhere Task.isRecord device := by
  obtain ⟨hcounted, hterminated⟩ := mirrors_iff_counted.mp h
  rw [next, Option.ite_none_right_eq_some] at hnext
  obtain ⟨-, hnext⟩ := hnext
  cases hnext
  simp only [mirrors_iff_counted, hterminated, and_true, Counted, clearQueue]
  rw [hcounted.clear.congr_iff, ← forall_records_iff, ← forall_waits_iff]
  have hclear : ∀ e, pendingIn s.queues s.calls (Task.waits e) = _ := fun e =>
    pendingIn_clear device
  simp only [pending, hclear, ← pendingIn_clear_eq_zero]
  constructor
  · rintro ⟨hrecords, hwaits⟩
    refine ⟨fun e => ?_, fun e => (hrecords e).symm⟩
    have he := hwaits e
    omega
  · rintro ⟨hqueue, hrecords⟩
    refine ⟨fun e => (hrecords e).symm, fun e => ?_⟩
    rw [hqueue e, Nat.add_zero]

theorem mirrors_giveUp (h : s.Mirrors) (hnext : s.next (.giveUp device task) = some s') :
    s'.Mirrors ↔ task.isRecord = false ∧ task.isWait = false := by
  obtain ⟨hcounted, hterminated⟩ := mirrors_iff_counted.mp h
  rw [next, Option.ite_none_right_eq_some] at hnext
  obtain ⟨⟨-, hcall, -, -⟩, hnext⟩ := hnext
  cases hnext
  simp only [mirrors_iff_counted, hterminated, and_true, Counted]
  rw [hcounted.congr_iff]
  simp only [pending, pendingIn_erase (p := Task.records _) hcall,
    pendingIn_erase (p := Task.waits _) hcall]
  constructor
  · rintro ⟨hrecords, hwaits⟩
    refine ⟨?_, ?_⟩
    · simpa [Task.records] using hrecords task.event
    · simpa [Task.waits] using hwaits task.event
  · rintro ⟨hrecord, hwait⟩
    simp [Task.records, Task.waits, hrecord, hwait]

/-- A step keeps the counts in line with the queues exactly when it is balanced. -/
theorem mirrors_next {l : Label n} (h : s.Mirrors) (hnext : s.next l = some s') :
    s'.Mirrors ↔ s.Balanced l := by
  obtain ⟨hcounted, hterminated⟩ := mirrors_iff_counted.mp h
  cases l with
  | launch device task =>
    rw [next, Option.ite_none_left_eq_some] at hnext
    obtain ⟨-, hnext⟩ := hnext
    cases hnext
    refine iff_of_true (mirrors_iff_counted.mpr ⟨?_, hterminated⟩) trivial
    simp only [Counted, pending, pendingIn_call]
    exact hcounted.launch
  | write device task =>
    rw [next, Option.ite_none_right_eq_some] at hnext
    obtain ⟨⟨-, hcall⟩, hnext⟩ := hnext
    cases hnext
    refine iff_of_true (mirrors_iff_counted.mpr ⟨?_, hterminated⟩) trivial
    simp only [Counted, pending, pendingIn_append]
    simp only [Counted, pending, pendingIn_erase hcall] at hcounted
    exact hcounted
  | giveUp device task => exact mirrors_giveUp h hnext
  | dequeue device =>
    cases hqueue : s.queues device with
    | nil => simp [next, hterminated, hqueue] at hnext
    | cons task rest =>
      rw [mirrors_dequeue h hqueue hnext, Balanced, hqueue]
  | fail device status =>
    cases hqueue : s.queues device with
    | nil => simp [next, hterminated, hqueue] at hnext
    | cons task rest =>
      rw [mirrors_fail h hqueue hnext, Balanced, hqueue]
  | clear device => exact mirrors_clear h hnext
  | setStatus device status =>
    rw [next, Option.ite_none_left_eq_some] at hnext
    obtain ⟨-, hnext⟩ := hnext
    cases hnext
    exact iff_of_true (mirrors_iff_counted.mpr ⟨hcounted, hterminated⟩) trivial

theorem mirrors_init : ({} : TaskQueues n).Mirrors := by
  refine mirrors_iff_counted.mpr ⟨⟨fun e => ?_, fun e => ?_⟩, rfl⟩
  · simp [pending, pendingIn, entry]
  · simp [pending, pendingIn, entry]

local instance someQueues : NeZero 2 := inferInstance

/-- An event is recorded through one queue and waited for through another. -/
def twoQueues : List (Label 2) :=
  [.launch 0 ⟨.recordEvent, 7⟩, .write 0 ⟨.recordEvent, 7⟩, .launch 1 ⟨.waitEvent, 7⟩, .dequeue 0,
    .write 1 ⟨.waitEvent, 7⟩, .dequeue 1]

local instance someQueue : NeZero 1 := inferInstance

/-- A wait for a value is launched and executed; it is still counted. -/
def valueWait : List (Label 1) :=
  [.launch 0 ⟨.waitValue, 7⟩, .write 0 ⟨.waitValue, 7⟩, .dequeue 0]

end TaskQueues

end TorchNpu.Events
