/-
  The order in which the calls of a host program reach the driver.

  `Needs` says which calls must have been issued before a wait or a destruction.  `Safe` is the condition on
  the calls of the program: in the modes in which nothing is looked up in the counts, what a call needs
  must have been issued already or be in the queue the call goes to.
-/
import TorchNpu.Events.NPUEvent
import TorchNpu.Events.Spec.Counters

namespace TorchNpu.Events

open NPUEventManager

namespace Process

variable {mode : Mode} {s s' : Process} {x y : Issue} {queue : QueueId} {event : Event}
  {program : List Issue}

/-! ### What a call needs -/

/-- `y` is the last of the records of the event with a number below `n`. -/
def LastRecord (program : List Issue) (event : Event) (n : ℕ) (y : Issue) : Prop :=
  y ∈ program ∧ y.call = .record ∧ y.event = event ∧ y.number < n ∧
    ∀ z ∈ program, z.call = .record → z.event = event → z.number < n → z.number ≤ y.number

/-- A wait needs the last record before it; the destruction of an event needs all records and waits
before it. -/
def Needs (program : List Issue) (x y : Issue) : Prop :=
  match x.call with
  | .record => False
  | .wait => LastRecord program x.event x.number y
  | .destroy => y ∈ program ∧ y.call ≠ .destroy ∧ y.event = x.event ∧ y.number < x.number

instance {n : ℕ} : DecidablePred (LastRecord program event n) :=
  fun y => inferInstanceAs (Decidable (y ∈ program ∧ _))

instance : Decidable (Needs program x y) :=
  match h : x.call with
  | .record => isFalse (by simp [Needs, h])
  | .wait => decidable_of_iff (LastRecord program x.event x.number y) (by simp [Needs, h])
  | .destroy => decidable_of_iff
      (y ∈ program ∧ y.call ≠ .destroy ∧ y.event = x.event ∧ y.number < x.number) (by simp [Needs, h])

/-- Every call that has been issued came after the calls it needs. -/
def Ordered (s : Process) : Prop :=
  ∀ before x after, s.issued = before ++ x :: after → ∀ y, Needs s.program x y → y ∈ before

theorem Needs.mem (h : Needs program x y) : y ∈ program := by
  unfold Needs at h
  split at h
  · exact h.elim
  · exact h.1
  · exact h.1

theorem Needs.call_ne (h : Needs program x y) : y.call ≠ .destroy := by
  unfold Needs at h
  split at h
  · exact h.elim
  · rw [h.2.1]
    decide
  · exact h.2.1

theorem Needs.event_eq (h : Needs program x y) : y.event = x.event := by
  unfold Needs at h
  split at h
  · exact h.elim
  · exact h.2.2.1
  · exact h.2.2.1

theorem Needs.number_lt (h : Needs program x y) : y.number < x.number := by
  unfold Needs at h
  split at h
  · exact h.elim
  · exact h.2.2.2.1
  · exact h.2.2.2

/-- A later call changes nothing about what earlier calls need. -/
theorem needs_append {z : Issue} (hx : x.number ≤ z.number) :
    Needs (program ++ [z]) x y ↔ Needs program x y := by
  have hmem : ∀ w : Issue, w.number < x.number → (w ∈ program ++ [z] ↔ w ∈ program) := by
    intro w hw
    rw [List.mem_append, List.mem_singleton, or_iff_left]
    rintro rfl
    omega
  unfold Needs
  split
  · exact Iff.rfl
  · unfold LastRecord
    constructor
    · rintro ⟨hy, hcall, hevent, hlt, hlast⟩
      refine ⟨(hmem y hlt).mp hy, hcall, hevent, hlt, fun w hw => ?_⟩
      exact hlast w (List.mem_append_left _ hw)
    · rintro ⟨hy, hcall, hevent, hlt, hlast⟩
      refine ⟨(hmem y hlt).mpr hy, hcall, hevent, hlt, fun w hw hcall' hevent' hlt' => ?_⟩
      exact hlast w ((hmem w hlt').mp hw) hcall' hevent' hlt'
  · constructor
    · rintro ⟨hy, hcall, hevent, hlt⟩
      exact ⟨(hmem y hlt).mp hy, hcall, hevent, hlt⟩
    · rintro ⟨hy, hcall, hevent, hlt⟩
      exact ⟨(hmem y hlt).mpr hy, hcall, hevent, hlt⟩

/-! ### Lists in order -/

/-- `y` comes before `x` wherever `x` is in the list, or is done already. -/
theorem forall_append_cons {α : Type} {l : List α} {a : α} {P : List α → α → Prop} :
    (∀ before x after, l ++ [a] = before ++ x :: after → P before x) ↔
      (∀ before x after, l = before ++ x :: after → P before x) ∧ P l a := by
  constructor
  · intro h
    refine ⟨fun before x after heq => h before x (after ++ [a]) (by simp [heq]), h l a [] rfl⟩
  · rintro ⟨h, ha⟩ before x after heq
    rcases List.eq_nil_or_concat after with rfl | ⟨after, z, rfl⟩
    · obtain ⟨rfl, rfl⟩ := List.append_inj' heq rfl |>.imp_right fun h => List.singleton_inj.mp h
      exact ha
    · refine h before x after ?_
      have heq' : l ++ [a] = before ++ x :: after ++ [z] := by simpa using heq
      exact (List.append_inj' heq' rfl).1

theorem takeFirst_eq_some {tasks rest : List (QueueId × Issue)} :
    takeFirst queue tasks = some (x, rest) →
      ∃ before after, tasks = before ++ (queue, x) :: after ∧ rest = before ++ after ∧
        ∀ task ∈ before, task.1 ≠ queue := by
  induction tasks generalizing rest with
  | nil => exact nofun
  | cons task tasks ih =>
    obtain ⟨q, z⟩ := task
    intro h
    rw [takeFirst] at h
    split_ifs at h with hq
    · cases h
      subst hq
      exact ⟨[], tasks, rfl, rfl, nofun⟩
    · rw [Option.map_eq_some_iff] at h
      obtain ⟨⟨y, rest'⟩, hrest, heq⟩ := h
      cases heq
      obtain ⟨before, after, rfl, rfl, hbefore⟩ := ih hrest
      exact ⟨(q, z) :: before, after, rfl, rfl, List.forall_mem_cons.mpr ⟨hq, hbefore⟩⟩

/-! ### The invariant -/

/-- `hand` are the calls that have begun and are neither in a queue nor issued. -/
structure Arranged (mode : Mode) (hand : List Issue) (s : Process) : Prop where
  numbers : ∀ x ∈ s.program, x.number < s.program.length
  placed : ∀ x ∈ s.program, x.call ≠ .destroy →
    x ∈ s.issued ∨ (∃ queue, (queue, x) ∈ s.tasks) ∨ x ∈ hand
  issued : ∀ x ∈ s.issued, x ∈ s.program
  queued : ∀ task ∈ s.tasks, task.2 ∈ s.program ∧ s.started task.1 = true
  listed : ∀ x ∈ s.npuEvents, x ∈ s.program ∧ x.call = .destroy
  ordered : s.Ordered
  /-- What a task needs comes before it in its queue. -/
  first : ∀ before task after, s.tasks = before ++ task :: after →
    (task.2.call = .destroy → mode.isCounted task.2.event = false) →
    ∀ y, Needs s.program task.2 y → y ∈ s.issued ∨ (task.1, y) ∈ before ∨ y ∈ hand
  ready : ∀ x ∈ s.npuEvents, mode.isCounted x.event = false →
    ∀ y, Needs s.program x y → y ∈ s.issued

/-- The counts of the manager are those of the tasks and of `hand`. -/
def Counted (hand : List Issue) (s : Process) : Prop :=
  s.manager.Counts
    (fun e => s.tasks.countP (fun task => task.2.task.records e) +
      hand.countP fun x => x.task.records e)
    fun e => s.tasks.countP (fun task => task.2.task.waits e) + hand.countP fun x => x.task.waits e

theorem Arranged.congr {hand : List Issue} (A : Arranged mode hand s)
    (hprogram : s'.program = s.program) (hissued : s'.issued = s.issued) (htasks : s'.tasks = s.tasks)
    (hstarted : ∀ queue, s.started queue = true → s'.started queue = true)
    (hnpuEvents : s'.npuEvents = s.npuEvents) : Arranged mode hand s' where
  numbers := hprogram ▸ A.numbers
  placed := hprogram ▸ hissued ▸ htasks ▸ A.placed
  issued := hprogram ▸ hissued ▸ A.issued
  queued := by
    rw [htasks, hprogram]
    exact fun task htask => ⟨(A.queued task htask).1, hstarted _ (A.queued task htask).2⟩
  listed := hprogram ▸ hnpuEvents ▸ A.listed
  ordered := by
    unfold Ordered
    rw [hprogram, hissued]
    exact A.ordered
  first := hprogram ▸ hissued ▸ htasks ▸ A.first
  ready := hprogram ▸ hissued ▸ hnpuEvents ▸ A.ready

/-- A call begins. -/
theorem Arranged.call (A : Arranged mode [] s) (hx : x.number = s.program.length) :
    Arranged mode [x] { s with program := s.program ++ [x] } := by
  have hneeds : ∀ z ∈ s.program, ∀ y, Needs (s.program ++ [x]) z y → Needs s.program z y := by
    intro z hz y hy
    have hlt := A.numbers z hz
    exact (needs_append (by omega)).mp hy
  refine ⟨?_, ?_, ?_, ?_, ?_, ?_, ?_, ?_⟩
  · intro z hz
    rw [List.length_append, List.length_singleton]
    rcases List.mem_append.mp hz with hz | hz
    · exact Nat.lt_succ_of_lt (A.numbers z hz)
    · rw [List.mem_singleton.mp hz, hx]
      exact Nat.lt_succ_self _
  · intro z hz hcall
    rcases List.mem_append.mp hz with hz | hz
    · rcases A.placed z hz hcall with h | h | h
      · exact .inl h
      · exact .inr (.inl h)
      · exact absurd h List.not_mem_nil
    · exact .inr (.inr hz)
  · exact fun z hz => List.mem_append_left _ (A.issued z hz)
  · exact fun task htask => ⟨List.mem_append_left _ (A.queued task htask).1, (A.queued task htask).2⟩
  · exact fun z hz => ⟨List.mem_append_left _ (A.listed z hz).1, (A.listed z hz).2⟩
  · intro before z after heq y hy
    have hz : z ∈ s.program := A.issued z (heq ▸ List.mem_append_right _ (List.mem_cons_self ..))
    exact A.ordered before z after heq y (hneeds z hz y hy)
  · intro before task after heq hcounted y hy
    have htask : task ∈ s.tasks := heq ▸ List.mem_append_right _ (List.mem_cons_self ..)
    have hy' := hneeds task.2 (A.queued task htask).1 y hy
    rcases A.first before task after heq hcounted y hy' with h | h | h
    · exact .inl h
    · exact .inr (.inl h)
    · exact absurd h List.not_mem_nil
  · exact fun z hz hcounted y hy => A.ready z hz hcounted y (hneeds z (A.listed z hz).1 y hy)

/-- A call reaches the driver. -/
theorem Arranged.issue (A : Arranged mode [x] s) (hx : x ∈ s.program)
    (hneeds : ∀ y, Needs s.program x y → y ∈ s.issued) : Arranged mode [] (s.issue x) where
  numbers := A.numbers
  placed := by
    intro z hz hcall
    rcases A.placed z hz hcall with h | h | h
    · exact .inl (List.mem_append_left _ h)
    · exact .inr (.inl h)
    · exact .inl (List.mem_append_right _ h)
  issued := by
    intro z hz
    rcases List.mem_append.mp hz with hz | hz
    · exact A.issued z hz
    · rwa [List.mem_singleton.mp hz]
  queued := A.queued
  listed := A.listed
  ordered := forall_append_cons.mpr ⟨A.ordered, hneeds⟩
  first := by
    intro before task after heq hcounted y hy
    rcases A.first before task after heq hcounted y hy with h | h | h
    · exact .inl (List.mem_append_left _ h)
    · exact .inr (.inl h)
    · exact .inl (List.mem_append_right _ h)
  ready := fun z hz hcounted y hy => List.mem_append_left _ (A.ready z hz hcounted y hy)

/-- The destruction of an event is put off. -/
theorem Arranged.list (A : Arranged mode [x] s) (hx : x ∈ s.program) (hcall : x.call = .destroy)
    (hneeds : mode.isCounted x.event = false → ∀ y, Needs s.program x y → y ∈ s.issued) :
    Arranged mode [] { s with npuEvents := s.npuEvents ++ [x] } where
  numbers := A.numbers
  placed := by
    intro z hz hcall'
    rcases A.placed z hz hcall' with h | h | h
    · exact .inl h
    · exact .inr (.inl h)
    · rw [List.mem_singleton.mp h] at hcall'
      exact absurd hcall hcall'
  issued := A.issued
  queued := A.queued
  listed := by
    intro z hz
    rcases List.mem_append.mp hz with hz | hz
    · exact A.listed z hz
    · rw [List.mem_singleton.mp hz]
      exact ⟨hx, hcall⟩
  ordered := A.ordered
  first := by
    intro before task after heq hcounted y hy
    rcases A.first before task after heq hcounted y hy with h | h | h
    · exact .inl h
    · exact .inr (.inl h)
    · rw [List.mem_singleton.mp h] at hy
      exact absurd hcall hy.call_ne
  ready := by
    intro z hz hcounted
    rcases List.mem_append.mp hz with hz | hz
    · exact A.ready z hz hcounted
    · rw [List.mem_singleton.mp hz] at hcounted ⊢
      exact hneeds hcounted

/-- A new call goes into a queue. -/
theorem Arranged.append (A : Arranged mode [x] s) (hx : x ∈ s.program)
    (hlast : ∀ z ∈ s.program, z.number ≤ x.number) (hstarted : s.started queue = true)
    (hneeds : (x.call = .destroy → mode.isCounted x.event = false) →
      ∀ y, Needs s.program x y → y ∈ s.issued ∨ (queue, y) ∈ s.tasks) :
    Arranged mode [] { s with tasks := s.tasks ++ [(queue, x)] } where
  numbers := A.numbers
  placed := by
    intro z hz hcall
    rcases A.placed z hz hcall with h | ⟨q, h⟩ | h
    · exact .inl h
    · exact .inr (.inl ⟨q, List.mem_append_left _ h⟩)
    · rw [List.mem_singleton.mp h]
      exact .inr (.inl ⟨queue, List.mem_append_right _ (List.mem_singleton_self _)⟩)
  issued := A.issued
  queued := by
    intro task htask
    rcases List.mem_append.mp htask with htask | htask
    · exact A.queued task htask
    · rw [List.mem_singleton.mp htask]
      exact ⟨hx, hstarted⟩
  listed := A.listed
  ordered := A.ordered
  first := by
    refine forall_append_cons.mpr ⟨?_, ?_⟩
    · intro before task after heq hcounted y hy
      rcases A.first before task after heq hcounted y hy with h | h | h
      · exact .inl h
      · exact .inr (.inl h)
      · -- No task needs a call that is newer than itself.
        have htask : task ∈ s.tasks := heq ▸ List.mem_append_right _ (List.mem_cons_self ..)
        have hle := hlast task.2 (A.queued task htask).1
        have hlt := hy.number_lt
        rw [List.mem_singleton.mp h] at hlt
        omega
    · intro hcounted y hy
      rcases hneeds hcounted y hy with h | h
      · exact .inl h
      · exact .inr (.inl h)
  ready := A.ready

/-- The consumer of a queue takes its oldest task. -/
theorem Arranged.take {before after : List (QueueId × Issue)} (A : Arranged mode [] s)
    (htasks : s.tasks = before ++ (queue, x) :: after) :
    Arranged mode [x] { s with tasks := before ++ after } := by
  have hmem : ∀ task, task ∈ before ++ after → task ∈ s.tasks := by
    intro task htask
    rw [htasks]
    rcases List.mem_append.mp htask with h | h
    · exact List.mem_append_left _ h
    · exact List.mem_append_right _ (List.mem_cons_of_mem _ h)
  have hsplit : ∀ task, task ∈ s.tasks → task = (queue, x) ∨ task ∈ before ++ after := by
    intro task htask
    rw [htasks, List.mem_append, List.mem_cons] at htask
    rcases htask with h | h | h
    · exact .inr (List.mem_append_left _ h)
    · exact .inl h
    · exact .inr (List.mem_append_right _ h)
  refine ⟨A.numbers, ?_, A.issued, fun task htask => A.queued task (hmem task htask), A.listed,
    A.ordered, ?_, A.ready⟩
  · intro z hz hcall
    rcases A.placed z hz hcall with h | ⟨q, h⟩ | h
    · exact .inl h
    · rcases hsplit _ h with h | h
      · cases h
        exact .inr (.inr (List.mem_singleton_self _))
      · exact .inr (.inl ⟨q, h⟩)
    · exact absurd h List.not_mem_nil
  · intro before' task after' heq hcounted y hy
    -- The task is before the one that is taken, or behind it.
    rcases List.append_eq_append_iff.mp heq with ⟨l, hbefore, hafter⟩ | ⟨l, hbefore, hafter⟩
    · have htasks' : s.tasks = (before ++ (queue, x) :: l) ++ task :: after' := by
        rw [htasks, hafter, List.append_assoc, List.cons_append]
      rcases A.first _ task after' htasks' hcounted y hy with h | h | h
      · exact .inl h
      · rw [List.mem_append, List.mem_cons] at h
        rcases h with h | h | h
        · exact .inr (.inl (hbefore ▸ List.mem_append_left _ h))
        · rw [Prod.mk.injEq] at h
          exact .inr (.inr (List.mem_singleton.mpr h.2))
        · exact .inr (.inl (hbefore ▸ List.mem_append_right _ h))
      · exact absurd h List.not_mem_nil
    · cases l with
      | nil =>
        rw [List.append_nil] at hbefore
        rw [List.nil_append] at hafter
        have htasks' : s.tasks = (before' ++ [(queue, x)]) ++ task :: after' := by
          rw [htasks, hbefore, ← hafter, List.append_assoc, List.singleton_append]
        rcases A.first _ task after' htasks' hcounted y hy with h | h | h
        · exact .inl h
        · rw [List.mem_append, List.mem_singleton, Prod.mk.injEq] at h
          rcases h with h | h
          · exact .inr (.inl h)
          · exact .inr (.inr (List.mem_singleton.mpr h.2))
        · exact absurd h List.not_mem_nil
      | cons z l =>
        rw [List.cons_append, List.cons.injEq] at hafter
        obtain ⟨rfl, hafter⟩ := hafter
        have htasks' : s.tasks = before' ++ task :: (l ++ (queue, x) :: after) := by
          rw [htasks, hbefore, List.append_assoc, List.cons_append]
        rcases A.first _ task _ htasks' hcounted y hy with h | h | h
        · exact .inl h
        · exact .inr (.inl h)
        · exact absurd h List.not_mem_nil

/-- What the oldest task of a queue needs has been issued. -/
theorem Arranged.issued_of_take {before after : List (QueueId × Issue)} (A : Arranged mode [] s)
    (htasks : s.tasks = before ++ (queue, x) :: after) (hbefore : ∀ task ∈ before, task.1 ≠ queue)
    (hcounted : x.call = .destroy → mode.isCounted x.event = false) (hy : Needs s.program x y) :
    y ∈ s.issued := by
  rcases A.first before (queue, x) after htasks hcounted y hy with h | h | h
  · exact h
  · exact absurd rfl (hbefore _ h)
  · exact absurd h List.not_mem_nil

/-- The manager takes a destruction that was put off. -/
theorem Arranged.unlist {rest : List Issue} (A : Arranged mode [] s)
    (hnpuEvents : s.npuEvents = x :: rest) : Arranged mode [x] { s with npuEvents := rest } where
  numbers := A.numbers
  placed := by
    intro z hz hcall
    rcases A.placed z hz hcall with h | h | h
    · exact .inl h
    · exact .inr (.inl h)
    · exact absurd h List.not_mem_nil
  issued := A.issued
  queued := A.queued
  listed := fun z hz => A.listed z (hnpuEvents ▸ List.mem_cons_of_mem _ hz)
  ordered := A.ordered
  first := by
    intro before task after heq hcounted y hy
    rcases A.first before task after heq hcounted y hy with h | h | h
    · exact .inl h
    · exact .inr (.inl h)
    · exact absurd h List.not_mem_nil
  ready := fun z hz => A.ready z (hnpuEvents ▸ List.mem_cons_of_mem _ hz)

/-! ### The counts -/

theorem task_isRecord : x.task.isRecord = true ↔ x.call = .record := by
  unfold Issue.task
  split <;> simp_all [Task.isRecord]

theorem task_isWait : x.task.isWait = true ↔ x.call = .wait := by
  unfold Issue.task
  split <;> simp_all [Task.isWait]

theorem task_event : x.task.event = x.event := by
  unfold Issue.task
  split <;> rfl

theorem task_paramType_ne : x.task.paramType ≠ .waitValue := by
  unfold Issue.task
  split <;> exact nofun

theorem records_iff : x.task.records event = true ↔ x.call = .record ∧ x.event = event := by
  unfold Task.records
  rw [Bool.and_eq_true, decide_eq_true_iff, task_isRecord, task_event]

theorem waits_iff : x.task.waits event = true ↔ x.call = .wait ∧ x.event = event := by
  unfold Task.waits
  rw [Bool.and_eq_true, decide_eq_true_iff, task_isWait, task_event]

/-- Where the manager says that an event is recorded, no queue holds a record of it. -/
theorem Counted.not_mem_of_recorded (C : Counted [] s)
    (h : s.manager.isEventRecorded event = true) (hcall : y.call = .record)
    (hevent : y.event = event) : (queue, y) ∉ s.tasks := by
  intro hy
  have hzero := (eq_entry_iff.mp (C.unrecorded event)).2.mp h
  rw [Nat.add_eq_zero_iff, List.countP_eq_zero] at hzero
  exact hzero.1 _ hy (records_iff.mpr ⟨hcall, hevent⟩)

/-- Where the manager says that an event is waited for, no queue holds a wait for it. -/
theorem Counted.not_mem_of_waited (C : Counted [] s)
    (h : s.manager.isEventWaited event = true) (hcall : y.call = .wait)
    (hevent : y.event = event) : (queue, y) ∉ s.tasks := by
  intro hy
  have hzero := (eq_entry_iff.mp (C.unwaited event)).2.mp h
  rw [Nat.add_eq_zero_iff, List.countP_eq_zero] at hzero
  exact hzero.1 _ hy (waits_iff.mpr ⟨hcall, hevent⟩)

/-- A destruction is not counted. -/
theorem counted_destroy_iff (hcall : x.call = .destroy) : Counted [x] s ↔ Counted [] s := by
  have hrecords : ∀ e, x.task.records e = false := by
    intro e
    rw [Bool.eq_false_iff, ne_eq, records_iff, hcall]
    exact nofun
  have hwaits : ∀ e, x.task.waits e = false := by
    intro e
    rw [Bool.eq_false_iff, ne_eq, waits_iff, hcall]
    exact nofun
  simp [Counted, hrecords, hwaits]

theorem Counted.launch (C : Counted [] s) :
    Counted [x] { s with manager := s.manager.launch x.task } := by
  have hcounts : (s.manager.launch x.task).Counts _ _ := NPUEventManager.Counts.launch C
  simpa [Counted, List.countP_singleton] using hcounts

theorem Counted.append (C : Counted [x] s) :
    Counted [] { s with tasks := s.tasks ++ [(queue, x)] } := by
  simpa [Counted, List.countP_append, List.countP_singleton] using C

theorem Counted.take {before after : List (QueueId × Issue)} (C : Counted [] s)
    (htasks : s.tasks = before ++ (queue, x) :: after) :
    Counted [x] { s with tasks := before ++ after } := by
  simpa [Counted, htasks, List.countP_append, List.countP_cons, Nat.add_assoc] using C

/-- The manager when a record or a wait is executed. -/
theorem Counted.execute (C : Counted [x] s) :
    ∃ manager, s.manager.execute x.task = some manager ∧ Counted [] { s with manager } := by
  have hrecord : x.task.isRecord = true → 0 < s.tasks.countP
      (fun task => task.2.task.records x.task.event) + [x].countP fun x' => x'.task.records x.task.event :=
    fun h => by simp [Task.records, h]
  have hwait : x.task.isWait = true → 0 < s.tasks.countP
      (fun task => task.2.task.waits x.task.event) + [x].countP fun x' => x'.task.waits x.task.event :=
    fun h => by simp [Task.waits, h]
  obtain ⟨manager, hexecute, hcounts⟩ := NPUEventManager.Counts.execute C hrecord hwait
  refine ⟨manager, hexecute, ?_⟩
  simpa [Counted, List.countP_singleton, task_paramType_ne] using hcounts

/-! ### Steps -/

/-- The invariant between two steps. -/
def Inv (mode : Mode) (s : Process) : Prop :=
  Arranged mode [] s ∧ Counted [] s

theorem inv_lazyDestroy (A : Arranged mode [x] s) (C : Counted [] s) (hx : x ∈ s.program)
    (hcall : x.call = .destroy)
    (hneeds : mode.isCounted x.event = false → ∀ y, Needs s.program x y → y ∈ s.issued) :
    Inv mode (s.lazyDestroy mode x) := by
  unfold lazyDestroy
  split_ifs with h
  · simp only [Bool.and_eq_true, Bool.not_eq_true'] at h
    refine ⟨A.issue hx (hneeds ?_), C⟩
    rw [Mode.isCounted, h.1.2, h.2, Bool.or_false]
  · exact ⟨A.list hx hcall hneeds, C⟩

theorem inv_execute (A : Arranged mode [x] s) (C : Counted [x] s) (hx : x ∈ s.program)
    (hneeds : (x.call = .destroy → mode.isCounted x.event = false) →
      ∀ y, Needs s.program x y → y ∈ s.issued)
    (hexecute : s.execute mode x = some s') : Inv mode s' := by
  unfold execute at hexecute
  split at hexecute
  · rename_i hcall
    cases hexecute
    exact inv_lazyDestroy A ((counted_destroy_iff hcall).mp C) hx hcall fun h => hneeds fun _ => h
  all_goals
    rename_i hcall
    obtain ⟨manager, hmanager, C'⟩ := C.execute
    rw [hmanager, Option.map_some, Option.some_inj] at hexecute
    subst hexecute
    have A' : Arranged mode [x] { s with manager } := A.congr rfl rfl rfl (fun _ h => h) rfl
    exact ⟨A'.issue hx (hneeds fun h => by rw [hcall] at h; cases h), C'⟩

theorem inv_enqueue (A : Arranged mode [x] s) (C : Counted [x] s) (hx : x ∈ s.program)
    (hlast : ∀ z ∈ s.program, z.number ≤ x.number)
    (hneeds : (x.call = .destroy → mode.isCounted x.event = false) →
      ∀ y, Needs s.program x y → y ∈ s.issued ∨ (queue, y) ∈ s.tasks)
    (henqueue : s.enqueue mode queue x = some s') : Inv mode s' := by
  unfold enqueue at henqueue
  split_ifs at henqueue with hstarted
  · cases henqueue
    exact ⟨A.append hx hlast hstarted hneeds, C.append⟩
  · -- A queue that has not been started holds no task.
    have A' : Arranged mode [x] { s with started := Function.update s.started queue true } := by
      refine A.congr rfl rfl rfl (fun q hq => ?_) rfl
      change Function.update s.started queue true q = true
      by_cases h : q = queue
      · rw [h, Function.update_self]
      · rwa [Function.update_of_ne h]
    refine inv_execute A' C hx (fun hcall y hy => ?_) henqueue
    rcases hneeds hcall y hy with h | h
    · exact h
    · exact absurd (A.queued _ h).2 hstarted

/-- The calls of a program are numbered from zero. -/
theorem number_le_of_call (A : Arranged mode [] s) (hx : x.number = s.program.length) :
    ∀ z ∈ s.program ++ [x], z.number ≤ x.number := by
  intro z hz
  rcases List.mem_append.mp hz with hz | hz
  · exact hx ▸ (A.numbers z hz).le
  · rw [List.mem_singleton.mp hz]

theorem inv_launch {call : DriverCall} {stream : Stream} (h : Inv mode s)
    (hneeds : ∀ y, Needs (s.program ++ [⟨s.program.length, call, event⟩])
      ⟨s.program.length, call, event⟩ y →
      y ∈ s.issued ∨ mode.isDirect stream = false ∧ (mode.queueOf stream, y) ∈ s.tasks)
    (hlaunch : s.launch mode call event stream = some s') : Inv mode s' := by
  obtain ⟨A, C⟩ := h
  set x : Issue := ⟨s.program.length, call, event⟩ with hx
  have hmem : x ∈ s.program ++ [x] := List.mem_append_right _ (List.mem_singleton_self x)
  have A₁ := A.call (x := x) rfl
  simp only [launch] at hlaunch
  split_ifs at hlaunch with hdirect
  · cases hlaunch
    refine ⟨A₁.issue hmem fun y hy => ?_, C⟩
    rcases hneeds y hy with h | ⟨h, -⟩
    · exact h
    · rw [hdirect] at h
      cases h
  · have A₂ : Arranged mode [x]
        { s with program := s.program ++ [x], manager := s.manager.launch x.task } :=
      A₁.congr rfl rfl rfl (fun _ h => h) rfl
    refine inv_enqueue A₂ (Counted.launch C) hmem (number_le_of_call A rfl) (fun _ y hy => ?_) hlaunch
    rcases hneeds y hy with h | ⟨-, h⟩
    · exact .inl h
    · exact .inr h

theorem inv_launchLazyDestroy {current target : Stream} (h : Inv mode s)
    (hneeds : mode.isCounted event = false →
      ∀ y, Needs (s.program ++ [⟨s.program.length, .destroy, event⟩])
        ⟨s.program.length, .destroy, event⟩ y →
        y ∈ s.issued ∨ mode.isDirect current = false ∧ (mode.queueOf target, y) ∈ s.tasks)
    (hlaunch : s.launchLazyDestroy mode event current target = some s') : Inv mode s' := by
  obtain ⟨A, C⟩ := h
  set x : Issue := ⟨s.program.length, .destroy, event⟩ with hx
  have hmem : x ∈ s.program ++ [x] := List.mem_append_right _ (List.mem_singleton_self x)
  have A₁ := A.call (x := x) rfl
  simp only [launchLazyDestroy] at hlaunch
  split_ifs at hlaunch with hdirect
  · cases hlaunch
    refine inv_lazyDestroy A₁ C hmem rfl fun hcounted y hy => ?_
    rcases hneeds hcounted y hy with h | ⟨h, -⟩
    · exact h
    · rw [hdirect] at h
      cases h
  · refine inv_enqueue A₁ ((counted_destroy_iff (x := x) rfl).mpr C) hmem
      (number_le_of_call A rfl) (fun hcounted y hy => ?_) hlaunch
    rcases hneeds (hcounted rfl) y hy with h | ⟨-, h⟩
    · exact .inl h
    · exact .inr h

/-! ### The condition on the calls -/

/-- The condition on a step.  Where the event is not looked up in the counts: when a stream is blocked, its
last record has been issued or is in the queue that the wait goes to; when the event is destroyed, all of
its records and waits have been issued or are in the queue that the destruction goes to. -/
def Safe (mode : Mode) (s : Process) : Step → Prop
  | .block event stream => mode.isCounted event = true ∨
    ∀ task ∈ s.tasks, LastRecord s.program event s.program.length task.2 →
      mode.isDirect stream = false ∧ task.1 = mode.queueOf stream
  | .destroy event current target => mode.isCounted event = true ∨
    ∀ task ∈ s.tasks, task.2.event = event → task.2.call ≠ .destroy →
      mode.isDirect current = false ∧ task.1 = mode.queueOf target
  | _ => True

instance : DecidablePred (Safe mode s)
  | .block _ _ => inferInstanceAs (Decidable (_ ∨ _))
  | .destroy _ _ _ => inferInstanceAs (Decidable (_ ∨ _))
  | .openHandle _ _ | .record _ _ | .dequeue _ | .queryAndDestroy _ => isTrue trivial

/-- A record needs nothing. -/
theorem inv_record {stream : Stream} (h : Inv mode s)
    (hlaunch : s.launch mode .record event stream = some s') : Inv mode s' := by
  refine inv_launch h (fun y hy => ?_) hlaunch
  exact False.elim hy

theorem inv_block {stream : Stream} (h : Inv mode s) (hsafe : Safe mode s (.block event stream))
    (hcounted : mode.isCounted event = true → s.manager.isEventRecorded event = true)
    (hlaunch : s.launch mode .wait event stream = some s') : Inv mode s' := by
  refine inv_launch h (fun y hy => ?_) hlaunch
  obtain ⟨A, C⟩ := h
  have hy' : LastRecord s.program event s.program.length y := (needs_append le_rfl).mp hy
  rcases A.placed y hy'.1 hy.call_ne with hissued | ⟨q, htask⟩ | hhand
  · exact .inl hissued
  · rcases hsafe with hmode | hsafe
    · exact absurd htask (C.not_mem_of_recorded (hcounted hmode) hy'.2.1 hy'.2.2.1)
    · obtain ⟨hdirect, rfl⟩ := hsafe (q, y) htask hy'
      exact .inr ⟨hdirect, htask⟩
  · exact absurd hhand List.not_mem_nil

theorem inv_destroy {current target : Stream} (h : Inv mode s)
    (hsafe : Safe mode s (.destroy event current target))
    (hlaunch : s.launchLazyDestroy mode event current target = some s') : Inv mode s' := by
  refine inv_launchLazyDestroy h (fun hcounted y hy => ?_) hlaunch
  have hy' : Needs s.program ⟨s.program.length, .destroy, event⟩ y := (needs_append le_rfl).mp hy
  rcases h.1.placed y hy'.mem hy.call_ne with hissued | ⟨q, htask⟩ | hhand
  · exact .inl hissued
  · rcases hsafe with hmode | hsafe
    · rw [hmode] at hcounted
      cases hcounted
    · obtain ⟨hdirect, rfl⟩ := hsafe (q, y) htask hy.event_eq hy.call_ne
      exact .inr ⟨hdirect, htask⟩
  · exact absurd hhand List.not_mem_nil

theorem inv_queryAndDestroy {rest : List Issue} (h : Inv mode s) (hnpuEvents : s.npuEvents = x :: rest)
    (hcounted : mode.isCounted x.event = true →
      s.manager.isEventRecorded x.event = true ∧ s.manager.isEventWaited x.event = true) :
    Inv mode (({ s with npuEvents := rest } : Process).issue x) := by
  obtain ⟨A, C⟩ := h
  have hlisted : x ∈ s.npuEvents := hnpuEvents ▸ List.mem_cons_self ..
  refine ⟨(A.unlist hnpuEvents).issue (A.listed x hlisted).1 fun y hy => ?_, C⟩
  cases hmode : mode.isCounted x.event with
  | false => exact A.ready x hlisted hmode y hy
  | true =>
    obtain ⟨hrecorded, hwaited⟩ := hcounted hmode
    rcases A.placed y hy.mem hy.call_ne with hissued | ⟨q, htask⟩ | hhand
    · exact hissued
    · cases hcall : y.call with
      | record => exact absurd htask (C.not_mem_of_recorded hrecorded hcall hy.event_eq)
      | wait => exact absurd htask (C.not_mem_of_waited hwaited hcall hy.event_eq)
      | destroy => exact absurd hcall hy.call_ne
    · exact absurd hhand List.not_mem_nil

theorem inv_dequeue (h : Inv mode s) (hnext : s.next mode (.dequeue queue) = some s') :
    Inv mode s' := by
  obtain ⟨A, C⟩ := h
  rw [next, Option.bind_eq_some_iff] at hnext
  obtain ⟨⟨x, rest⟩, htake, hexecute⟩ := hnext
  obtain ⟨before, after, htasks, rfl, hbefore⟩ := takeFirst_eq_some htake
  have hx : (queue, x) ∈ s.tasks := htasks ▸ List.mem_append_right _ (List.mem_cons_self ..)
  refine inv_execute (A.take htasks) (C.take htasks) (A.queued _ hx).1 (fun hcounted y hy => ?_)
    hexecute
  exact A.issued_of_take htasks hbefore hcounted hy

/-- A change of the states of the events. -/
theorem Inv.setEvents (h : Inv mode s) (events : Event → EventState) :
    Inv mode { s with events } :=
  ⟨h.1.congr rfl rfl rfl (fun _ hq => hq) rfl, h.2⟩

/-- A step that meets the condition keeps the invariant. -/
theorem inv_next {step : Step} (h : Inv mode s) (hsafe : Safe mode s step)
    (hnext : s.next mode step = some s') : Inv mode s' := by
  cases step with
  | openHandle event deviceIndex =>
    rw [next, Option.ite_none_right_eq_some] at hnext
    obtain ⟨-, hnext⟩ := hnext
    cases hnext
    exact h.setEvents _
  | record event stream =>
    rw [next] at hnext
    split at hnext
    · exact inv_record (h.setEvents _) hnext
    · split_ifs at hnext with hdevice
      · exact inv_record h hnext
      · cases hnext
        exact h
    · cases hnext
  | block event stream =>
    rw [next] at hnext
    split at hnext
    · cases hnext
      exact h
    · rw [Option.ite_none_left_eq_some] at hnext
      obtain ⟨hspin, hnext⟩ := hnext
      refine inv_block h hsafe (fun hmode => ?_) hnext
      simpa [hmode] using hspin
    · cases hnext
  | destroy event current target =>
    rw [next] at hnext
    split at hnext
    · cases hnext
      exact h.setEvents _
    · rw [Option.ite_none_right_eq_some] at hnext
      exact inv_destroy (h.setEvents (Function.update s.events event .destroyed)) hsafe hnext.2
    · cases hnext
  | dequeue queue => exact inv_dequeue h hnext
  | queryAndDestroy complete =>
    rw [next] at hnext
    split at hnext
    · cases hnext
    · rename_i x rest hnpuEvents
      rw [ite_eq_iff] at hnext
      rcases hnext with ⟨hdone, hnext⟩ | ⟨-, hnext⟩
      · cases hnext
        refine inv_queryAndDestroy h hnpuEvents fun hmode => ?_
        rwa [if_pos hmode, Bool.and_eq_true] at hdone
      · cases hnext
        exact h

theorem inv_init : Inv mode {} := by
  refine ⟨⟨nofun, nofun, nofun, nofun, nofun, fun before x after heq => ?_, fun before x after heq => ?_,
    nofun⟩, fun e => rfl, fun e => rfl⟩
  · simp at heq
  · simp at heq

/-- In a run whose steps all meet the condition, every wait is issued after the last record of its event
before it, and every event is destroyed after its records and waits. -/
theorem ordered_of_safe (mode : Mode) (ls : List Step) (s : Process)
    (hguard : Machine.Guarded (next mode) (Safe mode) {} ls) (hrun : runFromInit mode ls = some s) :
    s.Ordered :=
  (Machine.guarded_run_induction (fun _ _ _ => inv_next) inv_init hguard hrun).1.ordered

/-- Two streams of a device share its queue; an event is recorded on one, the other is blocked on it, and
the event is destroyed. -/
def sharedQueue : List Step :=
  [.record 1 ⟨0, 0, false⟩, .record 2 ⟨0, 0, false⟩, .block 2 ⟨0, 1, false⟩,
    .destroy 2 ⟨0, 0, false⟩ ⟨0, 0, false⟩, .dequeue ⟨0, none⟩, .dequeue ⟨0, none⟩, .dequeue ⟨0, none⟩]

theorem ordered_sharedQueue : ∃ s, runFromInit {} sharedQueue = some s ∧
    s.issued.length = 4 ∧ s.Ordered := by
  have hrun : (runFromInit {} sharedQueue).any (fun s => decide (s.issued.length = 4)) = true := by
    decide +kernel
  rw [Option.any_eq_true_iff_get] at hrun
  obtain ⟨hsome, hlength⟩ := hrun
  refine ⟨_, (Option.some_get hsome).symm, of_decide_eq_true hlength, ?_⟩
  refine ordered_of_safe {} sharedQueue _ ?_ (Option.some_get hsome).symm
  decide +kernel

/-- An event is recorded on a stream of one device, whose queue is slow, and a stream of another device is
blocked on it. -/
def twoDevices : List Step :=
  [.record 1 ⟨0, 0, false⟩, .record 2 ⟨0, 0, false⟩, .block 2 ⟨1, 0, false⟩]

theorem not_ordered_twoDevices :
    ¬∀ (mode : Mode) (ls : List Step) (s : Process), runFromInit mode ls = some s → s.Ordered := by
  intro hall
  have hrun : (runFromInit {} twoDevices).any (fun s => decide
      (s.issued = [⟨0, .record, 1⟩] ++ [⟨2, .wait, 2⟩] ∧
        Needs s.program ⟨2, .wait, 2⟩ ⟨1, .record, 2⟩)) = true := by
    decide +kernel
  rw [Option.any_eq_true_iff_get] at hrun
  obtain ⟨hsome, hstate⟩ := hrun
  obtain ⟨hissued, hneeds⟩ := of_decide_eq_true hstate
  have hmem := hall {} twoDevices _ (Option.some_get hsome).symm [⟨0, .record, 1⟩] ⟨2, .wait, 2⟩ []
    hissued ⟨1, .record, 2⟩ hneeds
  rw [List.mem_singleton] at hmem
  cases hmem

end Process

end TorchNpu.Events
