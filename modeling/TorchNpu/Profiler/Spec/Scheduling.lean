/-
  Which tasks the manager starts, and when.

  A task is started at most once and after all its dependencies, in every run.  That every blocking task
  whose dependencies have succeeded is started before `run` ends fails in two ways: a task that becomes
  ready inside `__schedule`, because a task of the main process is done, is forgotten when the list of ready
  tasks is overwritten; and `run` ends when no blocking task is listened to, also when ready tasks are still
  waiting for a channel.
-/
import TorchNpu.Profiler.Spec.Tasks

namespace TorchNpu.Profiler

variable {α V : Type*} [DecidableEq α] {tasks : List (ConcurrentTask α)} {m m' : Manager α V} {name : α}
  {order : List α} {info : TaskInfo α V}

/-! ### What is claimed -/

/-- Every blocking task whose dependencies have all succeeded has been started. -/
def LosesNothing (tasks : List (ConcurrentTask α)) (log : List (TaskEvent α)) : Prop :=
  ∀ task ∈ tasks, task.mode.nonBlocking = false → (∀ dep ∈ task.deps, .succeeded dep ∈ log) →
    .started task.name ∈ log

/-- Where the manager may be: dependencies are respected, and nothing is lost once `run` has ended without
an exception. -/
def Schedules (tasks : List (ConcurrentTask α)) (m : Manager α V) : Prop :=
  RespectsDeps tasks m.log ∧ (m.position = .ended false → LosesNothing tasks m.log)

/-! ### Runs in which no ready task is lost -/

/-- A blocking task is listened to. -/
def Manager.Busy (m : Manager α V) : Prop :=
  ∃ n ∈ m.listeningInfos, m.isBlocking n = true

instance : Decidable m.Busy :=
  inferInstanceAs (Decidable (∃ n ∈ m.listeningInfos, _))

/-- The task that is started next. -/
def Manager.nextToStart (m : Manager α V) : Option α :=
  match m.position with
  | .starting slice _ => slice.head?
  | _ => none

/-- The condition on a step.  When `__schedule` begins, the blocking ready tasks have a channel each, or a
blocking task is listened to or about to be; and no task is waiting for a task of the main process alone
when that task succeeds. -/
def Manager.Careful (m : Manager α V) : Manager.Label α V → Prop
  | .schedule =>
    (∀ n ∈ m.readyTasks.drop m.freeChannel, m.isBlocking n = false) ∨ m.Busy ∨
      ∃ n ∈ m.readyTasks.take m.freeChannel, m.isBlocking n = true ∧ m.isListened n = true
  | .start (.returns retCode _ order) =>
    retCode = 0 → ∀ name ∈ m.nextToStart, m.isListened name = false →
      ∀ n ∈ order, ∀ info ∈ m.taskInfos n, info.preTasks ≠ {name}
  | _ => True

instance : DecidablePred (m.Careful)
  | .schedule => inferInstanceAs (Decidable (_ ∨ _ ∨ _))
  | .start (.returns _ _ _) => inferInstanceAs (Decidable (_ → _))
  | .start .raises | .scheduled | .listen | .retCode .. | .output .. | .exit .. | .listened => isTrue trivial

/-- What `Careful` is there for: `run` does not end while a blocking task waits. -/
def Manager.HasRoom (m : Manager α V) : Prop :=
  match m.position with
  | .starting slice waiting =>
    (∀ n ∈ waiting, m.isBlocking n = false) ∨ m.Busy ∨
      ∃ n ∈ slice, m.isBlocking n = true ∧ m.isListened n = true
  | .listen => (∀ n ∈ m.readyTasks, m.isBlocking n = false) ∨ m.Busy
  | .schedule | .poll | .ended _ => True

/-- The invariant of the runs in which no ready task is lost. -/
structure Fair (tasks : List (ConcurrentTask α)) (m : Manager α V) : Prop where
  inv : Inv tasks m
  waits : (∀ raised, m.position ≠ .ended raised) → Waits m m.queue
  hasRoom : m.HasRoom
  ended : m.position = .ended false → LosesNothing tasks m.log

/-- The two managers have the same tasks. -/
def SameTasks (m m' : Manager α V) : Prop :=
  ∀ n, (m'.taskInfos n).map TaskInfo.task = (m.taskInfos n).map TaskInfo.task

omit [DecidableEq α] in
theorem SameTasks.isBlocking (h : SameTasks m m') : m'.isBlocking = m.isBlocking := by
  funext n
  have heq := congrArg (Option.any fun task : ConcurrentTask α => !task.mode.nonBlocking) (h n)
  simpa [Option.any_map, Manager.isBlocking] using heq

omit [DecidableEq α] in
theorem SameTasks.isListened (h : SameTasks m m') : m'.isListened = m.isListened := by
  funext n
  have heq := congrArg (Option.any fun task : ConcurrentTask α => !task.mode.inMainProcess) (h n)
  simpa [Option.any_map, Manager.isListened] using heq

theorem sameTasks_store {info' : TaskInfo α V} (hinfo : m.taskInfos name = some info)
    (htask : info'.task = info.task) : SameTasks m (m.store name info') := by
  intro n
  by_cases hn : n = name
  · subst hn
    rw [store_self, hinfo, Option.map_some, Option.map_some, htask]
  · rw [store_of_ne hn]

theorem sameTasks_begin (hinfo : m.taskInfos name = some info) : SameTasks m (m.begin name info) := by
  have h : SameTasks m (m.store name { info with status := .running }) := sameTasks_store hinfo rfl
  exact h

theorem Done.sameTasks {deps : List α} (D : Done m m' name order deps) : SameTasks m m' := by
  intro n
  cases hy : m'.taskInfos n with
  | none =>
    have hnone : m.taskInfos n = none := by
      rw [← Option.not_isSome_iff_eq_none, ← D.isSome, hy]
      exact Bool.false_ne_true
    rw [hnone]
  | some y =>
    obtain ⟨x, hx, ht, -⟩ := D.infos n y hy
    rw [hx, Option.map_some, Option.map_some, ht]

omit [DecidableEq α] in
theorem Manager.Busy.mono (B : m.Busy) (h : SameTasks m m')
    (hlistening : ∀ n ∈ m.listeningInfos, n ∈ m'.listeningInfos) : m'.Busy := by
  obtain ⟨n, hn, hblocking⟩ := B
  refine ⟨n, hlistening n hn, ?_⟩
  rw [h.isBlocking]
  exact hblocking

omit [DecidableEq α] in
/-- A task of the main process leaves the slice. -/
theorem hasRoom_tail {slice waiting : List α} (hroom : m.HasRoom)
    (hpos : m.position = .starting (name :: slice) waiting) (hlistened : m.isListened name = false)
    (h : SameTasks m m') (hlistening : ∀ n ∈ m.listeningInfos, n ∈ m'.listeningInfos)
    (hpos' : m'.position = .starting slice waiting) : m'.HasRoom := by
  rw [Manager.HasRoom, hpos] at hroom
  rw [Manager.HasRoom, hpos']
  dsimp only at hroom ⊢
  rw [h.isBlocking, h.isListened]
  rcases hroom with hwaiting | hbusy | ⟨n, hn, hblocking, hn'⟩
  · exact .inl hwaiting
  · exact .inr (.inl (hbusy.mono h hlistening))
  · refine .inr (.inr ⟨n, (List.mem_cons.mp hn).resolve_left ?_, hblocking, hn'⟩)
    rintro rfl
    exact absurd (hn'.symm.trans hlistened) (by decide)

omit [DecidableEq α] in
theorem isListened_eq (hinfo : m.taskInfos name = some info) :
    m.isListened name = !info.task.mode.inMainProcess := by
  rw [Manager.isListened, hinfo, Option.any_some]

omit [DecidableEq α] in
theorem Waits.congr {queue queue' : List α} (W : Waits m queue) (hqueue : ∀ n ∈ queue, n ∈ queue')
    (hinfos : m'.taskInfos = m.taskInfos) (hlog : m'.log = m.log) : Waits m' queue' := by
  intro n info hinfo hempty hstarted
  rw [hinfos] at hinfo
  rw [hlog] at hstarted
  exact hqueue n (W n info hinfo hempty hstarted)

omit [DecidableEq α] in
theorem not_ended_of_eq {position : Position α} (hpos : m.position = position)
    (hne : ∀ raised, position ≠ .ended raised) : ∀ raised, m.position ≠ .ended raised := by
  rw [hpos]
  exact hne

omit [DecidableEq α] in
/-- What is still to be shown for a step that does not end `run`. -/
theorem Fair.of_waits (I : Inv tasks m) (W : Waits m m.queue) (hroom : m.HasRoom)
    (hpos : ∀ raised, m.position ≠ .ended raised) : Fair tasks m :=
  ⟨I, fun _ => W, hroom, fun hend => absurd hend (hpos false)⟩

/-- A task that runs outside the main process leaves the slice and is listened to. -/
theorem hasRoom_launched {slice waiting : List α} (hroom : m.HasRoom)
    (hpos : m.position = .starting (name :: slice) waiting) (hinfo : m.taskInfos name = some info) :
    Manager.HasRoom { m.begin name info with
      listeningInfos := m.listeningInfos ++ [name], position := .starting slice waiting } := by
  have hsame := sameTasks_begin hinfo
  rw [Manager.HasRoom, hpos] at hroom
  have hlistening : ∀ n ∈ m.listeningInfos, n ∈ m.listeningInfos ++ [name] :=
    fun n hn => List.mem_append_left _ hn
  rcases hroom with hwaiting | hbusy | ⟨n, hn, hblocking, hlistened⟩
  · refine .inl fun n hn => ?_
    exact (congrFun hsame.isBlocking n).trans (hwaiting n hn)
  · exact .inr (.inl (hbusy.mono hsame hlistening))
  · rcases List.mem_cons.mp hn with rfl | hn
    · refine .inr (.inl ⟨n, List.mem_append_right _ List.mem_cons_self, ?_⟩)
      exact (congrFun hsame.isBlocking n).trans hblocking
    · refine .inr (.inr ⟨n, hn, ?_, ?_⟩)
      · exact (congrFun hsame.isBlocking n).trans hblocking
      · exact (congrFun hsame.isListened n).trans hlistened

/-- Room depends on the tasks, the lists and the position. -/
theorem hasRoom_store {info' : TaskInfo α V} (hroom : m.HasRoom) (hinfo : m.taskInfos name = some info)
    (htask : info'.task = info.task) : (m.store name info').HasRoom := by
  have hsame := sameTasks_store hinfo htask
  have hbusy : m.Busy → (m.store name info').Busy := fun hbusy => hbusy.mono hsame fun n hn => hn
  rw [Manager.HasRoom] at hroom ⊢
  rw [hsame.isBlocking, hsame.isListened]
  have hpos : (m.store name info').position = m.position := rfl
  rw [hpos]
  cases hm : m.position with
  | starting slice waiting =>
    rw [hm] at hroom
    exact hroom.imp_right (Or.imp_left hbusy)
  | listen =>
    rw [hm] at hroom
    exact hroom.imp_right hbusy
  | schedule | poll | ended raised => trivial

/-- No task is added to the ready ones when a task of the main process has succeeded. -/
theorem ready_eq_nil {slice waiting : List α} {output : Option V} (S : Sound tasks (m.begin name info))
    (hnames : (tasks.map ConcurrentTask.name).Nodup)
    (hcareful : m.Careful (.start (.returns 0 output order)))
    (hpos : m.position = .starting (name :: slice) waiting) (hinfo : m.taskInfos name = some info)
    (hmode : info.task.mode.inMainProcess = true) (horder : (m.begin name info).Iterates name order) :
    (order.filter fun n =>
      ((m.begin name info).taskInfos n).any fun info => info.preTasks.erase name = ∅) = [] := by
  have hlistened : m.isListened name = false := by
    rw [isListened_eq hinfo, hmode]
    rfl
  have hfirst : name ∈ m.nextToStart := by
    rw [Manager.nextToStart, hpos]
    rfl
  refine List.eq_nil_iff_forall_not_mem.mpr fun n hn => ?_
  obtain ⟨x, hx, hmem, hempty⟩ := exists_of_mem_ready hnames S store_self rfl horder n hn
  have hne : n ≠ name := by
    rintro rfl
    exact notMem_order hnames S store_self rfl horder (List.mem_filter.mp hn).1
  have hx' : m.taskInfos n = some x := (store_of_ne hne).symm.trans hx
  refine hcareful rfl name hfirst hlistened n (List.mem_filter.mp hn).1 x hx' ?_
  rw [← Finset.insert_erase hmem, hempty]
  rfl

/-- The end of `run`: what is ready is not blocking. -/
theorem losesNothing_of_listen (hnames : (tasks.map ConcurrentTask.name).Nodup) (F : Fair tasks m)
    (hpos : m.position = .listen)
    (hlistening : ∀ n ∈ m.listeningInfos, m.isBlocking n = false) : LosesNothing tasks m.log := by
  intro task htask hmode hdeps
  by_contra hstarted
  have W := F.waits (not_ended_of_eq hpos (by simp))
  rw [Manager.queue, hpos] at W
  obtain ⟨info, hinfo⟩ := Option.isSome_iff_exists.mp (F.inv.sound.known task htask)
  obtain ⟨hmem, hname⟩ := F.inv.sound.task task.name info hinfo
  obtain rfl := eq_of_name_eq hnames hmem htask hname
  have hempty : info.preTasks = ∅ := by
    refine Finset.eq_empty_of_forall_notMem fun d hd => ?_
    obtain ⟨hdep, hnot⟩ := (F.inv.sound.pre _ info hinfo d).mp hd
    exact hnot (hdeps d hdep)
  have hready := W _ info hinfo hempty hstarted
  have hblocking : m.isBlocking info.task.name = true := by
    rw [Manager.isBlocking, hinfo, Option.any_some, hmode]
    rfl
  have hroom := F.hasRoom
  rw [Manager.HasRoom, hpos] at hroom
  rcases hroom with hnone | ⟨n, hn, hbusy⟩
  · exact absurd (hblocking.symm.trans (hnone _ hready)) (by decide)
  · exact absurd (hbusy.symm.trans (hlistening n hn)) (by decide)

theorem Fair.next {l : Manager.Label α V} (hnames : (tasks.map ConcurrentTask.name).Nodup)
    (F : Fair tasks m) (hcareful : m.Careful l) (h : m.next l = some m') : Fair tasks m' := by
  have I' := F.inv.next hnames h
  have hroom := F.hasRoom
  cases stepped_of_next h with
  | schedule hpos =>
    have W := F.waits (not_ended_of_eq hpos (by simp))
    refine .of_waits I' (W.congr (fun n hn => ?_) rfl rfl) hcareful (by simp)
    rw [Manager.queue, hpos] at hn
    rw [queue_of_starting rfl, List.take_append_drop]
    exact hn
  | raised hpos hinfo => exact ⟨I', fun hne => absurd rfl (hne true), trivial, by simp⟩
  | @launched name info slice waiting outcome hpos hinfo hmode =>
    have W := F.waits (not_ended_of_eq hpos (by simp))
    rw [queue_of_starting hpos, List.cons_append] at W
    exact .of_waits I' ((W.begin info).congr (fun n hn => hn) rfl rfl) (hasRoom_launched hroom hpos hinfo) (by simp)
  | @ran name info slice waiting output order m₁ hpos hinfo hmode horder hdone =>
    have W := F.waits (not_ended_of_eq hpos (by simp))
    rw [queue_of_starting hpos, List.cons_append] at W
    obtain ⟨S₁, Q₁, horder', D⟩ := done_of_begin hnames F.inv hpos hinfo horder hdone
    have W₁ := Waits.done D (W.begin info)
    rw [ready_eq_nil S₁ hnames hcareful hpos hinfo hmode horder', List.append_nil] at W₁
    refine .of_waits I' (W₁.congr (fun n hn => hn) rfl rfl) ?_ (by simp)
    have hsame : SameTasks m m₁ := fun n => (D.sameTasks n).trans (sameTasks_begin hinfo n)
    have hlistened : m.isListened name = false := by
      rw [isListened_eq hinfo, hmode]
      rfl
    exact hasRoom_tail hroom hpos hlistened hsame (fun n hn => D.listening ▸ hn) rfl
  | @ranInVain name info slice waiting retCode output order hpos hinfo hmode =>
    have W := F.waits (not_ended_of_eq hpos (by simp))
    rw [queue_of_starting hpos, List.cons_append] at W
    have hinfo' : (m.begin name info).taskInfos name = some { info with status := .running } := store_self
    have W₁ := (W.begin info).store { info with status := .failed } hinfo' rfl
    refine .of_waits I' (W₁.congr (fun n hn => hn) rfl rfl) ?_ (by simp)
    have hfailed : SameTasks (m.begin name info)
        ((m.begin name info).store name { info with status := .failed }) := sameTasks_store hinfo' rfl
    have hsame : SameTasks m ((m.begin name info).store name { info with status := .failed }) :=
      fun n => (hfailed n).trans (sameTasks_begin hinfo n)
    have hlistened : m.isListened name = false := by
      rw [isListened_eq hinfo, hmode]
      rfl
    exact hasRoom_tail hroom hpos hlistened hsame (fun n hn => hn) rfl
  | scheduled hpos =>
    have W := F.waits (not_ended_of_eq hpos (by simp))
    rw [queue_of_starting hpos, List.nil_append] at W
    refine .of_waits I' (W.congr (fun n hn => hn) rfl rfl) ?_ (by simp)
    rw [Manager.HasRoom, hpos] at hroom
    rcases hroom with hwaiting | hbusy | ⟨n, hn, -⟩
    · exact .inl hwaiting
    · exact .inr hbusy
    · exact absurd hn List.not_mem_nil
  | ended hpos hlistening =>
    have hlog : LosesNothing tasks m.log := losesNothing_of_listen hnames F hpos hlistening
    exact ⟨I', fun hne => absurd rfl (hne false), trivial, fun _ => hlog⟩
  | polls hpos =>
    have W := F.waits (not_ended_of_eq hpos (by simp))
    rw [Manager.queue, hpos] at W
    exact .of_waits I' (W.congr (fun n hn => hn) rfl rfl) trivial (by simp)
  | received hpos hname hinfo hstatus horder hdone =>
    have W := F.waits (not_ended_of_eq hpos (by simp))
    have hnot := notMem_order hnames F.inv.sound hinfo hstatus horder
    have D := onTaskDone_succeed hinfo (horder _ hinfo).1 hnot hdone
    have W₁ := Waits.done D W
    rw [queue_of_poll hpos, ← D.ready] at W₁
    exact .of_waits I' (W₁.congr (fun n hn => hn) rfl rfl) trivial (by simp)
  | @receivedFailure _ info _ _ hpos hname hinfo hstatus =>
    have W := (F.waits (not_ended_of_eq hpos (by simp))).store { info with status := .failed } hinfo rfl
    rw [queue_of_poll hpos] at W
    exact .of_waits I' (W.congr (fun n hn => hn) rfl rfl) trivial (by simp)
  | receivedRaising => exact ⟨I', fun hne => absurd rfl (hne true), trivial, by simp⟩
  | output hinfo =>
    exact ⟨I', fun hne => (F.waits hne).store _ hinfo rfl, hasRoom_store hroom hinfo rfl, F.ended⟩
  | @exit name info hpos hname hinfo =>
    have W := (F.waits (not_ended_of_eq hpos (by simp))).store info.leave hinfo info.leave_sets.2.1
    rw [queue_of_poll hpos] at W
    exact .of_waits I' (W.congr (fun n hn => hn) rfl rfl) trivial (by simp)
  | exitRaising => exact ⟨I', fun hne => absurd rfl (hne true), trivial, by simp⟩
  | listened hpos =>
    have W := F.waits (not_ended_of_eq hpos (by simp))
    rw [queue_of_poll hpos] at W
    exact .of_waits I' (W.congr (fun n hn => hn) rfl rfl) trivial (by simp)

/-! ### Adding tasks -/

/-- What `add_task` keeps. -/
structure Added (tasks : List (ConcurrentTask α)) (m : Manager α V) : Prop where
  sound : Sound tasks m
  queued : Queued m m.readyTasks
  waits : Waits m m.readyTasks
  ready : ∀ n ∈ m.readyTasks, (m.taskInfos n).isSome
  deps : ∀ task ∈ tasks, ∀ d ∈ task.deps, (m.taskInfos d).isSome
  log : m.log = []
  listening : m.listeningInfos = []
  position : m.position = .schedule

omit [DecidableEq α] in
theorem added_nil (maxConcurrentNum : ℕ) : Added [] ({ maxConcurrentNum } : Manager α V) where
  sound := by
    refine ⟨by simp, by simp, by simp, by simp, by simp, by simp, by simp, fun before after name h => ?_⟩
    exact absurd h (by simp)
  queued := ⟨List.nodup_nil, by simp, by simp⟩
  waits := fun _ _ h => by cases h
  ready := by simp
  deps := by simp
  log := rfl
  listening := rfl
  position := rfl

/-- The tasks after `add_task`. -/
theorem addTask_cases {task : ConcurrentTask α} (h : m.addTask task = some m') {n : α}
    {y : TaskInfo α V} (hy : m'.taskInfos n = some y) :
    (n = task.name ∧ y = { task, preTasks := task.deps.toFinset }) ∨
      (n ≠ task.name ∧ ∃ x, m.taskInfos n = some x ∧ y = if n ∈ task.deps then
        { x with postTasks := insert task.name x.postTasks } else x) := by
  rw [Manager.addTask] at h
  obtain ⟨hdeps, h⟩ := Option.ite_none_right_eq_some.mp h
  obtain rfl := Option.some_inj.mp h
  dsimp only at hy
  by_cases hn : n = task.name
  · rw [hn, Function.update_self] at hy
    exact .inl ⟨hn, (Option.some_inj.mp hy).symm⟩
  · rw [Function.update_of_ne hn] at hy
    obtain ⟨x, hx, rfl⟩ := Option.map_eq_some_iff.mp hy
    exact .inr ⟨hn, x, hx, rfl⟩

theorem addTask_isSome {task : ConcurrentTask α} (h : m.addTask task = some m') (n : α) :
    (m'.taskInfos n).isSome = (decide (n = task.name) || (m.taskInfos n).isSome) := by
  rw [Manager.addTask] at h
  obtain ⟨hdeps, h⟩ := Option.ite_none_right_eq_some.mp h
  obtain rfl := Option.some_inj.mp h
  by_cases hn : n = task.name
  · simp [hn]
  · simp [hn]

/-- What `add_task` finds and does with the rest of the manager. -/
theorem addTask_rest {task : ConcurrentTask α} (h : m.addTask task = some m') :
    (∀ d ∈ task.deps, (m.taskInfos d).isSome) ∧ m'.log = m.log ∧ m'.listeningInfos = m.listeningInfos ∧
      m'.position = m.position ∧
      m'.readyTasks = if task.deps = [] then m.readyTasks ++ [task.name] else m.readyTasks := by
  rw [Manager.addTask] at h
  obtain ⟨hdeps, h⟩ := Option.ite_none_right_eq_some.mp h
  obtain rfl := Option.some_inj.mp h
  exact ⟨hdeps, rfl, rfl, rfl, rfl⟩

omit [DecidableEq α] in
/-- A task has a name of its own. -/
theorem Added.unknown {task : ConcurrentTask α} (A : Added tasks m)
    (hname : task.name ∉ tasks.map ConcurrentTask.name) : m.taskInfos task.name = none := by
  by_contra hsome
  obtain ⟨info, hinfo⟩ := Option.ne_none_iff_exists'.mp hsome
  obtain ⟨hmem, heq⟩ := A.sound.task task.name info hinfo
  exact hname (heq ▸ List.mem_map_of_mem hmem)

theorem Added.sound_addTask {task : ConcurrentTask α} (A : Added tasks m)
    (hname : task.name ∉ tasks.map ConcurrentTask.name) (h : m.addTask task = some m') :
    Sound (tasks ++ [task]) m' := by
  obtain ⟨hdeps, hlog, hlistening, hposition, hready⟩ := addTask_rest h
  have hlog' : m'.log = [] := hlog.trans A.log
  have hunknown := A.unknown hname
  have hself : ∀ t ∈ tasks, task.name ∉ t.deps := by
    intro t ht hmem
    have hsome := A.deps t ht task.name hmem
    rw [hunknown] at hsome
    exact Bool.false_ne_true hsome
  have hself' : task.name ∉ task.deps := by
    intro hmem
    have hsome := hdeps task.name hmem
    rw [hunknown] at hsome
    exact Bool.false_ne_true hsome
  refine ⟨fun n y hy => ?_, fun t ht => ?_, fun n y hy d => ?_, fun n y hy p => ?_, fun n y hy => ?_,
    fun n y hy => ?_, ?_, ?_⟩
  · rcases addTask_cases h hy with ⟨rfl, rfl⟩ | ⟨hn, x, hx, rfl⟩
    · exact ⟨List.mem_append_right _ List.mem_cons_self, rfl⟩
    · obtain ⟨hmem, heq⟩ := A.sound.task n x hx
      split_ifs
      · exact ⟨List.mem_append_left _ hmem, heq⟩
      · exact ⟨List.mem_append_left _ hmem, heq⟩
  · rw [addTask_isSome h]
    rcases List.mem_append.mp ht with ht | ht
    · rw [A.sound.known t ht, Bool.or_true]
    · rw [List.mem_singleton.mp ht, decide_eq_true rfl, Bool.true_or]
  · rw [hlog']
    rcases addTask_cases h hy with ⟨rfl, rfl⟩ | ⟨hn, x, hx, rfl⟩
    · simp
    · have hpre := A.sound.pre n x hx d
      rw [A.log] at hpre
      split_ifs
      · exact hpre
      · exact hpre
  · rw [hlog']
    rcases addTask_cases h hy with ⟨rfl, rfl⟩ | ⟨hn, x, hx, rfl⟩
    · -- Nobody can depend on a task that has only now become known.
      refine iff_of_false (Finset.notMem_empty p) ?_
      rintro ⟨-, t, ht, -, hdep⟩
      rcases List.mem_append.mp ht with ht | ht
      · exact hself t ht hdep
      · exact hself' (List.mem_singleton.mp ht ▸ hdep)
    · have hpost := A.sound.post n x hx p
      rw [A.log] at hpost
      split_ifs with hmem
      · rw [Finset.mem_insert, hpost]
        simp only [List.mem_append, List.mem_singleton]
        constructor
        · rintro (rfl | ⟨hnot, t, ht, heq, hdep⟩)
          · exact ⟨List.not_mem_nil, task, .inr rfl, rfl, hmem⟩
          · exact ⟨hnot, t, .inl ht, heq, hdep⟩
        · rintro ⟨hnot, t, ht | rfl, heq, hdep⟩
          · exact .inr ⟨hnot, t, ht, heq, hdep⟩
          · exact .inl heq.symm
      · rw [hpost]
        simp only [List.mem_append, List.mem_singleton]
        constructor
        · rintro ⟨hnot, t, ht, heq, hdep⟩
          exact ⟨hnot, t, .inl ht, heq, hdep⟩
        · rintro ⟨hnot, t, ht | rfl, heq, hdep⟩
          · exact ⟨hnot, t, ht, heq, hdep⟩
          · exact absurd hdep hmem
  · rw [hlog']
    rcases addTask_cases h hy with ⟨rfl, rfl⟩ | ⟨hn, x, hx, rfl⟩
    · simp
    · have hsucceeded := A.sound.succeeded n x hx
      rw [A.log] at hsucceeded
      split_ifs
      · exact hsucceeded
      · exact hsucceeded
  · rw [hlog']
    rcases addTask_cases h hy with ⟨rfl, rfl⟩ | ⟨hn, x, hx, rfl⟩
    · simp
    · have hstarted := A.sound.started n x hx
      rw [A.log] at hstarted
      split_ifs
      · exact hstarted
      · exact hstarted
  · rw [hlistening, A.listening]
    simp
  · rw [hlog']
    intro before after name heq
    exact absurd heq (by simp)

theorem Added.addTask {task : ConcurrentTask α} (A : Added tasks m)
    (hname : task.name ∉ tasks.map ConcurrentTask.name) (h : m.addTask task = some m') :
    Added (tasks ++ [task]) m' := by
  obtain ⟨hdeps, hlog, hlistening, hposition, hready⟩ := addTask_rest h
  have hmem : ∀ n, n ∈ m'.readyTasks ↔ n ∈ m.readyTasks ∨ n = task.name ∧ task.deps = [] := by
    intro n
    rw [hready]
    split_ifs with hnil <;> simp [hnil]
  have hfresh : task.name ∉ m.readyTasks := by
    intro hmem
    have hsome := A.ready _ hmem
    rw [A.unknown hname] at hsome
    exact Bool.false_ne_true hsome
  refine ⟨A.sound_addTask hname h, ⟨?_, ?_, fun n hn y hy => ?_⟩, fun n y hy hempty hstarted => ?_,
    fun n hn => ?_, fun t ht d hd => ?_, hlog.trans A.log, hlistening.trans A.listening,
    hposition.trans A.position⟩
  · rw [hready]
    split_ifs with hnil
    · exact List.nodup_append_comm.mp (List.nodup_cons.mpr ⟨hfresh, A.queued.nodup⟩)
    · exact A.queued.nodup
  · rw [hlog, A.log]
    exact fun _ _ => List.not_mem_nil
  · rcases addTask_cases h hy with ⟨rfl, rfl⟩ | ⟨hne, x, hx, rfl⟩
    · rcases (hmem task.name).mp hn with hold | ⟨-, hnil⟩
      · exact absurd hold hfresh
      · rw [hnil]
        rfl
    · have hold : n ∈ m.readyTasks := ((hmem n).mp hn).resolve_right fun hnew => hne hnew.1
      have hfree := A.queued.free n hold x hx
      split_ifs
      · exact hfree
      · exact hfree
  · rcases addTask_cases h hy with ⟨rfl, rfl⟩ | ⟨hne, x, hx, rfl⟩
    · exact (hmem task.name).mpr (.inr ⟨rfl, List.toFinset_eq_empty_iff _ |>.mp hempty⟩)
    · have hempty' : x.preTasks = ∅ := by
        split_ifs at hempty
        · exact hempty
        · exact hempty
      rw [hlog] at hstarted
      exact (hmem n).mpr (.inl (A.waits n x hx hempty' hstarted))
  · rw [addTask_isSome h]
    rcases (hmem n).mp hn with hold | ⟨rfl, -⟩
    · rw [A.ready n hold, Bool.or_true]
    · rw [decide_eq_true rfl, Bool.true_or]
  · rw [addTask_isSome h]
    rcases List.mem_append.mp ht with ht | ht
    · rw [A.deps t ht d hd, Bool.or_true]
    · rw [hdeps d (List.mem_singleton.mp ht ▸ hd), Bool.or_true]

theorem Added.addTasks {rest : List (ConcurrentTask α)} (A : Added tasks m)
    (hnames : ((tasks ++ rest).map ConcurrentTask.name).Nodup) (h : m.addTasks rest = some m') :
    Added (tasks ++ rest) m' := by
  induction rest generalizing tasks m with
  | nil =>
    obtain rfl : m = m' := Option.some_inj.mp h
    rw [List.append_nil]
    exact A
  | cons task rest ih =>
    obtain ⟨m₁, h₁, h⟩ := Option.bind_eq_some_iff.mp h
    have hname : task.name ∉ tasks.map ConcurrentTask.name := by
      rw [List.map_append, List.map_cons] at hnames
      exact fun hmem => List.disjoint_of_nodup_append hnames hmem List.mem_cons_self
    rw [List.append_cons] at hnames ⊢
    exact ih (A.addTask hname h₁) hnames h

omit [DecidableEq α] in
theorem Added.fair (A : Added tasks m) : Fair tasks m := by
  have hqueue : m.queue = m.readyTasks := by
    rw [Manager.queue, A.position]
  have hpos : ∀ raised, m.position ≠ .ended raised := not_ended_of_eq A.position (by simp)
  have hroom : m.HasRoom := by
    rw [Manager.HasRoom, A.position]
    trivial
  exact .of_waits ⟨A.sound, hqueue ▸ A.queued⟩ (hqueue ▸ A.waits) hroom hpos

/-! ### Whole runs -/

/-- In every run, each task is started at most once and after its dependencies have succeeded; and nothing
is lost at the end of `run` when all its steps are careful. -/
theorem schedules_of_careful (maxConcurrentNum : ℕ) (hnames : (tasks.map ConcurrentTask.name).Nodup)
    {m₀ : Manager α V} (hadd : Manager.addTasks { maxConcurrentNum } tasks = some m₀)
    (ls : List (Manager.Label α V)) (hrun : Machine.run Manager.next m₀ ls = some m) :
    RespectsDeps tasks m.log ∧ (Machine.Guarded Manager.next Manager.Careful m₀ ls → Schedules tasks m) := by
  have A : Added tasks m₀ := (added_nil maxConcurrentNum).addTasks hnames hadd
  have I : Inv tasks m := Machine.run_induction (fun _ _ _ I h => I.next hnames h) A.fair.inv hrun
  refine ⟨I.sound.respects, fun hguard => ⟨I.sound.respects, ?_⟩⟩
  have F : Fair tasks m :=
    Machine.guarded_run_induction (fun _ _ _ F hG h => F.next hnames hG h) A.fair hguard hrun
  exact F.ended

/-- A sub-process, and a thread that depends on it. -/
def twoTasks : List (ConcurrentTask ℕ) :=
  [⟨0, [], { subProcess := true }⟩, ⟨1, [0], { pthread := true }⟩]

def twoTasksRun : List (Manager.Label ℕ ℕ) :=
  [.schedule, .start .raises, .scheduled, .listen, .output 0 (some 7), .retCode 0 0 [1], .exit 0, .listened,
    .schedule, .start .raises, .scheduled, .listen, .retCode 1 0 [], .exit 1, .listened,
    .schedule, .scheduled, .listen]

theorem schedules_twoTasks : ∃ m₀ m : Manager ℕ ℕ,
    Manager.addTasks { maxConcurrentNum := 16 } twoTasks = some m₀ ∧
      Machine.run Manager.next m₀ twoTasksRun = some m ∧ m.position = .ended false ∧
      Schedules twoTasks m := by
  have hadd : ((Manager.addTasks { maxConcurrentNum := 16 } twoTasks).any fun m₀ : Manager ℕ ℕ =>
      decide (Machine.Guarded Manager.next Manager.Careful m₀ twoTasksRun) &&
        (Machine.run Manager.next m₀ twoTasksRun).any fun m => decide (m.position = .ended false)) = true := by
    decide +kernel
  obtain ⟨m₀, hm₀, hrun⟩ := (Option.any_eq_true _ _).mp hadd
  obtain ⟨hguard, hrun⟩ := Bool.and_eq_true_iff.mp hrun
  obtain ⟨m, hm, hended⟩ := (Option.any_eq_true _ _).mp hrun
  exact ⟨m₀, m, hm₀, hm, of_decide_eq_true hended,
    (schedules_of_careful 16 (by decide) hm₀ twoTasksRun hm).2 (of_decide_eq_true hguard)⟩

/-- Two tasks of the main process, one of which depends on the other. -/
def mainTasks : List (ConcurrentTask ℕ) :=
  [⟨0, [], {}⟩, ⟨1, [0], {}⟩]

def mainTasksRun : List (Manager.Label ℕ ℕ) :=
  [.schedule, .start (.returns 0 (some 7) [1]), .scheduled, .listen]

/-- The second task becomes ready while `__schedule` runs, and is forgotten. -/
theorem not_schedules_mainTasks : ¬∀ (maxConcurrentNum : ℕ) (tasks : List (ConcurrentTask ℕ))
    (m₀ m : Manager ℕ ℕ) (ls : List (Manager.Label ℕ ℕ)), (tasks.map ConcurrentTask.name).Nodup →
    Manager.addTasks { maxConcurrentNum } tasks = some m₀ →
    Machine.run Manager.next m₀ ls = some m → Schedules tasks m := by
  intro h
  have hadd : ((Manager.addTasks { maxConcurrentNum := 16 } mainTasks).any fun m₀ : Manager ℕ ℕ =>
      (Machine.run Manager.next m₀ mainTasksRun).any fun m =>
        decide (m.position = .ended false ∧ .succeeded 0 ∈ m.log ∧ .started 1 ∉ m.log)) = true := by
    decide +kernel
  obtain ⟨m₀, hm₀, hrun⟩ := (Option.any_eq_true _ _).mp hadd
  obtain ⟨m, hm, hend⟩ := (Option.any_eq_true _ _).mp hrun
  obtain ⟨hended, hsucceeded, hstarted⟩ := of_decide_eq_true hend
  have hlost := (h 16 mainTasks m₀ m mainTasksRun (by decide) hm₀ hm).2 hended
  refine hstarted (hlost ⟨1, [0], {}⟩ (by decide) rfl fun dep hdep => ?_)
  rw [List.mem_singleton.mp hdep]
  exact hsucceeded

end TorchNpu.Profiler
