/-
  What the manager knows of its tasks, and the queue it starts them from.

  `Sound` says that the sets of a task, its status and the log agree; `Inv` adds that the list from which
  tasks are started holds ready tasks that have not been started.  Both hold in every run, and with them that
  a task is started at most once and after all its dependencies.
-/
import TorchNpu.Profiler.TaskManager

namespace TorchNpu.Profiler

variable {α V : Type*} [DecidableEq α] {tasks : List (ConcurrentTask α)} {m m' : Manager α V} {name : α}
  {order : List α} {info : TaskInfo α V}

/-! ### The logs of starts and successes -/

/-- Every start is the first of its task and comes after the successes of its dependencies. -/
def RespectsDeps (tasks : List (ConcurrentTask α)) (log : List (TaskEvent α)) : Prop :=
  ∀ before after name, log = before ++ .started name :: after →
    .started name ∉ before ∧
      ∀ task ∈ tasks, task.name = name → ∀ dep ∈ task.deps, .succeeded dep ∈ before

omit [DecidableEq α] in
theorem RespectsDeps.append {log : List (TaskEvent α)} {e : TaskEvent α} (h : RespectsDeps tasks log)
    (he : ∀ name, e = .started name → .started name ∉ log ∧
      ∀ task ∈ tasks, task.name = name → ∀ dep ∈ task.deps, .succeeded dep ∈ log) :
    RespectsDeps tasks (log ++ [e]) := by
  intro before after n heq
  rcases List.eq_nil_or_concat after with rfl | ⟨after', e', rfl⟩
  · obtain ⟨rfl, hlast⟩ := List.append_inj' heq rfl
    exact he n (List.singleton_inj.mp hlast)
  · have heq' : log ++ [e] = (before ++ .started n :: after') ++ [e'] := by simp [heq]
    exact h before after' n (List.append_inj' heq' rfl).1

/-! ### The end of a task -/

@[simp] theorem store_self : (m.store name info).taskInfos name = some info :=
  Function.update_self ..

theorem store_of_ne {n : α} (h : n ≠ name) : (m.store name info).taskInfos n = m.taskInfos n :=
  Function.update_of_ne h ..


theorem notify_eq {m m' : Manager α V} (hnodup : order.Nodup) (h : Manager.notify name order m = some m') :
    m' = { m with
      taskInfos := fun n => (m.taskInfos n).map fun info =>
        if n ∈ order then { info with preTasks := info.preTasks.erase name } else info
      readyTasks := m.readyTasks ++ order.filter fun n =>
        (m.taskInfos n).any fun info => info.preTasks.erase name = ∅ } := by
  induction order generalizing m with
  | nil =>
    obtain rfl : m = m' := Option.some_inj.mp h
    simp
  | cons post posts ih =>
    obtain ⟨hpost, hposts⟩ := List.nodup_cons.mp hnodup
    rw [Manager.notify] at h
    obtain ⟨info, hinfo, h⟩ := Option.bind_eq_some_iff.mp h
    split_ifs at h with hmem
    rw [ih hposts h]
    have htask : ∀ o : Manager α V,
        o.taskInfos = (m.store post { info with preTasks := info.preTasks.erase name }).taskInfos →
        (fun n => (o.taskInfos n).map fun info =>
          if n ∈ posts then { info with preTasks := info.preTasks.erase name } else info) =
        fun n => (m.taskInfos n).map fun info =>
          if n ∈ post :: posts then { info with preTasks := info.preTasks.erase name } else info := by
      intro o ho
      funext n
      rw [ho]
      by_cases hn : n = post
      · subst hn
        simp [hinfo, hpost]
      · simp [store_of_ne hn, hn]
    have hfilter : ∀ o : Manager α V,
        o.taskInfos = (m.store post { info with preTasks := info.preTasks.erase name }).taskInfos →
        (posts.filter fun n => (o.taskInfos n).any fun info => info.preTasks.erase name = ∅) =
        posts.filter fun n => (m.taskInfos n).any fun info => info.preTasks.erase name = ∅ := by
      intro o ho
      refine List.filter_congr fun n hn => ?_
      have hne : n ≠ post := fun heq => hpost (heq ▸ hn)
      rw [ho, store_of_ne hne]
    split_ifs with hempty
    · rw [htask _ rfl, hfilter _ rfl, List.filter_cons_of_pos (by simp [hinfo, hempty])]
      simp [Manager.store]
    · rw [htask _ rfl, hfilter _ rfl, List.filter_cons_of_neg (by simp [hinfo, hempty])]
      rfl

theorem mem_postTasks_of_forget {deps : List α} (h : Manager.forget name deps m = some m') :
    ∀ dep ∈ deps, ∃ info ∈ m.taskInfos dep, name ∈ info.postTasks := by
  induction deps generalizing m with
  | nil => exact fun dep hdep => absurd hdep List.not_mem_nil
  | cons dep deps ih =>
    rw [Manager.forget] at h
    obtain ⟨info, hinfo, h⟩ := Option.bind_eq_some_iff.mp h
    split_ifs at h with hmem
    intro d hd
    rcases List.mem_cons.mp hd with rfl | hd
    · exact ⟨info, hinfo, hmem⟩
    · obtain ⟨info', hinfo', hmem'⟩ := ih h d hd
      by_cases hdep : d = dep
      · exact ⟨info, hdep ▸ hinfo, hmem⟩
      · rw [store_of_ne hdep] at hinfo'
        exact ⟨info', hinfo', hmem'⟩

/-- What `forget` does to a task. -/
def TaskInfo.forgetting (info : TaskInfo α V) (name : α) : TaskInfo α V :=
  { info with
    postTasks := info.postTasks.erase name
    output := if info.postTasks.erase name = ∅ then none else info.output }

theorem forget_eq {deps : List α} (h : Manager.forget name deps m = some m') :
    m' = { m with
      taskInfos := fun n => (m.taskInfos n).map fun info =>
        if n ∈ deps then info.forgetting name else info } := by
  induction deps generalizing m with
  | nil =>
    obtain rfl : m = m' := Option.some_inj.mp h
    simp
  | cons dep deps ih =>
    rw [Manager.forget] at h
    obtain ⟨info, hinfo, h⟩ := Option.bind_eq_some_iff.mp h
    split_ifs at h with hmem
    -- A dependency that is named twice raises an exception the second time.
    have hdep : dep ∉ deps := by
      intro hdep
      obtain ⟨info', hinfo', hmem'⟩ := mem_postTasks_of_forget h dep hdep
      obtain rfl := Option.some_inj.mp (store_self.symm.trans hinfo')
      exact Finset.notMem_erase name info.postTasks hmem'
    rw [ih h]
    have hinfos : (fun n => ((m.store dep (info.forgetting name)).taskInfos n).map fun info =>
          if n ∈ deps then info.forgetting name else info) =
        fun n => (m.taskInfos n).map fun info =>
          if n ∈ dep :: deps then info.forgetting name else info := by
      funext n
      by_cases hn : n = dep
      · subst hn
        simp [hinfo, hdep]
      · simp [store_of_ne hn, hn]
    exact congrArg (fun infos => { m with taskInfos := infos }) hinfos

/-- What `__on_task_done` does when a task has succeeded. -/
structure Done (m m' : Manager α V) (name : α) (order deps : List α) : Prop where
  position : m'.position = m.position
  listening : m'.listeningInfos = m.listeningInfos
  log : m'.log = m.log ++ [.succeeded name]
  ready : m'.readyTasks = m.readyTasks ++ order.filter fun n =>
    (m.taskInfos n).any fun info => info.preTasks.erase name = ∅
  isSome : ∀ n, (m'.taskInfos n).isSome = (m.taskInfos n).isSome
  infos : ∀ n info', m'.taskInfos n = some info' → ∃ info, m.taskInfos n = some info ∧
    info'.task = info.task ∧
    info'.preTasks = (if n ∈ order then info.preTasks.erase name else info.preTasks) ∧
    info'.postTasks = (if n ∈ deps then info.postTasks.erase name else info.postTasks) ∧
    info'.status = (if n = name then .succeed else info.status)

theorem onTaskDone_succeed {output : Option V} (hinfo : m.taskInfos name = some info)
    (hnodup : order.Nodup) (hname : name ∉ order)
    (h : m.onTaskDone name 0 output order = some m') : Done m m' name order info.task.deps := by
  have hfinish : info.finish 0 output = { info with status := .succeed, output := output.or info.output } :=
    if_pos rfl
  rw [Manager.onTaskDone, hinfo, Option.bind_eq_bind, Option.bind_some, if_pos rfl, hfinish] at h
  obtain ⟨m₁, h₁, h⟩ := Option.bind_eq_some_iff.mp h
  obtain rfl := notify_eq hnodup h₁
  obtain rfl := forget_eq h
  have hfilter : (order.filter fun n => ((m.store name
        { info with status := .succeed, output := output.or info.output }).taskInfos n).any
          fun info => info.preTasks.erase name = ∅) =
      order.filter fun n => (m.taskInfos n).any fun info => info.preTasks.erase name = ∅ := by
    refine List.filter_congr fun n hn => ?_
    have hne : n ≠ name := fun heq => hname (heq ▸ hn)
    rw [store_of_ne hne]
  refine ⟨rfl, rfl, rfl, congrArg (m.readyTasks ++ ·) hfilter, fun n => ?_, fun n info' hinfo' => ?_⟩
  · by_cases hn : n = name
    · subst hn
      simp [hinfo]
    · simp [store_of_ne hn]
  · dsimp only at hinfo'
    rw [Option.map_map, Option.map_eq_some_iff] at hinfo'
    obtain ⟨info₀, hinfo₀, rfl⟩ := hinfo'
    by_cases hn : n = name
    · subst hn
      obtain rfl := Option.some_inj.mp (store_self.symm.trans hinfo₀)
      refine ⟨info, hinfo, ?_⟩
      by_cases hdeps : n ∈ info.task.deps <;> simp [hname, hdeps, TaskInfo.forgetting]
    · rw [store_of_ne hn] at hinfo₀
      refine ⟨info₀, hinfo₀, ?_⟩
      by_cases hdeps : n ∈ info.task.deps <;> by_cases horder : n ∈ order <;>
        simp [hn, hdeps, horder, TaskInfo.forgetting]

/-! ### Invariants -/

/-- What the manager knows of the tasks is right. -/
structure Sound (tasks : List (ConcurrentTask α)) (m : Manager α V) : Prop where
  task : ∀ n info, m.taskInfos n = some info → info.task ∈ tasks ∧ info.task.name = n
  known : ∀ task ∈ tasks, (m.taskInfos task.name).isSome
  pre : ∀ n info, m.taskInfos n = some info →
    ∀ d, d ∈ info.preTasks ↔ d ∈ info.task.deps ∧ .succeeded d ∉ m.log
  post : ∀ n info, m.taskInfos n = some info →
    ∀ p, p ∈ info.postTasks ↔ .succeeded p ∉ m.log ∧ ∃ task ∈ tasks, task.name = p ∧ n ∈ task.deps
  succeeded : ∀ n info, m.taskInfos n = some info → (.succeeded n ∈ m.log ↔ info.status = .succeed)
  started : ∀ n info, m.taskInfos n = some info → (.started n ∈ m.log ↔ info.status ≠ .init)
  listening : ∀ n ∈ m.listeningInfos, .started n ∈ m.log
  respects : RespectsDeps tasks m.log

/-- The tasks of a list are ready and have not been started. -/
structure Queued (m : Manager α V) (queue : List α) : Prop where
  nodup : queue.Nodup
  unstarted : ∀ n ∈ queue, .started n ∉ m.log
  free : ∀ n ∈ queue, ∀ info, m.taskInfos n = some info → info.preTasks = ∅

/-- All ready tasks that have not been started are in the list. -/
def Waits (m : Manager α V) (queue : List α) : Prop :=
  ∀ n info, m.taskInfos n = some info → info.preTasks = ∅ → .started n ∉ m.log → n ∈ queue

/-- The list from which tasks will be started. -/
def Manager.queue (m : Manager α V) : List α :=
  match m.position with
  | .starting slice waiting => slice ++ waiting
  | .ended _ => []
  | .schedule | .listen | .poll => m.readyTasks

/-- Only the status and the output of a task change. -/
theorem Sound.store (info' : TaskInfo α V) (S : Sound tasks m) (hinfo : m.taskInfos name = some info)
    (htask : info'.task = info.task) (hpre : info'.preTasks = info.preTasks)
    (hpost : info'.postTasks = info.postTasks)
    (hsucceed : info'.status = .succeed ↔ info.status = .succeed)
    (hinit : info'.status = .init ↔ info.status = .init) : Sound tasks (m.store name info') := by
  have hcases : ∀ n y, (m.store name info').taskInfos n = some y → ∃ x, m.taskInfos n = some x ∧
      y.task = x.task ∧ y.preTasks = x.preTasks ∧ y.postTasks = x.postTasks ∧
      (y.status = .succeed ↔ x.status = .succeed) ∧ (y.status = .init ↔ x.status = .init) := by
    intro n y hy
    by_cases hn : n = name
    · subst hn
      obtain rfl := Option.some_inj.mp (store_self.symm.trans hy)
      exact ⟨info, hinfo, htask, hpre, hpost, hsucceed, hinit⟩
    · rw [store_of_ne hn] at hy
      exact ⟨y, hy, rfl, rfl, rfl, Iff.rfl, Iff.rfl⟩
  refine ⟨fun n y hy => ?_, fun task htask => ?_, fun n y hy d => ?_, fun n y hy p => ?_,
    fun n y hy => ?_, fun n y hy => ?_, S.listening, S.respects⟩
  · obtain ⟨x, hx, ht, -⟩ := hcases n y hy
    rw [ht]
    exact S.task n x hx
  · by_cases hn : task.name = name
    · rw [hn, store_self, Option.isSome_some]
    · rw [store_of_ne hn]
      exact S.known task htask
  · obtain ⟨x, hx, ht, hp, -⟩ := hcases n y hy
    rw [ht, hp]
    exact S.pre n x hx d
  · obtain ⟨x, hx, -, -, hp, -⟩ := hcases n y hy
    rw [hp]
    exact S.post n x hx p
  · obtain ⟨x, hx, -, -, -, hs, -⟩ := hcases n y hy
    rw [hs]
    exact S.succeeded n x hx
  · obtain ⟨x, hx, -, -, -, -, hi⟩ := hcases n y hy
    rw [Ne, hi]
    exact S.started n x hx

omit [DecidableEq α] in
theorem Sound.congr (S : Sound tasks m) (hinfos : m'.taskInfos = m.taskInfos) (hlog : m'.log = m.log)
    (hlistening : ∀ n ∈ m'.listeningInfos, .started n ∈ m.log) : Sound tasks m' := by
  refine ⟨?_, ?_, ?_, ?_, ?_, ?_, hlog ▸ hlistening, hlog ▸ S.respects⟩
  · rw [hinfos]
    exact S.task
  · rw [hinfos]
    exact S.known
  · rw [hinfos, hlog]
    exact S.pre
  · rw [hinfos, hlog]
    exact S.post
  · rw [hinfos, hlog]
    exact S.succeeded
  · rw [hinfos, hlog]
    exact S.started

omit [DecidableEq α] in
theorem eq_of_name_eq {task task' : ConcurrentTask α} (hnames : (tasks.map ConcurrentTask.name).Nodup)
    (htask : task ∈ tasks) (htask' : task' ∈ tasks) (h : task.name = task'.name) : task = task' :=
  List.inj_on_of_nodup_map hnames htask htask' h

/-! ### A task is started -/

theorem Queued.begin {queue : List α} (info : TaskInfo α V) (Q : Queued m (name :: queue)) : Queued (m.begin name info) queue := by
  obtain ⟨hname, hqueue⟩ := List.nodup_cons.mp Q.nodup
  refine ⟨hqueue, fun n hn => ?_, fun n hn info' hinfo' => ?_⟩
  · have hne : n ≠ name := fun heq => hname (heq ▸ hn)
    simpa [Manager.begin, hne] using Q.unstarted n (List.mem_cons_of_mem _ hn)
  · have hne : n ≠ name := fun heq => hname (heq ▸ hn)
    have hinfo'' : m.taskInfos n = some info' := (store_of_ne hne).symm.trans hinfo'
    exact Q.free n (List.mem_cons_of_mem _ hn) info' hinfo''

theorem Waits.begin {queue : List α} (info : TaskInfo α V) (W : Waits m (name :: queue)) : Waits (m.begin name info) queue := by
  intro n info' hinfo' hpre hstarted
  have hne : n ≠ name := by
    rintro rfl
    simp [Manager.begin] at hstarted
  have hinfo'' : m.taskInfos n = some info' := (store_of_ne hne).symm.trans hinfo'
  have hmem : n ∈ name :: queue := by
    refine W n info' hinfo'' hpre fun h => hstarted ?_
    simp [Manager.begin, h]
  exact (List.mem_cons.mp hmem).resolve_left hne

theorem Sound.begin {queue : List α} (hnames : (tasks.map ConcurrentTask.name).Nodup)
    (hinfo : m.taskInfos name = some info) (S : Sound tasks m) (Q : Queued m (name :: queue)) :
    Sound tasks (m.begin name info) := by
  have hcases : ∀ n y, (m.begin name info).taskInfos n = some y →
      ∃ x, m.taskInfos n = some x ∧ y.task = x.task ∧ y.preTasks = x.preTasks ∧
        y.postTasks = x.postTasks ∧ y.status = if n = name then .running else x.status := by
    intro n y hy
    by_cases hn : n = name
    · subst hn
      obtain rfl := Option.some_inj.mp (store_self.symm.trans hy)
      exact ⟨info, hinfo, rfl, rfl, rfl, by rw [if_pos rfl]⟩
    · have hy' : m.taskInfos n = some y := (store_of_ne hn).symm.trans hy
      exact ⟨y, hy', rfl, rfl, rfl, by rw [if_neg hn]⟩
  have hlog : (m.begin name info).log = m.log ++ [.started name] := rfl
  have hunstarted : info.status = .init := by
    by_contra hne
    exact Q.unstarted name List.mem_cons_self ((S.started name info hinfo).mpr hne)
  refine ⟨fun n y hy => ?_, fun task htask => ?_, fun n y hy d => ?_, fun n y hy p => ?_,
    fun n y hy => ?_, fun n y hy => ?_, fun n hn => ?_, ?_⟩
  · obtain ⟨x, hx, ht, -⟩ := hcases n y hy
    rw [ht]
    exact S.task n x hx
  · by_cases hn : task.name = name
    · rw [hn]
      exact Option.isSome_of_eq_some store_self
    · have hsame : (m.begin name info).taskInfos task.name = m.taskInfos task.name := store_of_ne hn
      rw [hsame]
      exact S.known task htask
  · obtain ⟨x, hx, ht, hp, -⟩ := hcases n y hy
    rw [ht, hp, hlog]
    simpa using S.pre n x hx d
  · obtain ⟨x, hx, -, -, hp, -⟩ := hcases n y hy
    rw [hp, hlog]
    simpa using S.post n x hx p
  · obtain ⟨x, hx, -, -, -, hs⟩ := hcases n y hy
    rw [hs, hlog]
    by_cases hn : n = name
    · subst hn
      obtain rfl := Option.some_inj.mp (hinfo.symm.trans hx)
      have hnot : .succeeded n ∉ m.log := fun h =>
        absurd (hunstarted.symm.trans ((S.succeeded n info hinfo).mp h)) (by decide)
      simp [hnot]
    · simpa [hn] using S.succeeded n x hx
  · obtain ⟨x, hx, -, -, -, hs⟩ := hcases n y hy
    rw [hs, hlog]
    by_cases hn : n = name
    · simp [hn]
    · simpa [hn] using S.started n x hx
  · rw [hlog]
    exact List.mem_append_left _ (S.listening n hn)
  · rw [hlog]
    refine S.respects.append fun n hn => ?_
    cases hn
    refine ⟨Q.unstarted name List.mem_cons_self, fun task htask hname dep hdep => ?_⟩
    obtain ⟨hmem, hinfoName⟩ := S.task name info hinfo
    obtain rfl := eq_of_name_eq hnames htask hmem (hname.trans hinfoName.symm)
    -- The task has no dependency left to wait for.
    have hfree : info.preTasks = ∅ := Q.free _ List.mem_cons_self info hinfo
    by_contra hdone
    exact Finset.notMem_empty dep (hfree ▸ (S.pre name info hinfo dep).mpr ⟨hdep, hdone⟩)

/-! ### A task succeeds -/

omit [DecidableEq α] in
/-- A task that has not succeeded is not finished for the others either. -/
theorem Sound.unfinished (S : Sound tasks m) (hinfo : m.taskInfos name = some info)
    (hstatus : info.status = .running) {n : α} {info' : TaskInfo α V} (hinfo' : m.taskInfos n = some info')
    (hdep : name ∈ info'.task.deps) : .succeeded n ∉ m.log := by
  intro hn
  have hstarted : .started n ∈ m.log := by
    rw [S.started n info' hinfo', (S.succeeded n info' hinfo').mp hn]
    decide
  obtain ⟨before, after, heq⟩ := List.append_of_mem hstarted
  obtain ⟨hmem, hname⟩ := S.task n info' hinfo'
  have hbefore : .succeeded name ∈ before := (S.respects before after n heq).2 _ hmem hname name hdep
  have hlog : .succeeded name ∈ m.log := heq ▸ List.mem_append_left _ hbefore
  exact absurd ((S.succeeded name info hinfo).mp hlog) (by rw [hstatus]; decide)

theorem Sound.mem_order (S : Sound tasks m) (hinfo : m.taskInfos name = some info)
    (horder : m.Iterates name order) {n : α} : n ∈ order ↔
      .succeeded n ∉ m.log ∧ ∃ task ∈ tasks, task.name = n ∧ name ∈ task.deps := by
  rw [← S.post name info hinfo, ← (horder info hinfo).2, List.mem_toFinset]

/-- A task that becomes ready was waiting for `name`. -/
theorem exists_of_mem_ready (hnames : (tasks.map ConcurrentTask.name).Nodup) (S : Sound tasks m)
    (hinfo : m.taskInfos name = some info) (hstatus : info.status = .running)
    (horder : m.Iterates name order) :
    ∀ n ∈ order.filter fun n => (m.taskInfos n).any fun info => info.preTasks.erase name = ∅,
      ∃ x, m.taskInfos n = some x ∧ name ∈ x.preTasks ∧ x.preTasks.erase name = ∅ := by
  intro n hn
  obtain ⟨hn, hany⟩ := List.mem_filter.mp hn
  obtain ⟨x, hx, hempty⟩ := (Option.any_eq_true _ _).mp hany
  obtain ⟨-, task, htask, hname, hdep⟩ := (S.mem_order hinfo horder).mp hn
  obtain ⟨hmem, hname'⟩ := S.task n x hx
  obtain rfl := eq_of_name_eq hnames htask hmem (hname.trans hname'.symm)
  refine ⟨x, hx, (S.pre n x hx name).mpr ⟨hdep, ?_⟩, of_decide_eq_true hempty⟩
  rw [S.succeeded name info hinfo, hstatus]
  decide

section

variable (hnames : (tasks.map ConcurrentTask.name).Nodup) (S : Sound tasks m)
  (hinfo : m.taskInfos name = some info) (hstatus : info.status = .running)
  (horder : m.Iterates name order) (D : Done m m' name order info.task.deps)

include S hinfo hstatus horder D

/-- The dependencies that are left are those that have not succeeded. -/
theorem Done.mem_preTasks {n d : α} {x y : TaskInfo α V} (hx : m.taskInfos n = some x)
    (hy : y.preTasks = if n ∈ order then x.preTasks.erase name else x.preTasks) :
    d ∈ y.preTasks ↔ d ∈ x.task.deps ∧ .succeeded d ∉ m'.log := by
  have hlog : .succeeded d ∉ m'.log ↔ d ≠ name ∧ .succeeded d ∉ m.log := by
    rw [D.log]
    simp [and_comm]
  rw [hy, hlog]
  split_ifs with hn
  · rw [Finset.mem_erase, S.pre n x hx]
    tauto
  · rw [S.pre n x hx]
    have hne : d ∈ x.task.deps → d ≠ name := by
      rintro hd rfl
      obtain ⟨hmem, hname⟩ := S.task n x hx
      exact hn ((S.mem_order hinfo horder).mpr
        ⟨S.unfinished hinfo hstatus hx hd, x.task, hmem, hname, hd⟩)
    tauto

include hnames

theorem Sound.done : Sound tasks m' := by
  have hsome : ∀ n, (m'.taskInfos n).isSome = (m.taskInfos n).isSome := D.isSome
  refine ⟨fun n y hy => ?_, fun task htask => ?_, fun n y hy d => ?_, fun n y hy p => ?_,
    fun n y hy => ?_, fun n y hy => ?_, fun n hn => ?_, ?_⟩
  · obtain ⟨x, hx, ht, -⟩ := D.infos n y hy
    rw [ht]
    exact S.task n x hx
  · rw [hsome]
    exact S.known task htask
  · obtain ⟨x, hx, ht, hp, -⟩ := D.infos n y hy
    rw [ht]
    exact D.mem_preTasks S hinfo hstatus horder hx hp
  · obtain ⟨x, hx, -, -, hp, -⟩ := D.infos n y hy
    have hlog : .succeeded p ∉ m'.log ↔ p ≠ name ∧ .succeeded p ∉ m.log := by
      rw [D.log]
      simp [and_comm]
    rw [hp, hlog]
    split_ifs with hn
    · rw [Finset.mem_erase, S.post n x hx]
      tauto
    · rw [S.post n x hx]
      -- Nobody but its dependencies has the task among its `post_tasks`.
      have hne : (∃ task ∈ tasks, task.name = p ∧ n ∈ task.deps) → p ≠ name := by
        rintro ⟨task, htask, rfl, hdep⟩ heq
        obtain ⟨hmem, hname⟩ := S.task name info hinfo
        obtain rfl := eq_of_name_eq hnames htask hmem (heq.trans hname.symm)
        exact hn hdep
      exact ⟨fun h => ⟨⟨hne h.2, h.1⟩, h.2⟩, fun h => ⟨h.1.2, h.2⟩⟩
  · obtain ⟨x, hx, -, -, -, hs⟩ := D.infos n y hy
    rw [hs, D.log]
    by_cases hn : n = name
    · simp [hn]
    · simpa [hn] using S.succeeded n x hx
  · obtain ⟨x, hx, -, -, -, hs⟩ := D.infos n y hy
    rw [hs, D.log]
    by_cases hn : n = name
    · subst hn
      obtain rfl := Option.some_inj.mp (hinfo.symm.trans hx)
      have hstarted : .started n ∈ m.log := by
        rw [S.started n info hinfo, hstatus]
        decide
      simp [hstarted]
    · simpa [hn] using S.started n x hx
  · rw [D.log]
    rw [D.listening] at hn
    exact List.mem_append_left _ (S.listening n hn)
  · rw [D.log]
    exact S.respects.append nofun

/-- What is queued stays so, and the tasks that become ready may be added. -/
theorem Queued.done {queue : List α} (Q : Queued m queue) : Queued m' queue ∧
    Queued m' (queue ++ order.filter fun n =>
      (m.taskInfos n).any fun info => info.preTasks.erase name = ∅) := by
  have hfree : ∀ n y, m'.taskInfos n = some y → ∀ x, m.taskInfos n = some x →
      x.preTasks.erase name = ∅ → y.preTasks = ∅ := by
    intro n y hy x hx hempty
    obtain ⟨x', hx', -, hp, -⟩ := D.infos n y hy
    obtain rfl := Option.some_inj.mp (hx.symm.trans hx')
    refine Finset.eq_empty_of_forall_notMem fun d hd => ?_
    have hd' : d ∈ x.preTasks ∧ d ≠ name := by
      rw [S.pre n x hx, and_assoc]
      have hleft := (D.mem_preTasks S hinfo hstatus horder hx hp).mp hd
      rw [D.log] at hleft
      simpa using hleft
    exact Finset.notMem_empty d (hempty ▸ Finset.mem_erase.mpr ⟨hd'.2, hd'.1⟩)
  have hunstarted : ∀ n, .started n ∉ m.log → .started n ∉ m'.log := by
    intro n hn
    rw [D.log]
    simpa using hn
  have hold : ∀ n ∈ queue, ∀ y, m'.taskInfos n = some y → y.preTasks = ∅ := by
    intro n hn y hy
    obtain ⟨x, hx, -⟩ := D.infos n y hy
    exact hfree n y hy x hx (by rw [Q.free n hn x hx, Finset.erase_empty])
  refine ⟨⟨Q.nodup, fun n hn => hunstarted n (Q.unstarted n hn), hold⟩, ?_⟩
  have hnew := exists_of_mem_ready hnames S hinfo hstatus horder
  refine ⟨?_, fun n hn => ?_, fun n hn y hy => ?_⟩
  · refine List.Nodup.append Q.nodup ((horder info hinfo).1.filter _) fun n hn hn' => ?_
    obtain ⟨x, hx, hmem, -⟩ := hnew n hn'
    exact Finset.notMem_empty name (Q.free n hn x hx ▸ hmem)
  · rcases List.mem_append.mp hn with hn | hn
    · exact hunstarted n (Q.unstarted n hn)
    · obtain ⟨x, hx, hmem, -⟩ := hnew n hn
      refine hunstarted n fun hstarted => ?_
      obtain ⟨before, after, heq⟩ := List.append_of_mem hstarted
      obtain ⟨htask, hname⟩ := S.task n x hx
      obtain ⟨hdep, hnot⟩ := (S.pre n x hx name).mp hmem
      exact hnot (heq ▸ List.mem_append_left _ ((S.respects before after n heq).2 _ htask hname name hdep))
  · rcases List.mem_append.mp hn with hn | hn
    · exact hold n hn y hy
    · obtain ⟨x, hx, -, hempty⟩ := hnew n hn
      exact hfree n y hy x hx hempty

omit hnames S hinfo hstatus horder in
/-- Nothing that is ready is forgotten when the tasks that become ready are added. -/
theorem Waits.done {queue : List α} (W : Waits m queue) : Waits m' (queue ++ order.filter fun n =>
    (m.taskInfos n).any fun info => info.preTasks.erase name = ∅) := by
  intro n y hy hempty hstarted
  obtain ⟨x, hx, -, hp, -⟩ := D.infos n y hy
  rw [D.log] at hstarted
  by_cases hn : n ∈ order
  · refine List.mem_append_right _ (List.mem_filter.mpr ⟨hn, (Option.any_eq_true _ _).mpr ⟨x, hx, ?_⟩⟩)
    rw [if_pos hn] at hp
    exact decide_eq_true (hp.symm.trans hempty)
  · rw [if_neg hn] at hp
    exact List.mem_append_left _ (W n x hx (hp.symm.trans hempty) fun h =>
      hstarted (List.mem_append_left _ h))

end

/-! ### The steps of `run` -/

/-- What a step of `run` does. -/
inductive Stepped (m : Manager α V) : Manager.Label α V → Manager α V → Prop
  | schedule (hpos : m.position = .schedule) : Stepped m .schedule { m with
      position := .starting (m.readyTasks.take m.freeChannel) (m.readyTasks.drop m.freeChannel) }
  | raised {name : α} {info : TaskInfo α V} {slice waiting : List α} {outcome : Manager.Outcome α V}
      (hpos : m.position = .starting (name :: slice) waiting)
      (hinfo : m.taskInfos name = some info) :
      Stepped m (.start outcome) { m.begin name info with position := .ended true }
  | launched {name : α} {info : TaskInfo α V} {slice waiting : List α} {outcome : Manager.Outcome α V}
      (hpos : m.position = .starting (name :: slice) waiting)
      (hinfo : m.taskInfos name = some info) (hmode : info.task.mode.inMainProcess = false) :
      Stepped m (.start outcome) { m.begin name info with
        listeningInfos := m.listeningInfos ++ [name], position := .starting slice waiting }
  | ran {name : α} {info : TaskInfo α V} {slice waiting : List α} {output : Option V} {order : List α} {m₁ : Manager α V} (hpos : m.position = .starting (name :: slice) waiting)
      (hinfo : m.taskInfos name = some info) (hmode : info.task.mode.inMainProcess = true)
      (horder : m.Iterates name order)
      (hdone : (m.begin name info).onTaskDone name 0 output order = some m₁) :
      Stepped m (.start (.returns 0 output order)) { m₁ with position := .starting slice waiting }
  | ranInVain {name : α} {info : TaskInfo α V} {slice waiting : List α} {retCode : ℤ} {output : Option V} {order : List α}
      (hpos : m.position = .starting (name :: slice) waiting) (hinfo : m.taskInfos name = some info)
      (hmode : info.task.mode.inMainProcess = true) :
      Stepped m (.start (.returns retCode output order))
        { (m.begin name info).store name { info with status := .failed } with
          position := .starting slice waiting }
  | scheduled {waiting : List α} (hpos : m.position = .starting [] waiting) :
      Stepped m .scheduled { m with readyTasks := waiting, position := .listen }
  | ended (hpos : m.position = .listen) (hlistening : ∀ n ∈ m.listeningInfos, m.isBlocking n = false) :
      Stepped m .listen { m with position := .ended false }
  | polls (hpos : m.position = .listen) : Stepped m .listen { m with position := .poll }
  | received {name : α} {info : TaskInfo α V} {order : List α} {m₁ : Manager α V}
      (hpos : m.position = .poll) (hname : name ∈ m.listeningInfos)
      (hinfo : m.taskInfos name = some info) (hstatus : info.status = .running)
      (horder : m.Iterates name order) (hdone : m.onTaskDone name 0 none order = some m₁) :
      Stepped m (.retCode name 0 order) { m₁ with position := .poll }
  | receivedFailure {name : α} {info : TaskInfo α V} {code : ℤ} {order : List α}
      (hpos : m.position = .poll) (hname : name ∈ m.listeningInfos)
      (hinfo : m.taskInfos name = some info) (hstatus : info.status = .running) :
      Stepped m (.retCode name code order)
        { m.store name { info with status := .failed } with position := .poll }
  | receivedRaising {name : α} {code : ℤ} {order : List α} :
      Stepped m (.retCode name code order) { m with position := .ended true }
  | output {name : α} {info : TaskInfo α V} {value : Option V} (hinfo : m.taskInfos name = some info) :
      Stepped m (.output name value) (m.store name { info with output := value })
  | exit {name : α} {info : TaskInfo α V} (hpos : m.position = .poll) (hname : name ∈ m.listeningInfos)
      (hinfo : m.taskInfos name = some info) :
      Stepped m (.exit name) { m.store name info.leave with
        listeningInfos := m.listeningInfos.erase name, position := .poll }
  | exitRaising {name : α} : Stepped m (.exit name) { m with position := .ended true }
  | listened (hpos : m.position = .poll) : Stepped m .listened { m with position := .schedule }

omit [DecidableEq α] in
theorem TaskInfo.leave_sets (info : TaskInfo α V) : info.leave.task = info.task ∧
    info.leave.preTasks = info.preTasks ∧ info.leave.postTasks = info.postTasks := by
  unfold TaskInfo.leave
  split_ifs
  · exact ⟨rfl, rfl, rfl⟩
  · exact ⟨rfl, rfl, rfl⟩

omit [DecidableEq α] in
theorem TaskInfo.leave_succeed (info : TaskInfo α V) :
    info.leave.status = .succeed ↔ info.status = .succeed := by
  unfold TaskInfo.leave
  split_ifs with h
  · exact iff_of_false nofun h
  · exact Iff.rfl

omit [DecidableEq α] in
theorem TaskInfo.leave_init (info : TaskInfo α V) (hinit : info.status ≠ .init) :
    info.leave.status = .init ↔ info.status = .init := by
  unfold TaskInfo.leave
  split_ifs with h
  · exact iff_of_false nofun hinit
  · exact Iff.rfl

theorem onTaskDone_fail {retCode : ℤ} {output : Option V} (hinfo : m.taskInfos name = some info)
    (hcode : retCode ≠ 0) :
    m.onTaskDone name retCode output order = some (m.store name { info with status := .failed }) := by
  rw [Manager.onTaskDone, hinfo, Option.bind_eq_bind, Option.bind_some, if_neg hcode, TaskInfo.finish,
    if_neg hcode]

theorem stepped_of_start {outcome : Manager.Outcome α V} (h : m.next (.start outcome) = some m') :
    Stepped m (.start outcome) m' := by
  rw [Manager.next] at h
  split at h
  next name slice waiting hpos =>
    obtain ⟨info, hinfo, h⟩ := Option.bind_eq_some_iff.mp h
    dsimp only at h
    split_ifs at h with hmode
    · cases outcome with
      | raises =>
        cases h
        exact .raised hpos hinfo
      | returns retCode output order =>
        dsimp only at h
        split_ifs at h with horder
        have hbegin : (m.begin name info).taskInfos name = some { info with status := .running } :=
          store_self
        cases h
        by_cases hcode : retCode = 0
        · subst hcode
          cases hdone : (m.begin name info).onTaskDone name 0 output order with
          | none => exact .raised hpos hinfo
          | some m₁ => exact .ran hpos hinfo hmode horder hdone
        · rw [onTaskDone_fail hbegin hcode]
          exact .ranInVain hpos hinfo hmode
    · cases h
      exact .launched hpos hinfo (Bool.eq_false_iff.mpr hmode)
  next => cases h

theorem stepped_of_next {l : Manager.Label α V} (h : m.next l = some m') : Stepped m l m' := by
  cases l with
  | schedule =>
    rw [Manager.next] at h
    split_ifs at h with hpos
    cases h
    exact .schedule hpos
  | start outcome => exact stepped_of_start h
  | scheduled =>
    rw [Manager.next] at h
    split at h
    next waiting hpos =>
      cases h
      exact .scheduled hpos
    next => cases h
  | listen =>
    rw [Manager.next] at h
    split_ifs at h with hpos hany
    · cases h
      exact .polls hpos
    · cases h
      refine .ended hpos fun n hn => ?_
      rw [Bool.not_eq_true, List.any_eq_false] at hany
      exact Bool.eq_false_iff.mpr (hany n hn)
  | retCode name code order =>
    rw [Manager.next] at h
    split_ifs at h with hif
    obtain ⟨hpos, hname, horder, hany⟩ := hif
    obtain ⟨info, hinfo, hstatus⟩ := (Option.any_eq_true _ _).mp hany
    cases h
    by_cases hcode : code = 0
    · subst hcode
      cases hdone : m.onTaskDone name 0 none order with
      | none => exact .receivedRaising
      | some m₁ => exact .received hpos hname hinfo (of_decide_eq_true hstatus) horder hdone
    · rw [onTaskDone_fail hinfo hcode]
      exact .receivedFailure hpos hname hinfo (of_decide_eq_true hstatus)
  | output name value =>
    rw [Manager.next] at h
    split_ifs at h with hif
    obtain ⟨info, hinfo, rfl⟩ := Option.map_eq_some_iff.mp h
    exact .output hinfo
  | exit name =>
    rw [Manager.next] at h
    split_ifs at h with hif
    cases h
    cases hinfo : m.taskInfos name with
    | none =>
      rw [Manager.onTaskExit, hinfo]
      exact .exitRaising
    | some info =>
      rw [Manager.onTaskExit, hinfo, Option.bind_eq_bind, Option.bind_some]
      exact .exit hif.1 hif.2 hinfo
  | listened =>
    rw [Manager.next] at h
    split_ifs at h with hpos
    cases h
    exact .listened hpos

/-- The invariant of every run. -/
structure Inv (tasks : List (ConcurrentTask α)) (m : Manager α V) : Prop where
  sound : Sound tasks m
  queued : Queued m m.queue

omit [DecidableEq α] in
theorem Queued.congr {queue queue' : List α} (Q : Queued m queue) (hqueue : queue'.Sublist queue)
    (hinfos : m'.taskInfos = m.taskInfos) (hlog : m'.log = m.log) : Queued m' queue' := by
  refine ⟨hqueue.nodup Q.nodup, fun n hn => ?_, fun n hn => ?_⟩
  · rw [hlog]
    exact Q.unstarted n (hqueue.subset hn)
  · rw [hinfos]
    exact Q.free n (hqueue.subset hn)

/-- Queues look at the dependencies only. -/
theorem Queued.store {queue : List α} (info' : TaskInfo α V) (Q : Queued m queue)
    (hinfo : m.taskInfos name = some info) (hpre : info'.preTasks = info.preTasks) :
    Queued (m.store name info') queue := by
  refine ⟨Q.nodup, Q.unstarted, fun n hn y hy => ?_⟩
  by_cases hname : n = name
  · subst hname
    obtain rfl := Option.some_inj.mp (store_self.symm.trans hy)
    rw [hpre]
    exact Q.free n hn info hinfo
  · rw [store_of_ne hname] at hy
    exact Q.free n hn y hy

theorem Waits.store {queue : List α} (info' : TaskInfo α V) (W : Waits m queue)
    (hinfo : m.taskInfos name = some info) (hpre : info'.preTasks = info.preTasks) :
    Waits (m.store name info') queue := by
  intro n y hy hempty hstarted
  by_cases hname : n = name
  · subst hname
    obtain rfl := Option.some_inj.mp (store_self.symm.trans hy)
    exact W n info hinfo (hpre.symm.trans hempty) hstarted
  · rw [store_of_ne hname] at hy
    exact W n y hy hempty hstarted

omit [DecidableEq α] in
theorem queue_of_starting {slice waiting : List α} (hpos : m.position = .starting slice waiting) :
    m.queue = slice ++ waiting := by
  rw [Manager.queue, hpos]

omit [DecidableEq α] in
theorem queue_of_poll (hpos : m.position = .poll) : m.queue = m.readyTasks := by
  rw [Manager.queue, hpos]

theorem notMem_order (hnames : (tasks.map ConcurrentTask.name).Nodup) (S : Sound tasks m)
    (hinfo : m.taskInfos name = some info) (hstatus : info.status = .running)
    (horder : m.Iterates name order) : name ∉ order := by
  intro hmem
  obtain ⟨-, task, htask, hname, hdep⟩ := (S.mem_order hinfo horder).mp hmem
  obtain ⟨hmem', hname'⟩ := S.task name info hinfo
  obtain rfl := eq_of_name_eq hnames htask hmem' (hname.trans hname'.symm)
  have hstarted : .started name ∈ m.log := by
    rw [S.started name info hinfo, hstatus]
    decide
  obtain ⟨before, after, heq⟩ := List.append_of_mem hstarted
  have hbefore := (S.respects before after name heq).2 _ htask hname name hdep
  have hsucceeded := (S.succeeded name info hinfo).mp (heq ▸ List.mem_append_left _ hbefore)
  exact absurd (hstatus.symm.trans hsucceeded) (by decide)

/-- The task that `__run_one_task` has begun is done with. -/
theorem done_of_begin {output : Option V} (hnames : (tasks.map ConcurrentTask.name).Nodup) (I : Inv tasks m)
    {slice waiting : List α} (hpos : m.position = .starting (name :: slice) waiting)
    (hinfo : m.taskInfos name = some info) (horder : m.Iterates name order)
    (hdone : (m.begin name info).onTaskDone name 0 output order = some m') :
    Sound tasks (m.begin name info) ∧ Queued (m.begin name info) (slice ++ waiting) ∧
      (m.begin name info).Iterates name order ∧ Done (m.begin name info) m' name order info.task.deps := by
  have Q : Queued m (name :: (slice ++ waiting)) := by
    have hqueue := I.queued
    rwa [queue_of_starting hpos] at hqueue
  have S := I.sound.begin hnames hinfo Q
  have hinfo' : (m.begin name info).taskInfos name = some { info with status := .running } := store_self
  have horder' : (m.begin name info).Iterates name order := by
    intro y hy
    obtain rfl := Option.some_inj.mp (hinfo'.symm.trans hy)
    exact horder info hinfo
  have hname : name ∉ order := notMem_order hnames S hinfo' rfl horder'
  have D := onTaskDone_succeed hinfo' (horder info hinfo).1 hname hdone
  exact ⟨S, Q.begin info, horder', D⟩

theorem Inv.next {l : Manager.Label α V} (hnames : (tasks.map ConcurrentTask.name).Nodup) (I : Inv tasks m)
    (h : m.next l = some m') : Inv tasks m' := by
  have S := I.sound
  have Q := I.queued
  cases stepped_of_next h with
  | schedule hpos =>
    refine ⟨S.congr rfl rfl S.listening, Q.congr ?_ rfl rfl⟩
    rw [queue_of_starting rfl, Manager.queue, hpos, List.take_append_drop]
  | raised hpos hinfo =>
    rw [queue_of_starting hpos, List.cons_append] at Q
    have S₁ := S.begin hnames hinfo Q
    exact ⟨S₁.congr rfl rfl S₁.listening, ⟨List.nodup_nil, nofun, nofun⟩⟩
  | launched hpos hinfo hmode =>
    rw [queue_of_starting hpos, List.cons_append] at Q
    have S₁ := S.begin hnames hinfo Q
    refine ⟨S₁.congr rfl rfl fun n hn => ?_, (Q.begin _).congr (List.Sublist.refl _) rfl rfl⟩
    rcases List.mem_append.mp hn with hn | hn
    · exact S₁.listening n hn
    · rw [List.mem_singleton.mp hn]
      exact List.mem_append_right _ List.mem_cons_self
  | ran hpos hinfo hmode horder hdone =>
    obtain ⟨S₁, Q₁, horder', D⟩ := done_of_begin hnames I hpos hinfo horder hdone
    have S₂ := S₁.done hnames store_self rfl horder' D
    have Q₂ := (Queued.done hnames S₁ store_self rfl horder' D Q₁).1
    exact ⟨S₂.congr rfl rfl S₂.listening, Q₂.congr (List.Sublist.refl _) rfl rfl⟩
  | @ranInVain name info _ _ _ _ _ hpos hinfo hmode =>
    rw [queue_of_starting hpos, List.cons_append] at Q
    have hinfo' : (m.begin name info).taskInfos name = some { info with status := .running } := store_self
    have S₁ := (S.begin hnames hinfo Q).store { info with status := .failed } hinfo'
      rfl rfl rfl (by simp) (by simp)
    have Q₁ := (Q.begin info).store { info with status := .failed } hinfo' rfl
    exact ⟨S₁.congr rfl rfl S₁.listening, Q₁.congr (List.Sublist.refl _) rfl rfl⟩
  | scheduled hpos =>
    rw [queue_of_starting hpos, List.nil_append] at Q
    exact ⟨S.congr rfl rfl S.listening, Q.congr (List.Sublist.refl _) rfl rfl⟩
  | ended hpos hlistening =>
    exact ⟨S.congr rfl rfl S.listening, ⟨List.nodup_nil, nofun, nofun⟩⟩
  | polls hpos =>
    rw [Manager.queue, hpos] at Q
    exact ⟨S.congr rfl rfl S.listening, Q.congr (List.Sublist.refl _) rfl rfl⟩
  | received hpos hname hinfo hstatus horder hdone =>
    have hnot := notMem_order hnames S hinfo hstatus horder
    have D := onTaskDone_succeed hinfo (horder _ hinfo).1 hnot hdone
    have S₁ := S.done hnames hinfo hstatus horder D
    have Q₁ := (Queued.done hnames S hinfo hstatus horder D Q).2
    rw [queue_of_poll hpos, ← D.ready] at Q₁
    exact ⟨S₁.congr rfl rfl S₁.listening, Q₁.congr (List.Sublist.refl _) rfl rfl⟩
  | @receivedFailure _ info _ _ hpos hname hinfo hstatus =>
    have S₁ := S.store { info with status := .failed } hinfo rfl rfl rfl
      (by simp [hstatus]) (by simp [hstatus])
    have Q₁ := Q.store { info with status := .failed } hinfo rfl
    rw [queue_of_poll hpos] at Q₁
    exact ⟨S₁.congr rfl rfl S₁.listening, Q₁.congr (List.Sublist.refl _) rfl rfl⟩
  | receivedRaising => exact ⟨S.congr rfl rfl S.listening, ⟨List.nodup_nil, nofun, nofun⟩⟩
  | output hinfo =>
    exact ⟨S.store _ hinfo rfl rfl rfl Iff.rfl Iff.rfl, Q.store _ hinfo rfl⟩
  | @exit name info hpos hname hinfo =>
    have hinit : info.status ≠ .init := (S.started name info hinfo).mp (S.listening name hname)
    have hsets := info.leave_sets
    have S₁ := S.store info.leave hinfo hsets.1 hsets.2.1 hsets.2.2 info.leave_succeed
      (info.leave_init hinit)
    have Q₁ := Q.store info.leave hinfo hsets.2.1
    rw [queue_of_poll hpos] at Q₁
    exact ⟨S₁.congr rfl rfl fun n hn => S.listening n (List.mem_of_mem_erase hn),
      Q₁.congr (List.Sublist.refl _) rfl rfl⟩
  | exitRaising => exact ⟨S.congr rfl rfl S.listening, ⟨List.nodup_nil, nofun, nofun⟩⟩
  | listened hpos =>
    rw [queue_of_poll hpos] at Q
    exact ⟨S.congr rfl rfl S.listening, Q.congr (List.Sublist.refl _) rfl rfl⟩

end TorchNpu.Profiler
