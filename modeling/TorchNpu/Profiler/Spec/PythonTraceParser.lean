/-
  The events of a thread form a forest, and each names the call that it was made in.

  The ids on the stack are the open calls (`Brackets.stack`).  Calls that never return are closed after the last
  bean, one after the other, so that an event reaches from the index of its call to an index after it, and
  its times are those of the two indices (`clock`).
-/
import TorchNpu.Lib.Brackets
import TorchNpu.Lib.SortByKey
import TorchNpu.Profiler.PythonTraceParser

namespace TorchNpu.Profiler.PythonTraceParser

def TraceTag.IsCall : TraceTag → Bool
  | .pyCall | .cCall => true
  | .pyReturn | .cReturn => false

/-- The bean is a call. -/
def PythonTracerFuncBean.isCall (bean : PythonTracerFuncBean) : Bool :=
  bean.traceTag.IsCall

variable {π : Type*} {hashMap : ℕ → Option Text} {paramMap : ℕ → Option π}

/-! ### A round -/

/-- The name of the bean has one delimiter at most, if the bean is a call of a Python function. -/
def NameFits (hashMap : ℕ → Option Text) (bean : PythonTracerFuncBean) : Prop :=
  bean.traceTag = .pyCall →
    (Text.split moduleNameDelimiter ((hashMap bean.key).getD (Nat.toDigits 10 bean.key))).length ≤ 2

namespace Replay

/-- The state after a call, up to the counters of the modules. -/
structure Pushed (s s' : Replay π) (bean : PythonTracerFuncBean) : Prop where
  eventIdx : s'.eventIdx = s.eventIdx
  maxCallEndTime : s'.maxCallEndTime = s.maxCallEndTime
  replayResult : s'.replayResult = s.replayResult
  replayStack : ∃ name callType moduleId params,
    s'.replayStack = ReplayFrame.new bean name s.eventIdx callType moduleId s.eventIdx s.frameParentId params ::
      s.replayStack

theorem pushed_push (s : Replay π) (bean : PythonTracerFuncBean) (name : Text) (callType : CallType)
    (moduleId : ℕ) (params : Option π) : Pushed s (s.push bean name callType moduleId params) bean :=
  ⟨rfl, rfl, rfl, _, _, _, _, rfl⟩

theorem pushed_push_moduleInfo (s : Replay π) (bean : PythonTracerFuncBean) (moduleName moduleUid : Text)
    (params : Option π) :
    Pushed s ((s.moduleInfo moduleName moduleUid).1.push bean moduleName .pyModuleCall
      (s.moduleInfo moduleName moduleUid).2 params) bean := by
  rw [moduleInfo]
  split
  · exact pushed_push s bean _ _ _ _
  · exact ⟨rfl, rfl, rfl, _, _, _, _, rfl⟩

theorem split_ne_nil (sep text : Text) : Text.split sep text ≠ [] := by
  suffices haux : ∀ (text : Text) (skip : ℕ) (piece : Text), Text.splitAux sep skip piece text ≠ [] from
    haux text 0 []
  intro text
  induction text with
  | nil => exact fun _ _ => List.cons_ne_nil _ _
  | cons c text ih =>
    intro skip piece
    cases skip with
    | zero =>
      rw [Text.splitAux]
      split_ifs
      · exact List.cons_ne_nil _ _
      · exact ih _ _
    | succ skip => exact ih _ _

theorem replayBean_call {s : Replay π} {bean : PythonTracerFuncBean} (hcall : bean.isCall = true)
    (hname : NameFits hashMap bean) : ∃ s', s.replayBean hashMap paramMap bean = some s' ∧ Pushed s s' bean := by
  rw [PythonTracerFuncBean.isCall] at hcall
  cases htag : bean.traceTag with
  | pyCall =>
    have hlength := hname htag
    rw [replayBean, htag]
    dsimp only
    generalize hpieces : Text.split moduleNameDelimiter _ = pieces at hlength ⊢
    match pieces with
    | [] => exact absurd hpieces (split_ne_nil _ _)
    | [_] => exact ⟨_, rfl, pushed_push s bean _ _ _ _⟩
    | [moduleName, moduleUid] => exact ⟨_, rfl, pushed_push_moduleInfo s bean moduleName moduleUid _⟩
    | _ :: _ :: _ :: _ => exact absurd hlength (by simp)
  | cCall =>
    rw [replayBean, htag]
    exact ⟨_, rfl, pushed_push s bean _ _ _ _⟩
  | pyReturn => exact absurd hcall (by simp [htag, TraceTag.IsCall])
  | cReturn => exact absurd hcall (by simp [htag, TraceTag.IsCall])

theorem replayBean_return {s : Replay π} {bean : PythonTracerFuncBean} (hreturn : bean.isCall = false) :
    s.replayBean hashMap paramMap bean = some (s.returnTop bean.startNs) := by
  rw [PythonTracerFuncBean.isCall] at hreturn
  cases htag : bean.traceTag with
  | pyCall => exact absurd hreturn (by simp [htag, TraceTag.IsCall])
  | cCall => exact absurd hreturn (by simp [htag, TraceTag.IsCall])
  | pyReturn => rw [replayBean, htag]
  | cReturn => rw [replayBean, htag]

theorem replayBean_eq_none {s : Replay π} {bean : PythonTracerFuncBean} (hname : ¬ NameFits hashMap bean) :
    s.replayBean hashMap paramMap bean = none := by
  rw [NameFits, Classical.not_imp] at hname
  obtain ⟨htag, hlength⟩ := hname
  rw [replayBean, htag]
  dsimp only
  generalize Text.split moduleNameDelimiter _ = pieces at hlength ⊢
  match pieces with
  | [] => rfl
  | [_] => exact absurd hlength (by simp)
  | [_, _] => exact absurd hlength (by simp)
  | _ :: _ :: _ :: _ => rfl

end Replay

/-! ### The loop -/

/-- The indices of the calls. -/
def callIds (beans : List PythonTracerFuncBean) : List ℕ :=
  (List.range beans.length).filter fun i => (beans[i]?).any PythonTracerFuncBean.isCall

/-- The call is open at the index. -/
abbrev CallOpenAt (beans : List PythonTracerFuncBean) (k i : ℕ) : Prop :=
  Brackets.OpenAt PythonTracerFuncBean.isCall beans k i

/-- The call is the innermost that is open at the index. -/
abbrev InnermostCallAt (beans : List PythonTracerFuncBean) (k i : ℕ) : Prop :=
  Brackets.InnermostAt PythonTracerFuncBean.isCall beans k i

/-- The bean at the second index is the return of the call at the first one. -/
abbrev ReturnsAt (beans : List PythonTracerFuncBean) (i k : ℕ) : Prop :=
  Brackets.Closes PythonTracerFuncBean.isCall beans i k

/-- What a frame has from its call. -/
structure Recorded (beans : List PythonTracerFuncBean) (frame : ReplayFrame π) : Prop where
  selfId : frame.traceEvent.selfId = frame.id
  callIdx : frame.traceEvent.callIdx = frame.id
  call : ∃ bean ∈ beans[frame.id]?, bean.isCall = true ∧ frame.traceEvent.startTime = bean.startNs ∧
    frame.traceEvent.threadId = bean.tid ∧ frame.traceEvent.processId = bean.pid
  parentId : InnermostCallAt beans frame.id frame.parentId ∨
    frame.parentId = 0 ∧ ∀ i, ¬ CallOpenAt beans frame.id i

variable {beans : List PythonTracerFuncBean} {bean : PythonTracerFuncBean} {frame : ReplayFrame π} {s s' : Replay π}

theorem Recorded.lt (h : Recorded beans frame) : frame.id < beans.length := by
  obtain ⟨bean, hbean, -⟩ := h.call
  exact (List.getElem?_eq_some_iff.mp hbean).1

theorem Recorded.append (h : Recorded beans frame) (beans' : List PythonTracerFuncBean) :
    Recorded (beans ++ beans') frame := by
  have hlt := h.lt
  refine ⟨h.selfId, h.callIdx, ?_, ?_⟩
  · rw [List.getElem?_append_left hlt]
    exact h.call
  · rw [InnermostCallAt, Brackets.innermostAt_append hlt.le]
    simp only [CallOpenAt, Brackets.openAt_append hlt.le]
    exact h.parentId

/-- The end of a frame does not matter. -/
theorem Recorded.setEnd (h : Recorded beans frame) (endTime : ℤ) (returnIdx : ℕ) :
    Recorded beans { frame with traceEvent := { frame.traceEvent with endTime, returnIdx } } :=
  ⟨h.selfId, h.callIdx, h.call, h.parentId⟩

theorem callIds_append_singleton :
    callIds (beans ++ [bean]) = callIds beans ++ if bean.isCall then [beans.length] else [] := by
  rw [callIds, List.length_append, List.length_singleton, List.range_succ, List.filter_append, callIds]
  congr 1
  · apply List.filter_congr
    intro i hi
    rw [List.getElem?_append_left (List.mem_range.mp hi)]
  · cases hcall : bean.isCall <;> simp [hcall]

/-- What the stack and the result hold after some beans. -/
structure Tracks (beans : List PythonTracerFuncBean) (s : Replay π) : Prop where
  eventIdx : s.eventIdx = beans.length
  le_max : ∀ bean ∈ beans, bean.startNs ≤ s.maxCallEndTime
  stack : s.replayStack.map ReplayFrame.id = Brackets.stack PythonTracerFuncBean.isCall beans
  recorded : ∀ frame ∈ s.replayResult ++ s.replayStack, Recorded beans frame
  closed : ∀ frame ∈ s.replayResult, ReturnsAt beans frame.id frame.traceEvent.returnIdx ∧
    ∃ bean ∈ beans[frame.traceEvent.returnIdx]?, frame.traceEvent.endTime = bean.startNs
  perm : ((s.replayResult ++ s.replayStack).map ReplayFrame.id).Perm (callIds beans)

theorem tracks_nil : Tracks [] ({} : Replay π) :=
  ⟨rfl, by simp, rfl, by simp, by simp, by simp [callIds]⟩

theorem Tracks.le_max_next (h : Tracks beans s) (hmax : s'.maxCallEndTime = s.maxCallEndTime) :
    ∀ b ∈ beans ++ [bean], b.startNs ≤ max s'.maxCallEndTime bean.startNs := by
  intro b hb
  rcases List.mem_append.mp hb with hb | hb
  · rw [hmax]
    exact (h.le_max b hb).trans (le_max_left _ _)
  · rw [List.mem_singleton.mp hb]
    exact le_max_right _ _

theorem Tracks.closed_append (h : Tracks beans s) {frame : ReplayFrame π} (hframe : frame ∈ s.replayResult) :
    ReturnsAt (beans ++ [bean]) frame.id frame.traceEvent.returnIdx ∧
      ∃ b ∈ (beans ++ [bean])[frame.traceEvent.returnIdx]?, frame.traceEvent.endTime = b.startNs := by
  obtain ⟨hcloses, b, hb, hend⟩ := h.closed frame hframe
  refine ⟨hcloses.append [bean], b, ?_, hend⟩
  rw [List.getElem?_append_left (List.getElem?_eq_some_iff.mp hb).1]
  exact hb

/-- No call is open where the stack is empty, else the top of the stack is the innermost one. -/
theorem Tracks.parent (h : Tracks beans s) :
    InnermostCallAt beans beans.length s.frameParentId ∨
      s.frameParentId = 0 ∧ ∀ i, ¬ CallOpenAt beans beans.length i := by
  rw [Replay.frameParentId]
  have hstack := h.stack
  cases hlist : s.replayStack with
  | nil =>
    rw [hlist] at hstack
    refine .inr ⟨rfl, fun i hi => ?_⟩
    rw [CallOpenAt, ← Brackets.mem_stack_iff, ← hstack] at hi
    exact absurd hi (by simp)
  | cons top rest =>
    rw [hlist] at hstack
    exact .inl (Brackets.innermostAt_of_stack hstack.symm)

theorem Tracks.next_call (h : Tracks beans s) (hcall : bean.isCall = true) (hpushed : Replay.Pushed s s' bean) :
    Tracks (beans ++ [bean])
      { s' with eventIdx := s'.eventIdx + 1, maxCallEndTime := max s'.maxCallEndTime bean.startNs } := by
  obtain ⟨name, callType, moduleId, params, hstack⟩ := hpushed.replayStack
  rw [h.eventIdx] at hstack
  refine ⟨?_, h.le_max_next hpushed.maxCallEndTime, ?_, ?_, ?_, ?_⟩
  · rw [List.length_append, List.length_singleton, hpushed.eventIdx, h.eventIdx]
  · rw [hstack, List.map_cons, h.stack, Brackets.stack_append_singleton, if_pos hcall]
    rfl
  · intro frame hframe
    dsimp only at hframe
    rw [hpushed.replayResult, hstack, List.mem_append, List.mem_cons, or_left_comm, ← List.mem_append] at hframe
    rcases hframe with rfl | hframe
    · -- The frame of the call itself.
      refine ⟨rfl, rfl, ⟨bean, ?_, hcall, rfl, rfl, rfl⟩, ?_⟩
      · show (beans ++ [bean])[beans.length]? = some bean
        simp
      · show InnermostCallAt (beans ++ [bean]) beans.length s.frameParentId ∨
          s.frameParentId = 0 ∧ ∀ i, ¬ CallOpenAt (beans ++ [bean]) beans.length i
        rw [InnermostCallAt, Brackets.innermostAt_append le_rfl]
        simp only [CallOpenAt, Brackets.openAt_append le_rfl]
        exact h.parent
    · exact (h.recorded frame hframe).append _
  · intro frame hframe
    dsimp only at hframe
    rw [hpushed.replayResult] at hframe
    exact h.closed_append hframe
  · rw [callIds_append_singleton, if_pos hcall, hpushed.replayResult, hstack, List.map_append, List.map_cons]
    refine List.perm_middle.trans ((List.perm_append_singleton _ _).symm.trans ?_)
    rw [← List.map_append]
    exact h.perm.append_right _

theorem Tracks.next_return (h : Tracks beans s) (hreturn : bean.isCall = false) :
    Tracks (beans ++ [bean])
      { s.returnTop bean.startNs with
        eventIdx := (s.returnTop bean.startNs).eventIdx + 1
        maxCallEndTime := max (s.returnTop bean.startNs).maxCallEndTime bean.startNs } := by
  have hstack := h.stack
  have hnot : ¬ bean.isCall = true := by simp [hreturn]
  cases hlist : s.replayStack with
  | nil =>
    rw [hlist] at hstack
    have hsame : s.returnTop bean.startNs = s := by rw [Replay.returnTop, hlist]
    rw [hsame]
    refine ⟨?_, h.le_max_next rfl, ?_, ?_, ?_, ?_⟩
    · rw [List.length_append, List.length_singleton, h.eventIdx]
    · rw [Brackets.stack_append_singleton, if_neg hnot, ← hstack, hlist]
      rfl
    · exact fun frame hframe => (h.recorded frame hframe).append _
    · exact fun frame hframe => h.closed_append hframe
    · rw [callIds_append_singleton, if_neg hnot, List.append_nil]
      exact h.perm
  | cons top rest =>
    rw [hlist, List.map_cons] at hstack
    set closed : ReplayFrame π :=
      { top with traceEvent := { top.traceEvent with endTime := bean.startNs, returnIdx := s.eventIdx } } with hclosed
    have hreturned : s.returnTop bean.startNs =
        { s with replayStack := rest, replayResult := s.replayResult ++ [closed] } := by
      rw [Replay.returnTop, hlist]
    have hids : ((s.replayResult ++ [closed] ++ rest).map ReplayFrame.id) =
        (s.replayResult ++ s.replayStack).map ReplayFrame.id := by
      rw [hlist, List.append_assoc, List.singleton_append, List.map_append, List.map_append, List.map_cons,
        List.map_cons]
    rw [hreturned]
    refine ⟨?_, h.le_max_next rfl, ?_, ?_, ?_, ?_⟩
    · rw [List.length_append, List.length_singleton, ← h.eventIdx]
    · rw [Brackets.stack_append_singleton, if_neg hnot, ← hstack]
      rfl
    · intro frame hframe
      dsimp only at hframe
      rw [List.append_assoc, List.singleton_append, List.mem_append, List.mem_cons, or_left_comm,
        ← List.mem_append] at hframe
      rcases hframe with rfl | hframe
      · exact ((h.recorded top (by simp [hlist])).append _).setEnd _ _
      · refine (h.recorded frame ?_).append _
        rcases List.mem_append.mp hframe with hframe | hframe
        · exact List.mem_append_left _ hframe
        · rw [hlist]
          exact List.mem_append_right _ (List.mem_cons_of_mem _ hframe)
    · intro frame hframe
      rcases List.mem_append.mp hframe with hframe | hframe
      · exact h.closed_append hframe
      · rw [List.mem_singleton.mp hframe, hclosed]
        dsimp only
        rw [h.eventIdx]
        exact ⟨Brackets.closes_of_stack hstack.symm hreturn, bean, by simp, rfl⟩
    · rw [callIds_append_singleton, if_neg hnot, List.append_nil]
      dsimp only
      rw [hids]
      exact h.perm

/-- All the beans are replayed if their names fit. -/
theorem exists_tracks (paramMap : ℕ → Option π) (hname : ∀ bean ∈ beans, NameFits hashMap bean) :
    ∃ s, beans.foldlM (Replay.next hashMap paramMap) {} = some s ∧ Tracks beans s := by
  induction beans using List.reverseRecOn with
  | nil => exact ⟨{}, rfl, tracks_nil⟩
  | append_singleton beans bean ih =>
    rw [List.forall_mem_append] at hname
    obtain ⟨s, hs, htracks⟩ := ih hname.1
    rw [List.foldlM_append, hs]
    cases hcall : bean.isCall with
    | true =>
      obtain ⟨s', hs', hpushed⟩ : ∃ s', s.replayBean hashMap paramMap bean = some s' ∧ Replay.Pushed s s' bean :=
        Replay.replayBean_call hcall (hname.2 bean (by simp))
      exact ⟨_, by simp [Replay.next, hs'], htracks.next_call hcall hpushed⟩
    | false => exact ⟨_, by simp [Replay.next, Replay.replayBean_return hcall], htracks.next_return hcall⟩

theorem nameFits_of_foldlM {s₀ : Replay π} (h : beans.foldlM (Replay.next hashMap paramMap) s₀ = some s) :
    ∀ bean ∈ beans, NameFits hashMap bean := by
  induction beans generalizing s₀ with
  | nil => simp
  | cons bean beans ih =>
    rw [List.foldlM_cons] at h
    obtain ⟨s₁, hs₁, hrest⟩ := Option.bind_eq_some_iff.mp h
    refine List.forall_mem_cons.mpr ⟨?_, ih hrest⟩
    by_contra hname
    rw [Replay.next, Replay.replayBean_eq_none hname] at hs₁
    exact absurd hs₁ (Option.some_ne_none _).symm

/-! ### The calls that do not return -/

namespace Replay

/-- A frame of the stack when it is closed after the last bean. -/
def close (s : Replay π) (position : ℕ) (frame : ReplayFrame π) : ReplayFrame π :=
  { frame with
    traceEvent := { frame.traceEvent with endTime := s.maxCallEndTime, returnIdx := s.eventIdx + position } }

theorem replayResult_finish (s : Replay π) :
    s.finish.replayResult = s.replayResult ++ s.replayStack.mapIdx s.close := by
  rw [finish]
  generalize hstack : s.replayStack = stack
  induction stack generalizing s with
  | nil => simp
  | cons top rest ih =>
    have hreturned : s.returnTop s.maxCallEndTime =
        { s with replayStack := rest, replayResult := s.replayResult ++ [s.close 0 top] } := by
      rw [returnTop, hstack]
      rfl
    have hrest : s.finishTop.replayStack = rest := by rw [finishTop, hreturned]
    have hclose : s.finishTop.close = fun position => s.close (position + 1) := by
      funext position frame
      rw [finishTop, hreturned, close, close]
      simp only [Nat.add_assoc, Nat.add_comm 1]
      rfl
    rw [List.length_cons, Function.iterate_succ_apply, ih s.finishTop hrest, List.mapIdx_cons, hclose, finishTop,
      hreturned]
    simp

end Replay

/-- The time of the bean at an index, or the last time. -/
def clock (beans : List PythonTracerFuncBean) (s : Replay π) (k : ℕ) : ℤ :=
  ((beans[k]?).map PythonTracerFuncBean.startNs).getD s.maxCallEndTime

theorem Tracks.clock_mono (h : Tracks beans s) (hsorted : beans.Pairwise fun x y => x.startNs ≤ y.startNs) {i k : ℕ}
    (hik : i ≤ k) : clock beans s i ≤ clock beans s k := by
  rw [clock, clock]
  rcases hik.lt_or_eq with hlt | rfl
  · by_cases hk : k < beans.length
    · rw [List.getElem?_eq_getElem hk, List.getElem?_eq_getElem (hlt.trans hk)]
      exact List.pairwise_iff_getElem.mp hsorted i k _ hk hlt
    · rw [List.getElem?_eq_none (not_lt.mp hk)]
      cases hi : beans[i]? with
      | none => exact le_rfl
      | some bean => exact h.le_max bean (List.mem_of_getElem? hi)
  · exact le_rfl

/-- A frame of the result has been closed by a return, or after the last bean. -/
structure Finished (beans : List PythonTracerFuncBean) (s : Replay π) (frame : ReplayFrame π) : Prop where
  recorded : Recorded beans frame
  lt : frame.id < frame.traceEvent.returnIdx
  endTime : frame.traceEvent.endTime = clock beans s frame.traceEvent.returnIdx
  returnsAt : ∀ k, ReturnsAt beans frame.id k → frame.traceEvent.returnIdx = k

theorem mem_replayResult_finish (hframe : frame ∈ s.finish.replayResult) :
    frame ∈ s.replayResult ∨ ∃ position top, s.replayStack[position]? = some top ∧ frame = s.close position top := by
  rw [Replay.replayResult_finish, List.mem_append] at hframe
  refine hframe.imp_right fun hframe => ?_
  obtain ⟨position, hposition, hclose⟩ := List.mem_mapIdx.mp hframe
  exact ⟨position, _, List.getElem?_eq_getElem hposition, hclose.symm⟩

/-- A frame of the stack is an open call. -/
theorem Tracks.openAt (h : Tracks beans s) {position : ℕ} {top : ReplayFrame π}
    (htop : s.replayStack[position]? = some top) : CallOpenAt beans beans.length top.id := by
  rw [CallOpenAt, ← Brackets.mem_stack_iff, ← h.stack]
  exact List.mem_map_of_mem (List.mem_of_getElem? htop)

theorem Tracks.finished (h : Tracks beans s) (hframe : frame ∈ s.finish.replayResult) : Finished beans s frame := by
  rcases mem_replayResult_finish hframe with hframe | ⟨position, top, htop, rfl⟩
  · obtain ⟨hcloses, bean, hbean, hend⟩ := h.closed frame hframe
    refine ⟨h.recorded frame (List.mem_append_left _ hframe), hcloses.lt, ?_, fun k hk => hcloses.unique hk⟩
    rw [hend, clock, hbean]
    rfl
  · have hrecorded := h.recorded top (List.mem_append_right _ (List.mem_of_getElem? htop))
    have hlt := hrecorded.lt
    have heventIdx := h.eventIdx
    refine ⟨hrecorded.setEnd _ _, ?_, ?_, fun k hk => ?_⟩
    · show top.id < s.eventIdx + position
      omega
    · show s.maxCallEndTime = clock beans s (s.eventIdx + position)
      rw [clock, List.getElem?_eq_none (by omega)]
      rfl
    · -- A call that has returned is not open any more.
      obtain ⟨x, hx, -⟩ := hk.closing
      exact absurd (h.openAt htop).within (hk.not_within (List.getElem?_eq_some_iff.mp hx).1)

/-- Two calls are closed one before the other is made, or the later one first. -/
theorem Tracks.nested (h : Tracks beans s) {frame' : ReplayFrame π} (hframe : frame ∈ s.finish.replayResult)
    (hframe' : frame' ∈ s.finish.replayResult) (hlt : frame.id < frame'.id) :
    frame.traceEvent.returnIdx < frame'.id ∨ frame'.traceEvent.returnIdx < frame.traceEvent.returnIdx := by
  have heventIdx := h.eventIdx
  have hcall' : ∃ x ∈ beans[frame'.id]?, x.isCall = true := by
    obtain ⟨bean, hbean, hcall, -⟩ := (h.finished hframe').recorded.call
    exact ⟨bean, hbean, hcall⟩
  have hindex : ∀ frame ∈ s.replayResult, frame.traceEvent.returnIdx < beans.length := by
    intro frame hframe
    obtain ⟨-, bean, hbean, -⟩ := h.closed frame hframe
    exact (List.getElem?_eq_some_iff.mp hbean).1
  rcases mem_replayResult_finish hframe with hclosed | ⟨position, top, htop, rfl⟩
  · rcases mem_replayResult_finish hframe' with hclosed' | ⟨position', top', htop', rfl⟩
    · exact (h.closed _ hclosed).1.nested (h.closed _ hclosed').1 hlt hcall'
    · exact .inl ((h.closed _ hclosed).1.lt_of_within hlt hcall' (h.openAt htop').within (hindex _ hclosed).le)
  · rcases mem_replayResult_finish hframe' with hclosed' | ⟨position', top', htop', rfl⟩
    · have := hindex _ hclosed'
      right
      show frame'.traceEvent.returnIdx < s.eventIdx + position
      omega
    · -- The stack has the later calls on top.
      right
      show s.eventIdx + position' < s.eventIdx + position
      by_contra hnot
      have hsorted := Brackets.pairwise_stack PythonTracerFuncBean.isCall beans
      rw [← h.stack, List.pairwise_map] at hsorted
      obtain ⟨hp, hptop⟩ := List.getElem?_eq_some_iff.mp htop
      obtain ⟨hp', hptop'⟩ := List.getElem?_eq_some_iff.mp htop'
      have hids : top.id < top'.id := hlt
      rcases (show position ≤ position' by omega).lt_or_eq with hpos | rfl
      · have := List.pairwise_iff_getElem.mp hsorted position position' hp hp' hpos
        rw [hptop, hptop'] at this
        omega
      · rw [← hptop, ← hptop'] at hids
        exact hids.false

theorem Tracks.perm_finish (h : Tracks beans s) :
    (s.finish.replayResult.map ReplayFrame.id).Perm (callIds beans) := by
  have hids : (s.replayStack.mapIdx s.close).map ReplayFrame.id = s.replayStack.map ReplayFrame.id := by
    apply List.ext_getElem?
    intro i
    rw [List.getElem?_map, List.getElem?_map, List.getElem?_mapIdx, Option.map_map]
    rfl
  rw [Replay.replayResult_finish, List.map_append, hids, ← List.map_append]
  exact h.perm

/-! ### The parents -/

/-- An id is found in `event_id_map` as it is. -/
theorem elim_selfId_eventIdMap {frames : List (ReplayFrame π)} (hself : ∀ frame ∈ frames, frame.traceEvent.selfId = frame.id)
    {id : ℕ} (hid : id ∈ frames.map ReplayFrame.id ∨ id = 0) :
    ((frames.foldl (fun (eventIdMap : Dict ℕ (PyTraceEvent π)) frame =>
      eventIdMap.modify frame.id fun _ => frame.traceEvent) Dict.empty).get? id).elim 0 PyTraceEvent.selfId = id := by
  set value : Option (PyTraceEvent π) → ReplayFrame π → Option (PyTraceEvent π) := fun _ frame =>
    some frame.traceEvent with hvalue
  have hstep : ∀ (d : Dict ℕ (PyTraceEvent π)) (frame : ReplayFrame π) (key : ℕ),
      (d.modify frame.id fun _ => frame.traceEvent).get? key =
        if key = frame.id then value (d.get? key) frame else d.get? key :=
    fun d frame key => Dict.get?_modify d frame.id key _
  have hfold : ∀ (frames : List (ReplayFrame π)) (event? : Option (PyTraceEvent π)),
      frames.foldl value event? = (frames.getLast?.map ReplayFrame.traceEvent).or event? := by
    intro frames event?
    induction frames using List.reverseRecOn with
    | nil => rfl
    | append_singleton frames frame _ => simp [hvalue]
  rw [Dict.get?_foldl hstep, hfold, Dict.get?_empty, Option.or_none]
  cases hlast : (frames.filter fun frame => frame.id = id).getLast? with
  | none =>
    rw [List.getLast?_eq_none_iff, List.filter_eq_nil_iff] at hlast
    rcases hid with hid | rfl
    · obtain ⟨frame, hframe, rfl⟩ := List.mem_map.mp hid
      exact absurd (hlast frame hframe) (by simp)
    · rfl
  | some frame =>
    obtain ⟨hframe, hid⟩ := List.mem_filter.mp (List.mem_of_getLast? hlast)
    rw [Option.map_some, Option.elim_some, hself frame hframe]
    simpa using hid

/-- The events of the result are the frames with the ids of their parents. -/
theorem Tracks.output_eq (h : Tracks beans s) :
    Replay.output s.finish.replayResult =
      s.finish.replayResult.map fun frame => { frame.traceEvent with parentId := some frame.parentId } := by
  apply List.map_congr_left
  intro frame hframe
  rw [elim_selfId_eventIdMap fun frame hframe => (h.finished hframe).recorded.selfId]
  rw [h.perm_finish.mem_iff]
  refine (h.finished hframe).recorded.parentId.imp (fun hparent => ?_) And.left
  obtain ⟨x, hx, hcall⟩ := hparent.1.opening
  have hlt := (List.getElem?_eq_some_iff.mp hx).1
  exact List.mem_filter.mpr ⟨List.mem_range.mpr hlt, by rw [hx]; simpa using hcall⟩

/-! ### `_replay_stack` -/

/-- Any two events are nested, or apart but for their ends. -/
def NestedOrDisjoint (x y : PyTraceEvent π) : Prop :=
  (x.endTime ≤ y.startTime ∨ y.endTime ≤ x.startTime) ∨
    (x.startTime ≤ y.startTime ∧ y.endTime ≤ x.endTime) ∨ (y.startTime ≤ x.startTime ∧ x.endTime ≤ y.endTime)

/-- The events are those of the calls. -/
structure Replays (beans : List PythonTracerFuncBean) (events : List (PyTraceEvent π)) : Prop where
  /-- There is one event for each call. -/
  calls : (events.map PyTraceEvent.selfId).Perm (callIds beans)
  start : ∀ event ∈ events, event.callIdx = event.selfId ∧ ∃ bean ∈ beans[event.selfId]?,
    event.startTime = bean.startNs ∧ event.threadId = bean.tid ∧ event.processId = bean.pid
  start_le_end : ∀ event ∈ events, event.startTime ≤ event.endTime
  nested : events.Pairwise NestedOrDisjoint
  /-- A call that returns is closed by its own return. -/
  returns : ∀ event ∈ events, ∀ k, ReturnsAt beans event.selfId k →
    event.returnIdx = k ∧ ∃ bean ∈ beans[k]?, event.endTime = bean.startNs
  parent : ∀ event ∈ events, ∀ i, InnermostCallAt beans event.selfId i → event.parentId = some i
  root : ∀ event ∈ events, (∀ i, ¬ CallOpenAt beans event.selfId i) →
    ∃ id, event.parentId = some id ∧ ∀ x ∈ events, x.selfId ≠ id

theorem Tracks.nestedOrDisjoint (h : Tracks beans s) (hsorted : beans.Pairwise fun x y => x.startNs ≤ y.startNs)
    {frame' : ReplayFrame π} (hframe : frame ∈ s.finish.replayResult) (hframe' : frame' ∈ s.finish.replayResult)
    (hlt : frame.id < frame'.id) :
    frame.traceEvent.endTime ≤ frame'.traceEvent.startTime ∨
      (frame.traceEvent.startTime ≤ frame'.traceEvent.startTime ∧
        frame'.traceEvent.endTime ≤ frame.traceEvent.endTime) := by
  have hstart : ∀ frame ∈ s.finish.replayResult, frame.traceEvent.startTime = clock beans s frame.id := by
    intro frame hframe
    obtain ⟨bean, hbean, -, hstart, -⟩ := (h.finished hframe).recorded.call
    rw [hstart, clock, hbean]
    rfl
  rw [(h.finished hframe).endTime, (h.finished hframe').endTime, hstart _ hframe, hstart _ hframe']
  rcases h.nested hframe hframe' hlt with hbefore | hwithin
  · exact .inl (h.clock_mono hsorted hbefore.le)
  · exact .inr ⟨h.clock_mono hsorted hlt.le, h.clock_mono hsorted hwithin.le⟩

/-- No bean of a call comes first, whose id would be that of a missing parent. -/
def StartsWithReturn (beans : List PythonTracerFuncBean) : Prop :=
  ∀ bean ∈ beans[0]?, bean.isCall = false

theorem Tracks.replays (h : Tracks beans s) (hsorted : beans.Pairwise fun x y => x.startNs ≤ y.startNs)
    (hfirst : StartsWithReturn beans) : Replays beans (Replay.output s.finish.replayResult) := by
  rw [h.output_eq]
  have hnodup : (s.finish.replayResult.map ReplayFrame.id).Nodup :=
    h.perm_finish.nodup_iff.mpr (List.nodup_range.filter _)
  have hself : ∀ frame ∈ s.finish.replayResult, frame.traceEvent.selfId = frame.id :=
    fun frame hframe => (h.finished hframe).recorded.selfId
  refine ⟨?_, ?_, ?_, ?_, ?_, ?_, ?_⟩
  · rw [List.map_map]
    show (s.finish.replayResult.map fun frame => frame.traceEvent.selfId).Perm _
    rw [List.map_congr_left hself]
    exact h.perm_finish
  · rw [List.forall_mem_map]
    intro frame hframe
    have hrecorded := (h.finished hframe).recorded
    dsimp only
    rw [hself frame hframe]
    obtain ⟨bean, hbean, -, hcall⟩ := hrecorded.call
    exact ⟨hrecorded.callIdx, bean, hbean, hcall⟩
  · rw [List.forall_mem_map]
    intro frame hframe
    have hfinished := h.finished hframe
    obtain ⟨bean, hbean, -, hstart, -⟩ := hfinished.recorded.call
    have := h.clock_mono hsorted hfinished.lt.le
    rw [← hfinished.endTime, clock, hbean] at this
    dsimp only
    rw [hstart]
    exact this
  · rw [List.pairwise_map]
    rw [List.Nodup, List.pairwise_map] at hnodup
    refine hnodup.imp_of_mem fun {frame frame'} hframe hframe' hne => ?_
    rcases lt_or_gt_of_ne hne with hlt | hlt
    · exact (h.nestedOrDisjoint hsorted hframe hframe' hlt).elim (fun h => .inl (.inl h)) fun h => .inr (.inl h)
    · exact (h.nestedOrDisjoint hsorted hframe' hframe hlt).elim (fun h => .inl (.inr h)) fun h => .inr (.inr h)
  · rw [List.forall_mem_map]
    intro frame hframe k hk
    have hfinished := h.finished hframe
    dsimp only at hk ⊢
    rw [hself frame hframe] at hk
    obtain rfl := hfinished.returnsAt k hk
    obtain ⟨bean, hbean, -⟩ := hk.closing
    refine ⟨rfl, bean, hbean, ?_⟩
    rw [hfinished.endTime, clock, hbean]
    rfl
  · rw [List.forall_mem_map]
    intro frame hframe i hi
    dsimp only at hi ⊢
    rw [hself frame hframe] at hi
    rcases (h.finished hframe).recorded.parentId with hparent | ⟨-, hnone⟩
    · exact congrArg some (le_antisymm (hi.2 _ hparent.1) (hparent.2 _ hi.1))
    · exact absurd hi.1 (hnone i)
  · rw [List.forall_mem_map]
    intro frame hframe hopen
    dsimp only at hopen ⊢
    rw [hself frame hframe] at hopen
    refine ⟨frame.parentId, rfl, fun x hx heq => ?_⟩
    obtain ⟨frame', hframe', rfl⟩ := List.mem_map.mp hx
    rcases (h.finished hframe).recorded.parentId with hparent | ⟨hzero, -⟩
    · exact hopen _ hparent.1
    · obtain ⟨bean, hbean, hcall, -⟩ := (h.finished hframe').recorded.call
      dsimp only at heq
      rw [hself frame' hframe', hzero] at heq
      rw [heq] at hbean
      rw [hfirst bean hbean] at hcall
      exact Bool.noConfusion hcall

/-- A call that comes first is its own parent. -/
theorem Tracks.startsWithReturn (h : Tracks beans s) (hreplays : Replays beans (Replay.output s.finish.replayResult)) :
    StartsWithReturn beans := by
  intro bean hbean
  by_contra hcall
  rw [Bool.not_eq_false] at hcall
  have hmem : 0 ∈ callIds beans := by
    have hlt := (List.getElem?_eq_some_iff.mp hbean).1
    exact List.mem_filter.mpr ⟨List.mem_range.mpr hlt, by rw [hbean]; simpa using hcall⟩
  obtain ⟨event, hevent, hid⟩ := List.mem_map.mp (hreplays.calls.mem_iff.mpr hmem)
  have hopen : ∀ i, ¬ CallOpenAt beans event.selfId i := fun i hi => by
    have := hi.lt
    omega
  obtain ⟨id, hparent, hother⟩ := hreplays.root event hevent hopen
  rw [h.output_eq] at hevent
  obtain ⟨frame, hframe, rfl⟩ := List.mem_map.mp hevent
  dsimp only at hid hopen hparent
  rw [(h.finished hframe).recorded.selfId] at hid hopen
  obtain rfl := Option.some.inj hparent
  rcases (h.finished hframe).recorded.parentId with hinnermost | ⟨hzero, -⟩
  · exact hopen _ hinnermost.1
  · refine hother _ (by rw [h.output_eq]; exact List.mem_map_of_mem hframe) ?_
    dsimp only
    rw [(h.finished hframe).recorded.selfId, hid, hzero]

/-- The beans are replayed as they should be exactly when the first one is no call and no name of a Python
function has the delimiter twice. -/
theorem replayStack_replays_iff (hashMap : ℕ → Option Text) (paramMap : ℕ → Option π)
    (threadTraceEvent : List PythonTracerFuncBean) :
    (∃ events, replayStack hashMap paramMap threadTraceEvent = some events ∧
        Replays (sortedBeans threadTraceEvent) events) ↔
      StartsWithReturn (sortedBeans threadTraceEvent) ∧ ∀ bean ∈ threadTraceEvent, NameFits hashMap bean := by
  have hsorted : (sortedBeans threadTraceEvent).Pairwise fun x y => x.startNs ≤ y.startNs :=
    SortByKey.pairwise_insertionSort_on PythonTracerFuncBean.startNs threadTraceEvent
  have hnames : (∀ bean ∈ threadTraceEvent, NameFits hashMap bean) ↔
      ∀ bean ∈ sortedBeans threadTraceEvent, NameFits hashMap bean := by
    simp only [sortedBeans, List.mem_insertionSort]
  rw [hnames]
  constructor
  · intro ⟨events, hevents, hreplays⟩
    obtain ⟨s, hs, rfl⟩ := Option.map_eq_some_iff.mp hevents
    have hfits := nameFits_of_foldlM hs
    obtain ⟨s', hs', htracks⟩ := exists_tracks paramMap hfits
    obtain rfl := Option.some.inj (hs.symm.trans hs')
    exact ⟨htracks.startsWithReturn hreplays, hfits⟩
  · intro ⟨hfirst, hfits⟩
    obtain ⟨s, hs, htracks⟩ := exists_tracks paramMap hfits
    exact ⟨_, Option.map_eq_some_iff.mpr ⟨s, hs, rfl⟩, htracks.replays hsorted hfirst⟩

/-- A call that returns: its event is its own parent. -/
theorem not_replays_call :
    ¬ ∀ (hashMap : ℕ → Option Text) (paramMap : ℕ → Option Unit) (threadTraceEvent : List PythonTracerFuncBean),
      (∀ bean ∈ threadTraceEvent, NameFits hashMap bean) →
        ∃ events, replayStack hashMap paramMap threadTraceEvent = some events ∧
          Replays (sortedBeans threadTraceEvent) events := by
  intro h
  obtain ⟨events, hevents, hreplays⟩ :=
    h (fun _ => none) (fun _ => none) [⟨10, 1, 1, 7, .cCall⟩, ⟨20, 1, 1, 7, .cReturn⟩] (by simp [NameFits])
  obtain ⟨s, hs, rfl⟩ := Option.map_eq_some_iff.mp hevents
  obtain ⟨s', hs', htracks⟩ := exists_tracks _ (nameFits_of_foldlM hs)
  obtain rfl := Option.some.inj (hs.symm.trans hs')
  exact absurd (htracks.startsWithReturn hreplays ⟨10, 1, 1, 7, .cCall⟩ rfl) (by decide)

end TorchNpu.Profiler.PythonTraceParser
