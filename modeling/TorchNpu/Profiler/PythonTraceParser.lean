/-
  Replaying the Python calls and returns of a thread (`_replay_stack` of `prof_parse/_python_trace_parser.py`).

  The counter of `enumerate` and `event_idx` are the same number until the loop is over.  Raising is `none`.
-/
import Mathlib.Data.List.Sort
import TorchNpu.Lib.Dict
import TorchNpu.Lib.Text

namespace TorchNpu.Profiler.PythonTraceParser

/-- `MODULE_NAME_DELIMITER` -/
def moduleNameDelimiter : Text :=
  ['#', '#', '#', '#', '#', '#']

inductive TraceTag
  | pyCall
  | pyReturn
  | cCall
  | cReturn

inductive CallType
  | pyCall
  | pyModuleCall
  | cCall

/-- `PythonTracerFuncBean` -/
structure PythonTracerFuncBean where
  startNs : ℤ
  tid : ℕ
  pid : ℕ
  key : ℕ
  traceTag : TraceTag

variable {π : Type*}

/-- `PyTraceEvent` -/
structure PyTraceEvent (π : Type*) where
  startTime : ℤ
  endTime : ℤ
  name : Text
  threadId : ℕ
  processId : ℕ
  selfId : ℕ
  parentId : Option ℕ
  callType : CallType
  moduleId : ℕ
  callIdx : ℕ
  returnIdx : ℕ
  params : Option π

structure ReplayFrame (π : Type*) where
  traceEvent : PyTraceEvent π
  id : ℕ
  parentId : ℕ

def ReplayFrame.new (callBean : PythonTracerFuncBean) (name : Text) (eventIdx : ℕ) (callType : CallType)
    (moduleId curId parentId : ℕ) (params : Option π) : ReplayFrame π where
  traceEvent :=
    { startTime := callBean.startNs
      endTime := -1
      name
      threadId := callBean.tid
      processId := callBean.pid
      selfId := curId
      parentId := none
      callType
      moduleId
      callIdx := eventIdx
      returnIdx := 0
      params }
  id := curId
  parentId

/-- The variables of `_replay_stack`; the top of the stack is the first frame. -/
structure Replay (π : Type*) where
  eventIdx : ℕ := 0
  maxCallEndTime : ℤ := 0
  replayStack : List (ReplayFrame π) := []
  replayResult : List (ReplayFrame π) := []
  moduleNameCounter : Dict Text ℕ := Dict.empty
  moduleUidMap : Dict Text ℕ := Dict.empty

namespace Replay

def frameParentId (s : Replay π) : ℕ :=
  (s.replayStack.head?.map ReplayFrame.id).getD 0

/-- The frame on top of the stack gets its end and goes into the result. -/
def returnTop (s : Replay π) (endTime : ℤ) : Replay π :=
  match s.replayStack with
  | [] => s
  | frame :: replayStack =>
    { s with
      replayStack
      replayResult := s.replayResult ++
        [{ frame with traceEvent := { frame.traceEvent with endTime, returnIdx := s.eventIdx } }] }

/-- `get_module_info_from_value`, after the name has been split. -/
def moduleInfo (s : Replay π) (moduleName moduleUid : Text) : Replay π × ℕ :=
  match s.moduleUidMap.get? moduleUid with
  | some moduleId => (s, moduleId)
  | none =>
    let curCount := (s.moduleNameCounter.get? moduleName).getD 0
    ({ s with
        moduleUidMap := s.moduleUidMap.modify moduleUid fun _ => curCount
        moduleNameCounter := s.moduleNameCounter.modify moduleName fun _ => curCount + 1 }, curCount)

def push (s : Replay π) (callBean : PythonTracerFuncBean) (name : Text) (callType : CallType) (moduleId : ℕ)
    (params : Option π) : Replay π :=
  { s with
    replayStack :=
      ReplayFrame.new callBean name s.eventIdx callType moduleId s.eventIdx s.frameParentId params ::
        s.replayStack }

/-- What a bean does to the stack. -/
def replayBean (hashMap : ℕ → Option Text) (paramMap : ℕ → Option π) (s : Replay π)
    (callBean : PythonTracerFuncBean) : Option (Replay π) :=
  let name := (hashMap callBean.key).getD (Nat.toDigits 10 callBean.key)
  let params := paramMap callBean.key
  match callBean.traceTag with
  | .pyCall =>
    match Text.split moduleNameDelimiter name with
    | [_] => some (s.push callBean name .pyCall 0 params)
    | [moduleName, moduleUid] =>
      let (s, moduleId) := s.moduleInfo moduleName moduleUid
      some (s.push callBean moduleName .pyModuleCall moduleId params)
    -- There are too many values to unpack.
    | _ => none
  | .cCall => some (s.push callBean name .cCall 0 params)
  | .pyReturn | .cReturn => some (s.returnTop callBean.startNs)

/-- A round of the loop. -/
def next (hashMap : ℕ → Option Text) (paramMap : ℕ → Option π) (s : Replay π)
    (callBean : PythonTracerFuncBean) : Option (Replay π) :=
  (s.replayBean hashMap paramMap callBean).map fun s =>
    { s with eventIdx := s.eventIdx + 1, maxCallEndTime := max s.maxCallEndTime callBean.startNs }

/-- A round of the loop over the calls that have not returned. -/
def finishTop (s : Replay π) : Replay π :=
  { s.returnTop s.maxCallEndTime with eventIdx := s.eventIdx + 1 }

def finish (s : Replay π) : Replay π :=
  finishTop^[s.replayStack.length] s

/-- The events of the result with the ids of their parents. -/
def output (replayResult : List (ReplayFrame π)) : List (PyTraceEvent π) :=
  let eventIdMap := replayResult.foldl
    (fun (eventIdMap : Dict ℕ (PyTraceEvent π)) frame => eventIdMap.modify frame.id fun _ => frame.traceEvent) Dict.empty
  replayResult.map fun frame =>
    { frame.traceEvent with
      parentId := some ((eventIdMap.get? frame.parentId).elim 0 PyTraceEvent.selfId) }

end Replay

/-- The beans as the loop goes through them. -/
def sortedBeans (threadTraceEvent : List PythonTracerFuncBean) : List PythonTracerFuncBean :=
  threadTraceEvent.insertionSort fun x y => x.startNs ≤ y.startNs

/-- `_replay_stack` -/
def replayStack (hashMap : ℕ → Option Text) (paramMap : ℕ → Option π)
    (threadTraceEvent : List PythonTracerFuncBean) : Option (List (PyTraceEvent π)) :=
  ((sortedBeans threadTraceEvent).foldlM (Replay.next hashMap paramMap) {}).map fun s =>
    Replay.output s.finish.replayResult

end TorchNpu.Profiler.PythonTraceParser
