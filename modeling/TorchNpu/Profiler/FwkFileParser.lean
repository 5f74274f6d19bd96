/-
  The links between forward and backward operators, in the trace and in the database
  (`prof_parse/_fwk_file_parser.py`, `create_fwd_flow` of `_trace_event_manager.py`).

  The operators are those of one process.  What else the rows and the events hold is left out.
-/
import Mathlib.Data.Int.Notation
import TorchNpu.Lib.Dict

namespace TorchNpu.Profiler.FwkFileParser

/-- `TorchOpBean` -/
structure TorchOpBean where
  name : String
  tid : ℕ
  ts : ℤ
  /-- `args["Sequence number"]` -/
  sequenceNumber : ℤ
  /-- `args["Fwd thread id"]` -/
  fwdThreadId : ℕ

/-- The keys of an entry for a sequence number. -/
inductive Mode
  | start
  | «end»
  deriving DecidableEq

def TorchOpBean.mode (op : TorchOpBean) : Mode :=
  if op.fwdThreadId = 0 then .start else .end

/-- An entry for a sequence number. -/
structure FwdBwd (ν : Type*) where
  start : Option ν := none
  «end» : Option ν := none

namespace FwdBwd

variable {ν : Type*}

def get (node : FwdBwd ν) : Mode → Option ν
  | .start => node.start
  | .end => node.end

def set (node : FwdBwd ν) (mode : Mode) (v : ν) : FwdBwd ν :=
  match mode with
  | .start => { node with start := some v }
  | .end => { node with «end» := some v }

end FwdBwd

/-- What the two filters have in common.  `ts` is `get("ts")` of what is kept for an operator; where there is
none, it is compared as minus infinity. -/
def filterFwdBwd {ν : Type*} (ts : ν → Option ℤ) (dict : Dict ℤ (FwdBwd ν)) (op : TorchOpBean) (v : ν) :
    Dict ℤ (FwdBwd ν) :=
  if op.sequenceNumber < 0 then dict
  else
    let fwdEvent := (dict.get? op.sequenceNumber).getD {}
    if ((fwdEvent.get op.mode).bind ts).all fun ts => ts < op.ts then
      dict.modify op.sequenceNumber fun node => (node.getD {}).set op.mode v
    else dict

/-! ### The trace -/

/-- What the trace keeps of an operator. -/
structure FwdEvent where
  tid : ℕ
  ts : ℤ
  deriving DecidableEq

/-- `filter_fwd_bwd_event` -/
def filterFwdBwdEvent (fwdDict : Dict ℤ (FwdBwd FwdEvent)) (op : TorchOpBean) : Dict ℤ (FwdBwd FwdEvent) :=
  filterFwdBwd (fun event => some event.ts) fwdDict op ⟨op.tid, op.ts⟩

/-- The two events of a flow. -/
structure FwdFlow where
  id : ℤ
  start : FwdEvent
  «end» : FwdEvent
  deriving DecidableEq

/-- `create_fwd_flow` -/
def createFwdFlow (event : Dict ℤ (FwdBwd FwdEvent)) : List FwdFlow :=
  event.entries.filterMap fun (fwdId, node) =>
    match node.start, node.end with
    | some start, some «end» => if start.tid = end.tid then none else some ⟨fwdId, start, «end»⟩
    | _, _ => none

/-- The flows of `get_fwk_trace_data`. -/
def fwkTraceFlows (torchOpData : List TorchOpBean) : List FwdFlow :=
  createFwdFlow (torchOpData.foldl filterFwdBwdEvent Dict.empty)

/-! ### The database -/

/-- A row of an operator; its connection ids are apart. -/
structure TorchOpApi where
  ts : ℤ
  tid : ℕ
  sequenceNumber : ℤ

def TorchOpBean.api (op : TorchOpBean) : TorchOpApi :=
  ⟨op.ts, op.tid, op.sequenceNumber⟩

/-- `filter_fwd_bwd_api`.  What is kept of an operator is its index, and has no time. -/
def filterFwdBwdApi (fwdBwdDict : Dict ℤ (FwdBwd ℕ)) (op : TorchOpBean) (torchOpIdx : ℕ) :
    Dict ℤ (FwdBwd ℕ) :=
  filterFwdBwd (fun _ => none) fwdBwdDict op torchOpIdx

/-- The variables of the loop of `get_fwk_api`. -/
structure FwkApis where
  torchOpApis : List TorchOpApi := []
  mstxMarkApis : List TorchOpApi := []
  fwdBwdDict : Dict ℤ (FwdBwd ℕ) := Dict.empty
  torchOpIdx : ℕ := 0

def FwkApis.next (s : FwkApis) (op : TorchOpBean) : FwkApis :=
  if op.name = "mstx_mark_op" then { s with mstxMarkApis := s.mstxMarkApis ++ [op.api] }
  else
    { s with
      torchOpApis := s.torchOpApis ++ [op.api]
      fwdBwdDict := filterFwdBwdApi s.fwdBwdDict op s.torchOpIdx
      torchOpIdx := s.torchOpIdx + 1 }

/-- `update_fwd_bwd_connection_id`: the connection ids that are added, each with the indices of the two rows it
is added to. -/
def updateFwdBwdConnectionId (fwdDict : Dict ℤ (FwdBwd ℕ)) (startConnectionId : ℕ) : List (ℕ × ℕ × ℕ) :=
  (fwdDict.values.filterMap fun node =>
    match node.start, node.end with
    | some fwdOpId, some bwdOpId => some (fwdOpId, bwdOpId)
    | _, _ => none).zipIdx.map fun ((fwdOpId, bwdOpId), k) => (startConnectionId + k, fwdOpId, bwdOpId)

/-- The connections of `get_fwk_api`, and the rows. -/
def fwkApiConnections (torchOpData : List TorchOpBean) (startConnectionId : ℕ) :
    List TorchOpApi × List (ℕ × ℕ × ℕ) :=
  let s := torchOpData.foldl FwkApis.next {}
  (s.torchOpApis, updateFwdBwdConnectionId s.fwdBwdDict startConnectionId)

end TorchNpu.Profiler.FwkFileParser
