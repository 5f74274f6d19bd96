/-
  The memory records of the allocator, put together and given the names of operators
  (`prof_view/_memory_prepare_parser.py`).

  A node of the tree of operators stands with its parents, from the inside out; the root, which has no event, is left
  out.  The values in the rows are converted in one way for the text and in another one for the database, and `Cells`
  has these conversions.  The rows for the views of the whole process (`pta_record_list`) are left out.
-/
import TorchNpu.Lib.Dict
import Mathlib.Data.Int.Order.Basic
import Mathlib.Data.List.Sort
import Mathlib.Logic.Function.Basic

namespace TorchNpu.Profiler.MemoryPrepareParser

/-- `MEMORY_MALLOC`, `MEMORY_FREE` and `MEMORY_BLOCK_FREE`. -/
inductive DataType
  | malloc
  | free
  | blockFree
  deriving DecidableEq

/-- `MemoryUseBean` -/
structure MemoryRecord where
  /-- What tells the objects apart. -/
  id : ℕ
  ptr : ℤ
  timeNs : ℤ
  allocSize : ℤ
  totalAllocated : ℤ
  totalReserved : ℤ
  totalActive : ℤ
  streamPtr : ℤ
  isNpu : Bool
  deviceIndex : ℤ
  componentType : ℤ
  dataType : DataType
  isInnerAllocator : Bool
  tid : ℕ
  pid : ℕ
  deriving DecidableEq

/-- The event of a `TorchOpNode`. -/
structure TorchOp where
  name : String
  pid : ℕ
  tid : ℕ
  startTime : ℤ
  endTime : ℤ
  deriving DecidableEq

/-- `TorchOpNode` -/
structure OpNode where
  event : TorchOp
  parents : List TorchOp

/-- The end of an enqueue or of a dequeue, with the time `ts` of its start. -/
structure OpMark where
  pid : ℕ
  tid : ℕ
  corrId : ℕ
  timeNs : ℤ
  ts : ℤ
  dur : ℤ

/-! ### The names of the operators -/

/-- The inputs of `_init_queue_info`. -/
structure QueueData where
  enqueueData : List OpMark
  dequeueData : List OpMark

namespace QueueData

/-- `_dequeue_record_dict` -/
def dequeueRecords (queue : QueueData) (pid tid : ℕ) : List OpMark :=
  queue.dequeueData.filter fun record => record.pid = pid ∧ record.tid = tid

/-- `_find_related_enqueue_record`.  The last mark stays in `_enqueue_record_dict`. -/
def findRelatedEnqueueRecord (queue : QueueData) (dequeueRecord : OpMark) : Option OpMark :=
  (queue.enqueueData.filter fun record => record.corrId = dequeueRecord.corrId).getLast?

/-- `record.pid in self._dequeue_pids and record.tid in self._dequeue_tids` -/
def isDequeueThread (queue : QueueData) (pid tid : ℕ) : Bool :=
  queue.dequeueData.any (·.pid = pid) && queue.dequeueData.any (·.tid = tid)

end QueueData

structure State where
  /-- The nodes in `torch_ops_tid_dict`. -/
  torchOps : List OpNode := []
  torchOpsIndex : ℕ × Bool → ℕ := fun _ => 0
  dequeueRecordIndex : ℕ × ℕ → ℕ := fun _ => 0
  recordToName : MemoryRecord → Option String := fun _ => none
  incompleteNum : ℕ := 0

/-- The loop that moves an index past the times up to `ts`. -/
def advance (times : List ℤ) (index : ℕ) (ts : ℤ) : ℕ :=
  index + ((times.drop index).takeWhile (· ≤ ts)).length

/-- `torch_ops_tid_dict[tid]` -/
def opsOf (torchOps : List OpNode) (tid : ℕ) : List OpNode :=
  torchOps.filter (·.event.tid = tid)

namespace State

/-- `_find_last_torch_op_before_timestamp` -/
def findLastTorchOpBeforeTimestamp (s : State) (ts : ℤ) (tid : ℕ) (isEnqueue : Bool) : Option OpNode × State :=
  let torchOps := opsOf s.torchOps tid
  let index := advance (torchOps.map (·.event.startTime)) (s.torchOpsIndex (tid, isEnqueue)) ts
  (if index = 0 then none else torchOps[index - 1]?,
    { s with torchOpsIndex := Function.update s.torchOpsIndex (tid, isEnqueue) index })

/-- `_find_last_dequeue_record_before_timestamp` -/
def findLastDequeueRecordBeforeTimestamp (queue : QueueData) (s : State) (record : MemoryRecord) :
    Option OpMark × State :=
  let dequeueRecords := queue.dequeueRecords record.pid record.tid
  let index := advance (dequeueRecords.map (·.ts)) (s.dequeueRecordIndex (record.pid, record.tid)) record.timeNs
  (if index = 0 then none else dequeueRecords[index - 1]?,
    { s with dequeueRecordIndex := Function.update s.dequeueRecordIndex (record.pid, record.tid) index })

end State

/-- The loop of `_find_matched_torch_op_name`. -/
def nameAround (memStartTs : ℤ) (node : OpNode) : String :=
  (((node.event :: node.parents).find? fun op => memStartTs ≤ op.endTime).map TorchOp.name).getD ""

def isAtenOp (op : TorchOp) : Bool :=
  "aten".toList.isPrefixOf op.name.toList || "npu".toList.isPrefixOf op.name.toList

/-- The loop of `_get_aten_op_name_by_enqueue_record`. -/
def atenName (node : OpNode) : String :=
  (((node.event :: node.parents).find? isAtenOp).map TorchOp.name).getD ""

/-- `_find_matched_torch_op_name` -/
def findMatchedTorchOpName (s : State) (memStartTs : ℤ) (tid : ℕ) : String × State :=
  let (node, s) := s.findLastTorchOpBeforeTimestamp memStartTs tid false
  ((node.map (nameAround memStartTs)).getD "", s)

/-- `_get_aten_op_name_by_enqueue_record` -/
def getAtenOpNameByEnqueueRecord (s : State) (enqueueRecord : OpMark) : String × State :=
  let (node, s) := s.findLastTorchOpBeforeTimestamp enqueueRecord.timeNs enqueueRecord.tid true
  ((node.map atenName).getD "", s)

/-- `_find_related_dequeue_record` -/
def findRelatedDequeueRecord (queue : QueueData) (s : State) (record : MemoryRecord) : Option OpMark × State :=
  if queue.isDequeueThread record.pid record.tid then
    let (dequeueRecord, s) := s.findLastDequeueRecordBeforeTimestamp queue record
    (dequeueRecord.filter fun d => d.ts ≤ record.timeNs ∧ record.timeNs < d.ts + d.dur, s)
  else (none, s)

/-- `_find_real_op_name_of_record` -/
def findRealOpNameOfRecord (queue : QueueData) (s : State) (dequeueRecord : OpMark) : String × State :=
  match queue.findRelatedEnqueueRecord dequeueRecord with
  | none => ("", s)
  | some enqueueRecord => getAtenOpNameByEnqueueRecord s enqueueRecord

/-- The name of a record, if it is made in a dequeue or not. -/
def findOpNameOfRecord (queue : QueueData) (s : State) (record : MemoryRecord) : Option OpMark → String × State
  | none => findMatchedTorchOpName s record.timeNs record.tid
  | some dequeueRecord => findRealOpNameOfRecord queue s dequeueRecord

/-- `_get_op_name_of_record` -/
def getOpNameOfRecord (queue : QueueData) (s : State) (record : MemoryRecord) : String × State :=
  match s.recordToName record with
  | some opName => (opName, s)
  | none =>
    let (dequeueRecord, s) := findRelatedDequeueRecord queue s record
    let (opName, s) := findOpNameOfRecord queue s record dequeueRecord
    (opName, { s with recordToName := Function.update s.recordToName record (some opName) })

/-! ### The entries -/

/-- The loop of `_get_valid_record_entry`, from the record at `r_idx` on, with the records in `data_buf`; `l_idx` is
    where the buffer begins. -/
def scan : List MemoryRecord → List MemoryRecord → List (List MemoryRecord)
  | [], [] => []
  | [], record :: dataBuf => [record :: dataBuf]
  | record :: records, [] => if record.dataType = .malloc then scan records [record] else scan records []
  | record :: records, first :: dataBuf =>
    if (first :: dataBuf).length < 3 ∧ record.dataType ∉ (first :: dataBuf).map MemoryRecord.dataType then
      scan records (first :: dataBuf ++ [record])
    else
      (first :: dataBuf) :: if record.dataType = .malloc then scan records [record] else scan records []

/-- `_get_valid_record_entry` -/
def getValidRecordEntry (records : List MemoryRecord) : List (List MemoryRecord) :=
  scan records []

/-- A `defaultdict` of lists, filled in the order of a list. -/
def groupBy {α κ : Type} [DecidableEq κ] (key : α → κ) (l : List α) : Dict κ (List α) :=
  l.foldl (fun dict a => dict.modify (key a) fun group => group.getD [] ++ [a]) .empty

def sortByTime (records : List MemoryRecord) : List MemoryRecord :=
  records.insertionSort fun record record' => record.timeNs ≤ record'.timeNs

/-- The entries of the records of a process, by the time of the first record. -/
def pidMemBuf (memoryRecords : List MemoryRecord) : List (List MemoryRecord) :=
  ((groupBy MemoryRecord.ptr memoryRecords).values.flatMap fun ptrRecords =>
    getValidRecordEntry (sortByTime ptrRecords)).insertionSort fun entry entry' =>
      (entry.head?.map MemoryRecord.timeNs).getD 0 ≤ (entry'.head?.map MemoryRecord.timeNs).getD 0

/-! ### The rows -/

variable {V : Type}

/-- How values are written. -/
structure Cells (V : Type) where
  allocSize : ℤ → V
  total : ℤ → V
  time : ℤ → V
  device : MemoryRecord → V

structure Totals (V : Type) where
  allocated : V
  reserved : V
  active : V

/-- `combine_data` -/
structure MemoryRow (V : Type) where
  opName : String
  allocSize : V
  allocationTime : V
  releaseTime : Option V
  activeReleaseTime : Option V
  duration : Option V
  activeDuration : Option V
  allocationTotals : Totals V
  releaseTotals : Option (Totals V)
  streamPtr : ℤ
  device : V

def Cells.totals (cells : Cells V) (record : MemoryRecord) : Totals V where
  allocated := cells.total record.totalAllocated
  reserved := cells.total record.totalReserved
  active := cells.total record.totalActive

/-- A row with the records of the release and of the release of the block; the totals are those of `last`. -/
def Cells.row (cells : Cells V) (opName : String) (malloc : MemoryRecord) (free blockFree last : Option MemoryRecord) :
    MemoryRow V where
  opName := opName
  allocSize := cells.allocSize malloc.allocSize
  allocationTime := cells.time malloc.timeNs
  releaseTime := free.map fun record => cells.time record.timeNs
  activeReleaseTime := blockFree.map fun record => cells.time record.timeNs
  duration := free.map fun record => cells.time (record.timeNs - malloc.timeNs)
  activeDuration := blockFree.map fun record => cells.time (record.timeNs - malloc.timeNs)
  allocationTotals := cells.totals malloc
  releaseTotals := last.map cells.totals
  streamPtr := malloc.streamPtr
  device := cells.device malloc

/-- `none` is a `continue`. -/
def combineData (cells : Cells V) (opName : String) : List MemoryRecord → Option (MemoryRow V)
  | [record] => some (cells.row opName record none none none)
  | [record, record₁] =>
    some (cells.row opName record (if record₁.dataType = .free then some record₁ else none)
      (if record₁.dataType = .blockFree then some record₁ else none) (some record₁))
  | [record, record₁, record₂] =>
    if record₁.dataType = .free then some (cells.row opName record (some record₁) (some record₂) (some record₁))
    else some (cells.row opName record (some record₂) (some record₁) (some record₂))
  | _ => none

/-- What an entry adds to `_incomplete_num`. -/
def incompleteNum : List MemoryRecord → ℕ
  | [record] => if record.componentType = 0 then 2 else 0
  | [record, _] => if record.componentType = 0 then 1 else 0
  | _ => 0

/-- A round of the loop of `_complete_record_entry`. -/
def completeEntry (queue : QueueData) (cells : Cells V) (s : State) :
    List MemoryRecord → Option (MemoryRow V) × State
  | [] => (none, s)
  | record :: records =>
    if 3 < (record :: records).length then (none, s)
    else
      let (opName, s) := getOpNameOfRecord queue s record
      (combineData cells opName (record :: records),
        { s with incompleteNum := s.incompleteNum + incompleteNum (record :: records) })

def completeEntries (queue : QueueData) (cells : Cells V) : State → List (List MemoryRecord) → List (MemoryRow V) × State
  | s, [] => ([], s)
  | s, records :: ptrRecords =>
    let (row, s) := completeEntry queue cells s records
    let (rows, s) := completeEntries queue cells s ptrRecords
    (row.toList ++ rows, s)

def isHidden (op : TorchOp) : Bool :=
  op.name = "empty_tensor" || op.name = "malloc_workspace"

/-- `_complete_record_entry` and `_complete_record_entry_for_db` -/
def completeRecordEntry (queue : QueueData) (cells : Cells V) (ptrRecords : List (List MemoryRecord))
    (torchOps : List OpNode) (s : State) : List (MemoryRow V) × State :=
  let s := match s.torchOps with
    | [] => { s with torchOps := torchOps.filter fun node => !isHidden node.event }
    | _ :: _ => s
  completeEntries queue cells s ptrRecords

/-! ### `_add_pta_memory_data` -/

inductive ExportType
  | text
  | db
  deriving DecidableEq

structure ParserInput (V : Type) where
  memoryData : List MemoryRecord
  torchOpNode : List OpNode
  queue : QueueData
  exportType : List ExportType
  isSupportDefaultExportDb : Bool
  cells : ExportType → Cells V

/-- `memory_data` -/
abbrev MemoryData (V : Type) :=
  ExportType → Option (List (MemoryRow V))

/-- `memory_data.setdefault(type, ...)` -/
def setDefault (x : ParserInput V) (ptrRecords : List (List MemoryRecord)) (torchOps : List OpNode)
    (type : ExportType) (result : MemoryData V × State) : MemoryData V × State :=
  let (rows, s) := completeRecordEntry x.queue (x.cells type) ptrRecords torchOps result.2
  (Function.update result.1 type (some ((result.1 type).getD rows)), s)

def addProcesses (x : ParserInput V) : List (ℕ × List MemoryRecord) → MemoryData V × State → MemoryData V × State
  | [], result => result
  | (pid, memoryRecords) :: processes, result =>
    let torchOps := (x.torchOpNode.filter (·.event.pid = pid)).insertionSort
      fun node node' => node.event.startTime ≤ node'.event.startTime
    let add := setDefault x (pidMemBuf memoryRecords) torchOps
    if torchOps.isEmpty then addProcesses x processes result
    else if ExportType.text ∈ x.exportType then
      if x.isSupportDefaultExportDb then add .db (add .text result)
      else if ExportType.db ∈ x.exportType then addProcesses x processes (add .db (add .text result))
      else addProcesses x processes (add .text result)
    else if ExportType.db ∈ x.exportType then addProcesses x processes (add .db result)
    else addProcesses x processes result

/-- `npu_memory_dict` -/
def npuMemoryDict (x : ParserInput V) : Dict ℕ (List MemoryRecord) :=
  groupBy MemoryRecord.pid ((sortByTime x.memoryData).filter fun record => record.isNpu && record.isInnerAllocator)

/-- `_add_pta_memory_data` -/
def addPtaMemoryData (x : ParserInput V) : MemoryData V × State :=
  addProcesses x (npuMemoryDict x).entries (fun _ => none, {})

end TorchNpu.Profiler.MemoryPrepareParser
