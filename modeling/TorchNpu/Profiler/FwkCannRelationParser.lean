/-
  The dequeues of the task queue, and the kernels that belong to them (`get_task_queue_data` of
  `prof_parse/_fwk_file_parser.py`, `combine_kernel_dict` of `prof_parse/_fwk_cann_relation_parser.py`).

  A `defaultdict` of lists is a function; a list that is not there is empty.  The index into the list of the
  dequeues is what is left of that list.
-/
import Mathlib.Data.Int.Order.Basic
import Mathlib.Data.List.Sort
import Mathlib.Logic.Function.Basic
import TorchNpu.Lib.Dict

namespace TorchNpu.Profiler

/-! ### `get_task_queue_data` -/

/-- `_OpMarkCategoryEnum` -/
inductive OpMarkCategory
  | enqueueStart
  | enqueueEnd
  | dequeueStart
  | dequeueEnd
  deriving DecidableEq

/-- `OpMarkBean` -/
structure OpMarkBean where
  category : OpMarkCategory
  corrId : ℕ
  tid : ℕ
  timeNs : ℤ
  originName : String
  deriving DecidableEq

/-- A mark of an end with the `ts` and the `dur` that it is given. -/
structure TaskQueueData extends OpMarkBean where
  ts : ℤ
  dur : ℤ
  deriving DecidableEq

/-- The variables for the enqueues, or for the dequeues. -/
structure OpMarkMatching where
  tidOpDict : ℕ → String → List OpMarkBean := fun _ _ => []
  dataList : List TaskQueueData := []
  matchFailedNum : ℕ := 0

namespace OpMarkMatching

def setStartOps (m : OpMarkMatching) (opMark : OpMarkBean) (startOpList : List OpMarkBean) : OpMarkMatching :=
  { m with
    tidOpDict := Function.update m.tidOpDict opMark.tid
      (Function.update (m.tidOpDict opMark.tid) opMark.originName startOpList) }

def start (m : OpMarkMatching) (opMark : OpMarkBean) : OpMarkMatching :=
  m.setStartOps opMark (m.tidOpDict opMark.tid opMark.originName ++ [opMark])

def «end» (m : OpMarkMatching) (opMark : OpMarkBean) : OpMarkMatching :=
  match (m.tidOpDict opMark.tid opMark.originName).getLast? with
  | none => { m with matchFailedNum := m.matchFailedNum + 1 }
  | some startOp =>
    { m.setStartOps opMark [] with
      dataList := m.dataList ++
        [{ opMark with ts := startOp.timeNs, dur := opMark.timeNs - startOp.timeNs }] }

end OpMarkMatching

structure TaskQueueMatching where
  enqueue : OpMarkMatching := {}
  dequeue : OpMarkMatching := {}

def TaskQueueMatching.next (m : TaskQueueMatching) (opMark : OpMarkBean) : TaskQueueMatching :=
  match opMark.category with
  | .enqueueStart => { m with enqueue := m.enqueue.start opMark }
  | .dequeueStart => { m with dequeue := m.dequeue.start opMark }
  | .enqueueEnd => { m with enqueue := m.enqueue.end opMark }
  | .dequeueEnd => { m with dequeue := m.dequeue.end opMark }

/-- The enqueues and the dequeues. -/
def getTaskQueueData (opMarkData : List OpMarkBean) : List TaskQueueData × List TaskQueueData :=
  let m := (opMarkData.insertionSort fun x y => x.timeNs ≤ y.timeNs).foldl TaskQueueMatching.next {}
  (m.enqueue.dataList, m.dequeue.dataList)

/-! ### `combine_kernel_dict` -/

namespace FwkCannRelationParser

variable {κ : Type*}

/-- The inner loop: what is left of the dequeues, and the one that the call belongs to. -/
def matchDequeue (aclStartTime : ℤ) : List TaskQueueData → List TaskQueueData × Option TaskQueueData
  | [] => ([], none)
  | dequeue :: rest =>
    if aclStartTime < dequeue.ts then (dequeue :: rest, none)
    else if aclStartTime ≤ dequeue.ts + dequeue.dur then (dequeue :: rest, some dequeue)
    else matchDequeue aclStartTime rest

/-- A round of the outer loop. -/
def combineCall (aclToNpuDict : Dict ℤ (List κ)) (s : List TaskQueueData × Dict ℤ (List κ))
    (aclStartTime : ℤ) : List TaskQueueData × Dict ℤ (List κ) :=
  let (dequeueDataList, dequeue) := matchDequeue aclStartTime s.1
  match dequeue with
  | some dequeue =>
    (dequeueDataList,
      s.2.modify dequeue.corrId fun kernels => kernels.getD [] ++ (aclToNpuDict.get? aclStartTime).getD [])
  | none => (dequeueDataList, s.2)

def combineKernelDict (aclToNpuDict : Dict ℤ (List κ)) (dequeueDataList : List TaskQueueData) :
    Dict ℤ (List κ) :=
  match dequeueDataList with
  | [] => aclToNpuDict
  | dequeue :: rest =>
    let aclStartTimeList := aclToNpuDict.keys.insertionSort (· ≤ ·)
    (aclStartTimeList.foldl (combineCall aclToNpuDict) (dequeue :: rest, Dict.empty)).2

end FwkCannRelationParser

end TorchNpu.Profiler
