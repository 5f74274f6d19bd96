/-
  The records of captured operators and their update (`_GraphDispatchMode` in `npu/graphs.py`, and the handlers in
  `npu/_npugraph_handlers`).

  A value of type `V` stands for an argument, and for the weak reference or the copy of it in a record.  The update
  of a record on the device, and the replay of its operator, only matter here if they raise.
-/
import TorchNpu.Lib.Dict

namespace TorchNpu.Core

/-- The operators that are recorded. -/
inductive HandledOp
  /-- `npu_fused_infer_attention_score.out` -/
  | ifaV1
  /-- `npu_fused_infer_attention_score_v2.out` -/
  | ifaV2
  /-- `_npu_paged_attention.default` -/
  | pagedAttention
  /-- `npu_multi_head_latent_attention.out` -/
  | multiHeadLatentAttention

/-- The index and the name of the argument that `update_args` sets. -/
def HandledOp.argSpec : HandledOp → ℕ × String
  | .ifaV1 => (6, "actual_seq_lengths_kv")
  | .ifaV2 => (8, "actual_seq_kvlen")
  | .pagedAttention => (7, "context_lens")
  | .multiHeadLatentAttention => (5, "context_lens")

/-- `_GraphDispatchRecord`; `op_cache_entry` is the operator. -/
structure GraphDispatchRecord (V : Type) where
  op : HandledOp
  args : List V
  kwargs : Dict String V

/-- A call of an operator during the capture.  `isOut` says whether it is the overload that is recorded; for another
    one `prepare_capture` allocates `workspace` and `out`. -/
structure CapturedCall (V : Type) where
  op : HandledOp
  isOut : Bool
  args : List V
  kwargs : Dict String V
  workspace : V
  out : V

variable {V : Type}

/-- The record of a call: `prepare_capture`, and `_append_dispatch_record`.  `none`: the call has no `args[2]`. -/
def CapturedCall.record (call : CapturedCall V) : Option (GraphDispatchRecord V) :=
  match call.op, call.isOut with
  | .ifaV1, false | .ifaV2, false =>
    if call.args.length < 3 then none
    else
      let kwargs := call.kwargs.modify "workspace" fun _ => call.workspace
      some ⟨call.op, call.args, kwargs.modify "out" fun _ => call.out⟩
  | _, _ => some ⟨call.op, call.args, call.kwargs⟩

namespace GraphDispatchRecord

/-- `for key in update_input: if key in record.kwargs: record.kwargs[key] = update_input[key]` -/
def updateKwargs (record : GraphDispatchRecord V) (updateInput : Dict String V) : GraphDispatchRecord V :=
  { record with
    kwargs := updateInput.entries.foldl
      (fun kwargs entry => if (kwargs.get? entry.1).isSome then kwargs.modify entry.1 fun _ => entry.2 else kwargs)
      record.kwargs }

/-- `handler_cls.update_args` -/
def updateArgs (record : GraphDispatchRecord V) (updateInput : Dict String V) : GraphDispatchRecord V :=
  match updateInput.get? record.op.argSpec.2 with
  | some v =>
    if record.op.argSpec.1 + 1 ≤ record.args.length then
      { record with args := record.args.set record.op.argSpec.1 v }
    else record
  | none => record

def update (record : GraphDispatchRecord V) (updateInput : Dict String V) : GraphDispatchRecord V :=
  (record.updateKwargs updateInput).updateArgs updateInput

end GraphDispatchRecord

open GraphDispatchRecord

/-- Where the update of a record can raise. -/
inductive UpdateFailure
  /-- `graph_task_update_begin` -/
  | taskBegin
  /-- There is no handler any more. -/
  | noHandler
  /-- The operator, or what comes after it. -/
  | operator

/-- The loop over the records from the `i`th one on: whether it returns, and the records then. -/
def updateRecords (fails : ℕ → Option UpdateFailure) :
    ℕ → List (GraphDispatchRecord V) → List (Dict String V) → Bool × List (GraphDispatchRecord V)
  | i, record :: records, input :: inputs =>
    match fails i with
    | some .taskBegin => (false, record :: records)
    | some .noHandler => (false, record.updateKwargs input :: records)
    | some .operator => (false, record.update input :: records)
    | none =>
      let (returns, records) := updateRecords fails (i + 1) records inputs
      (returns, record.update input :: records)
  | _, records, _ => (true, records)

/-- The one element of a list is for all records. -/
def spreadInput (records : List (GraphDispatchRecord V)) (cpuUpdateInput : List (Dict String V)) :
    List (Dict String V) :=
  match cpuUpdateInput with
  | [input] => List.replicate records.length input
  | inputs => inputs

/-- `NPUGraph.update`, with `update_capture_record`: whether it returns, and the records then. -/
def updateGraph (autoDispatchCapture : Bool) (fails : ℕ → Option UpdateFailure)
    (records : List (GraphDispatchRecord V)) (cpuUpdateInput : List (Dict String V)) :
    Bool × List (GraphDispatchRecord V) :=
  let inputs := spreadInput records cpuUpdateInput
  if autoDispatchCapture && inputs.length == records.length then updateRecords fails 0 records inputs
  else (false, records)

end TorchNpu.Core
