/-
  The shapes that the handler of `npu_all_gather_base_mm` and `npu_mm_reduce_scatter_base` records
  (`npu_comm_mm_fusion_handler` in `_matrix_ops.py`).

  The sharding propagator is torch code: it caches one `OutputSharding` for each schema, whose shapes it takes from the
  operator on the global inputs (`meta`).  The handler writes into the specs of this object.  Placements, strides and
  types do not matter for the shapes; they are part of `rest`, with the other arguments.
-/
import Mathlib.Data.Int.Notation
import Mathlib.Data.List.Count
import Mathlib.Logic.Function.Basic

namespace TorchNpu.DTensor

inductive CommMmOp
  | allGatherBaseMm
  | mmReduceScatterBase
  deriving DecidableEq

/-- An `OpSchema`: `x1` is an `m` by `k` and `x2` a `k` by `n` matrix, both with their global shapes. -/
structure CommMmSchema (A : Type) where
  op : CommMmOp
  m : ℕ
  k : ℕ
  n : ℕ
  worldSize : ℕ
  gatherIndex : ℤ := 0
  gatherOutput : Bool := true
  reduceOpIsSum : Bool := true
  rest : A
  deriving DecidableEq

/-- A call.  `returns` says whether the operator on the local tensors returns; it may also raise. -/
structure CommMmCall (A : Type) where
  schema : CommMmSchema A
  returns : Bool

namespace CommMmSchema

variable {A : Type} (s : CommMmSchema A)

/-- The strategy functions do not raise `NotImplementedError`. -/
def supported : Bool :=
  match s.op with
  | .allGatherBaseMm => decide (s.gatherIndex = 0)
  | .mmReduceScatterBase => s.reduceOpIsSum

/-- `get_output_meta(spec.tensor_meta, 0, world_size)` -/
def getOutputMeta (shape : List ℕ) : List ℕ :=
  if s.worldSize = 0 then shape
  else
    match s.op with
    | .allGatherBaseMm => shape.modify 0 (· / s.worldSize)
    | .mmReduceScatterBase => shape.modify 0 (· * s.worldSize)

/-- The shapes of the full results: the product, and for the first operator the gathered `x1`. -/
def fullShapes : List (List ℕ) :=
  match s.op with
  | .allGatherBaseMm => [[s.m, s.n], if s.gatherOutput then [s.m, s.k] else [0]]
  | .mmReduceScatterBase => [[s.m, s.n]]

end CommMmSchema

variable {A : Type} [DecidableEq A] (metaShapes : CommMmSchema A → List (List ℕ))

/-- The shapes in the specs of the cached objects. -/
abbrev ShardingCache (A : Type) := CommMmSchema A → Option (List (List ℕ))

/-- `sharding_propagator.propagate`; `none` when the strategy raises. -/
def propagate (cache : ShardingCache A) (s : CommMmSchema A) : Option (List (List ℕ)) :=
  match cache s with
  | some specs => some specs
  | none => if s.supported then some (metaShapes s) else none

/-- `npu_comm_mm_fusion_handler`: the shapes of the outputs, if it returns, and the cache after it. -/
def npuCommMmFusionHandler (cache : ShardingCache A) (call : CommMmCall A) :
    Option (List (List ℕ)) × ShardingCache A :=
  match propagate metaShapes cache call.schema with
  | none => (none, cache)
  | some specs =>
    let specs := specs.map call.schema.getOutputMeta
    (if call.returns then some specs else none, Function.update cache call.schema (some specs))

/-- The cache after a sequence of calls. -/
def cacheAfter (calls : List (CommMmCall A)) : ShardingCache A :=
  calls.foldl (fun cache call => (npuCommMmFusionHandler metaShapes cache call).2) fun _ => none

/-- The shapes that a call records after the calls `before`. -/
def recorded (before : List (CommMmCall A)) (call : CommMmCall A) : Option (List (List ℕ)) :=
  (npuCommMmFusionHandler metaShapes (cacheAfter metaShapes before) call).1

end TorchNpu.DTensor
