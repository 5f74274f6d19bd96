/-
  The sharding of fused attention (`distributed/tensor/_attention.py`).

  The operators and their `_v3` versions differ in a few arguments and results.  A tensor with a batch and a head
  dimension is a table of blocks, one for each batch entry and head; in the layouts BSH and SBH the heads are parts of
  H, and only the batch can be cut.  What a kernel computes for a query head, or for the group of query heads that
  share a key head, is a parameter.
-/
import TorchNpu.DTensor.Strategy
import TorchNpu.Lib.Text

namespace TorchNpu.DTensor.Attention

open Text

inductive Arg
  | query | key | value | dy | headNum | inputLayout | pse | paddingMask | attenMask | softmaxMax | softmaxSum
  | softmaxIn | attentionIn | scale | keepProb | preTockens | nextTockens | innerPrecise | seed | offset | numels
  | prefixes | actualSeqQlen | actualSeqKvlen | sparseMode | genMaskParallel | sync | softmaxLayout | sink
  deriving DecidableEq

inductive Version
  | v1
  | v3

/-- What the rules read of a call. -/
structure Call where
  inputLayout : Text
  /-- The shapes of the tensors. -/
  tensors : Arg → Option (List ℕ)
  /-- The lists of lengths that are given. -/
  given : Arg → Bool
  keepProb : ℚ

def Call.isNone (c : Call) (arg : Arg) : Bool :=
  (c.tensors arg).isNone && !c.given arg

/-- The placements of the results and those of the arguments, `None` for what is no tensor. -/
abbrev Sharding :=
  List (Option Placement) × List (Option Placement)

/-! ### The strategies -/

/-- `None if arg is None else Replicate()` -/
def replicated (c : Call) (arg : Arg) : Option Placement :=
  if c.isNone arg then none else some .replicate

def unusedArgsInSdpa : List Arg :=
  [.pse, .paddingMask, .prefixes, .actualSeqQlen, .actualSeqKvlen, .sink]

/-- `atten_mask_sharding`, for a dimension of BNSS -/
def attenMaskSharding (c : Call) (dim : ℕ) : Option Placement :=
  (c.tensors .attenMask).map fun shape => if shape.length = 4 ∧ shape.getD dim 1 ≠ 1 then .shard dim else .replicate

/-- The strategies: of the cut of the layout's dimension, and of that of BNSS and BNS8. -/
def strategies (c : Call) (replicateStrategy : Sharding) (sharded : ℕ → ℕ → Sharding) : List Sharding :=
  if !unusedArgsInSdpa.all c.isNone || decide (c.keepProb < 1) then [replicateStrategy]
  else
    [replicateStrategy] ++ (if 'B' ∈ c.inputLayout then [sharded (c.inputLayout.idxOf 'B') 0] else []) ++
      if 'N' ∈ c.inputLayout then [sharded (c.inputLayout.idxOf 'N') 1] else []

def attentionStrategy (results : List (Option Placement)) (others : List (Option Placement)) (c : Call) :
    List Sharding :=
  strategies c
    ([some .replicate, some .replicate, some .replicate, some .replicate] ++ results,
      [some .replicate, some .replicate, some .replicate, none, none] ++
        [.pse, .paddingMask, .attenMask].map (replicated c) ++ others ++ [replicated c .sink])
    fun dim stat =>
      ([some (.shard dim), some (.shard stat), some (.shard stat), some .replicate] ++ results,
        [some (.shard dim), some (.shard dim), some (.shard dim), none, none, none, none, attenMaskSharding c stat] ++
          others ++ [none])

def npuFusionAttentionStrategy (c : Call) : List Sharding :=
  attentionStrategy [none, none, none] (List.replicate 12 none) c

def npuFusionAttentionV3Strategy (c : Call) : List Sharding :=
  attentionStrategy [some .replicate, some .replicate]
    (List.replicate 6 none ++ [.actualSeqQlen, .actualSeqKvlen].map (replicated c) ++ List.replicate 4 none) c

def attentionGradStrategy (others : List (Option Placement)) (c : Call) : List Sharding :=
  strategies c
    (List.replicate 5 (some .replicate),
      List.replicate 4 (some .replicate) ++ [none, none] ++
        [.pse, .paddingMask, .attenMask, .softmaxMax, .softmaxSum, .softmaxIn, .attentionIn].map (replicated c) ++
          others ++ [replicated c .sink])
    fun dim stat =>
      ([some (.shard dim), some (.shard dim), some (.shard dim), some .replicate, some .replicate],
        List.replicate 4 (some (.shard dim)) ++ [none, none, none, none, attenMaskSharding c stat,
          if c.isNone .softmaxMax then none else some (.shard stat),
          if c.isNone .softmaxSum then none else some (.shard stat), replicated c .softmaxIn,
          if c.isNone .attentionIn then none else some (.shard dim)] ++ others ++ [none])

def npuFusionAttentionGradStrategy (c : Call) : List Sharding :=
  attentionGradStrategy (List.replicate 15 none) c

def npuFusionAttentionGradV3Strategy (c : Call) : List Sharding :=
  attentionGradStrategy (List.replicate 5 none ++ [.seed, .offset].map (replicated c) ++ [none] ++
    [.actualSeqQlen, .actualSeqKvlen].map (replicated c) ++ List.replicate 4 none) c

/-! ### The keyword arguments of the gradients -/

/-- The cut of a keyword argument for a cut of the layout's dimension. -/
def inferSharded (arg : Arg) (shape : List ℕ) (dim stat : ℕ) : Placement :=
  match arg with
  | .attenMask => if shape.length = 4 ∧ shape.getD stat 1 ≠ 1 then .shard dim else .replicate
  | .softmaxMax | .softmaxSum => .shard stat
  | .attentionIn => .shard dim
  | _ => .replicate

def placementText : Placement → String
  | .replicate => "R"
  | .shard dim => "S(" ++ toString dim ++ ")"
  | _ => "P"

def inferPlacement (c : Call) (arg : Arg) (shape : List ℕ) (placement : Placement) : Except PyError Placement :=
  if placement = .replicate then .ok .replicate
  else if 'B' ∈ c.inputLayout ∧ placement = .shard (c.inputLayout.idxOf 'B') then
    .ok (inferSharded arg shape (c.inputLayout.idxOf 'B') 0)
  else if 'N' ∈ c.inputLayout ∧ placement = .shard (c.inputLayout.idxOf 'N') then
    .ok (inferSharded arg shape (c.inputLayout.idxOf 'N') 1)
  else
    .error (.valueError ("Unexpected placement " ++ placementText placement ++
      " for npu_fusion_attention_grad in layout " ++ String.ofList c.inputLayout ++ "."))

/-- `_infer_npu_fusion_attention_grad_kwargs_spec`, for the placements of the first result -/
def inferNpuFusionAttentionGradKwargsSpec (c : Call) (placements : List Placement) (arg : Arg) :
    Option (Except PyError (List Placement)) :=
  (c.tensors arg).map fun shape => placements.mapM (inferPlacement c arg shape)

/-! ### The local calls -/

structure Blocks (β : Type) where
  batches : ℕ
  heads : ℕ
  get : ℕ → ℕ → β

variable {β γ : Type}

/-- Consecutive batch entries and heads. -/
def Blocks.window (batch batches head heads : ℕ) (T : Blocks β) : Blocks β where
  batches := batches
  heads := heads
  get b n := T.get (b + batch) (n + head)

/-- The block for a batch entry and a head of the others, to which a dimension of one is broadcast. -/
def Blocks.broadcast (T : Blocks β) (b n : ℕ) : β :=
  T.get (if T.batches = 1 then 0 else b) (if T.heads = 1 then 0 else n)

/-- A chunk for a rank, if it is made up of blocks. -/
def Blocks.chunk (dims : Text) (p r : ℕ) (T : Blocks β) : Placement → Option (Blocks β)
  | .replicate => some T
  | .shard d =>
    if dims[d]? = some 'B' then some (T.window (chunkStart T.batches p r) (chunkLen T.batches p r) 0 T.heads)
    else if dims[d]? = some 'N' then some (T.window 0 T.batches (chunkStart T.heads p r) (chunkLen T.heads p r))
    else none
  | _ => none

abbrev Tensors (β : Type) :=
  Arg → Option (Blocks β)

def statDims : Text :=
  ['B', 'N', 'S', '8']

def maskDims : Text :=
  ['B', 'N', 'S', 'S']

def dimsOf (inputLayout : Text) : Arg → Text
  | .softmaxMax | .softmaxSum => statDims
  | .attenMask => maskDims
  | _ => inputLayout

/-- What the query head `n` of batch entry `b` sees, where `group` query heads share a key head. -/
def headArgs (T : Tensors β) (group b n : ℕ) (arg : Arg) : Option β :=
  (T arg).map fun blocks =>
    match arg with
    | .key | .value => blocks.get b (n / group)
    | .attenMask => blocks.broadcast b n
    | _ => blocks.get b n

/-- A kernel with a result for each query head. -/
def perHead (f : (Arg → Option β) → γ) (headNum : ℕ) (T : Tensors β) : Option (Blocks γ) := do
  let q ← T .query
  let k ← T .key
  if headNum = q.heads ∧ k.heads ∣ q.heads then
    some ⟨q.batches, q.heads, fun b n => f (headArgs T (q.heads / k.heads) b n)⟩
  else none

/-- A kernel with a result for each key head. -/
def perGroup (f : List (Arg → Option β) → γ) (headNum : ℕ) (T : Tensors β) : Option (Blocks γ) := do
  let q ← T .query
  let k ← T .key
  if headNum = q.heads ∧ k.heads ∣ q.heads then
    let group := q.heads / k.heads
    some ⟨k.batches, k.heads, fun b n => f ((List.range group).map fun j => headArgs T group b (n * group + j))⟩
  else none

def localTensors (inputLayout : Text) (placements : Arg → Option Placement) (p r : ℕ) (T : Tensors β) : Tensors β :=
  fun arg => do
    let blocks ← T arg
    let placement ← placements arg
    blocks.chunk (dimsOf inputLayout arg) p r placement

/-- `_npu_fusion_attention_handler`, on rank `r` of `p` -/
def npuFusionAttentionHandler (c : Call) (placements : Arg → Option Placement)
    (op : ℕ → Tensors β → Option (Blocks γ)) (headNum p r : ℕ) (T : Tensors β) : Option (Blocks γ) := do
  let localArgs := localTensors c.inputLayout placements p r T
  let localQuery ← localArgs .query
  op (if 'N' ∈ c.inputLayout then localQuery.heads else headNum) localArgs

end TorchNpu.DTensor.Attention
