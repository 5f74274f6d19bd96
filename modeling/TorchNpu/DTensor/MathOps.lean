/-
  Sharding rules of the operators that repeat or scatter along one dimension (`repeat_interleave` with an
  integer, its backward, and the backward of `gather`), and of the losses (cross entropy and
  Kullback-Leibler divergence, and their gradients).
-/
import TorchNpu.DTensor.Strategy
import Mathlib.Algebra.Field.Defs

namespace TorchNpu.DTensor

open Index NdArray Placement

/-- A dimension counted from the end if it is negative. -/
def normalizeDim (dim : ℤ) (ndim : ℕ) : ℕ :=
  (if 0 ≤ dim then dim else dim + ndim).toNat

/-! ### The operators -/

section Operators

variable {α : Type*}

/-- The index of the element at place `q` of an array read row by row. -/
def unravel : List ℕ → ℕ → ℕ → ℕ
  | [], _ => fun _ => 0
  | _ :: shape, q => cons (q / shape.prod) (unravel shape (q % shape.prod))

/-- The place of an element in an array read row by row. -/
def ravel : List ℕ → (ℕ → ℕ) → ℕ
  | [], _ => 0
  | _ :: shape, i => i 0 * shape.prod + ravel shape fun d => i (d + 1)

/-- Every place of the flattened tensor `repeats` times. -/
def repeatFlattened (x : NdArray α) (repeats : ℕ) : NdArray α where
  shape := [x.shape.prod * repeats]
  get i := x.get (unravel x.shape (i 0 / repeats))

/-- Every place along dimension `d` `repeats` times. -/
def repeatAlong (x : NdArray α) (repeats d : ℕ) : NdArray α where
  shape := x.shape.set d (x.dim d * repeats)
  get i := x.get (Function.update i d (i d / repeats))

/-- `torch.repeat_interleave` -/
def repeatInterleave (x : NdArray α) (repeats : ℕ) : Option ℤ → NdArray α
  | none => repeatFlattened x repeats
  | some dim => repeatAlong x repeats (normalizeDim dim x.shape.length)

/-- The gradient of a place is the sum of those of its copies. -/
def repeatBackwardAlong [AddCommMonoid α] (grad x : NdArray α) (repeats d : ℕ) : NdArray α where
  shape := x.shape
  get i := ∑ j ∈ Finset.range repeats, grad.get (Function.update i d (i d * repeats + j))

def repeatBackwardFlattened [AddCommMonoid α] (grad x : NdArray α) (repeats : ℕ) : NdArray α where
  shape := x.shape
  get i := ∑ j ∈ Finset.range repeats, grad.get (cons (ravel x.shape i * repeats + j) fun _ => 0)

def repeatInterleaveBackward [AddCommMonoid α] (grad x : NdArray α) (repeats : ℕ) : Option ℤ → NdArray α
  | none => repeatBackwardFlattened grad x repeats
  | some dim => repeatBackwardAlong grad x repeats (normalizeDim dim x.shape.length)

/-- Each element of the gradient is added into the place of a tensor of `inputShape` that it was gathered from. -/
def gatherBackward [AddCommMonoid α] (grad : NdArray α) (inputShape : List ℕ) (dim : ℤ) (index : NdArray ℕ) :
    NdArray α where
  shape := inputShape
  get i := sumBox index.shape fun j =>
    if ∀ d < inputShape.length,
      Function.update j (normalizeDim dim inputShape.length) (index.get j) d = i d then grad.get j else 0

end Operators

/-! ### The rules -/

/-- What a pass over the dimensions of a tensor that is not cut evenly assigns. -/
def unevenSharding (dim : ℤ) (i : ℕ) : Option Strategy :=
  if (i : ℤ) ≠ dim then some ([.shard i], [some (.shard i), none, none, none]) else none

def customNpuRepeatInterleaveSelfIntStrategy (x : DTensorSpec) (dim : Option ℤ) :
    Except PyError (List Strategy) := do
  let evenly ← isTensorEvenlyShardable x.shape x
  let shardings ←
    if evenly then
      match dim with
      | none => .ok [([.shard 0], [some (.shard 0), none, none, none])]
      | some _ => .ok ((List.range x.ndim).map fun i => ([.shard i], [some (.shard i), none, none, none]))
    else
      match dim with
      | none => .ok []
      | some dim => appendInLoop "sharding_strategy" (unevenSharding dim) (List.range x.ndim) none
  return ([.replicate], [some .replicate, none, none, none]) :: shardings

/-- The test that every pass of the loop over the dimensions makes: the gradient is cut along the number given for
the repeated dimension, and not evenly. -/
def skipsDims (grad : DTensorSpec) (dim : ℤ) : Except PyError Bool :=
  match grad.placements.head? with
  | some (.shard d) => if dim = d then (isTensorEvenlyShardable grad.shape grad).map (!·) else .ok false
  | _ => .ok false

def customNpuRepeatInterleaveBackwardIntStrategy (grad x : DTensorSpec) :
    Option ℤ → Except PyError (List Strategy)
  | none => .ok [([.replicate], [some .replicate, some .replicate, none, none])]
  | some dim => do
    let evenly ← isTensorEvenlyShardable x.shape x
    let shardings ←
      if evenly then
        (List.range x.ndim).foldlM (fun (acc : List Strategy) i => do
          let skip ← skipsDims grad dim
          return if skip then acc else acc ++ [([.shard i], [some (.shard i), some (.shard i), none, none])]) []
      else .ok []
    return ([.replicate], [some .replicate, some .replicate, none, none]) :: shardings

def customNpuGatherBackwardStrategy (grad : List ℕ) (inputShape : List ℕ) (dim : ℤ) (index : List ℕ) :
    List Strategy :=
  ([.replicate], [some .replicate, none, none, some .replicate, none]) ::
  if inputShape.length = index.length ∧ index.length = grad.length then
    (List.range index.length).flatMap fun d =>
      appendIf (d ≠ normalizeDim dim inputShape.length ∧
          inputShape.getD d 1 = index.getD d 1 ∧ index.getD d 1 = grad.getD d 1)
        ([.shard d], [some (.shard d), none, none, some (.shard d), none])
  else []

/-! ### The losses -/

inductive Reduction
  | none
  | mean
  | sum

section Losses

variable {K : Type*} [Field K]

/-- The arguments of the cross entropy that are not cut.  A mean divides by the sum of the weights of the classes
of the targets; a target that is `ignoreIndex` counts for nothing. -/
structure CrossEntropy (K : Type*) where
  logSoftmax : (ℕ → K) → ℕ → K
  /-- The loss of a sample with these logarithmic probabilities and this target, its weight included. -/
  sampleLoss : (ℕ → K) → ℤ → K
  /-- Its gradient in the logits. -/
  sampleGrad : (ℕ → K) → ℤ → ℕ → K
  classWeight : ℤ → K
  ignoreIndex : ℤ

namespace CrossEntropy

variable (ce : CrossEntropy K)

def logProb (x : NdArray K) : NdArray K where
  shape := x.shape
  get i := ce.logSoftmax (fun c => x.get (cons (i 0) (cons c fun _ => 0))) (i 1)

/-- The target of sample `n`. -/
def targetOf (target : NdArray ℤ) (n : ℕ) : ℤ :=
  target.get (cons n fun _ => 0)

def lossOf (x : NdArray K) (target : NdArray ℤ) (n : ℕ) : K :=
  if targetOf target n = ce.ignoreIndex then 0
  else ce.sampleLoss (fun c => (ce.logProb x).get (cons n (cons c fun _ => 0))) (targetOf target n)

def weightOf (target : NdArray ℤ) (n : ℕ) : K :=
  if targetOf target n = ce.ignoreIndex then 0 else ce.classWeight (targetOf target n)

/-- The first result of `npu_cross_entropy_loss` for logits of shape `[N, C]` and targets of shape `[N]`. -/
def loss (x : NdArray K) (target : NdArray ℤ) : Reduction → NdArray K
  | .none => { shape := [x.dim 0], get := fun i => ce.lossOf x target (i 0) }
  | .sum => { shape := [], get := fun _ => ∑ n ∈ Finset.range (x.dim 0), ce.lossOf x target n }
  | .mean => {
      shape := []
      get := fun _ => (∑ n ∈ Finset.range (x.dim 0), ce.lossOf x target n) /
        ∑ n ∈ Finset.range (x.dim 0), ce.weightOf target n }

/-- `npu_cross_entropy_loss_backward`, the gradient in the logits. -/
def lossBackward (grad logProb : NdArray K) (target : NdArray ℤ) (reduction : Reduction) : NdArray K where
  shape := logProb.shape
  get i :=
    if targetOf target (i 0) = ce.ignoreIndex then 0
    else
      let upstream := match reduction with
        | .none => grad.get (cons (i 0) fun _ => 0)
        | .sum => grad.get fun _ => 0
        | .mean => grad.get (fun _ => 0) / ∑ n ∈ Finset.range (logProb.dim 0), ce.weightOf target n
      upstream * ce.sampleGrad (fun c => logProb.get (cons (i 0) (cons c fun _ => 0)))
        (targetOf target (i 0)) (i 1)

end CrossEntropy

/-- `torch.kl_div` with the divergence `f` of two elements. -/
def klDiv (f : K → K → K) (x target : NdArray K) : Reduction → NdArray K
  | .none => { shape := x.shape, get := fun i => f (x.get i) (target.get i) }
  | .sum => { shape := [], get := fun _ => sumBox x.shape fun i => f (x.get i) (target.get i) }
  | .mean => {
      shape := []
      get := fun _ => (sumBox x.shape fun i => f (x.get i) (target.get i)) / (x.shape.prod : ℕ) }

/-- `npu.kl_div_backward` with the derivative `f'` of the divergence in its first argument. -/
def klDivBackward (f' : K → K → K) (grad x target : NdArray K) (reduction : Reduction) : NdArray K where
  shape := x.shape
  get i :=
    let upstream := match reduction with
      | .none => grad.get i
      | .sum => grad.get fun _ => 0
      | .mean => grad.get (fun _ => 0) / (x.shape.prod : ℕ)
    upstream * f' (x.get i) (target.get i)

end Losses

/-! ### The rules -/

section Rules

variable (expandToFullMesh : Expansion)

/-- The placement of an optional tensor. -/
def replicateIfSome (tensor : Option (List ℕ)) : List Placement :=
  tensor.toList.map fun _ => .replicate

def customCrossEntropyLossSharding (x : List ℕ) (target : DTensorSpec) (weight : Option (List ℕ))
    (reduction : Reduction) : Except PyError (List Strategy) := do
  -- loss, log_prob, zloss, lse_for_zloss; x, target, weight
  let allReplicate := List.replicate 6 .replicate ++ replicateIfSome weight
  let sharded ←
    match reduction with
    | .none => .ok [[.shard 0, .shard 0, .replicate, .replicate, .shard 0, .shard 0] ++ replicateIfSome weight]
    | .mean =>
      if weight.isNone then
        (isTensorEvenlyShardable target.shape target).map fun evenly =>
          if evenly then [[.partialAvg, .shard 0, .replicate, .replicate, .shard 0, .shard 0]] else []
      else .ok []
    | .sum =>
      .ok [[.partialSum, .shard 0, .replicate, .replicate, .shard 0, .shard 0] ++ replicateIfSome weight]
  expandToFullMesh 4 ([x, target.shape] ++ weight.toList) (allReplicate :: sharded)

def customCrossEntropyLossBackwardStrategy (gradLoss logProb target : List ℕ)
    (weight gradZloss lseForZloss : Option (List ℕ)) (reduction : Reduction) : Except PyError (List Strategy) :=
  let allReplicate := List.replicate 4 .replicate ++ replicateIfSome weight ++ replicateIfSome lseForZloss
  let sharded :=
    match reduction with
    | .none => [[.shard 0, .shard 0, .shard 0, .shard 0] ++ replicateIfSome weight ++ replicateIfSome lseForZloss]
    | .sum => [[.shard 0, .replicate, .shard 0, .shard 0] ++ replicateIfSome weight ++ replicateIfSome lseForZloss]
    | .mean => []
  expandToFullMesh 1
    ([gradLoss, logProb, target] ++ weight.toList ++ gradZloss.toList ++ lseForZloss.toList) (allReplicate :: sharded)

/-- What a pass over the dimensions of the divergence assigns. -/
def klDivSharding (p : ℕ) (x : List ℕ) (reduction : Reduction) (dim : ℕ) : Option Strategy :=
  match reduction with
  | .none => some ([.shard dim], [some (.shard dim), some (.shard dim), none, none])
  | .mean =>
    if x.getD dim 1 % p = 0 then some ([.partialAvg], [some (.shard dim), some (.shard dim), none, none]) else none
  | .sum => some ([.partialSum], [some (.shard dim), some (.shard dim), none, none])

def customKLDivLossForwardStrategy (p : ℕ) (x : List ℕ) (reduction : Reduction) : Except PyError (List Strategy) :=
  (appendInLoop "shard_strategy" (klDivSharding p x reduction) (List.range x.length) none).map
    (([.replicate], [some .replicate, some .replicate, none, none]) :: ·)

def customKLDivLossBackwardStrategy (x : List ℕ) (reduction : Reduction) : List Strategy :=
  ([.replicate], [some .replicate, some .replicate, some .replicate, none, none]) ::
  (List.range x.length).flatMap fun dim =>
    match reduction with
    | .none => [([.shard dim], [some (.shard dim), some (.shard dim), some (.shard dim), none, none])]
    | .sum => [([.shard dim], [some .replicate, some (.shard dim), some (.shard dim), none, none])]
    | .mean => []

end Rules

end TorchNpu.DTensor
