/-
  Sharding rules of the matrix products: which placements of the operands and of the results go together on
  a mesh of one dimension.
-/
import TorchNpu.DTensor.Strategy
import TorchNpu.Lib.Contraction

namespace TorchNpu.DTensor

open Index NdArray Placement Contraction

/-! ### The matrix product -/

/-- `torch.broadcast_shapes` of two shapes: dimensions are aligned at the last one. -/
def alignedDim (s : List ℕ) (n d : ℕ) : ℕ :=
  if d + s.length < n then 1 else s.getD (d + s.length - n) 1

def broadcastShapes (s₁ s₂ : List ℕ) : List ℕ :=
  (List.range (max s₁.length s₂.length)).map fun d =>
    broadcastDim (alignedDim s₁ (max s₁.length s₂.length) d) (alignedDim s₂ (max s₁.length s₂.length) d)

def batchShape (s : List ℕ) : List ℕ :=
  s.take (s.length - 2)

def batchRank (s₁ s₂ : List ℕ) : ℕ :=
  max (s₁.length - 2) (s₂.length - 2)

/-- The dimension that the product sums over. -/
def innerDim₁ (s : List ℕ) : ℕ :=
  s.length - 1

def innerDim₂ (s : List ℕ) : ℕ :=
  s.length - 2

/-- The shapes that `torch.matmul` admits. -/
structure MatmulShapes (s₁ s₂ : List ℕ) : Prop where
  rank₁ : 0 < s₁.length
  rank₂ : 0 < s₂.length
  inner : s₁.getD (innerDim₁ s₁) 1 = s₂.getD (innerDim₂ s₂) 1
  batch : ∀ d < batchRank s₁ s₂,
    alignedDim (batchShape s₁) (batchRank s₁ s₂) d = 1 ∨ alignedDim (batchShape s₂) (batchRank s₁ s₂) d = 1 ∨
      alignedDim (batchShape s₁) (batchRank s₁ s₂) d = alignedDim (batchShape s₂) (batchRank s₁ s₂) d

def matmulShape (s₁ s₂ : List ℕ) : List ℕ :=
  broadcastShapes (batchShape s₁) (batchShape s₂) ++
    (if s₁.length = 1 then [] else [s₁.getD (s₁.length - 2) 1]) ++
    (if s₂.length = 1 then [] else [s₂.getD (s₂.length - 1) 1])

/-!
The product runs over the loops `0`, the summed one; `1` to `batchRank`, the batch dimensions; then the rows
and then the columns.  `loop₁`, `loop₂` and `loopOut` are the loops of the dimensions of the operands and of
the result.
-/

def loop₁ (r₁ r₂ t : ℕ) : ℕ :=
  if t + 1 = r₁ then 0
  else if t + 2 = r₁ then max (r₁ - 2) (r₂ - 2) + 1
  else t + 1 + (max (r₁ - 2) (r₂ - 2) - (r₁ - 2))

def loop₂ (r₁ r₂ t : ℕ) : ℕ :=
  if r₂ = 1 ∨ t + 2 = r₂ then 0
  else if t + 1 = r₂ then max (r₁ - 2) (r₂ - 2) + 2
  else t + 1 + (max (r₁ - 2) (r₂ - 2) - (r₂ - 2))

def loopOut (r₁ r₂ t : ℕ) : ℕ :=
  if r₁ = 1 ∧ max (r₁ - 2) (r₂ - 2) ≤ t then t + 2 else t + 1

/-- The point of the loops that adds term `k` of the sum to the place `o` of the product. -/
def loopPoint (r₁ r₂ : ℕ) (o : ℕ → ℕ) (k : ℕ) : ℕ → ℕ
  | 0 => k
  | u + 1 =>
    if u < max (r₁ - 2) (r₂ - 2) then o u
    else if u = max (r₁ - 2) (r₂ - 2) then (if r₁ = 1 then 0 else o u)
    else if u = max (r₁ - 2) (r₂ - 2) + 1 then (if r₂ = 1 then 0 else if r₁ = 1 then o (u - 1) else o u)
    else 0

section Products

variable {α : Type*} [AddCommMonoid α] [Mul α]

/-- `torch.matmul`: an operand of rank one is a row on the left and a column on the right, of which the
result keeps no dimension; batch dimensions are broadcast. -/
def matmul (A B : NdArray α) : NdArray α where
  shape := matmulShape A.shape B.shape
  get o := ∑ k ∈ Finset.range (A.dim (innerDim₁ A.shape)),
    A.get (read A.shape (loop₁ A.shape.length B.shape.length) (loopPoint A.shape.length B.shape.length o k)) *
      B.get (read B.shape (loop₂ A.shape.length B.shape.length) (loopPoint A.shape.length B.shape.length o k))

/-- The extents of the loops. -/
def matmulExtents (s₁ s₂ : List ℕ) : List ℕ :=
  extents (batchRank s₁ s₂ + 3) s₁ (loop₁ s₁.length s₂.length) s₂ (loop₂ s₁.length s₂.length)

/-- The gradient of the first operand: each term of the product hands the gradient of the place it is added to,
times the element of the second operand, to the element of the first. -/
def matmulGrad₁ (grad A B : NdArray α) : NdArray α :=
  contract (matmulExtents A.shape B.shape) A.shape (loop₁ A.shape.length B.shape.length)
    (loopOut A.shape.length B.shape.length) (loop₂ A.shape.length B.shape.length) grad B

def matmulGrad₂ (grad A B : NdArray α) : NdArray α :=
  contract (matmulExtents A.shape B.shape) B.shape (loop₂ A.shape.length B.shape.length)
    (loopOut A.shape.length B.shape.length) (loop₁ A.shape.length B.shape.length) grad A

end Products

/-! ### `custom_matmul_strategy` -/

/-- `n@...nm=...m` -/
def vectorMatrixStrategies (shape₁ shape₂ : List ℕ) (p : ℕ) : List Strategy :=
  (List.range (shape₂.length - 2)).flatMap (fun i =>
    appendIf (shape₂.getD i 1 % p = 0) ([.shard i], [some .replicate, some (.shard i)])) ++
  appendIf (shape₁.getD 0 1 % p = 0) ([.partialSum], [some (.shard 0), some (.shard (shape₂.length - 2))]) ++
  appendIf (shape₂.getD (shape₂.length - 1) 1 % p = 0)
    ([.shard ((batchShape shape₂ ++ [shape₂.getD (shape₂.length - 1) 1]).length - 1)],
      [some .replicate, some (.shard (shape₂.length - 1))])

/-- `...nm@m=...n` -/
def matrixVectorStrategies (shape₁ shape₂ : List ℕ) (p : ℕ) : List Strategy :=
  (List.range (shape₁.length - 1)).flatMap (fun i =>
    appendIf (shape₁.getD i 1 % p = 0) ([.shard i], [some (.shard i), some .replicate])) ++
  appendIf (shape₂.getD 0 1 % p = 0) ([.partialSum], [some (.shard (shape₁.length - 1)), some (.shard 0)])

/-- `...nm@...mk=...nk(broadcast)` -/
def matrixMatrixStrategies (shape₁ shape₂ : List ℕ) (p : ℕ) : List Strategy :=
  let outputShape := broadcastShapes (batchShape shape₁) (batchShape shape₂) ++
    [shape₁.getD (shape₁.length - 2) 1, shape₂.getD (shape₂.length - 1) 1]
  let len₁ := shape₁.length
  let len₂ := shape₂.length
  let diff := max len₁ len₂ - min len₁ len₂
  let isShape₁Longer := len₂ < len₁
  ((List.range (min len₁ len₂ - 2)).reverse.flatMap fun i =>
    let shape₁Shardable := if isShape₁Longer then shape₁.getD (i + diff) 1 % p = 0 else shape₁.getD i 1 % p = 0
    let shape₂Shardable := if isShape₁Longer then shape₂.getD i 1 % p = 0 else shape₂.getD (i + diff) 1 % p = 0
    appendIf (shape₁Shardable ∧ shape₂Shardable)
      (if isShape₁Longer then ([.shard (i + diff)], [some (.shard (i + diff)), some (.shard i)])
      else ([.shard (i + diff)], [some (.shard i), some (.shard (i + diff))]))) ++
  ((List.range diff).reverse.flatMap fun i =>
    if isShape₁Longer ∧ shape₁.getD i 1 % p = 0 then [([.shard i], [some (.shard i), some .replicate])]
    else appendIf (¬isShape₁Longer ∧ shape₂.getD i 1 % p = 0)
      ([.shard i], [some .replicate, some (.shard i)])) ++
  appendIf (shape₁.getD (len₁ - 2) 1 % p = 0)
    ([.shard (outputShape.length - 2)], [some (.shard (len₁ - 2)), some .replicate]) ++
  appendIf (shape₂.getD (len₂ - 1) 1 % p = 0)
    ([.shard (outputShape.length - 1)], [some .replicate, some (.shard (len₂ - 1))]) ++
  appendIf (shape₁.getD (len₁ - 1) 1 % p = 0)
    ([.partialSum], [some (.shard (len₁ - 1)), some (.shard (len₂ - 2))])

def customMatmulStrategy (shape₁ shape₂ : List ℕ) (p : ℕ) : List Strategy :=
  ([.replicate], [some .replicate, some .replicate]) ::
  if shape₁.length = 1 ∧ shape₂.length = 1 then []
  else if shape₁.length = 1 then vectorMatrixStrategies shape₁ shape₂ p
  else if shape₂.length = 1 then matrixVectorStrategies shape₁ shape₂ p
  else matrixMatrixStrategies shape₁ shape₂ p

/-! ### `custom_matmul_backward_strategy` -/

/-- The second operand has one or two dimensions. -/
def backwardStrategies₂ (grad tensor₁ tensor₂ : List ℕ) (p : ℕ) : List Strategy :=
  appendIf (tensor₂.getD 0 1 % p = 0)
    ([.shard (tensor₁.length - 1), .shard 0],
      [some .replicate, some (.shard (tensor₁.length - 1)), some (.shard 0), none]) ++
  (List.range (tensor₁.length - 1)).flatMap (fun i =>
    appendIf (tensor₁.getD i 1 % p = 0)
      ([.shard i, .partialSum], [some (.shard i), some (.shard i), some .replicate, none])) ++
  appendIf (tensor₂.length = 2 ∧ tensor₂.getD 1 1 % p = 0)
    ([.partialSum, .shard 1], [some (.shard (grad.length - 1)), some .replicate, some (.shard 1), none])

/-- The first operand has one or two dimensions. -/
def backwardStrategies₁ (grad tensor₁ tensor₂ : List ℕ) (p : ℕ) : List Strategy :=
  let isSpecial := tensor₂.length = 2 ∧ tensor₁.length = 1
  appendIf (tensor₁.getD (tensor₁.length - 1) 1 % p = 0)
    ([.shard (if isSpecial then tensor₁.length else tensor₁.length - 1), .shard (tensor₂.length - 2)],
      [some .replicate, some (.shard (tensor₁.length - 1)), some (.shard (tensor₂.length - 2)), none]) ++
  appendIf (tensor₂.getD (tensor₂.length - 1) 1 % p = 0)
    ([.partialSum, .shard (tensor₂.length - 1)],
      [some (.shard (grad.length - 1)), some .replicate, some (.shard (tensor₂.length - 1)), none]) ++
  -- the mask has no placement here
  (List.range (tensor₂.length - 2)).flatMap (fun i =>
    appendIf (tensor₂.getD i 1 % p = 0)
      ([.partialSum, .shard i], [some (.shard i), some .replicate, some (.shard i)])) ++
  appendIf (tensor₁.length = 2 ∧ tensor₁.getD 0 1 % p = 0)
    ([.shard 0, .partialSum], [some (.shard (grad.length - 2)), some (.shard 0), some .replicate, none])

/-- Both operands have batch dimensions. -/
def backwardStrategies (grad tensor₁ tensor₂ : List ℕ) (p : ℕ) : List Strategy :=
  let gradDim := grad.length
  let tensor₁Dim := tensor₁.length
  let tensor₂Dim := tensor₂.length
  let diff := max tensor₁Dim tensor₂Dim - min tensor₁Dim tensor₂Dim
  let isShape₁Longer := tensor₂Dim < tensor₁Dim
  appendIf (grad.getD (gradDim - 1) 1 % p = 0)
    ([.partialSum, .shard (gradDim - 1)],
      [some (.shard (gradDim - 1)), some .replicate, some (.shard (tensor₂Dim - 1)), none]) ++
  appendIf (grad.getD (gradDim - 2) 1 % p = 0)
    ([.shard (gradDim - 2), .partialSum],
      [some (.shard (gradDim - 2)), some (.shard (tensor₁Dim - 2)), some .replicate, none]) ++
  appendIf (tensor₁.getD (tensor₁Dim - 1) 1 % p = 0)
    ([.shard (gradDim - 1), .shard (gradDim - 2)],
      [some .replicate, some (.shard (tensor₁Dim - 1)), some (.shard (tensor₂Dim - 2)), none]) ++
  ((List.range (min tensor₁Dim tensor₂Dim - 2)).reverse.flatMap fun i =>
    let shape₁Shardable :=
      if isShape₁Longer then tensor₁.getD (i + diff) 1 % p = 0 else tensor₁.getD i 1 % p = 0
    let shape₂Shardable :=
      if isShape₁Longer then tensor₂.getD i 1 % p = 0 else tensor₂.getD (i + diff) 1 % p = 0
    appendIf (shape₁Shardable ∧ shape₂Shardable)
      (if isShape₁Longer then ([.shard (i + diff), .shard (i + diff)],
        [some (.shard (i + diff)), some (.shard (i + diff)), some (.shard i), none])
      else ([.shard (i + diff), .shard (i + diff)],
        [some (.shard (i + diff)), some (.shard i), some (.shard (i + diff)), none]))) ++
  ((List.range diff).reverse.flatMap fun i =>
    if isShape₁Longer ∧ tensor₁.getD i 1 % p = 0 then
      [([.shard i, .partialSum], [some (.shard i), some (.shard i), some .replicate, none])]
    else appendIf (¬isShape₁Longer ∧ tensor₂.getD i 1 % p = 0)
      ([.partialSum, .shard i], [some (.shard i), some .replicate, some (.shard i), none]))

def customMatmulBackwardStrategy (grad tensor₁ tensor₂ : List ℕ) (p : ℕ) : List Strategy :=
  ([.replicate, .replicate], [some .replicate, some .replicate, some .replicate, none]) ::
  if tensor₁.length = 1 ∧ tensor₂.length = 1 then []
  else if 2 ≤ tensor₁.length ∧ (tensor₂.length = 1 ∨ tensor₂.length = 2) then
    backwardStrategies₂ grad tensor₁ tensor₂ p
  else if 2 ≤ tensor₂.length ∧ (tensor₁.length = 1 ∨ tensor₁.length = 2) then
    backwardStrategies₁ grad tensor₁ tensor₂ p
  else backwardStrategies grad tensor₁ tensor₂ p

end TorchNpu.DTensor
