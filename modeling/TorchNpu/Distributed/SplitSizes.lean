/-
  The counts and the offsets that HCCL gets for tensors with split sizes (`alltoall_base`,
  `_allgather_base_uneven_inner` and `_reduce_scatter_base_uneven_inner` of `ProcessGroupHCCL.cpp`).

  Of a tensor only the sizes count here; the types of the tensors agree.  The integers have the widths of the source; `size_` is an `int`, and so
  is the length of a list with as many elements.  A failed check is `none`.
-/
import Mathlib.Algebra.BigOperators.Group.List.Defs
import Mathlib.Algebra.Order.Ring.Int

namespace TorchNpu.Distributed.SplitSizes

/-- The sizes of a tensor, and that they and the number of elements are 64-bit integers. -/
structure TensorSizes where
  sizes : List ℕ
  size_lt : ∀ size ∈ sizes, size < 2 ^ 63
  numel_lt : sizes.prod < 2 ^ 63

namespace TensorSizes

def numel (tensor : TensorSizes) : ℕ :=
  tensor.sizes.prod

/-- `size(0)`, which needs a dimension. -/
def size0? (tensor : TensorSizes) : Option ℕ :=
  tensor.sizes.head?

end TensorSizes

/-- The variables that are `int64_t` hold this. -/
def int64OfNat (n : ℕ) : Int64 :=
  Int64.ofNat n

/-- `fill_equal_split_sizes_when_empty` -/
def fillEqualSplitSizesWhenEmpty (splitSizes : List Int64) (tensor : TensorSizes) (groupSize : ℕ) :
    Option (List Int64) :=
  if splitSizes.isEmpty then do
    let size0 ← tensor.size0?
    if 0 < groupSize ∧ size0 % groupSize = 0 then
      some (List.replicate groupSize (int64OfNat (size0 / groupSize)))
    else none
  else some splitSizes

/-- `c10::sum_integers` -/
def sumIntegers (splitSizes : List Int64) : Int64 :=
  splitSizes.foldl (· + ·) 0

/-- `check_split_sizes` -/
def checkSplitSizes (splitSizes : List Int64) (tensor : TensorSizes) (groupSize : ℕ) : Option Unit := do
  let size0 ← tensor.size0?
  if splitSizes.isEmpty then
    if size0 % groupSize = 0 then some () else none
  else
    if splitSizes.length = groupSize ∧ sumIntegers splitSizes = int64OfNat size0 then some () else none

/-- The elements of a row, before they are made an `int`. -/
def rowElements (tensor : TensorSizes) (size0 : ℕ) : ℕ :=
  if size0 ≠ 0 then tensor.numel / size0 else 1

/-- `inputCounts` and `inputSpl`, or those of the output. -/
structure Parts where
  counts : List UInt64 := []
  spl : List UInt64 := [0]
  deriving DecidableEq

/-- A round of the loop.  The index is positive once there is a count. -/
def Parts.push (rowSize : Int32) (parts : Parts) (splitSize : Int64) : Parts where
  counts := parts.counts ++ [(splitSize * rowSize.toInt64).toUInt64]
  spl :=
    match parts.spl.getLast?, parts.counts.getLast? with
    | some lastSpl, some lastCount => parts.spl ++ [lastSpl + lastCount]
    | _, _ => parts.spl

def partsOf (tensor : TensorSizes) (splitSizes : List Int64) : Option Parts := do
  let size0 ← tensor.size0?
  some (splitSizes.foldl (Parts.push (Int32.ofNat (rowElements tensor size0))) {})

/-- What the two uneven collectives have in common; the tensor is the one that is split. -/
def baseUneven (tensor : TensorSizes) (splitSizes : List Int64) (groupSize : ℕ) : Option Parts := do
  let splitSizes ← fillEqualSplitSizesWhenEmpty splitSizes tensor groupSize
  checkSplitSizes splitSizes tensor groupSize
  partsOf tensor splitSizes

/-- `_reduce_scatter_base_uneven_inner` -/
def reduceScatterBaseUneven (inputTensor : TensorSizes) (inputSplitSizes : List Int64) (groupSize : ℕ) :
    Option Parts :=
  baseUneven inputTensor inputSplitSizes groupSize

/-- `_allgather_base_uneven_inner` -/
def allgatherBaseUneven (outputTensor : TensorSizes) (outputSplitSizes : List Int64) (groupSize : ℕ) :
    Option Parts :=
  baseUneven outputTensor outputSplitSizes groupSize

/-- The calls of `alltoall_base`. -/
inductive AlltoallCall
  | hcclAlltoAll (inputCounts outputCounts : UInt64)
  | hcclAlltoAllV (input output : Parts)

/-- The equal splits of `alltoall_base`. -/
def fillSplitSizes (splitSizes : List Int64) (size0 ranks : ℕ) : List Int64 :=
  if splitSizes.isEmpty then List.replicate ranks (int64OfNat (size0 / ranks)) else splitSizes

/-- `alltoall_base` -/
def alltoallBase (outputTensor inputTensor : TensorSizes) (outputSplitSizes inputSplitSizes : List Int64)
    (ranks : ℕ) : Option AlltoallCall := do
  if ranks = 0 then none
  else if inputSplitSizes.isEmpty ∧ outputSplitSizes.isEmpty then
    let size0 ← outputTensor.size0?
    if outputTensor.numel = inputTensor.numel ∧ size0 % ranks = 0 then
      some (.hcclAlltoAll (UInt64.ofNat (inputTensor.numel / ranks)) (UInt64.ofNat (outputTensor.numel / ranks)))
    else none
  else
    let outputSize0 ← outputTensor.size0?
    let outputSplitSizes := fillSplitSizes outputSplitSizes outputSize0 ranks
    let inputSize0 ← inputTensor.size0?
    let inputSplitSizes := fillSplitSizes inputSplitSizes inputSize0 ranks
    checkSplitSizes inputSplitSizes inputTensor ranks
    checkSplitSizes outputSplitSizes outputTensor ranks
    let output ← partsOf outputTensor outputSplitSizes
    let input ← partsOf inputTensor inputSplitSizes
    some (.hcclAlltoAllV input output)

end TorchNpu.Distributed.SplitSizes
