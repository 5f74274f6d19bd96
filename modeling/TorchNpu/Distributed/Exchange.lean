/-
  `ProcessGroupHCCL::alltoall` and `ProcessGroupHCCL::scatter` (`ProcessGroupHCCL.cpp`) on all processes of a
  group.

  Both have two implementations.  The compatible one sends each tensor as it is in its storage, with the count
  of `getNumelForHCCL`.  The default one of `alltoall` flattens the tensors and copies the parts of the result
  to the outputs; that of `scatter` copies the inputs to the rows of one new tensor that are laid out as the
  first input, and HCCL writes the rows to the outputs.
-/
import TorchNpu.Distributed.Gather

namespace TorchNpu.Distributed

open Spmd Assign

/-! ### Grouped sends and receives -/

/-- The checks that `fn` makes before it sends or receives a tensor. -/
def checkTransfer (t : PlacedTensor) : Except String Unit := do
  if t.numel ≠ 0 then
    let _ ← t.getNumelForHCCL
    let _ ← getHcclDataType t.scalarType

/-- The sends of `fn`; an empty tensor is not sent. -/
def sendsOf (m : Memory) (inputs : List (PlacedTensor × ℕ)) : List (ℕ × List ℚ) :=
  (inputs.filter fun x => x.1.numel ≠ 0).map fun x => (x.2, m.data x.1)

/-- The receives of `fn`. -/
def recvsOf (outputs : List (PlacedTensor × ℕ)) : List (ℕ × ℕ) :=
  (outputs.filter fun x => x.1.numel ≠ 0).map fun x => (x.2, x.1.count)

/-- HCCL fills the tensors that are received. -/
def fillReceived (outputs : List (PlacedTensor × ℕ)) (reply : Reply) (m : Memory) : Memory :=
  ((outputs.filter fun x => x.1.numel ≠ 0).zip reply).foldl (fun m x => m.fill x.1.1 x.2) m

/-! ### `alltoall` -/

/-- The element type of the flattened tensors: the 8-bit floats are seen as bytes. -/
def viewAsByte (scalarType : ScalarType) : ScalarType :=
  if scalarType = .float8E5m2 ∨ scalarType = .float8E4m3fn then .byte else scalarType

/-- The tensor that `at::cat` makes of the flattened tensors. -/
def catTensor (tensors : List PlacedTensor) : Tensor :=
  newTensor 0 (viewAsByte ((tensors.map fun t => t.scalarType).headD .float))
    [(tensors.map fun t => t.numel).sum, 1]

def alltoallSendRecv (outputs inputs : List PlacedTensor) (m : Memory) : Process :=
  .check (inputs.forM checkTransfer) fun _ =>
  .check (outputs.forM checkTransfer) fun _ =>
  .call (.sendRecv (sendsOf m inputs.zipIdx) (recvsOf outputs.zipIdx)) fun reply =>
  .ret (fillReceived outputs.zipIdx reply m)

def alltoallFlattened (outputs inputs : List PlacedTensor) (m : Memory) : Process :=
  let inputCounts := inputs.map fun t => t.numel
  let outputCounts := outputs.map fun t => t.numel
  .check (checkNpuTensorsDifferentDevices [catTensor inputs]) fun _ =>
  .check (checkNpuTensorsDifferentDevices [catTensor outputs]) fun _ =>
  .check (getHcclDataType (catTensor inputs).scalarType) fun _ =>
  .check (getHcclDataType (catTensor outputs).scalarType) fun _ =>
  .call (.alltoAllV (inputs.flatMap m.elements) inputCounts (displacements 0 inputCounts) outputCounts
    (displacements 0 outputCounts)) fun reply =>
  .ret (copySlots (reply.headD []) (displacements 0 outputCounts) outputs m)

/-- `alltoall`; `compatible` is `use_compatible_impl && is_compatible_soc`. -/
def alltoall (compatible : Bool) (size : ℕ) (outputs inputs : List PlacedTensor) (m : Memory) : Process :=
  if outputs.length ≠ size then .fail "the size of output_tensors and worldsize must equal"
  else if outputs.length ≠ inputs.length then
    .fail "the size of input_tensors and output_tensors must equal"
  else
    .check ((outputs.zip inputs).forM fun x => do
      checkNpuSingleTensor x.1.toTensor
      checkNpuSingleTensor x.2.toTensor) fun _ =>
    if compatible then alltoallSendRecv outputs inputs m else alltoallFlattened outputs inputs m

/-! ### `scatter` -/

/-- `assert_no_internal_overlap`, which looks for a stride that is zero. -/
def assertNoInternalOverlap (t : Tensor) : Except String Unit :=
  if t.isNonOverlappingAndDense then .ok ()
  else if t.dims.any fun dim => dim.2 = 0 && 1 < dim.1 then
    .error "unsupported operation: more than one element of the written-to tensor refers to a single memory location."
  else .ok ()

/-- The memory of the new tensor when the inputs have been copied to its rows; `uninit` is what it held. -/
def flattenedRows (m : Memory) (uninit : ℕ → ℚ) (layout : Tensor) (inputs : List PlacedTensor) : ℕ → ℚ :=
  inputs.zipIdx.foldl (fun f x => assign f
    ((Strided.positions layout.sizes layout.strides 0).map (x.2 * layout.numel + ·)) (m.elements x.1)) uninit

/-- `assertTypeAndSizesMatch`. -/
def assertTypeAndSizesMatch (output : PlacedTensor) (inputs : List PlacedTensor) : Except String Unit :=
  inputs.forM fun t =>
    if t.scalarType ≠ output.scalarType then .error "ProcessGroupHCCL::scatter: invalid tensor type"
    else if t.sizes ≠ output.sizes then .error "ProcessGroupHCCL::scatter: invalid tensor size"
    else .ok ()

/-- The root of the compatible implementation. -/
def scatterSend (root : ℕ) (output : PlacedTensor) (inputs : List PlacedTensor) (m : Memory) : Process :=
  let others := inputs.zipIdx.filter fun x => x.2 ≠ root
  .check (others.forM fun x => checkTransfer x.1) fun _ =>
  .check (inputs[root]?.elim (.ok m) (copyTensor m output)) fun m' =>
  .call (.sendRecv (sendsOf m others) []) fun _ =>
  .ret m'

/-- The other processes of the compatible implementation. -/
def scatterRecv (root : ℕ) (output : PlacedTensor) (m : Memory) : Process :=
  .check (checkTransfer output) fun _ =>
  .call (.sendRecv [] (recvsOf [(output, root)])) fun reply =>
  .ret (fillReceived [(output, root)] reply m)

/-- The default implementation.  On the other processes the inputs are new tensors that HCCL does not read. -/
def scatterFlattened (size rank root : ℕ) (output : PlacedTensor) (inputs : List PlacedTensor)
    (m : Memory) (uninit : ℕ → ℚ) : Process :=
  let layout := (inputs.map PlacedTensor.toTensor).headD output.toTensor
  .check (if rank = root then do
      let flattened ← flattenForScatterGather (inputs.map PlacedTensor.toTensor) output.toTensor size 0
      if output.numel ≠ 0 then assertNoInternalOverlap (flattened.select 0)
    else .ok ()) fun _ =>
  .check output.getNumelForHCCL fun count =>
  .check (getHcclDataType output.scalarType) fun _ =>
  .call (.scatter root (if rank = root then
      (List.range (size * count)).map (flattenedRows m uninit layout inputs) else []) count) fun reply =>
  .ret (m.fill output (reply.headD []))

/-- `scatter`. -/
def scatter (compatible : Bool) (size rank root : ℕ) (output : PlacedTensor) (inputs : List PlacedTensor)
    (m : Memory) (uninit : ℕ → ℚ) : Process :=
  if size ≤ root then .fail "ProcessGroupHCCL::scatter: invalid root rank"
  else
    .check (checkNpuTensorsDifferentDevices [output.toTensor]) fun _ =>
    .check (if rank = root then
        if inputs.length ≠ size then .error "ProcessGroupHCCL::scatter: Incorrect input list size"
        else assertTypeAndSizesMatch output inputs
      else if inputs ≠ [] then .error "ProcessGroupHCCL::scatter: requires empty input on non-root"
      else .ok ()) fun _ =>
    if compatible then
      if rank = root then scatterSend root output inputs m else scatterRecv root output m
    else scatterFlattened size rank root output inputs m uninit

end TorchNpu.Distributed
