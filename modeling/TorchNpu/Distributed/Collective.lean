/-
  The collectives of `ProcessGroupHCCL` that reduce (`ProcessGroupHCCL.cpp`), as the kernels they launch and
  the storages they protect.

  A call is the list of its actions in the order of the source text.  The callbacks `pre` and `post` run
  under a guard for the HCCL stream and `fn` gives the pointers of its tensors to HCCL on that stream, so
  their kernels are on the HCCL stream; what the call does before `collective` is on the current stream.
  `next` is the first storage that does not exist yet.  Checks that fail give an error.

  HCCL reads the elements from the data pointer of the input on, and writes those of the output; `HcclReduce`
  writes the output of the root only.
-/
import TorchNpu.Distributed.Tensor

namespace TorchNpu.Distributed

/-! ### Options -/

inductive ReduceOp
  | sum
  | avg
  | premulSum
  | min
  | max
  | product
  | band
  | bor
  | bxor
  deriving DecidableEq

inductive HcclReduceOp
  | sum
  | max
  | min
  | prod

/-- `getHcclReduceOp`. -/
def getHcclReduceOp (reduceOp : ReduceOp) (input : Tensor) : Except String HcclReduceOp :=
  match reduceOp with
  | .avg | .premulSum => .ok .sum
  | .sum => .ok (if input.scalarType = .bool then .max else .sum)
  | .min => .ok .min
  | .max => .ok .max
  | .product => .ok .prod
  | .band => .error "Cannot use ReduceOp.BAND with HCCL"
  | .bor => .error "Cannot use ReduceOp.BOR with HCCL"
  | .bxor => .error "Cannot use ReduceOp.BXOR with HCCL"

/-- `GetMultiStreamMemoryReuse`. -/
inductive ReuseMode
  | close
  | eraseRecordStream
  | avoidRecordStream
  | eraseRecordStreamWithOptimize
  deriving DecidableEq

/-- What a process knows of its group. -/
structure Group where
  rank : ℕ
  size : ℕ
  multiStreamMemoryReuse : ReuseMode := .eraseRecordStream
  hcclReduceScatterVExist : Bool := true

/-! ### Actions -/

inductive Kernel
  /-- `_npu_dtype_cast`. -/
  | dtypeCast (dst src : Tensor)
  /-- `npu_format_cast`. -/
  | formatCast (dst src : Tensor)
  /-- `at::cat` of flattened tensors. -/
  | cat (dst : Tensor) (srcs : List Tensor)
  /-- `dst.copy_(src)`. -/
  | copy (dst src : Tensor)
  /-- `tensor.mul_(scale_factor)`. -/
  | mul (tensor : Tensor)
  /-- `tensor.div_(getSize())`. -/
  | div (tensor : Tensor)
  | hcclAllReduce (input output : Tensor) (count : ℕ)
  | hcclReduce (input output : Tensor) (count : ℕ) (root : ℕ)
  | hcclReduceScatter (input output : Tensor) (count : ℕ)
  | hcclReduceScatterV (input output : Tensor) (count : ℕ)
  deriving DecidableEq

/-- The tensors a kernel reads. -/
def Kernel.reads : Kernel → List Tensor
  | .dtypeCast _ src | .formatCast _ src | .copy _ src => [src]
  | .cat _ srcs => srcs
  | .mul tensor | .div tensor => [tensor]
  | .hcclAllReduce input _ _ | .hcclReduce input _ _ _ | .hcclReduceScatter input _ _
  | .hcclReduceScatterV input _ _ => [input]

/-- The tensors a kernel writes. -/
def Kernel.writes (g : Group) : Kernel → List Tensor
  | .dtypeCast dst _ | .formatCast dst _ | .copy dst _ | .cat dst _ => [dst]
  | .mul tensor | .div tensor => [tensor]
  | .hcclAllReduce _ output _ | .hcclReduceScatter _ output _ | .hcclReduceScatterV _ output _ => [output]
  | .hcclReduce _ output _ root => if g.rank = root then [output] else []

inductive Action
  | onCurrentStream (kernel : Kernel)
  | onHcclStream (kernel : Kernel)
  /-- `NPUCachingAllocator::recordStream` with the HCCL stream. -/
  | recordStream (storage : ℕ)
  /-- `stashed_for_allocator_safety_->stash`. -/
  | stash (storage : ℕ)
  deriving DecidableEq

/-! ### `collective` -/

/-- `stash` or `recordStream`, which `collective` does with its inputs before it calls `fn`; `opType` is never
`UNKNOWN` here. -/
def protect (g : Group) (input : Tensor) : Action :=
  if g.multiStreamMemoryReuse = .avoidRecordStream then .stash input.storage
  else .recordStream input.storage

/-- What `collective` does about an output after it has called `fn`.  In the mode `ERASE_RECORD_STREAM` it
notes the output for `eraseStream`, which protects nothing. -/
def protectOutput (g : Group) (output : Tensor) : List Action :=
  if g.multiStreamMemoryReuse = .avoidRecordStream then [.stash output.storage] else []

/-- `collective` and `collectiveCoalesced`, with the tensors as `pre` has left them. -/
def collective (g : Group) (inputs outputs : List Tensor) (fn : Tensor → Tensor → Except String (List Action))
    (pre post : List Action) : Except String (List Action) := do
  let calls ← (inputs.zip outputs).mapM fun (input, output) => do
    let actions ← fn input output
    return actions ++ protectOutput g output
  return pre ++ inputs.map (protect g) ++ calls.flatten ++ post

/-! ### Callbacks -/

/-- The tensors that `pre` replaces by a copy of type `int`. -/
def Tensor.isCast (t : Tensor) : Bool :=
  t.scalarType = .bool || t.scalarType = .byte

/-- `_npu_dtype_cast(tensor, at::kInt)` where `pre` makes it; the copy has the given storage. -/
def castTensor (storage : ℕ) (t : Tensor) : Tensor :=
  if t.isCast then
    { t with
      storage
      scalarType := .int
      strides := Strided.contiguousStrides t.sizes
      storageOffset := 0
      length_strides := Strided.length_contiguousStrides t.sizes }
  else t

def castActions (storage : ℕ) (t : Tensor) : List Action :=
  if t.isCast then [.onHcclStream (.dtypeCast (castTensor storage t) t)] else []

/-- The scaling of `pre` for `PREMUL_SUM`. -/
def premul (reduceOp : ReduceOp) (tensors : List Tensor) : List Action :=
  if reduceOp = .premulSum then tensors.map fun t => .onHcclStream (.mul t) else []

/-- The division of `post` for `AVG`. -/
def average (reduceOp : ReduceOp) (tensors : List Tensor) : List Action :=
  if reduceOp = .avg then tensors.map fun t => .onHcclStream (.div t) else []

/-- The end of `post` where `tensor` was replaced by `copy`. -/
def writeBack (tensor copy : Tensor) : List Action :=
  if copy.scalarType ≠ tensor.scalarType then
    [.recordStream copy.storage, .onHcclStream (.copy tensor copy)]
  else []

/-- What `fn` does before it calls HCCL. -/
def checkCall (functionName : String) (reduceOp : ReduceOp) (input : Tensor) : Except String Unit := do
  let hcclType ← getHcclDataType input.scalarType
  checkSupportedDataType hcclType functionName
  let _ ← getHcclReduceOp reduceOp input

/-- The `recordStream` of `fn` for its output. -/
def recordOutput (g : Group) (output : Tensor) : List Action :=
  if g.multiStreamMemoryReuse ≠ .avoidRecordStream then [.recordStream output.storage] else []

/-! ### Collectives in place -/

/-- The body that `allreduce`, `allreduce_coalesced` and `reduce` share; `kernel` is the call of HCCL. -/
def reduceInPlace (g : Group) (functionName : String) (kernel : Tensor → Tensor → ℕ → Kernel)
    (reduceOp : ReduceOp) (tensors : List Tensor) (next : ℕ) : Except String (List Action) :=
  let tensorsCp := tensors.zipIdx.map fun (t, i) => castTensor (next + i) t
  collective g tensorsCp tensorsCp
    (fun input output => do
      checkCall functionName reduceOp input
      let numel ← input.getNumelForHCCL
      return [.onHcclStream (kernel input output numel)])
    ((tensors.zipIdx.flatMap fun (t, i) => castActions (next + i) t) ++ premul reduceOp tensorsCp)
    (average reduceOp tensorsCp ++
      (tensors.zip tensorsCp).flatMap fun (tensor, copy) => writeBack tensor copy)

/-- `allreduce`. -/
def allreduce (g : Group) (tensors : List Tensor) (reduceOp : ReduceOp) (next : ℕ) :
    Except String (List Action) := do
  checkNpuTensorsDifferentDevices tensors
  reduceInPlace g "allreduce" .hcclAllReduce reduceOp tensors next

/-- `allreduce_coalesced`. -/
def allreduceCoalesced (g : Group) (tensors : List Tensor) (reduceOp : ReduceOp) (next : ℕ) :
    Except String (List Action) := do
  checkNpuTensorsSameDevice tensors
  reduceInPlace g "allreduce_coalesced" .hcclAllReduce reduceOp tensors next

/-- `reduce`. -/
def reduce (g : Group) (tensors : List Tensor) (reduceOp : ReduceOp) (root : ℕ) (next : ℕ) :
    Except String (List Action) := do
  checkNpuTensorsDifferentDevices tensors
  reduceInPlace g "reduce" (fun input output count => .hcclReduce input output count root) reduceOp tensors
    next

/-! ### Collectives with an output -/

/-- `_reduce_oop`. -/
def reduceOop (g : Group) (outputTensor inputTensor : Tensor) (reduceOp : ReduceOp) (root : ℕ)
    (next : ℕ) : Except String (List Action) := do
  checkNpuSingleTensor outputTensor
  if outputTensor.numel ≠ inputTensor.numel then
    throw "output tensor must have the same numel as input tensor"
  let input' := castTensor next inputTensor
  let output' := castTensor (next + 1) outputTensor
  collective g [input'] [output']
    (fun input output => do
      checkCall "_reduce_oop" reduceOp input
      let numel ← input.getNumelForHCCL
      return [.onHcclStream (.hcclReduce input output numel root)])
    (castActions next inputTensor ++ castActions (next + 1) outputTensor ++ premul reduceOp [input'])
    (average reduceOp [output'] ++ writeBack outputTensor output')

/-- What `_reduce_scatter_base` and `reduce_scatter_tensor_coalesced` share. -/
def reduceScatterTensors (g : Group) (functionName : String) (outputs inputs : List Tensor)
    (reduceOp : ReduceOp) : Except String (List Action) :=
  collective g inputs outputs
    (fun input output => do
      checkCall functionName reduceOp input
      let numel ← output.getNumelForHCCL
      return recordOutput g output ++ [.onHcclStream (.hcclReduceScatter input output numel)])
    (premul reduceOp inputs) (average reduceOp outputs)

/-- `_reduce_scatter_base`. -/
def reduceScatterBase (g : Group) (outputTensor inputTensor : Tensor) (reduceOp : ReduceOp) :
    Except String (List Action) := do
  checkNpuSingleTensor inputTensor
  if inputTensor.scalarType ≠ outputTensor.scalarType then
    throw "input tensor must be the same type as the output tensor."
  if inputTensor.numel ≠ outputTensor.numel * g.size then
    throw "input tensor must be the same size as output size times world size"
  reduceScatterTensors g "_reduce_scatter_base" [outputTensor] [inputTensor] reduceOp

/-- `reduce_scatter_tensor_coalesced`. -/
def reduceScatterTensorCoalesced (g : Group) (outputTensors inputTensors : List Tensor)
    (reduceOp : ReduceOp) : Except String (List Action) := do
  checkNpuTensorsSameDevice outputTensors
  checkNpuTensorsSameDevice inputTensors
  reduceScatterTensors g "reduce_scatter_tensor_coalesced" outputTensors inputTensors reduceOp

/-- A tensor of `cast_to_origin_format`. -/
def originFormatTensor (storage : ℕ) (t : Tensor) : Tensor :=
  if t.isBaseFormatType then t else newTensor storage t.scalarType t.sizes

def originFormatActions (storage : ℕ) (t : Tensor) : List Action :=
  if t.isBaseFormatType then []
  else [.onCurrentStream (.formatCast (originFormatTensor storage t) t)]

/-- `fill_equal_split_sizes_when_empty` and `check_split_sizes`. -/
def checkSplitSizes (splitSizes : List ℕ) (t : Tensor) (size : ℕ) : Except String (List ℕ) :=
  if splitSizes = [] then
    if size = 0 then .error "Invalid group size within current process group"
    else if t.sizes.headD 0 % size = 0 then .ok (List.replicate size (t.sizes.headD 0 / size))
    else .error "Tensor's dim 0 does not divide equally across group size"
  else if splitSizes.length ≠ size then .error "Number of tensor splits not equal to group size"
  else if splitSizes.sum ≠ t.sizes.headD 0 then .error "Split sizes dosen't match total dim 0 size"
  else .ok splitSizes

/-- `_reduce_scatter_base_uneven_inner`. -/
def reduceScatterBaseUneven (g : Group) (outputTensor inputTensor : Tensor) (inputSplitSizes : List ℕ)
    (reduceOp : ReduceOp) (next : ℕ) : Except String (List Action) := do
  checkNpuSingleTensor outputTensor
  checkNpuSingleTensor inputTensor
  if inputTensor.scalarType ≠ outputTensor.scalarType then
    throw "output tensor must have the same type as input tensor"
  let _ ← checkSplitSizes inputSplitSizes inputTensor g.size
  let input' := originFormatTensor next inputTensor
  let output' := originFormatTensor (next + 1) outputTensor
  let actions ← collective g [input'] [output']
    (fun input output => do
      let _ ← getHcclReduceOp reduceOp input
      let _ ← getHcclDataType input.scalarType
      return [.onHcclStream (.hcclReduceScatterV input output output.numel)])
    (premul reduceOp [input']) (average reduceOp [output'])
  return originFormatActions next inputTensor ++ originFormatActions (next + 1) outputTensor ++ actions

/-! ### `reduce_scatter` -/

/-- `c10d::newLikeFlat`: one tensor with room for all, each laid out as the first one. -/
def newLikeFlat (storage : ℕ) : List Tensor → Except String Tensor
  | [] => .error "Received an empty list"
  | t :: rest => .ok
    { storage
      scalarType := t.scalarType
      sizes := (t :: rest).length :: t.sizes
      strides := t.numel :: t.strides
      length_strides := by rw [List.length_cons, List.length_cons, t.length_strides] }

/-- `flatten_for_scatter_gather` with one device. -/
def flattenForScatterGather (tensorList : List Tensor) (other : Tensor) (worldSize storage : ℕ) :
    Except String Tensor :=
  if tensorList.length ≠ worldSize then
    .error "Tensor list input to scatter/gather must match number of collective participants"
  else if tensorList.any fun t => t.numel ≠ other.numel then
    .error "All tensor operands to scatter/gather must have the same size"
  else newLikeFlat storage tensorList

/-- `at::flatten`: a view where the tensor is contiguous, else a copy in a new storage. -/
def flatten (storage : ℕ) (t : Tensor) : Tensor :=
  if t.isContiguous then
    { t with
      sizes := [t.numel]
      strides := [1]
      storageSizes := [t.numel]
      length_strides := rfl }
  else newTensor storage t.scalarType [t.numel]

def flattenActions (storage : ℕ) (t : Tensor) : List Action :=
  if t.isContiguous then [] else [.onCurrentStream (.copy (flatten storage t) t)]

/-- The path of `reduce_scatter` for inputs of equal sizes. -/
def reduceScatterSameSize (g : Group) (outputTensor : Tensor) (inputTensors : List Tensor)
    (reduceOp : ReduceOp) (next : ℕ) : Except String (List Action) := do
  let inputFlattened ← flattenForScatterGather inputTensors outputTensor g.size next
  checkNpuTensorsDifferentDevices [inputFlattened]
  collective g [inputFlattened] [outputTensor]
    (fun input output => do
      checkCall "reduce_scatter" reduceOp input
      let numel ← output.getNumelForHCCL
      return recordOutput g output ++ [.onHcclStream (.hcclReduceScatter input output numel)])
    (inputTensors.zipIdx.flatMap fun (t, j) =>
      [protect g t, .onHcclStream (.copy (inputFlattened.select j) t)] ++
        premul reduceOp [inputFlattened.select j])
    (average reduceOp [outputTensor])

/-- The path of `reduce_scatter` with `HcclReduceScatterV`. -/
def reduceScatterV (g : Group) (outputTensor : Tensor) (inputTensors : List Tensor)
    (reduceOp : ReduceOp) (next : ℕ) : Except String (List Action) := do
  let scalarType := (inputTensors.map Tensor.scalarType).headD .float
  let inputFlattened := newTensor next scalarType [(inputTensors.map Tensor.numel).sum]
  let outputFlattened := flatten (next + 1) outputTensor
  let actions ← collective g [inputFlattened] [outputFlattened]
    (fun input output => do
      let _ ← getHcclReduceOp reduceOp input
      let _ ← getHcclDataType input.scalarType
      return [.onHcclStream (.hcclReduceScatterV input output output.numel)])
    (premul reduceOp [inputFlattened])
    ([protect g outputTensor, .onHcclStream (.copy outputTensor outputFlattened)] ++
      average reduceOp [outputTensor])
  return .onCurrentStream (.cat inputFlattened inputTensors) :: flattenActions (next + 1) outputTensor ++
    actions

/-- The path of `reduce_scatter` without it: one `_reduce_oop` for each rank, whose output is the input
itself where the rank is not the root. -/
def reduceScatterOop (g : Group) (outputTensor : Tensor) (inputTensors : List Tensor)
    (reduceOp : ReduceOp) (next : ℕ) : Except String (List Action) := do
  let works ← inputTensors.zipIdx.mapM fun (input, i) =>
    reduceOop g (if i = g.rank then outputTensor else input) input reduceOp i (next + 2 * i)
  return works.flatten

/-- `reduce_scatter`, with one list of inputs: there is one NPU per process. -/
def reduceScatter (g : Group) (outputTensors inputTensors : List Tensor) (reduceOp : ReduceOp)
    (next : ℕ) : Except String (List Action) := do
  checkNpuTensorsDifferentDevices outputTensors
  checkNpuTensorsSameDevice inputTensors
  match outputTensors with
  | outputTensor :: _ =>
    if checkSameSize inputTensors then
      reduceScatterSameSize g outputTensor inputTensors reduceOp next
    else if g.hcclReduceScatterVExist then
      reduceScatterV g outputTensor inputTensors reduceOp next
    else reduceScatterOop g outputTensor inputTensors reduceOp next
  | [] => throw "Tensor list must be nonempty"

end TorchNpu.Distributed
