/-
  Tensors of a process of `ProcessGroupHCCL` (`ProcessGroupHCCL.cpp`), their element types and their checks.

  A tensor is a view of a storage.  In a base format its elements are where its sizes, strides and offset
  say; in an internal format of the device (`NC1HWC0`, `FRACTAL_NZ`, ...) they are somewhere among the
  elements of `storage_sizes_`.  All tensors are dense and on the NPU of the process.
-/
import TorchNpu.Lib.Strided
import Mathlib.Data.List.Sort

namespace TorchNpu.Distributed

/-! ### Element types and formats -/

inductive ScalarType
  | bool
  | byte
  | char
  | short
  | int
  | long
  | half
  | float
  | double
  | bfloat16
  | uint16
  | uint32
  | uint64
  | float8E4m3fn
  | float8E5m2
  | complexFloat
  deriving DecidableEq

/-- `HcclDataType`. -/
inductive HcclDataType
  | uint8
  | int8
  | int16
  | int32
  | int64
  | fp16
  | fp32
  | fp64
  | bfp16
  | uint16
  | uint32
  | uint64
  | fp8E4m3
  | fp8E5m2
  deriving DecidableEq

/-- `getHcclDataType`. -/
def getHcclDataType : ScalarType → Except String HcclDataType
  | .byte => .ok .uint8
  | .char => .ok .int8
  | .short => .ok .int16
  | .int => .ok .int32
  | .long => .ok .int64
  | .half => .ok .fp16
  | .float => .ok .fp32
  | .uint16 => .ok .uint16
  | .uint32 => .ok .uint32
  | .uint64 => .ok .uint64
  | .double => .ok .fp64
  | .bool => .ok .uint8
  | .bfloat16 => .ok .bfp16
  | .float8E4m3fn => .ok .fp8E4m3
  | .float8E5m2 => .ok .fp8E5m2
  | .complexFloat => .error "Unsupported data type for HCCL process group"

/-- `supportedDataTypes` of `checkSupportedDataType`. -/
def supportedDataTypes : List HcclDataType :=
  [.int8, .int16, .int32, .fp16, .fp32, .bfp16, .int64]

/-- `checkSupportedDataType`. -/
def checkSupportedDataType (type : HcclDataType) (functionName : String) : Except String Unit :=
  if type ∈ supportedDataTypes then .ok ()
  else .error ("HCCL " ++ functionName ++ ": Unsupported data type")

/-- `aclFormat`. -/
inductive AclFormat
  | nd
  | nchw
  | nhwc
  | ncdhw
  | ndhwc
  | nc1hwc0
  | fractalNz
  | fractalZ
  | ndc1hwc0
  | fractalZ3d
  deriving DecidableEq

/-- `FormatHelper::GetBaseFormat`. -/
def AclFormat.getBaseFormat : AclFormat → AclFormat
  | .nd | .fractalNz => .nd
  | .nchw | .nc1hwc0 | .fractalZ => .nchw
  | .nhwc => .nhwc
  | .ncdhw | .ndhwc | .ndc1hwc0 | .fractalZ3d => .ncdhw

/-- `FormatHelper::IsBaseFormatType`. -/
def AclFormat.isBaseFormatType (format : AclFormat) : Bool :=
  format.getBaseFormat = format

/-! ### Tensors -/

structure Tensor where
  storage : ℕ
  scalarType : ScalarType := .float
  sizes : List ℕ
  strides : List ℕ
  storageOffset : ℕ := 0
  npuFormat : AclFormat := .nd
  /-- `storage_sizes_`. -/
  storageSizes : List ℕ := sizes
  length_strides : strides.length = sizes.length
  deriving DecidableEq

namespace Tensor

variable (t : Tensor)

def numel : ℕ :=
  t.sizes.prod

def isBaseFormatType : Bool :=
  t.npuFormat.isBaseFormatType

/-- `physical_numel`. -/
def physicalNumel : ℕ :=
  t.storageSizes.prod

/-- `getNumelForHCCL`. -/
def getNumelForHCCL : Except String ℕ :=
  if t.isBaseFormatType then .ok t.numel
  else if t.storageOffset ≠ 0 then
    .error "For a tensor of internal format, it's storage_offset must be 0"
  else .ok t.physicalNumel

/-- The places of the storage that hold the data of the tensor. -/
def cells : List ℕ :=
  if t.isBaseFormatType then Strided.positions t.sizes t.strides t.storageOffset
  else List.range t.physicalNumel

/-- The dimensions, given from the innermost one, follow each other without gaps. -/
def isDenseIn : List (ℕ × ℕ) → ℕ → Bool
  | [], _ => true
  | (size, stride) :: dims, expected =>
    if size = 1 then isDenseIn dims expected
    else stride = expected && isDenseIn dims (expected * size)

def dims : List (ℕ × ℕ) :=
  t.sizes.zip t.strides

/-- `is_contiguous()`. -/
def isContiguous : Bool :=
  t.numel = 0 || isDenseIn t.dims.reverse 1

/-- The dimensions of a `channels_last` tensor from the innermost one. -/
def channelsLastDims : Option (List (ℕ × ℕ)) :=
  match t.dims with
  | [n, c, h, w] => some [c, w, h, n]
  | [n, c, d, h, w] => some [c, w, h, d, n]
  | _ => none

/-- The loop of `is_channels_last_strides`. -/
def isChannelsLastStrides (channels : ℕ) : List (ℕ × ℕ) → ℕ → Bool
  | [], _ => true
  | (size, stride) :: dims, least =>
    size ≠ 0 && least ≤ stride && !(dims.isEmpty && least = channels) &&
      isChannelsLastStrides channels dims (if 1 < size then stride * size else stride)

/-- `is_contiguous(suggest_memory_format())`. -/
def isContiguousAsSuggested : Bool :=
  match t.channelsLastDims with
  | some ((size, stride) :: dims) =>
    if stride ≠ 0 && isChannelsLastStrides stride ((size, stride) :: dims) 0 then
      isDenseIn ((size, stride) :: dims) 1
    else t.isContiguous
  | _ => t.isContiguous

/-- `is_non_overlapping_and_dense()`. -/
def isNonOverlappingAndDense : Bool :=
  isDenseIn ((t.dims.filter fun dim => 2 ≤ dim.1).insertionSort fun d e => d.2 ≤ e.2) 1

/-- `select(0, j)` and `tensor[j]`. -/
def select (j : ℕ) : Tensor :=
  { t with
    sizes := t.sizes.tail
    strides := t.strides.tail
    storageOffset := t.storageOffset + j * t.strides.headD 0
    storageSizes := t.sizes.tail
    length_strides := by rw [List.length_tail, List.length_tail, t.length_strides] }

end Tensor

/-- A new contiguous tensor in a base format. -/
def newTensor (storage : ℕ) (scalarType : ScalarType) (sizes : List ℕ) : Tensor :=
  { storage, scalarType, sizes
    strides := Strided.contiguousStrides sizes
    length_strides := Strided.length_contiguousStrides sizes }

/-! ### Checks -/

/-- What all checks say about an internal format. -/
def checkInternalFormat (t : Tensor) : Except String Unit :=
  if !t.isBaseFormatType && t.storageOffset ≠ 0 then
    .error "For a tensor of internal format, it's storage_offset must be 0"
  else .ok ()

/-- `check_npu_single_tensor`. -/
def checkNpuSingleTensor (t : Tensor) : Except String Unit :=
  if t.isContiguousAsSuggested then checkInternalFormat t
  else .error "Tensors must be contiguous"

/-- `check_npu_tensors_different_devices`; one NPU per process. -/
def checkNpuTensorsDifferentDevices : List Tensor → Except String Unit
  | [] => .error "Tensor list must be nonempty"
  | [t] => checkNpuSingleTensor t
  | _ => .error "Tensor list mustn't be larger than the number of available NPUs"

/-- `check_npu_tensors_same_device`. -/
def checkNpuTensorsSameDevice (tensors : List Tensor) : Except String Unit :=
  match tensors with
  | [] => .error "Tensor list must be nonempty"
  | first :: _ => tensors.forM fun t =>
    if t.scalarType ≠ first.scalarType then .error "Tensors must have identical type"
    else if t.isNonOverlappingAndDense then checkInternalFormat t
    else .error "Tensors must be non-overlapping and dense"

/-- `check_same_size`. -/
def checkSameSize : List Tensor → Bool
  | [] => true
  | first :: rest => (first :: rest).all fun t => t.sizes = first.sizes

end TorchNpu.Distributed
