/-
  What the profiler records of an operator that begins (`npu_profiler.cpp`).

  Of a value only what the recording looks at is modelled.  The types of the elements of tensors are those of
  PyTorch and are a parameter.
-/
import TorchNpu.Profiler.DataReporter

namespace TorchNpu.Profiler

/-! ### Tensors -/

/-- The texts that stand for inputs that are no tensors. -/
def inputTags : List Text :=
  ["None".toList, "Scalar".toList, "ScalarList".toList, "TensorList".toList]

/-- `ScalarType`: `scalarTypeToTypeMeta(…).name()` and `elementSize`.  The names are those of types of C++:
they neither begin nor end with a space and have no separators. -/
structure TypeMeta (σ : Type*) where
  name : σ → Text
  elementSize : σ → ℕ
  name_ne_nil : ∀ s, name s ≠ []
  separators : ∀ s, ';' ∉ name s ∧ ')' ∉ name s ∧ '\x7d' ∉ name s
  trimmed : ∀ s, Text.Trimmed (name s)
  notMem_tags : ∀ s, name s ∉ inputTags

structure Tensor (σ : Type*) where
  defined : Bool := true
  isNested : Bool := false
  hasSymbolicSizesStrides : Bool := false
  impl : ℕ
  /-- `storage().data()`, where there is a storage. -/
  storage : Option ℕ
  scalarType : σ
  sizes : List ℤ
  strides : List ℤ
  /-- The layout is `kStrided`. -/
  strided : Bool := true
  deviceType : ℤ
  deviceIndex : ℤ

variable {σ : Type*}

def isValidTensor (t : Tensor σ) : Bool :=
  t.defined && !t.isNested && !t.hasSymbolicSizesStrides

/-- The constructor of `TensorMetadata`. -/
def TensorMetadata.ofTensor (types : TypeMeta σ) (t : Tensor σ) : TensorMetadata where
  impl := t.impl
  ptr := t.storage.getD 0
  dtype := types.name t.scalarType
  dtypeSize := types.elementSize t.scalarType
  sizes := t.sizes
  strides := if t.strided then t.strides else []
  deviceType := t.deviceType
  deviceIndex := t.deviceIndex

/-! ### Inputs -/

inductive IValue (σ : Type*)
  | tensor (t : Tensor σ)
  | tensorList (ts : List (Tensor σ))
  | bool
  | int
  | double
  | complexDouble
  /-- A number that is not known yet. -/
  | symbolic
  | list (values : List (IValue σ))
  | string
  /-- Anything else. -/
  | none

namespace IValue

def isScalar : IValue σ → Bool
  | bool | int | double | complexDouble | symbolic => true
  | tensor _ | tensorList _ | list _ | string | none => false

end IValue

def parseTypeName (value : IValue σ) : Text :=
  match value with
  | .bool => "Bool".toList
  | .int => "Int".toList
  | .double => "Double".toList
  | .complexDouble => "Complex".toList
  | .tensor _ | .tensorList _ | .symbolic | .list _ | .string | .none => "Others".toList

def getTensorList (types : TypeMeta σ) (ts : List (Tensor σ)) : List TensorMetadata :=
  (ts.filter isValidTensor).map (TensorMetadata.ofTensor types)

/-- The `dtype` of a value. -/
def inputDtype (types : TypeMeta σ) : IValue σ → Text
  | .tensor t => if isValidTensor t then types.name t.scalarType else "None".toList
  | .tensorList _ => "TensorList".toList
  | .list [] => "ScalarList".toList
  | .list (value :: _) => if value.isScalar then "ScalarList".toList else "None".toList
  | value => if value.isScalar then "Scalar".toList else "None".toList

/-- One round of `parseInputShapesAndDtypes`. -/
def parseInput (types : TypeMeta σ) (reportDetails : Bool) (data : OpRangeData) (value : IValue σ) :
    OpRangeData :=
  let data :=
    match value with
    | .tensor t =>
      if isValidTensor t && reportDetails then
        { data with inputTensors := data.inputTensors ++ [TensorMetadata.ofTensor types t] }
      else data
    | .tensorList ts =>
      if reportDetails then { data with inputTensorlists := data.inputTensorlists ++ [getTensorList types ts] }
      else data
    | value =>
      if value.isScalar && reportDetails then
        { data with inputScalars := data.inputScalars ++ [parseTypeName value] }
      else data
  let shape :=
    match value with
    | .tensor t => if isValidTensor t then t.sizes else []
    | _ => []
  { data with
    inputDtypes := data.inputDtypes ++ [inputDtype types value]
    inputShapes := data.inputShapes ++ [shape] }

def parseInputShapesAndDtypes (types : TypeMeta σ) (inputs : List (IValue σ)) (data : OpRangeData)
    (reportDetails : Bool) : OpRangeData :=
  inputs.foldl (parseInput types reportDetails) data

/-! ### Operators -/

/-- What a `RecordFunction` and the thread say of an operator. -/
structure RecordFunction (σ : Type*) where
  clockTime : Int64
  seqNr : Int64
  processId : UInt64
  threadId : UInt64
  forwardThreadId : UInt64
  isAsync : Bool
  name : Text
  scope : UInt8
  inputs : List (IValue σ)
  /-- The lines of the call stack and the modules, if they are asked for. -/
  stack : List Text
  moduleHierarchy : List Text

structure ProfilerConfig where
  reportInputShapes : Bool
  withStack : Bool
  withModules : Bool
  profileMemory : Bool

def newOpEvent (fn : RecordFunction σ) : OpRangeData where
  startNs := fn.clockTime
  endNs := 0
  sequenceNumber := fn.seqNr
  processId := fn.processId
  startThreadId := fn.threadId
  endThreadId := 0
  forwardThreadId := fn.forwardThreadId
  isAsync := fn.isAsync
  name := fn.name

/-- `RecordScope::BACKWARD_FUNCTION`. -/
def backwardFunction : UInt8 := 1

/-- `report_details`. -/
def ProfilerConfig.reportDetails (config : ProfilerConfig) : Bool :=
  config.reportInputShapes && (config.withStack || config.withModules) && config.profileMemory

/-- The callback of an operator that begins. -/
def onOpStart (types : TypeMeta σ) (config : ProfilerConfig) (fn : RecordFunction σ) : OpRangeData :=
  let data := { newOpEvent fn with scope := fn.scope }
  let data :=
    if config.reportInputShapes then parseInputShapesAndDtypes types fn.inputs data config.reportDetails
    else data
  let data :=
    if config.withStack && fn.scope != backwardFunction then { data with stack := fn.stack } else data
  if config.withModules && fn.scope != backwardFunction then
    { data with moduleHierarchy := fn.moduleHierarchy }
  else data

end TorchNpu.Profiler
