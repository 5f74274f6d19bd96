/-
  How the profiler encodes its records (`data_reporter.h`, `data_reporter.cpp`).

  A record is a type, a length and a value; the value has the fields of fixed size first and then text
  fields, which are again type, length and value.  Lists and tensors are texts with separators.

  A `std::string` that is valid UTF-8 is the text that it encodes.  Addresses and sizes are natural numbers;
  a null pointer is 0.  The entries of an `unordered_map` are in the order in which it has them, with their
  values as they are printed.
-/
import TorchNpu.Lib.LittleEndian
import TorchNpu.Lib.Text

namespace TorchNpu.Profiler

/-! ### Bytes -/

/-- The bytes of a `std::string`. -/
def utf8 (text : Text) : List UInt8 :=
  text.flatMap String.utf8EncodeChar

/-- `encodeFixedData` for values of `size` bytes, with `static_cast<size_t>`. -/
def encodeFixedData (size : ℕ) (datas : List ℤ) : List UInt8 :=
  datas.flatMap fun data => leEncode size (data % 0x10000000000000000).toNat

/-- Type, length and value; the length is of type `uint32_t`. -/
def encodeTlv (type : ℕ) (value : List UInt8) : List UInt8 :=
  leEncode 2 type ++ leEncode 4 value.length ++ value

def encodeStrData (type : ℕ) (data : Text) : List UInt8 :=
  encodeTlv type (utf8 data)

/-! ### Texts -/

/-- The text of `encodeStrArrayData`. -/
def encodeStrArray (datas : List Text) : Text :=
  (datas.flatMap fun str => str ++ [';']).dropLast

/-- The text of `encodeMapData`. -/
def encodeMap (datas : List (Text × Text)) : Text :=
  (datas.flatMap fun entry => entry.1 ++ [':'] ++ entry.2 ++ [';']).dropLast

/-- `VectorToString`. -/
def vectorToString (vec : List ℤ) : Text :=
  (vec.flatMap fun v => Text.ofInt v ++ [',']).dropLast

/-- The text of `encode2DIntegerMatrixDatas`. -/
def encode2DIntegerMatrix (datas : List (List ℤ)) : Text :=
  (datas.flatMap fun tensor => vectorToString tensor ++ [';']).dropLast

structure TensorMetadata where
  impl : ℕ
  ptr : ℕ
  dtype : Text
  dtypeSize : ℕ
  sizes : List ℤ
  strides : List ℤ
  deviceType : ℤ
  deviceIndex : ℤ
  deriving DecidableEq

/-- The fields of `encodeTensor`. -/
def tensorFields (t : TensorMetadata) : List Text :=
  [Text.ofPointer t.impl, if t.ptr = 0 then [] else Text.ofPointer t.ptr, t.dtype, Text.ofNat t.dtypeSize,
    vectorToString t.sizes, vectorToString t.strides, Text.ofInt t.deviceType, Text.ofInt t.deviceIndex]

/-- `encodeTensor`: there is no delimiter after the last field. -/
def encodeTensor (t : TensorMetadata) : Text :=
  List.intercalate [';'] (tensorFields t)

/-- The text of `encodeTensors`. -/
def encodeTensors (tensors : List TensorMetadata) : Text :=
  (tensors.flatMap fun tensor => encodeTensor tensor ++ [')']).dropLast

/-- One list of `encodeTensorLists`. -/
def encodeTensorList (tensors : List TensorMetadata) : Text :=
  tensors.flatMap fun tensor => encodeTensor tensor ++ [')']

/-- The text of `encodeTensorLists`. -/
def encodeTensorLists (tensorlists : List (List TensorMetadata)) : Text :=
  (tensorlists.flatMap fun tensorlist => encodeTensorList tensorlist ++ ['}']).dropLast

structure ModuleParam where
  name : Text
  metadata : TensorMetadata
  grad : Option TensorMetadata

structure OptimizerParam where
  metadata : TensorMetadata
  grad : Option TensorMetadata
  state : List (Text × TensorMetadata)

/-- The text of a gradient, if there is one. -/
def encodeGrad : Option TensorMetadata → Text
  | none => []
  | some grad => encodeTensor grad

/-- The text of `encodeModuleParams`. -/
def encodeModuleParams (params : List ModuleParam) : Text :=
  (params.flatMap fun param =>
    param.name ++ [')'] ++ encodeTensor param.metadata ++ [')'] ++ encodeGrad param.grad ++ ['}']).dropLast

/-- The text of `encodeOptimizerParams`. -/
def encodeOptimizerParams (params : List OptimizerParam) : Text :=
  (params.flatMap fun param =>
    encodeTensor param.metadata ++ [')'] ++ encodeGrad param.grad ++ [')'] ++
      (param.state.flatMap fun s => s.1 ++ ['>'] ++ encodeTensor s.2 ++ [']']) ++ ['}']).dropLast

/-! ### Records -/

/-- A text field with its type, unless the data are empty. -/
def optionalField {α : Type*} (type : ℕ) (encode : List α → Text) (datas : List α) : List (ℕ × Text) :=
  if datas.isEmpty then [] else [(type, encode datas)]

/-- The bytes of text fields. -/
def encodeFields (fields : List (ℕ × Text)) : List UInt8 :=
  fields.flatMap fun field => encodeStrData field.1 field.2

structure OpRangeData where
  startNs : Int64
  endNs : Int64
  sequenceNumber : Int64
  processId : UInt64
  startThreadId : UInt64
  endThreadId : UInt64
  forwardThreadId : UInt64
  isAsync : Bool := false
  name : Text
  scope : UInt8 := 0
  inputDtypes : List Text := []
  inputShapes : List (List ℤ) := []
  inputTensors : List TensorMetadata := []
  inputTensorlists : List (List TensorMetadata) := []
  inputScalars : List Text := []
  stack : List Text := []
  moduleHierarchy : List Text := []
  extraArgs : List (Text × Text) := []

namespace OpRangeData

variable (data : OpRangeData)

def fixed : List UInt8 :=
  encodeFixedData 8 [data.startNs.toInt, data.endNs.toInt, data.sequenceNumber.toInt] ++
    encodeFixedData 8 [data.processId.toNat, data.startThreadId.toNat, data.endThreadId.toNat,
      data.forwardThreadId.toNat] ++
    encodeFixedData 1 [data.scope.toNat] ++ [if data.isAsync then 1 else 0]

def fields : List (ℕ × Text) :=
  [(2, data.name)] ++ optionalField 3 encodeStrArray data.inputDtypes ++
    optionalField 4 encode2DIntegerMatrix data.inputShapes ++
    optionalField 5 encodeTensors data.inputTensors ++
    optionalField 6 encodeTensorLists data.inputTensorlists ++
    optionalField 7 encodeStrArray data.inputScalars ++ optionalField 8 encodeStrArray data.stack ++
    optionalField 9 encodeStrArray data.moduleHierarchy ++ optionalField 10 encodeMap data.extraArgs

def encode : List UInt8 :=
  encodeTlv 1 (data.fixed ++ encodeFields data.fields)

end OpRangeData

structure OpMarkData where
  timeNs : Int64
  category : UInt64
  correlationId : UInt64
  threadId : UInt64
  processId : UInt64
  name : Text

namespace OpMarkData

variable (data : OpMarkData)

def fixed : List UInt8 :=
  encodeFixedData 8 [data.timeNs.toInt] ++
    encodeFixedData 8 [data.category.toNat, data.correlationId.toNat, data.threadId.toNat,
      data.processId.toNat]

def fields : List (ℕ × Text) :=
  [(1, data.name)]

def encode : List UInt8 :=
  encodeTlv 2 (data.fixed ++ encodeFields data.fields)

end OpMarkData

structure MemoryData where
  ptr : Int64
  timeNs : Int64
  allocSize : Int64
  totalAllocated : Int64
  totalReserved : Int64
  totalActive : Int64
  streamPtr : Int64
  deviceType : Int8
  deviceIndex : Int8
  componentType : UInt8
  dataType : UInt8
  allocatorType : UInt8
  threadId : UInt64
  processId : UInt64

namespace MemoryData

variable (data : MemoryData)

def fixed : List UInt8 :=
  encodeFixedData 8 [data.ptr.toInt, data.timeNs.toInt, data.allocSize.toInt, data.totalAllocated.toInt,
      data.totalReserved.toInt, data.totalActive.toInt, data.streamPtr.toInt] ++
    encodeFixedData 1 [data.deviceType.toInt, data.deviceIndex.toInt] ++
    encodeFixedData 1 [data.componentType.toNat, data.dataType.toNat, data.allocatorType.toNat] ++
    encodeFixedData 8 [data.threadId.toNat, data.processId.toNat]

def encode : List UInt8 :=
  encodeTlv 3 data.fixed

end MemoryData

/-- An item of `hash_data`, or of the two lists of `ParamTensorData`: a key and one text field. -/
structure KeyedText where
  key : UInt64
  type : ℕ
  text : Text

namespace KeyedText

variable (item : KeyedText)

def fixed : List UInt8 :=
  encodeFixedData 8 [item.key.toNat]

def fields : List (ℕ × Text) :=
  [(item.type, item.text)]

def encode (dataType : ℕ) : List UInt8 :=
  encodeTlv dataType (item.fixed ++ encodeFields item.fields)

end KeyedText

structure PythonTracerHashData where
  hashData : List (UInt64 × Text)

namespace PythonTracerHashData

def items (data : PythonTracerHashData) : List KeyedText :=
  data.hashData.map fun item => ⟨item.1, 1, item.2⟩

def encode (data : PythonTracerHashData) : List UInt8 :=
  data.items.flatMap fun item => item.encode 4

end PythonTracerHashData

structure ParamTensorData where
  moduleParamData : List (UInt64 × List ModuleParam)
  optimizerParamData : List (UInt64 × List OptimizerParam)

namespace ParamTensorData

def items (data : ParamTensorData) : List KeyedText :=
  (data.moduleParamData.map fun item => ⟨item.1, 1, encodeModuleParams item.2⟩) ++
    data.optimizerParamData.map fun item => ⟨item.1, 2, encodeOptimizerParams item.2⟩

def encode (data : ParamTensorData) : List UInt8 :=
  data.items.flatMap fun item => item.encode 5

end ParamTensorData

end TorchNpu.Profiler
