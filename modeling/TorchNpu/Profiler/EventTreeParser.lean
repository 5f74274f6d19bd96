/-
  How the inputs of an operator are read back from their texts (`_event_tree_parser.py`, `_torch_op_bean.py`).

  `none` is an exception of Python, where a function may raise one; a `None` of Python is the `none` of an
  inner `Option`.
-/
import TorchNpu.Profiler.DataReporter

/-!
  How the analysis reads the records of the profiler (`_tlv_decoder.py` and the beans).

  `none` is an exception of Python.  A warning changes nothing.  A bean keeps what it unpacks from the bytes of
  fixed size, and the dictionary of the text fields; what it computes from them and from the configuration
  of the profiler is left out, apart from what is used of the inputs of an operator.
-/

namespace TorchNpu.Profiler

/-! ### `struct` -/

/-- The format characters `q`, `Q`, `b`, `B` and `?`. -/
inductive StructCode
  | int64
  | uint64
  | int8
  | uint8
  | bool

def StructCode.size : StructCode → ℕ
  | .int64 | .uint64 => 8
  | .int8 | .uint8 | .bool => 1

def StructCode.unpack (code : StructCode) (bytes : List UInt8) : ℤ :=
  match code with
  | .int64 | .int8 => Int.bmod (leDecode bytes) (256 ^ code.size)
  | .uint64 | .uint8 => leDecode bytes
  | .bool => if leDecode bytes = 0 then 0 else 1

/-- `Struct.unpack` of a format that begins with `<`. -/
def structUnpack : List StructCode → List UInt8 → Option (List ℤ)
  | [], bytes => if bytes.isEmpty then some [] else none
  | code :: codes, bytes =>
    if bytes.length < code.size then none
    else (structUnpack codes (bytes.drop code.size)).map (code.unpack (bytes.take code.size) :: ·)

/-! ### `TLVDecoder` -/

/-- The types and values of `tlv_list_decode`; a value that is not complete is lost.  Every round of the
loop takes at least six bytes, so `rounds` may be the number of bytes. -/
def tlvListDecodeAux : ℕ → List UInt8 → List (ℕ × List UInt8)
  | 0, _ => []
  | rounds + 1, bytes =>
    if bytes.length < 2 then []
    else
      let typeId := leDecode (bytes.take 2)
      let bytes := bytes.drop 2
      if bytes.length < 4 then []
      else
        let valueLen := leDecode (bytes.take 4)
        let bytes := bytes.drop 4
        if bytes.length < valueLen then []
        else (typeId, bytes.take valueLen) :: tlvListDecodeAux rounds (bytes.drop valueLen)

def tlvListDecode (bytes : List UInt8) : List (ℕ × List UInt8) :=
  tlvListDecodeAux bytes.length bytes

/-- `bytes.decode`, or `'N/A'` on a `UnicodeDecodeError`. -/
def bytesDecode (value : List UInt8) : Text :=
  match value.toByteArray.utf8Decode? with
  | some text => text.toList
  | none => ['N', '/', 'A']

/-- The dictionary of text fields. -/
def fieldDict (fields : List (ℕ × Text)) : ℕ → Option Text :=
  fields.foldl (fun dict field => Function.update dict field.1 (some field.2)) fun _ => none

/-- What is passed to a bean. -/
structure TlvFields where
  constantBytes : List UInt8
  originData : ℕ → Option Text

/-- `TLVDecoder.decode`; a record that is too short is skipped. -/
def tlvDecode {B : Type*} (classBean : TlvFields → Option B) (constantStructSize : ℕ) (bytes : List UInt8) :
    Option (List B) :=
  let records := (tlvListDecode bytes).map Prod.snd
  (records.filter fun record => constantStructSize ≤ record.length).mapM fun record =>
    classBean
      { constantBytes := record.take constantStructSize
        originData := fieldDict ((tlvListDecode (record.drop constantStructSize)).map fun field =>
          (field.1, bytesDecode field.2)) }

/-! ### Beans -/

structure Bean where
  constantData : List ℤ
  originData : ℕ → Option Text

/-- The files of `FILE_BEAN_MAP` that consist of records with text fields. -/
inductive FileTag
  | torchOp
  | opMark
  | memory
  | pythonTracerHash
  | paramTensorInfo

namespace FileTag

/-- `CONSTANT_STRUCT` of the bean. -/
def constantStruct : FileTag → List StructCode
  | .torchOp => [.int64, .int64, .int64, .uint64, .uint64, .uint64, .uint64, .uint8, .bool]
  | .opMark => [.int64, .uint64, .uint64, .uint64, .uint64]
  | .memory => [.int64, .int64, .int64, .int64, .int64, .int64, .int64, .int8, .int8, .uint8, .uint8, .uint8,
      .uint64, .uint64]
  | .pythonTracerHash | .paramTensorInfo => [.uint64]

/-- `struct_size`. -/
def structSize : FileTag → ℕ
  | .torchOp => 58
  | .opMark => 40
  | .memory => 77
  | .pythonTracerHash | .paramTensorInfo => 8

/-- The values of `_OpMarkCategoryEnum`. -/
def opMarkCategories : List ℤ :=
  [0, 1, 2, 3]

/-- The constructor of the bean.  `OpMarkBean` looks its category up, which is a `ValueError` for any other
value. -/
def bean (tag : FileTag) (data : TlvFields) : Option Bean := do
  let constantData ← structUnpack tag.constantStruct data.constantBytes
  match tag with
  | .opMark =>
    if constantData.getD 1 0 ∈ opMarkCategories then return ⟨constantData, data.originData⟩ else none
  | .torchOp | .memory | .pythonTracerHash | .paramTensorInfo => return ⟨constantData, data.originData⟩

/-- `get_file_data_by_tag` for a file with the bytes `bytes`. -/
def getFileData (tag : FileTag) (bytes : List UInt8) : Option (List Bean) :=
  tlvDecode tag.bean tag.structSize bytes

/-- The records that are reported to the file. -/
abbrev Data : FileTag → Type
  | .torchOp => OpRangeData
  | .opMark => OpMarkData
  | .memory => MemoryData
  | .pythonTracerHash => PythonTracerHashData
  | .paramTensorInfo => ParamTensorData

def encode : (tag : FileTag) → tag.Data → List UInt8
  | .torchOp => OpRangeData.encode
  | .opMark => OpMarkData.encode
  | .memory => MemoryData.encode
  | .pythonTracerHash => PythonTracerHashData.encode
  | .paramTensorInfo => ParamTensorData.encode

end FileTag

end TorchNpu.Profiler

namespace TorchNpu.Profiler

/-! ### `TorchOpBean` -/

namespace TorchOpBean

variable (originData : ℕ → Option Text)

/-- The value of `INPUT_DTYPES` in `args`. -/
def inputDtypes : Option Text :=
  (originData 3).map fun value => if value.isEmpty then [] else Text.replace ';' [';', '\r', '\n'] value

/-- The values of `inputs`. -/
def inputTensors : Option Text := originData 5
def inputTensorlists : Option Text := originData 6
def inputScalars : Option Text := originData 7

end TorchOpBean

namespace EventTreeParser

/-! ### Tensors -/

structure TensorMetadata where
  impl : ℤ
  ptr : Option ℤ
  dtype : Text
  dtypeSize : ℤ
  sizes : List ℤ
  strides : List ℤ
  deviceType : ℤ
  deviceIndex : ℤ
  deriving DecidableEq

/-- `int(text, BASE_16)`, or `None` for an empty text. -/
def parsePtr (text : Text) : Option (Option ℤ) :=
  if text.isEmpty then some none else (Text.parseInt 16 text).map some

/-- `list(map(int, text.split(',')))`, or `[]` for an empty text. -/
def parseInts (text : Text) : Option (List ℤ) :=
  if text.isEmpty then some [] else (Text.split [','] text).mapM (Text.parseInt 10)

def parseTensorMetadata (tensorStr : Text) : Option (Option TensorMetadata) :=
  match Text.split [';'] tensorStr with
  | [impl, ptr, dtype, dtypeSize, sizes, strides, deviceType, deviceIndex] => do
    let impl ← Text.parseInt 16 impl
    let ptr ← parsePtr ptr
    let dtypeSize ← Text.parseInt 10 dtypeSize
    let sizes ← parseInts sizes
    let strides ← parseInts strides
    let deviceType ← Text.parseInt 10 deviceType
    let deviceIndex ← Text.parseInt 10 deviceIndex
    return some { impl, ptr, dtype, dtypeSize, sizes, strides, deviceType, deviceIndex }
  | _ => some none

/-! ### Inputs -/

/-- An element of `inputs`. -/
inductive Input
  | tensor (t : Option TensorMetadata)
  | tensorList (ts : List (Option TensorMetadata))
  | text (text : Text)
  deriving DecidableEq

/-- The types that are no types of elements of a tensor. -/
def otherTypes : List Text :=
  ["None".toList, "Scalar".toList, "ScalarList".toList, "TensorList".toList]

/-- `get_str_from_list`. -/
def getStrFromList (strList : List Text) (index : ℕ) : Text :=
  strList.getD index []

/-- The pieces of a text that there may be. -/
def inputTexts (sep : Text) (text : Option Text) : List Text :=
  match text with
  | some text => Text.split sep (Text.strip text)
  | none => []

/-- The elements of a tensor list. -/
def parseTensorList (inputTensorlist : Text) : Option (List (Option TensorMetadata)) :=
  (Text.split [')'] (Text.rstrip ')' (Text.strip inputTensorlist))).mapM parseTensorMetadata

local instance inputsLawful : LawfulBEq Text := inferInstance

/-- The loop of `parse_input_from_string`. -/
def parseInputs (inputTensors inputTensorlists inputScalars : List Text) :
    List Text → (tensorsIndex tensorlistsIndex scalarsIndex : ℕ) → Option (List Input)
  | [], _, _, _ => some []
  | t :: types, tensorsIndex, tensorlistsIndex, scalarsIndex =>
    if t ∉ otherTypes then do
      let tensor ← parseTensorMetadata (getStrFromList inputTensors tensorsIndex)
      let inputs ← parseInputs inputTensors inputTensorlists inputScalars types (tensorsIndex + 1)
        tensorlistsIndex scalarsIndex
      return .tensor tensor :: inputs
    else if t = "TensorList".toList then do
      let tensorList ← parseTensorList (getStrFromList inputTensorlists tensorlistsIndex)
      let inputs ← parseInputs inputTensors inputTensorlists inputScalars types tensorsIndex
        (tensorlistsIndex + 1) scalarsIndex
      return .tensorList tensorList :: inputs
    else if t = "Scalar".toList then do
      let inputs ← parseInputs inputTensors inputTensorlists inputScalars types tensorsIndex
        tensorlistsIndex (scalarsIndex + 1)
      return .text (getStrFromList inputScalars scalarsIndex) :: inputs
    else do
      let inputs ← parseInputs inputTensors inputTensorlists inputScalars types tensorsIndex
        tensorlistsIndex scalarsIndex
      return .text t :: inputs

def parseInputFromString (types tensors tensorlists scalars : Option Text) : Option (List Input) :=
  parseInputs (inputTexts [')'] tensors) (inputTexts ['\x7d'] tensorlists) (inputTexts [';'] scalars)
    (inputTexts [';', '\r', '\n'] types) 0 0 0

/-- The inputs of an `_ExtraFields_TorchOp`. -/
def torchOpInputs (originData : ℕ → Option Text) : Option (List Input) :=
  parseInputFromString (TorchOpBean.inputDtypes originData) (TorchOpBean.inputTensors originData)
    (TorchOpBean.inputTensorlists originData) (TorchOpBean.inputScalars originData)

end EventTreeParser

end TorchNpu.Profiler
