/-
  What the analysis reads is what the profiler has written.

  A record is packed values and text fields.  `structUnpack_pack` gets the values back and
  `tlvListDecodeAux_encodeTlvs` the fields, where the last one may have been cut off; `getFileData_records` puts
  the two levels together.
-/
import TorchNpu.Profiler.EventTreeParser
import Mathlib.Data.List.Forall2

namespace TorchNpu.Profiler

/-! ### `struct` -/

/-- The values that a code can hold. -/
def StructCode.Holds (code : StructCode) (value : ℤ) : Prop :=
  match code with
  | .int64 => -2 ^ 63 ≤ value ∧ value < 2 ^ 63
  | .uint64 => 0 ≤ value ∧ value < 2 ^ 64
  | .int8 => -2 ^ 7 ≤ value ∧ value < 2 ^ 7
  | .uint8 => 0 ≤ value ∧ value < 2 ^ 8
  | .bool => value = 0 ∨ value = 1

/-- The bytes of values. -/
def structPack (codes : List StructCode) (values : List ℤ) : List UInt8 :=
  (codes.zip values).flatMap fun item => encodeFixedData item.1.size [item.2]

theorem length_encodeFixedData (size : ℕ) (datas : List ℤ) :
    (encodeFixedData size datas).length = datas.length * size := by
  induction datas with
  | nil => simp [encodeFixedData]
  | cons data datas ih =>
    have happend : encodeFixedData size (data :: datas) =
        leEncode size (data % 0x10000000000000000).toNat ++ encodeFixedData size datas := rfl
    rw [happend, List.length_append, length_leEncode, ih, List.length_cons]
    ring

theorem StructCode.unpack_encodeFixedData {code : StructCode} {value : ℤ} (h : code.Holds value) :
    code.unpack (encodeFixedData code.size [value]) = value := by
  have hbytes : encodeFixedData code.size [value] =
      leEncode code.size (value % 0x10000000000000000).toNat := List.append_nil _
  rw [hbytes]
  cases code with
  | int64 =>
    simp only [StructCode.Holds] at h
    simp only [StructCode.unpack, StructCode.size, leDecode_leEncode]
    rw [Int.bmod_def]
    split_ifs <;> omega
  | uint64 =>
    simp only [StructCode.Holds] at h
    simp only [StructCode.unpack, StructCode.size, leDecode_leEncode]
    omega
  | int8 =>
    simp only [StructCode.Holds] at h
    simp only [StructCode.unpack, StructCode.size, leDecode_leEncode]
    rw [Int.bmod_def]
    split_ifs <;> omega
  | uint8 =>
    simp only [StructCode.Holds] at h
    simp only [StructCode.unpack, StructCode.size, leDecode_leEncode]
    omega
  | bool =>
    simp only [StructCode.Holds] at h
    simp only [StructCode.unpack, StructCode.size, leDecode_leEncode]
    rcases h with rfl | rfl <;> rfl

theorem structUnpack_pack {codes : List StructCode} {values : List ℤ}
    (h : List.Forall₂ StructCode.Holds codes values) :
    structUnpack codes (structPack codes values) = some values := by
  induction h with
  | nil => rfl
  | @cons code value codes values hvalue h ih =>
    have hlength : (encodeFixedData code.size [value]).length = code.size := by
      rw [length_encodeFixedData, List.length_singleton, Nat.one_mul]
    have hpack : structPack (code :: codes) (value :: values) =
        encodeFixedData code.size [value] ++ structPack codes values := rfl
    have hge : ¬ (encodeFixedData code.size [value] ++ structPack codes values).length < code.size := by
      rw [List.length_append, hlength]
      omega
    rw [hpack, structUnpack, if_neg hge, List.take_left' hlength, List.drop_left' hlength, ih,
      Option.map_some, StructCode.unpack_encodeFixedData hvalue]

theorem length_structPack {codes : List StructCode} {values : List ℤ}
    (h : List.Forall₂ StructCode.Holds codes values) :
    (structPack codes values).length = (codes.map StructCode.size).sum := by
  induction h with
  | nil => rfl
  | @cons code value codes values _ h ih =>
    have hpack : structPack (code :: codes) (value :: values) =
        encodeFixedData code.size [value] ++ structPack codes values := rfl
    rw [hpack, List.length_append, length_encodeFixedData, ih, List.map_cons, List.sum_cons]
    simp

/-! ### Types, lengths and values -/

/-- A type and a value that `encodeTlv` can write. -/
def TlvFits (item : ℕ × List UInt8) : Prop :=
  item.1 < 2 ^ 16 ∧ item.2.length < 2 ^ 32

def encodeTlvs (items : List (ℕ × List UInt8)) : List UInt8 :=
  items.flatMap fun item => encodeTlv item.1 item.2

theorem length_encodeTlv (type : ℕ) (value : List UInt8) :
    (encodeTlv type value).length = 6 + value.length := by
  simp only [encodeTlv, List.length_append, length_leEncode]

theorem take_encodeTlv (type : ℕ) (value rest : List UInt8) :
    (encodeTlv type value ++ rest).take 2 = leEncode 2 type := by
  rw [encodeTlv, List.append_assoc, List.append_assoc]
  exact List.take_left' (length_leEncode 2 type)

theorem drop_encodeTlv (type : ℕ) (value rest : List UInt8) :
    (encodeTlv type value ++ rest).drop 2 = leEncode 4 value.length ++ (value ++ rest) := by
  rw [encodeTlv, List.append_assoc, List.append_assoc]
  exact List.drop_left' (length_leEncode 2 type)

/-- One round of the loop. -/
theorem tlvListDecodeAux_encodeTlv {type rounds : ℕ} {value : List UInt8} (h : TlvFits (type, value))
    (rest : List UInt8) : tlvListDecodeAux (rounds + 1) (encodeTlv type value ++ rest) =
      (type, value) :: tlvListDecodeAux rounds rest := by
  obtain ⟨htype, hvalue⟩ := h
  have hlength : ¬ (encodeTlv type value ++ rest).length < 2 := by
    rw [List.length_append, length_encodeTlv]
    omega
  have hlength4 : ¬ (leEncode 4 value.length ++ (value ++ rest)).length < 4 := by
    rw [List.length_append, length_leEncode]
    omega
  have hlengthValue : ¬ (value ++ rest).length < value.length := by
    rw [List.length_append]
    omega
  rw [tlvListDecodeAux, if_neg hlength]
  simp only [take_encodeTlv, drop_encodeTlv, if_neg hlength4, List.take_left' (length_leEncode 4 _),
    List.drop_left' (length_leEncode 4 _)]
  rw [leDecode_leEncode_of_lt (by omega), leDecode_leEncode_of_lt (by omega), if_neg hlengthValue,
    List.take_left, List.drop_left]

/-- A value that is not complete is lost. -/
theorem tlvListDecodeAux_cut {type rounds : ℕ} {value tail : List UInt8} (h : TlvFits (type, value))
    (htail : tail <+: encodeTlv type value) (hlt : tail.length < (encodeTlv type value).length) :
    tlvListDecodeAux rounds tail = [] := by
  cases rounds with
  | zero => rfl
  | succ rounds =>
    obtain ⟨missing, hmissing⟩ := htail
    rw [length_encodeTlv] at hlt
    rw [tlvListDecodeAux]
    dsimp only
    split_ifs with h2 h4 hvalue
    · rfl
    · rfl
    · rfl
    · -- With the whole length there would be the whole value.
      exfalso
      rw [List.length_drop] at h4
      have hdrop : (tail.drop 2).take 4 = leEncode 4 value.length := by
        have hall := drop_encodeTlv type value []
        rw [List.append_nil, List.append_nil, ← hmissing, List.drop_append_of_le_length (by omega)] at hall
        have htake := congrArg (List.take 4) hall
        rwa [List.take_left' (length_leEncode 4 _), List.take_append_of_le_length] at htake
        rw [List.length_drop]
        omega
      rw [hdrop, leDecode_leEncode_of_lt h.2, List.length_drop, List.length_drop] at hvalue
      omega

/-- What is read of items and of the beginning of another one. -/
theorem tlvListDecodeAux_encodeTlvs {items : List (ℕ × List UInt8)} {tail : List UInt8} {rounds : ℕ}
    (h : ∀ item ∈ items, TlvFits item) (htail : ∀ rounds, tlvListDecodeAux rounds tail = [])
    (hrounds : (encodeTlvs items ++ tail).length ≤ rounds) :
    tlvListDecodeAux rounds (encodeTlvs items ++ tail) = items := by
  induction items generalizing rounds with
  | nil => exact htail rounds
  | cons item items ih =>
    rw [List.forall_mem_cons] at h
    have happend : encodeTlvs (item :: items) ++ tail =
        encodeTlv item.1 item.2 ++ (encodeTlvs items ++ tail) := List.append_assoc ..
    rw [happend, List.length_append, length_encodeTlv] at hrounds
    obtain ⟨rounds, rfl⟩ : ∃ r, rounds = r + 1 := ⟨rounds - 1, by omega⟩
    rw [happend, tlvListDecodeAux_encodeTlv h.1, ih h.2 (by omega)]

theorem tlvListDecode_encodeTlvs {items : List (ℕ × List UInt8)} (h : ∀ item ∈ items, TlvFits item) :
    tlvListDecode (encodeTlvs items) = items := by
  have hread := @tlvListDecodeAux_encodeTlvs items [] _ h (fun r => by cases r <;> rfl) (Nat.le_refl _)
  rwa [List.append_nil] at hread

/-! ### Text fields -/

theorem bytesDecode_utf8 (text : Text) : bytesDecode (utf8 text) = text := by
  have hbytes : (utf8 text).toByteArray = text.utf8Encode := rfl
  rw [bytesDecode, hbytes, List.utf8Decode?_utf8Encode]

theorem fieldDict_append (fields : List (ℕ × Text)) (field : ℕ × Text) :
    fieldDict (fields ++ [field]) = Function.update (fieldDict fields) field.1 (some field.2) := by
  simp [fieldDict, List.foldl_append]

theorem fieldDict_eq_none {fields : List (ℕ × Text)} {type : ℕ} (h : type ∉ fields.map Prod.fst) :
    fieldDict fields type = none := by
  induction fields using List.reverseRecOn with
  | nil => rfl
  | append_singleton fields field ih =>
    rw [List.map_append, List.mem_append, not_or, List.map_singleton, List.mem_singleton] at h
    rw [fieldDict_append, Function.update_of_ne h.2, ih h.1]

theorem fieldDict_of_mem {fields : List (ℕ × Text)} (h : (fields.map Prod.fst).Nodup) {field : ℕ × Text}
    (hfield : field ∈ fields) : fieldDict fields field.1 = some field.2 := by
  induction fields using List.reverseRecOn with
  | nil => cases hfield
  | append_singleton fields last ih =>
    rw [List.map_append, List.map_singleton, List.nodup_append] at h
    rw [fieldDict_append]
    rw [List.mem_append, List.mem_singleton] at hfield
    rcases hfield with hfield | rfl
    · have hne : field.1 ≠ last.1 :=
        h.2.2 field.1 (List.mem_map_of_mem hfield) last.1 (List.mem_singleton_self _)
      rw [Function.update_of_ne hne, ih h.1 hfield]
    · rw [Function.update_self]

/-! ### Records -/

/-- A record: the values of fixed size and the text fields. -/
structure Record where
  constants : List ℤ
  fields : List (ℕ × Text)

/-- The bean has the values and the text fields of the record, and no others. -/
structure Record.Agrees (record : Record) (bean : Bean) : Prop where
  constants : bean.constantData = record.constants
  fields : ∀ field ∈ record.fields, bean.originData field.1 = some field.2
  noOthers : ∀ type, type ∉ record.fields.map Prod.fst → bean.originData type = none

namespace FileTag

variable (tag : FileTag)

/-- `FwkDataType`. -/
def dataType : FileTag → ℕ
  | .torchOp => 1
  | .opMark => 2
  | .memory => 3
  | .pythonTracerHash => 4
  | .paramTensorInfo => 5

/-- The value of a record. -/
def payload (record : Record) : List UInt8 :=
  structPack tag.constantStruct record.constants ++ encodeFields record.fields

def encodeRecord (record : Record) : List UInt8 :=
  encodeTlv tag.dataType (tag.payload record)

/-- The records of what is reported. -/
def records : (tag : FileTag) → tag.Data → List Record
  | .torchOp, data => [⟨[data.startNs.toInt, data.endNs.toInt, data.sequenceNumber.toInt,
      data.processId.toNat, data.startThreadId.toNat, data.endThreadId.toNat, data.forwardThreadId.toNat,
      data.scope.toNat, if data.isAsync then 1 else 0], data.fields⟩]
  | .opMark, data => [⟨[data.timeNs.toInt, data.category.toNat, data.correlationId.toNat,
      data.threadId.toNat, data.processId.toNat], data.fields⟩]
  | .memory, data => [⟨[data.ptr.toInt, data.timeNs.toInt, data.allocSize.toInt, data.totalAllocated.toInt,
      data.totalReserved.toInt, data.totalActive.toInt, data.streamPtr.toInt, data.deviceType.toInt,
      data.deviceIndex.toInt, data.componentType.toNat, data.dataType.toNat, data.allocatorType.toNat,
      data.threadId.toNat, data.processId.toNat], []⟩]
  | .pythonTracerHash, data =>
    (PythonTracerHashData.items data).map fun item => ⟨[item.key.toNat], item.fields⟩
  | .paramTensorInfo, data =>
    (ParamTensorData.items data).map fun item => ⟨[item.key.toNat], item.fields⟩

/-- The value of every record has a length of type `uint32_t`. -/
def Small (data : tag.Data) : Prop :=
  ∀ record ∈ tag.records data, (tag.payload record).length < 2 ^ 32

/-- The category of an `OpMarkData` is one of the four that there are. -/
def Known : (tag : FileTag) → tag.Data → Prop
  | .opMark, data => data.category < 4
  | .torchOp, _ | .memory, _ | .pythonTracerHash, _ | .paramTensorInfo, _ => True

/-- What the decoder can do with a record. -/
structure Decodable (record : Record) : Prop where
  holds : List.Forall₂ StructCode.Holds tag.constantStruct record.constants
  nodup : (record.fields.map Prod.fst).Nodup
  types : ∀ field ∈ record.fields, field.1 < 2 ^ 16
  small : (tag.payload record).length < 2 ^ 32
  category : tag = .opMark → record.constants.getD 1 0 ∈ opMarkCategories

variable {tag}

theorem sum_constantStruct : (tag.constantStruct.map StructCode.size).sum = tag.structSize := by
  cases tag <;> rfl

theorem length_le_encodeFields {fields : List (ℕ × Text)} {field : ℕ × Text} (h : field ∈ fields) :
    (utf8 field.2).length ≤ (encodeFields fields).length := by
  obtain ⟨before, after, rfl⟩ := List.append_of_mem h
  simp only [encodeFields, List.flatMap_append, List.flatMap_cons, List.length_append, encodeStrData,
    length_encodeTlv]
  omega

/-- The text fields of a record are read as they were written. -/
theorem Decodable.fields {record : Record} (h : tag.Decodable record) :
    (tlvListDecode (encodeFields record.fields)).map (fun field => (field.1, bytesDecode field.2)) =
      record.fields := by
  have hencode : encodeFields record.fields =
      encodeTlvs (record.fields.map fun field => (field.1, utf8 field.2)) := by
    simp only [encodeFields, encodeTlvs, encodeStrData, List.flatMap_map]
  rw [hencode, tlvListDecode_encodeTlvs, List.map_map]
  · have hid : ((fun field : ℕ × List UInt8 => (field.1, bytesDecode field.2)) ∘
        fun field : ℕ × Text => (field.1, utf8 field.2)) = id := by
      funext field
      simp [bytesDecode_utf8]
    rw [hid, List.map_id]
  · intro item hitem
    obtain ⟨field, hfield, rfl⟩ := List.mem_map.mp hitem
    refine ⟨h.types field hfield, ?_⟩
    have hsmall := h.small
    have hle := length_le_encodeFields hfield
    rw [payload, List.length_append] at hsmall
    show (utf8 field.2).length < 2 ^ 32
    omega

/-- The bean of a record. -/
def beanOf (record : Record) : Bean :=
  ⟨record.constants, fieldDict record.fields⟩

theorem Decodable.agrees {record : Record} (h : tag.Decodable record) :
    record.Agrees (beanOf record) where
  constants := rfl
  fields _ hfield := fieldDict_of_mem h.nodup hfield
  noOthers _ htype := fieldDict_eq_none htype

theorem Decodable.bean {record : Record} (h : tag.Decodable record) :
    tag.bean ⟨structPack tag.constantStruct record.constants, fieldDict record.fields⟩ =
      some (beanOf record) := by
  have hunpack := structUnpack_pack h.holds
  simp only [FileTag.bean, hunpack, Option.bind_eq_bind, Option.bind_some]
  cases tag with
  | opMark => exact if_pos (h.category rfl)
  | torchOp | memory | pythonTracerHash | paramTensorInfo => rfl

/-- Reading the records that have been found. -/
theorem mapM_records {records : List Record} (h : ∀ record ∈ records, tag.Decodable record) :
    ((records.map tag.payload).filter fun record => tag.structSize ≤ record.length).mapM (fun record =>
      tag.bean
        { constantBytes := record.take tag.structSize
          originData := fieldDict ((tlvListDecode (record.drop tag.structSize)).map fun field =>
            (field.1, bytesDecode field.2)) }) = some (records.map beanOf) := by
  induction records with
  | nil => rfl
  | cons record records ih =>
    rw [List.forall_mem_cons] at h
    have hlength : (structPack tag.constantStruct record.constants).length = tag.structSize := by
      rw [length_structPack h.1.holds, sum_constantStruct]
    have hlong : tag.structSize ≤ (tag.payload record).length := by
      rw [payload, List.length_append, hlength]
      omega
    rw [List.map_cons, List.filter_cons, if_pos (decide_eq_true hlong), List.mapM_cons, ih h.2]
    rw [payload, List.take_left' hlength, List.drop_left' hlength, h.1.fields, h.1.bean]
    rfl

/-! ### Files -/

/-- The records that are complete in the first `n` bytes. -/
def wholeRecords (tag : FileTag) : List Record → ℕ → List Record
  | [], _ => []
  | record :: records, n =>
    if (tag.encodeRecord record).length ≤ n then
      record :: wholeRecords tag records (n - (tag.encodeRecord record).length)
    else []

theorem wholeRecords_subset {records : List Record} {n : ℕ} {record : Record}
    (h : record ∈ wholeRecords tag records n) : record ∈ records := by
  induction records generalizing n with
  | nil => exact h
  | cons first records ih =>
    rw [wholeRecords] at h
    split_ifs at h
    · rcases List.mem_cons.mp h with h | h
      · exact h ▸ List.mem_cons_self
      · exact List.mem_cons_of_mem _ (ih h)
    · cases h

theorem wholeRecords_of_length_le {records : List Record} {n : ℕ}
    (h : (records.flatMap tag.encodeRecord).length ≤ n) : wholeRecords tag records n = records := by
  induction records generalizing n with
  | nil => rfl
  | cons record records ih =>
    rw [List.flatMap_cons, List.length_append] at h
    rw [wholeRecords, if_pos (by omega), ih (by omega)]

theorem dataType_lt : tag.dataType < 2 ^ 16 := by
  cases tag <;> decide

theorem Decodable.tlvFits {record : Record} (h : tag.Decodable record) :
    TlvFits (tag.dataType, tag.payload record) :=
  ⟨dataType_lt, h.small⟩

/-- The first bytes of a file are records that are complete, and something that is lost. -/
theorem take_records {records : List Record} (h : ∀ record ∈ records, tag.Decodable record) (n : ℕ) :
    ∃ tail, (records.flatMap tag.encodeRecord).take n =
        (wholeRecords tag records n).flatMap tag.encodeRecord ++ tail ∧
      ∀ rounds, tlvListDecodeAux rounds tail = [] := by
  induction records generalizing n with
  | nil =>
    refine ⟨[], by simp [wholeRecords], fun rounds => ?_⟩
    cases rounds <;> rfl
  | cons record records ih =>
    rw [List.forall_mem_cons] at h
    rw [List.flatMap_cons, wholeRecords]
    split_ifs with hle
    · obtain ⟨tail, htail, hlost⟩ := ih h.2 (n - (tag.encodeRecord record).length)
      refine ⟨tail, ?_, hlost⟩
      rw [List.take_append, List.take_of_length_le hle, htail, List.flatMap_cons, List.append_assoc]
    · refine ⟨(tag.encodeRecord record).take n, ?_, fun rounds => ?_⟩
      · rw [List.take_append_of_le_length (by omega)]
        rfl
      · apply tlvListDecodeAux_cut h.1.tlvFits (List.take_prefix _ _)
        rw [List.length_take]
        show min n (tag.encodeRecord record).length < (tag.encodeRecord record).length
        omega

/-- Records and what is lost, read as a file. -/
theorem getFileData_records {records : List Record} (h : ∀ record ∈ records, tag.Decodable record)
    {tail : List UInt8} (htail : ∀ rounds, tlvListDecodeAux rounds tail = []) :
    tag.getFileData (records.flatMap tag.encodeRecord ++ tail) = some (records.map beanOf) := by
  have hitems : records.flatMap tag.encodeRecord =
      encodeTlvs (records.map fun record => (tag.dataType, tag.payload record)) := by
    simp only [encodeTlvs, List.flatMap_map]
    rfl
  have hread : tlvListDecode (records.flatMap tag.encodeRecord ++ tail) =
      records.map fun record => (tag.dataType, tag.payload record) := by
    rw [hitems]
    apply tlvListDecodeAux_encodeTlvs _ htail (Nat.le_refl _)
    intro item hitem
    obtain ⟨record, hrecord, rfl⟩ := List.mem_map.mp hitem
    exact (h record hrecord).tlvFits
  have hpayloads : (records.map fun record => (tag.dataType, tag.payload record)).map Prod.snd =
      records.map tag.payload := by
    rw [List.map_map]
    rfl
  rw [getFileData, tlvDecode, hread, hpayloads]
  exact mapM_records h

/-! ### What is reported -/

theorem holds_int64 (x : Int64) : StructCode.int64.Holds x.toInt :=
  ⟨x.le_toInt, x.toInt_lt⟩

theorem holds_uint64 (x : UInt64) : StructCode.uint64.Holds x.toNat := by
  have hlt := x.toNat_lt
  constructor <;> omega

theorem holds_int8 (x : Int8) : StructCode.int8.Holds x.toInt :=
  ⟨x.le_toInt, x.toInt_lt⟩

theorem holds_uint8 (x : UInt8) : StructCode.uint8.Holds x.toNat := by
  have hlt := x.toNat_lt
  constructor <;> omega

theorem holds_bool (b : Bool) : StructCode.bool.Holds (if b then 1 else 0) := by
  cases b
  · exact .inl rfl
  · exact .inr rfl

theorem holds_records {data : tag.Data} {record : Record} (h : record ∈ tag.records data) :
    List.Forall₂ StructCode.Holds tag.constantStruct record.constants := by
  cases tag with
  | torchOp | opMark | memory =>
    rw [records, List.mem_singleton] at h
    subst h
    simp [constantStruct, holds_int64, holds_uint64, holds_int8, holds_uint8, holds_bool]
  | pythonTracerHash | paramTensorInfo =>
    rw [records] at h
    obtain ⟨item, -, rfl⟩ := List.mem_map.mp h
    simp [constantStruct, holds_uint64]

theorem map_fst_optionalField {β : Type*} (type : ℕ) (encode : List β → Text) (datas : List β) :
    ((optionalField type encode datas).map Prod.fst).Sublist [type] := by
  rw [optionalField]
  split_ifs
  · exact List.nil_sublist _
  · exact List.Sublist.refl _

/-- The types of the text fields of an `OpRangeData`. -/
theorem types_opRange (data : OpRangeData) :
    (data.fields.map Prod.fst).Sublist [2, 3, 4, 5, 6, 7, 8, 9, 10] := by
  have htypes : ([2, 3, 4, 5, 6, 7, 8, 9, 10] : List ℕ) =
      [2] ++ [3] ++ [4] ++ [5] ++ [6] ++ [7] ++ [8] ++ [9] ++ [10] := rfl
  rw [htypes, OpRangeData.fields]
  simp only [List.map_append]
  repeat' apply List.Sublist.append
  · exact List.Sublist.refl _
  all_goals exact map_fst_optionalField ..

theorem type_paramTensor {data : ParamTensorData} {item : KeyedText} (h : item ∈ data.items) :
    item.type = 1 ∨ item.type = 2 := by
  rw [ParamTensorData.items, List.mem_append, List.mem_map, List.mem_map] at h
  rcases h with ⟨entry, -, rfl⟩ | ⟨entry, -, rfl⟩
  · exact .inl rfl
  · exact .inr rfl

theorem types_records {data : tag.Data} {record : Record} (h : record ∈ tag.records data) :
    (record.fields.map Prod.fst).Nodup ∧ ∀ field ∈ record.fields, field.1 < 2 ^ 16 := by
  cases tag with
  | torchOp =>
    rw [records, List.mem_singleton] at h
    subst h
    have hsublist := types_opRange data
    refine ⟨hsublist.nodup (by decide), fun field hfield => ?_⟩
    have hmem := hsublist.subset (List.mem_map_of_mem hfield)
    simp only [List.mem_cons, List.not_mem_nil, or_false] at hmem
    omega
  | opMark | memory =>
    rw [records, List.mem_singleton] at h
    subst h
    simp [OpMarkData.fields]
  | pythonTracerHash =>
    obtain ⟨item, hitem, rfl⟩ := List.mem_map.mp h
    obtain ⟨entry, -, rfl⟩ := List.mem_map.mp hitem
    simp [KeyedText.fields]
  | paramTensorInfo =>
    obtain ⟨item, hitem, rfl⟩ := List.mem_map.mp h
    have htype := type_paramTensor hitem
    have hlt : item.type < 2 ^ 16 := by omega
    simpa [KeyedText.fields] using hlt

theorem decodable_records {data : tag.Data} (hsmall : tag.Small data) (hknown : tag.Known data)
    {record : Record} (h : record ∈ tag.records data) : tag.Decodable record where
  holds := holds_records h
  nodup := (types_records h).1
  types := (types_records h).2
  small := hsmall record h
  category := by
    rintro rfl
    rw [records, List.mem_singleton] at h
    subst h
    have hcategory : (data : OpMarkData).category.toNat < 4 := hknown
    show ((OpMarkData.category data).toNat : ℤ) ∈ opMarkCategories
    generalize (OpMarkData.category data).toNat = category at hcategory ⊢
    interval_cases category <;> decide

/-- The fixed part of a record, one value after the other. -/
theorem fixed_opRange (data : OpRangeData) : data.fixed = structPack torchOp.constantStruct
    [data.startNs.toInt, data.endNs.toInt, data.sequenceNumber.toInt, data.processId.toNat,
      data.startThreadId.toNat, data.endThreadId.toNat, data.forwardThreadId.toNat, data.scope.toNat,
      if data.isAsync then 1 else 0] := by
  rw [OpRangeData.fixed]
  cases data.isAsync <;>
    simp [structPack, encodeFixedData, constantStruct, StructCode.size, leEncode]

theorem fixed_opMark (data : OpMarkData) : data.fixed = structPack opMark.constantStruct
    [data.timeNs.toInt, data.category.toNat, data.correlationId.toNat, data.threadId.toNat,
      data.processId.toNat] := by
  rw [OpMarkData.fixed]
  simp [structPack, encodeFixedData, constantStruct, StructCode.size]

theorem fixed_memory (data : MemoryData) : data.fixed = structPack memory.constantStruct
    [data.ptr.toInt, data.timeNs.toInt, data.allocSize.toInt, data.totalAllocated.toInt,
      data.totalReserved.toInt, data.totalActive.toInt, data.streamPtr.toInt, data.deviceType.toInt,
      data.deviceIndex.toInt, data.componentType.toNat, data.dataType.toNat, data.allocatorType.toNat,
      data.threadId.toNat, data.processId.toNat] := by
  rw [MemoryData.fixed]
  simp [structPack, encodeFixedData, constantStruct, StructCode.size]

theorem fixed_keyedText (item : KeyedText) : item.fixed = structPack [.uint64] [item.key.toNat] :=
  (List.append_nil _).symm

/-- What `encode` writes are the records. -/
theorem encode_eq (data : tag.Data) : tag.encode data = (tag.records data).flatMap tag.encodeRecord := by
  cases tag with
  | torchOp =>
    show encodeTlv 1 (OpRangeData.fixed data ++ encodeFields (OpRangeData.fields data)) = [_].flatMap _
    rw [fixed_opRange, List.flatMap_singleton]
    rfl
  | opMark =>
    show encodeTlv 2 (OpMarkData.fixed data ++ encodeFields (OpMarkData.fields data)) = [_].flatMap _
    rw [fixed_opMark, List.flatMap_singleton]
    rfl
  | memory =>
    show encodeTlv 3 (MemoryData.fixed data) = [_].flatMap _
    rw [fixed_memory, List.flatMap_singleton, encodeRecord, payload]
    show _ = encodeTlv 3 (structPack _ _ ++ [])
    rw [List.append_nil]
  | pythonTracerHash =>
    show (PythonTracerHashData.items data).flatMap (fun item => item.encode 4) =
      ((PythonTracerHashData.items data).map _).flatMap _
    rw [List.flatMap_map]
    simp only [KeyedText.encode, fixed_keyedText]
    rfl
  | paramTensorInfo =>
    show (ParamTensorData.items data).flatMap (fun item => item.encode 5) =
      ((ParamTensorData.items data).map _).flatMap _
    rw [List.flatMap_map]
    simp only [KeyedText.encode, fixed_keyedText]
    rfl

theorem flatMap_encode (datas : List tag.Data) :
    datas.flatMap tag.encode = (datas.flatMap tag.records).flatMap tag.encodeRecord := by
  rw [List.flatMap_assoc]
  apply List.flatMap_congr
  intro data _
  exact encode_eq data

theorem forall₂_agrees {records : List Record} (h : ∀ record ∈ records, tag.Decodable record) :
    List.Forall₂ Record.Agrees records (records.map beanOf) := by
  apply List.forall₂_map_right_iff.mpr
  apply List.forall₂_same.mpr
  intro record hrecord
  exact (h record hrecord).agrees

/-- A file gives the records that were reported to it, and its first `n` bytes give those that are complete. -/
theorem getFileData_encode {datas : List tag.Data} (hsmall : ∀ data ∈ datas, tag.Small data)
    (hknown : ∀ data ∈ datas, tag.Known data) :
    (∃ beans, tag.getFileData (datas.flatMap tag.encode) = some beans ∧
      List.Forall₂ Record.Agrees (datas.flatMap tag.records) beans) ∧
    ∀ n, ∃ beans, tag.getFileData ((datas.flatMap tag.encode).take n) = some beans ∧
      List.Forall₂ Record.Agrees (wholeRecords tag (datas.flatMap tag.records) n) beans := by
  have hrecords : ∀ record ∈ datas.flatMap tag.records, tag.Decodable record := by
    intro record hrecord
    obtain ⟨data, hdata, hrecord⟩ := List.mem_flatMap.mp hrecord
    exact decodable_records (hsmall data hdata) (hknown data hdata) hrecord
  have hinit : ∀ n, ∃ beans, tag.getFileData ((datas.flatMap tag.encode).take n) = some beans ∧
      List.Forall₂ Record.Agrees (wholeRecords tag (datas.flatMap tag.records) n) beans := by
    intro n
    obtain ⟨tail, htake, hlost⟩ := take_records hrecords n
    have hwhole : ∀ record ∈ wholeRecords tag (datas.flatMap tag.records) n, tag.Decodable record :=
      fun record hrecord => hrecords record (wholeRecords_subset hrecord)
    refine ⟨_, ?_, forall₂_agrees hwhole⟩
    rw [flatMap_encode, htake]
    exact getFileData_records hwhole hlost
  refine ⟨?_, hinit⟩
  -- The whole file is the prefix of its own length.
  have hall := hinit (datas.flatMap tag.encode).length
  rw [List.take_length, wholeRecords_of_length_le (by rw [← flatMap_encode])] at hall
  exact hall

/-- Two op marks, the second one with a text that is not ASCII. -/
def twoOpMarks : List OpMarkData :=
  [{ timeNs := -1, category := 0, correlationId := 7, threadId := 0xFFFFFFFFFFFFFFFF, processId := 1,
     name := "add".toList },
   { timeNs := 5, category := 3, correlationId := 8, threadId := 2, processId := 1, name := "été".toList }]

theorem getFileData_encode_twoOpMarks :
    (∃ beans, opMark.getFileData (twoOpMarks.flatMap opMark.encode) = some beans ∧
      List.Forall₂ Record.Agrees (twoOpMarks.flatMap opMark.records) beans) ∧
    ∀ n, ∃ beans, opMark.getFileData ((twoOpMarks.flatMap opMark.encode).take n) = some beans ∧
      List.Forall₂ Record.Agrees (wholeRecords opMark (twoOpMarks.flatMap opMark.records) n) beans := by
  have hsmall : ∀ data ∈ twoOpMarks, ∀ record ∈ opMark.records data, (opMark.payload record).length < 2 ^ 32 := by
    decide +kernel
  have hknown : ∀ data ∈ twoOpMarks, data.category < 4 := by decide
  exact @getFileData_encode opMark twoOpMarks hsmall hknown

/-- An op mark with a category that `_OpMarkCategoryEnum` does not have. -/
def unknownOpMark : OpMarkData :=
  { timeNs := 0, category := 4, correlationId := 0, threadId := 0, processId := 0, name := "add".toList }

/-- The file is not read at all. -/
theorem not_getFileData_unknownOpMark :
    ¬ ∃ beans, opMark.getFileData ([unknownOpMark].flatMap opMark.encode) = some beans ∧
      List.Forall₂ Record.Agrees ([unknownOpMark].flatMap opMark.records) beans := by
  have hnone : (opMark.getFileData ([unknownOpMark].flatMap opMark.encode)).isNone = true := by
    decide +kernel
  rintro ⟨beans, hbeans, -⟩
  rw [hbeans] at hnone
  cases hnone

end FileTag

end TorchNpu.Profiler
