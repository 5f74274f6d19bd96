/-
  The inputs of an operator are read back as they were recorded, but for lists without tensors.

  Each of the four texts is put together from pieces that do not contain its separator, so `Text.split` finds
  the pieces again.  `parseInputs_recorded` goes through the inputs with the three indexes.  A list without
  tensors is an empty piece, which is read as a list with one `None`.
-/
import TorchNpu.Profiler.NpuProfiler
import TorchNpu.Profiler.Spec.TlvDecoder

namespace TorchNpu.Profiler

namespace EventTreeParser

variable {σ : Type*} (types : TypeMeta σ)

/-! ### What is to be read -/

/-- The metadata of a tensor on the side of Python. -/
def ofRecorded (t : Profiler.TensorMetadata) : TensorMetadata where
  impl := t.impl
  ptr := if t.ptr = 0 then none else some (t.ptr : ℤ)
  dtype := t.dtype
  dtypeSize := t.dtypeSize
  sizes := t.sizes
  strides := t.strides
  deviceType := t.deviceType
  deviceIndex := t.deviceIndex

/-- What is to be read for an input: a tensor with its metadata, a list with the metadata of its tensors, the
type of a scalar, and a mark for anything else. -/
def expected : IValue σ → Input
  | .tensor t =>
    if isValidTensor t then .tensor (some (ofRecorded (.ofTensor types t))) else .text "None".toList
  | .tensorList ts => .tensorList ((getTensorList types ts).map fun t => some (ofRecorded t))
  | value => .text (if value.isScalar then parseTypeName value else inputDtype types value)

/-- The inputs are read, each as it was recorded, and no list has a `None`. -/
def Survives (inputs : List (IValue σ)) (parsed : Option (List Input)) : Prop :=
  parsed = some (inputs.map (expected types)) ∧
    ∀ read ∈ parsed, ∀ ts, Input.tensorList ts ∈ read → none ∉ ts

/-- A list of tensors has a tensor. -/
def hasTensors : IValue σ → Bool
  | .tensorList ts => ts.any isValidTensor
  | _ => true

/-! ### Tensors -/

variable {types}

/-- A type of elements does not have the separators. -/
structure Plain (t : Profiler.TensorMetadata) : Prop where
  semicolon : ';' ∉ t.dtype
  parenthesis : ')' ∉ t.dtype
  brace : '\x7d' ∉ t.dtype
  trimmed : Text.Trimmed t.dtype

theorem plain_ofTensor (t : Tensor σ) : Plain (.ofTensor types t) where
  semicolon := (types.separators t.scalarType).1
  parenthesis := (types.separators t.scalarType).2.1
  brace := (types.separators t.scalarType).2.2
  trimmed := types.trimmed t.scalarType

theorem mapM_map_some {α β γ : Type*} {encode : α → β} {decode : β → Option γ} {value : α → γ} {xs : List α}
    (h : ∀ x ∈ xs, decode (encode x) = some (value x)) : (xs.map encode).mapM decode = some (xs.map value) := by
  induction xs with
  | nil => rfl
  | cons x xs ih =>
    rw [List.forall_mem_cons] at h
    rw [List.map_cons, List.mapM_cons, h.1, ih h.2]
    rfl

theorem vectorToString_eq (vec : List ℤ) :
    vectorToString vec = List.intercalate [','] (vec.map Text.ofInt) := by
  rw [← Text.dropLast_flatMap, List.flatMap_map]
  rfl

theorem mem_vectorToString {vec : List ℤ} {c : Char} (h : c ∈ vectorToString vec) :
    c = ',' ∨ c = '-' ∨ c.isAlphanum = true := by
  rw [vectorToString_eq] at h
  rcases Text.mem_intercalate h with h | ⟨piece, hpiece, h⟩
  · exact .inl (List.mem_singleton.mp h)
  · obtain ⟨v, -, rfl⟩ := List.mem_map.mp hpiece
    exact .inr (Text.mem_ofInt h)

theorem parseInts_vectorToString (vec : List ℤ) : parseInts (vectorToString vec) = some vec := by
  cases vec with
  | nil => rfl
  | cons v vec =>
    have hpieces : ∀ piece ∈ (v :: vec).map Text.ofInt, ',' ∉ piece := by
      intro piece hpiece hmem
      obtain ⟨v, -, rfl⟩ := List.mem_map.mp hpiece
      rcases Text.mem_ofInt hmem with h | h
      · cases h
      · cases h
    have hsplit := Text.split_intercalate [] (by simp) hpieces
    have hne : vectorToString (v :: vec) ≠ [] := by
      rw [vectorToString_eq]
      exact Text.intercalate_ne_nil (Text.ofInt_ne_nil v)
    have hmapM : ((v :: vec).map Text.ofInt).mapM (Text.parseInt 10) = some ((v :: vec).map id) :=
      mapM_map_some fun v _ => Text.parseInt_ofInt v
    rw [parseInts, if_neg (by simpa using hne), vectorToString_eq, hsplit, hmapM, List.map_id]

/-- A field without spaces, letters and digits but for `,` and `-`. -/
def Numeral (text : Text) : Prop :=
  ∀ c ∈ text, c = ',' ∨ c = '-' ∨ c.isAlphanum = true

theorem Numeral.trimmed {text : Text} (h : Numeral text) : Text.Trimmed text := by
  apply Text.trimmed_of_forall
  intro c hc
  rcases h c hc with rfl | rfl | hc
  · decide
  · decide
  · exact Text.isSpace_of_isAlphanum hc

/-- Every field of a tensor but the type of its elements is numerals. -/
theorem mem_tensorFields {t : Profiler.TensorMetadata} {field : Text} (h : field ∈ tensorFields t) :
    field = t.dtype ∨ Numeral field := by
  have hpointer : ∀ v, Numeral (Text.ofPointer v) := fun v c hc =>
    .inr (.inr (Text.isAlphanum_of_mem_ofPointer hc))
  have hnat : ∀ v, Numeral (Text.ofNat v) := fun v c hc =>
    .inr (.inr (Text.isAlphanum_of_mem_ofNat hc))
  have hvector : ∀ vec, Numeral (vectorToString vec) := fun vec c hc => mem_vectorToString hc
  have hint : ∀ v, Numeral (Text.ofInt v) := fun v c hc => .inr (Text.mem_ofInt hc)
  simp only [tensorFields, List.mem_cons, List.not_mem_nil, or_false] at h
  rcases h with rfl | rfl | rfl | rfl | rfl | rfl | rfl | rfl
  · exact .inr (hpointer _)
  · split_ifs
    · exact .inr fun c hc => absurd hc List.not_mem_nil
    · exact .inr (hpointer _)
  · exact .inl rfl
  · exact .inr (hnat _)
  · exact .inr (hvector _)
  · exact .inr (hvector _)
  · exact .inr (hint _)
  · exact .inr (hint _)

variable {t : Profiler.TensorMetadata}

theorem notMem_tensorField {c : Char} (hdtype : c ∉ t.dtype) (hcomma : c ≠ ',') (hminus : c ≠ '-')
    (halphanum : c.isAlphanum = false) {field : Text} (h : field ∈ tensorFields t) : c ∉ field := by
  rcases mem_tensorFields h with rfl | h
  · exact hdtype
  · intro hc
    rcases h c hc with hc | hc | hc
    · exact hcomma hc
    · exact hminus hc
    · rw [hc] at halphanum
      cases halphanum

theorem notMem_encodeTensor {c : Char} (hdtype : c ∉ t.dtype) (hcomma : c ≠ ',') (hminus : c ≠ '-')
    (halphanum : c.isAlphanum = false) (hsemicolon : c ≠ ';') : c ∉ encodeTensor t := by
  intro hc
  rcases Text.mem_intercalate hc with hc | ⟨field, hfield, hc⟩
  · exact hsemicolon (List.mem_singleton.mp hc)
  · exact notMem_tensorField hdtype hcomma hminus halphanum hfield hc

theorem encodeTensor_ne_nil (t : Profiler.TensorMetadata) : encodeTensor t ≠ [] :=
  Text.intercalate_ne_nil Text.ofPointer_ne_nil

theorem Plain.parenthesis_encodeTensor (h : Plain t) : ')' ∉ encodeTensor t :=
  notMem_encodeTensor h.parenthesis (by decide) (by decide) (by decide) (by decide)

theorem Plain.brace_encodeTensor (h : Plain t) : '\x7d' ∉ encodeTensor t :=
  notMem_encodeTensor h.brace (by decide) (by decide) (by decide) (by decide)

theorem Plain.trimmed_encodeTensor (h : Plain t) : Text.Trimmed (encodeTensor t) := by
  apply Text.Trimmed.intercalate
  · exact Text.trimmed_of_all (by decide)
  · intro field hfield
    rcases mem_tensorFields hfield with rfl | hnumeral
    · exact h.trimmed
    · exact hnumeral.trimmed

/-- The fields of a tensor are read back. -/
theorem Plain.parseTensorMetadata (h : Plain t) :
    parseTensorMetadata (encodeTensor t) = some (some (ofRecorded t)) := by
  have hsplit : Text.split [';'] (encodeTensor t) = tensorFields t := by
    apply Text.split_intercalate [] (List.cons_ne_nil _ _)
    intro field hfield
    exact notMem_tensorField h.semicolon (by decide) (by decide) (by decide) hfield
  have hptr : parsePtr (if t.ptr = 0 then [] else Text.ofPointer t.ptr) =
      some (if t.ptr = 0 then none else some (t.ptr : ℤ)) := by
    by_cases hzero : t.ptr = 0
    · rw [if_pos hzero, if_pos hzero]
      rfl
    · have hne : Text.ofPointer t.ptr ≠ [] := Text.ofPointer_ne_nil
      rw [if_neg hzero, if_neg hzero, parsePtr, if_neg (by simpa using hne), Text.parseInt_ofPointer]
      rfl
  rw [EventTreeParser.parseTensorMetadata, hsplit]
  simp only [tensorFields, hptr, Text.parseInt_ofPointer, Text.parseInt_ofNat, Text.parseInt_ofInt,
    parseInts_vectorToString, Option.bind_eq_bind, Option.bind_some]
  rfl

/-! ### Texts of several tensors -/

variable {ts : List Profiler.TensorMetadata} {lists : List (List Profiler.TensorMetadata)}

theorem encodeTensors_eq (ts : List Profiler.TensorMetadata) :
    encodeTensors ts = List.intercalate [')'] (ts.map encodeTensor) := by
  rw [← Text.dropLast_flatMap, List.flatMap_map]
  rfl

theorem encodeTensorLists_eq (lists : List (List Profiler.TensorMetadata)) :
    encodeTensorLists lists = List.intercalate ['\x7d'] (lists.map encodeTensorList) := by
  rw [← Text.dropLast_flatMap, List.flatMap_map]
  rfl

theorem trimmed_parenthesis : Text.Trimmed [')'] :=
  Text.trimmed_of_all (by decide)

/-- The text of an optional field. -/
def optionalText {α : Type*} (encode : List α → Text) (datas : List α) : Option Text :=
  if datas.isEmpty then none else some (encode datas)

/-- The pieces of a text are found, whether there is a text or not. -/
theorem inputTexts_optionalText {α : Type*} {encode : List α → Text} {datas : List α} {c : Char}
    {piece : α → Text} (sep : Text)
    (hencode : datas ≠ [] → (encode datas).strip = List.intercalate (c :: sep) (datas.map piece))
    (h : ∀ data ∈ datas, c ∉ piece data) :
    inputTexts (c :: sep) (optionalText encode datas) = datas.map piece := by
  rw [optionalText]
  split_ifs with hempty
  · rw [List.isEmpty_iff.mp hempty]
    rfl
  · have hne : datas ≠ [] := by simpa using hempty
    rw [inputTexts, hencode hne]
    apply Text.split_intercalate sep (by simpa using hne)
    intro text htext
    obtain ⟨data, hdata, rfl⟩ := List.mem_map.mp htext
    exact h data hdata

theorem inputTexts_encodeTensors (h : ∀ t ∈ ts, Plain t) :
    inputTexts [')'] (optionalText encodeTensors ts) = ts.map encodeTensor := by
  apply inputTexts_optionalText []
  · intro _
    rw [encodeTensors_eq]
    apply (Text.Trimmed.intercalate trimmed_parenthesis _).strip
    simpa using fun t ht => (h t ht).trimmed_encodeTensor
  · exact fun t ht => (h t ht).parenthesis_encodeTensor

theorem encodeTensorList_cons (t : Profiler.TensorMetadata) (ts : List Profiler.TensorMetadata) :
    encodeTensorList (t :: ts) = encodeTensor t ++ [')'] ++ encodeTensorList ts :=
  rfl

theorem trimmed_encodeTensorList (h : ∀ t ∈ ts, Plain t) : Text.Trimmed (encodeTensorList ts) := by
  induction ts with
  | nil => exact Text.trimmed_of_forall (by simp [encodeTensorList])
  | cons t ts ih =>
    rw [List.forall_mem_cons] at h
    rw [encodeTensorList_cons]
    exact (h.1.trimmed_encodeTensor.append trimmed_parenthesis).append (ih h.2)

theorem brace_encodeTensorList (h : ∀ t ∈ ts, Plain t) : '\x7d' ∉ encodeTensorList ts := by
  intro hmem
  obtain ⟨t, ht, hmem⟩ := List.mem_flatMap.mp hmem
  rcases List.mem_append.mp hmem with hmem | hmem
  · exact (h t ht).brace_encodeTensor hmem
  · revert hmem
    decide

theorem inputTexts_encodeTensorLists (h : ∀ ts ∈ lists, ∀ t ∈ ts, Plain t) :
    inputTexts ['\x7d'] (optionalText encodeTensorLists lists) = lists.map encodeTensorList := by
  apply inputTexts_optionalText []
  · intro _
    rw [encodeTensorLists_eq]
    apply (Text.Trimmed.intercalate (Text.trimmed_of_all (by decide)) _).strip
    simpa using fun ts hts => trimmed_encodeTensorList (h ts hts)
  · exact fun ts hts => brace_encodeTensorList (h ts hts)

/-- All but the last parenthesis are between the tensors. -/
theorem encodeTensorList_eq (t : Profiler.TensorMetadata) (ts : List Profiler.TensorMetadata) :
    encodeTensorList (t :: ts) = List.intercalate [')'] ((t :: ts).map encodeTensor) ++ [')'] := by
  induction ts generalizing t with
  | nil => simp [encodeTensorList]
  | cons next ts ih =>
    rw [encodeTensorList_cons, ih next]
    simp only [List.map_cons, List.intercalate_cons_cons, List.append_assoc]

/-- The tensors of a list are read back, if there are any. -/
theorem parseTensorList_encode (h : ∀ t ∈ ts, Plain t) : parseTensorList (encodeTensorList ts) =
    some (if ts.isEmpty then [none] else ts.map fun t => some (ofRecorded t)) := by
  cases ts with
  | nil => rfl
  | cons t ts =>
    have hpieces : ∀ piece ∈ (t :: ts).map encodeTensor, ')' ∉ piece := by
      simpa using fun t ht => (h t ht).parenthesis_encodeTensor
    have hstrip : (encodeTensorList (t :: ts)).strip =
        List.intercalate [')'] ((t :: ts).map encodeTensor) ++ [')'] := by
      rw [(trimmed_encodeTensorList h).strip, encodeTensorList_eq]
    have hne : ∀ piece ∈ (t :: ts).map encodeTensor, piece ≠ [] := by
      simp [encodeTensor_ne_nil]
    have hlast : ∀ d ∈ (List.intercalate [')'] ((t :: ts).map encodeTensor)).getLast?, d ≠ ')' := by
      rintro d hd rfl
      obtain ⟨piece, hpiece, hmem⟩ := Text.mem_getLast?_intercalate hne hd
      exact hpieces piece hpiece (List.mem_of_mem_getLast? hmem)
    rw [parseTensorList, hstrip, Text.rstrip_append hlast, Text.split_intercalate [] (by simp) hpieces,
      mapM_map_some fun t ht => (h t ht).parseTensorMetadata]
    rfl

/-! ### Recording -/

variable (types)

/-- What a value adds to `inputTensors`. -/
def recordedTensors : IValue σ → List Profiler.TensorMetadata
  | .tensor t => if isValidTensor t then [.ofTensor types t] else []
  | _ => []

/-- What a value adds to `inputTensorlists`. -/
def recordedTensorlists : IValue σ → List (List Profiler.TensorMetadata)
  | .tensorList ts => [getTensorList types ts]
  | _ => []

/-- What a value adds to `inputScalars`. -/
def recordedScalars (value : IValue σ) : List Text :=
  if value.isScalar then [parseTypeName value] else []

/-- The inputs have been added to the data. -/
structure Recorded (inputs : List (IValue σ)) (data data' : OpRangeData) : Prop where
  dtypes : data'.inputDtypes = data.inputDtypes ++ inputs.map (inputDtype types)
  tensors : data'.inputTensors = data.inputTensors ++ inputs.flatMap (recordedTensors types)
  tensorlists : data'.inputTensorlists = data.inputTensorlists ++ inputs.flatMap (recordedTensorlists types)
  scalars : data'.inputScalars = data.inputScalars ++ inputs.flatMap recordedScalars

theorem recorded_parseInput (data : OpRangeData) (value : IValue σ) :
    Recorded types [value] data (parseInput types true data value) := by
  cases value with
  | tensor t =>
    by_cases ht : isValidTensor t = true
    · constructor <;> simp [parseInput, recordedTensors, recordedTensorlists, recordedScalars, IValue.isScalar, ht]
    · constructor <;> simp [parseInput, recordedTensors, recordedTensorlists, recordedScalars, IValue.isScalar, ht]
  | tensorList ts | bool | int | double | complexDouble | symbolic | list values | string | none =>
    constructor <;> simp [parseInput, recordedTensors, recordedTensorlists, recordedScalars, IValue.isScalar]

variable {types}

theorem Recorded.append {left right : List (IValue σ)} {data data' data'' : OpRangeData}
    (h : Recorded types left data data') (h' : Recorded types right data' data'') :
    Recorded types (left ++ right) data data'' where
  dtypes := by rw [h'.dtypes, h.dtypes, List.map_append, List.append_assoc]
  tensors := by rw [h'.tensors, h.tensors, List.flatMap_append, List.append_assoc]
  tensorlists := by rw [h'.tensorlists, h.tensorlists, List.flatMap_append, List.append_assoc]
  scalars := by rw [h'.scalars, h.scalars, List.flatMap_append, List.append_assoc]

variable (types)

theorem recorded_parseInputs (inputs : List (IValue σ)) (data : OpRangeData) :
    Recorded types inputs data (parseInputShapesAndDtypes types inputs data true) := by
  induction inputs generalizing data with
  | nil => constructor <;> simp [parseInputShapesAndDtypes]
  | cons value inputs ih => exact (recorded_parseInput types data value).append (ih _)

/-- What is recorded of an operator. -/
theorem recorded_onOpStart {config : ProfilerConfig} (h : config.reportDetails = true)
    (fn : RecordFunction σ) : Recorded types fn.inputs (newOpEvent fn) (onOpStart types config fn) := by
  have hshapes : config.reportInputShapes = true := by
    rw [ProfilerConfig.reportDetails, Bool.and_eq_true, Bool.and_eq_true] at h
    exact h.1.1
  have hrecorded := recorded_parseInputs types fn.inputs { newOpEvent fn with scope := fn.scope }
  rw [onOpStart, if_pos hshapes, h]
  constructor
  · dsimp only
    split_ifs <;> exact hrecorded.dtypes
  · dsimp only
    split_ifs <;> exact hrecorded.tensors
  · dsimp only
    split_ifs <;> exact hrecorded.tensorlists
  · dsimp only
    split_ifs <;> exact hrecorded.scalars

/-! ### Text fields -/

theorem fieldDict_append_of_ne {α : Type*} {encode : List α → Text} {datas : List α} {type type' : ℕ}
    (h : type ≠ type') (fields : List (ℕ × Text)) :
    fieldDict (fields ++ optionalField type' encode datas) type = fieldDict fields type := by
  rw [optionalField]
  split_ifs
  · rw [List.append_nil]
  · rw [fieldDict_append, Function.update_of_ne h]

theorem fieldDict_append_self {α : Type*} {encode : List α → Text} {datas : List α} {type : ℕ}
    {fields : List (ℕ × Text)} (h : fieldDict fields type = none) :
    fieldDict (fields ++ optionalField type encode datas) type = optionalText encode datas := by
  rw [optionalField, optionalText]
  split_ifs
  · rw [List.append_nil, h]
  · rw [fieldDict_append, Function.update_self]

theorem fieldDict_name {type : ℕ} (h : type ≠ 2) (name : Text) : fieldDict [(2, name)] type = none :=
  fieldDict_eq_none (by simpa using h)

/-- The four texts that are read. -/
theorem fieldDict_opRange (data : OpRangeData) :
    fieldDict data.fields 3 = optionalText encodeStrArray data.inputDtypes ∧
    fieldDict data.fields 5 = optionalText encodeTensors data.inputTensors ∧
    fieldDict data.fields 6 = optionalText encodeTensorLists data.inputTensorlists ∧
    fieldDict data.fields 7 = optionalText encodeStrArray data.inputScalars := by
  rw [OpRangeData.fields]
  refine ⟨?_, ?_, ?_, ?_⟩
  · iterate 7 rw [fieldDict_append_of_ne (by decide)]
    exact fieldDict_append_self (fieldDict_name (by decide) _)
  · iterate 5 rw [fieldDict_append_of_ne (by decide)]
    apply fieldDict_append_self
    iterate 2 rw [fieldDict_append_of_ne (by decide)]
    exact fieldDict_name (by decide) _
  · iterate 4 rw [fieldDict_append_of_ne (by decide)]
    apply fieldDict_append_self
    iterate 3 rw [fieldDict_append_of_ne (by decide)]
    exact fieldDict_name (by decide) _
  · iterate 3 rw [fieldDict_append_of_ne (by decide)]
    apply fieldDict_append_self
    iterate 4 rw [fieldDict_append_of_ne (by decide)]
    exact fieldDict_name (by decide) _

theorem encodeStrArray_eq (datas : List Text) : encodeStrArray datas = List.intercalate [';'] datas :=
  Text.dropLast_flatMap ';' datas

theorem inputDtype_cases (value : IValue σ) :
    (∃ s, inputDtype types value = types.name s) ∨ inputDtype types value ∈ inputTags := by
  have hnone : "None".toList ∈ inputTags := List.mem_cons_self
  have hscalarList : "ScalarList".toList ∈ inputTags := by decide +kernel
  rw [inputDtype.eq_def]
  split
  · split_ifs
    · exact .inl ⟨_, rfl⟩
    · exact .inr hnone
  · right
    decide +kernel
  · exact .inr hscalarList
  · split_ifs
    · exact .inr hscalarList
    · exact .inr hnone
  · split_ifs
    · right
      decide +kernel
    · exact .inr hnone

/-- The type of a value is a piece of its text. -/
theorem inputDtype_piece (value : IValue σ) :
    ';' ∉ inputDtype types value ∧ Text.Trimmed (inputDtype types value) ∧ inputDtype types value ≠ [] := by
  have htags : ∀ tag ∈ inputTags, (';' ∉ tag ∧ Text.Trimmed tag) ∧ tag ≠ [] := by
    decide +kernel
  rcases inputDtype_cases types value with ⟨s, hs⟩ | htag
  · rw [hs]
    exact ⟨(types.separators s).1, types.trimmed s, types.name_ne_nil s⟩
  · have hplain := htags _ htag
    exact ⟨hplain.1.1, hplain.1.2, hplain.2⟩

theorem inputTexts_inputDtypes (inputs : List (IValue σ)) :
    inputTexts [';', '\r', '\n'] ((optionalText encodeStrArray (inputs.map (inputDtype types))).map
      fun value => if value.isEmpty then [] else Text.replace ';' [';', '\r', '\n'] value) =
      inputs.map (inputDtype types) := by
  have hpieces : ∀ piece ∈ inputs.map (inputDtype types), ';' ∉ piece ∧ Text.Trimmed piece ∧ piece ≠ [] := by
    intro piece hpiece
    obtain ⟨value, -, rfl⟩ := List.mem_map.mp hpiece
    exact inputDtype_piece types value
  generalize inputs.map (inputDtype types) = pieces at hpieces ⊢
  cases pieces with
  | nil => rfl
  | cons piece pieces =>
    have hne : encodeStrArray (piece :: pieces) ≠ [] := by
      rw [encodeStrArray_eq]
      exact Text.intercalate_ne_nil (hpieces piece List.mem_cons_self).2.2
    have htrimmed := Text.trimmed_intercalate [';', '\r', '\n'] fun piece hpiece => (hpieces piece hpiece).2
    show Text.split _ (Text.strip (if (encodeStrArray (piece :: pieces)).isEmpty then [] else _)) = _
    rw [if_neg (by simpa using hne), encodeStrArray_eq,
      Text.replace_intercalate fun piece hpiece => (hpieces piece hpiece).1, htrimmed.strip]
    exact Text.split_intercalate _ (List.cons_ne_nil _ _) fun piece hpiece => (hpieces piece hpiece).1

theorem inputTexts_scalars {scalars : List Text} (h : ∀ scalar ∈ scalars, ';' ∉ scalar ∧ Text.Trimmed scalar) :
    inputTexts [';'] (optionalText encodeStrArray scalars) = scalars := by
  have hpieces := @inputTexts_optionalText _ encodeStrArray scalars ';' id []
  rw [List.map_id] at hpieces
  apply hpieces
  · intro _
    rw [encodeStrArray_eq]
    exact (Text.Trimmed.intercalate (Text.trimmed_of_all (by decide)) fun scalar hscalar =>
      (h scalar hscalar).2).strip
  · exact fun scalar hscalar => (h scalar hscalar).1

theorem parseTypeName_piece (value : IValue σ) :
    ';' ∉ parseTypeName value ∧ Text.Trimmed (parseTypeName value) := by
  have hnames : ∀ name ∈ ["Bool".toList, "Int".toList, "Double".toList, "Complex".toList, "Others".toList],
      ';' ∉ name ∧ Text.Trimmed name := by
    decide +kernel
  have hmem : parseTypeName value ∈
      ["Bool".toList, "Int".toList, "Double".toList, "Complex".toList, "Others".toList] := by
    rw [parseTypeName.eq_def]
    split <;> decide +kernel
  exact hnames _ hmem

/-! ### Reading -/

/-- What is read for an input. -/
def readBack (value : IValue σ) : Input :=
  if hasTensors value then expected types value else .tensorList [none]

section

variable {tensors tensorlists scalars dtypes : List Text} {dtype : Text} {i j k : ℕ}

theorem parseInputs_tensor (h : dtype ∉ inputTags) :
    parseInputs tensors tensorlists scalars (dtype :: dtypes) i j k =
      (parseTensorMetadata (getStrFromList tensors i)).bind fun tensor =>
        (parseInputs tensors tensorlists scalars dtypes (i + 1) j k).map (.tensor tensor :: ·) := by
  rw [parseInputs, if_pos (show dtype ∉ otherTypes from h)]
  cases parseTensorMetadata (getStrFromList tensors i) with
  | none => rfl
  | some tensor => exact Option.map_eq_bind.symm

theorem parseInputs_tensorList :
    parseInputs tensors tensorlists scalars ("TensorList".toList :: dtypes) i j k =
      (parseTensorList (getStrFromList tensorlists j)).bind fun tensorList =>
        (parseInputs tensors tensorlists scalars dtypes i (j + 1) k).map (.tensorList tensorList :: ·) := by
  rw [parseInputs, if_neg (by decide +kernel), if_pos rfl]
  cases parseTensorList (getStrFromList tensorlists j) with
  | none => rfl
  | some tensorList => exact Option.map_eq_bind.symm

theorem parseInputs_scalar :
    parseInputs tensors tensorlists scalars ("Scalar".toList :: dtypes) i j k =
      (parseInputs tensors tensorlists scalars dtypes i j (k + 1)).map
        (.text (getStrFromList scalars k) :: ·) := by
  rw [parseInputs, if_neg (by decide +kernel), if_neg (by decide +kernel), if_pos rfl]
  exact Option.map_eq_bind.symm

theorem parseInputs_mark (h : dtype = "None".toList ∨ dtype = "ScalarList".toList) :
    parseInputs tensors tensorlists scalars (dtype :: dtypes) i j k =
      (parseInputs tensors tensorlists scalars dtypes i j k).map (.text dtype :: ·) := by
  have hmark : dtype ∈ otherTypes ∧ dtype ≠ "TensorList".toList ∧ dtype ≠ "Scalar".toList := by
    rcases h with rfl | rfl
    · decide +kernel
    · decide +kernel
  rw [parseInputs, if_neg (not_not.mpr hmark.1), if_neg hmark.2.1, if_neg hmark.2.2]
  exact Option.map_eq_bind.symm

theorem getStrFromList_of_drop {strs rest : List Text} {str : Text} (h : strs.drop i = str :: rest) :
    getStrFromList strs i = str ∧ strs.drop (i + 1) = rest := by
  constructor
  · rw [getStrFromList, List.getD_eq_getElem?_getD, ← Nat.add_zero i, ← List.getElem?_drop, h]
    rfl
  · rw [← List.drop_drop, h]
    rfl

theorem plain_of_mem_getTensorList {t : Profiler.TensorMetadata} {ts : List (Tensor σ)}
    (h : t ∈ getTensorList types ts) : Plain t := by
  obtain ⟨t, -, rfl⟩ := List.mem_map.mp h
  exact plain_ofTensor t

theorem plain_of_recordedTensors {t : Profiler.TensorMetadata} {value : IValue σ}
    (h : t ∈ recordedTensors types value) : Plain t := by
  unfold recordedTensors at h
  split at h
  · split_ifs at h
    · rw [List.mem_singleton.mp h]
      exact plain_ofTensor _
    · cases h
  · cases h

theorem plain_of_recordedTensorlists {t : Profiler.TensorMetadata} {ts : List Profiler.TensorMetadata}
    {value : IValue σ} (h : ts ∈ recordedTensorlists types value) (ht : t ∈ ts) : Plain t := by
  unfold recordedTensorlists at h
  split at h
  · rw [List.mem_singleton.mp h] at ht
    exact plain_of_mem_getTensorList types ht
  · cases h

theorem isEmpty_getTensorList (ts : List (Tensor σ)) :
    (getTensorList types ts).isEmpty = !hasTensors (.tensorList ts) := by
  rw [getTensorList, List.isEmpty_map, hasTensors, Bool.eq_iff_iff]
  simp

theorem readBack_tensorList (ts : List (Tensor σ)) : readBack types (.tensorList ts) = .tensorList
    (if (getTensorList types ts).isEmpty then [none]
      else (getTensorList types ts).map fun t => some (ofRecorded t)) := by
  rw [readBack, isEmpty_getTensorList]
  cases hasTensors (.tensorList ts) with
  | false => rfl
  | true => rfl

/-- The indexes stay at the inputs that are still to be read. -/
theorem parseInputs_recorded {inputs : List (IValue σ)}
    (htensors : tensors.drop i = (inputs.flatMap (recordedTensors types)).map encodeTensor)
    (htensorlists : tensorlists.drop j = (inputs.flatMap (recordedTensorlists types)).map encodeTensorList)
    (hscalars : scalars.drop k = inputs.flatMap recordedScalars) :
    parseInputs tensors tensorlists scalars (inputs.map (inputDtype types)) i j k =
      some (inputs.map (readBack types)) := by
  induction inputs generalizing i j k with
  | nil => rfl
  | cons value inputs ih =>
    rw [List.flatMap_cons, List.map_append] at htensors htensorlists
    rw [List.flatMap_cons] at hscalars
    rw [List.map_cons, List.map_cons]
    cases value with
    | tensor t =>
      by_cases ht : isValidTensor t = true
      · -- A tensor takes the next text.
        have hdtype : inputDtype types (.tensor t) = types.name t.scalarType := if_pos ht
        have hrecorded : recordedTensors types (.tensor t) = [.ofTensor types t] := if_pos ht
        have hread : readBack types (.tensor t) = .tensor (some (ofRecorded (.ofTensor types t))) := if_pos ht
        rw [hrecorded] at htensors
        obtain ⟨hget, hdrop⟩ := getStrFromList_of_drop htensors
        rw [hdtype, hread, parseInputs_tensor (types.notMem_tags _), hget,
          (plain_ofTensor t).parseTensorMetadata, ih hdrop htensorlists hscalars]
        rfl
      · have hdtype : inputDtype types (.tensor t) = "None".toList := if_neg ht
        have hrecorded : recordedTensors types (.tensor t) = [] := if_neg ht
        have hread : readBack types (.tensor t) = .text "None".toList := if_neg ht
        rw [hrecorded] at htensors
        rw [hdtype, hread, parseInputs_mark (.inl rfl), ih htensors htensorlists hscalars]
        rfl
    | tensorList ts =>
      have hplain : ∀ t ∈ getTensorList types ts, Plain t := fun t => plain_of_mem_getTensorList types
      have hread : readBack types (.tensorList ts) = .tensorList
          (if (getTensorList types ts).isEmpty then [none]
            else (getTensorList types ts).map fun t => some (ofRecorded t)) :=
        readBack_tensorList types ts
      obtain ⟨hget, hdrop⟩ := getStrFromList_of_drop htensorlists
      show parseInputs _ _ _ ("TensorList".toList :: _) i j k = _
      rw [hread, parseInputs_tensorList, hget, parseTensorList_encode hplain, ih htensors hdrop hscalars]
      rfl
    | bool | int | double | complexDouble | symbolic =>
      obtain ⟨hget, hdrop⟩ := getStrFromList_of_drop hscalars
      show parseInputs _ _ _ ("Scalar".toList :: _) i j k = _
      rw [parseInputs_scalar, hget, ih htensors htensorlists hdrop]
      rfl
    | list values =>
      have hdtype : inputDtype types (.list values) = "None".toList ∨
          inputDtype types (.list values) = "ScalarList".toList := by
        cases values with
        | nil => exact .inr rfl
        | cons value values =>
          by_cases hscalar : value.isScalar = true
          · exact .inr (if_pos hscalar)
          · exact .inl (if_neg hscalar)
      rw [parseInputs_mark hdtype, ih htensors htensorlists hscalars]
      rfl
    | string | none =>
      show parseInputs _ _ _ ("None".toList :: _) i j k = _
      rw [parseInputs_mark (.inl rfl), ih htensors htensorlists hscalars]
      rfl

end

/-- What is read of an operator. -/
theorem torchOpInputs_onOpStart {config : ProfilerConfig} (h : config.reportDetails = true)
    (fn : RecordFunction σ) :
    torchOpInputs (fieldDict (onOpStart types config fn).fields) = some (fn.inputs.map (readBack types)) := by
  have hrecorded := recorded_onOpStart types h fn
  have hdtypes : (onOpStart types config fn).inputDtypes = fn.inputs.map (inputDtype types) :=
    hrecorded.dtypes
  have htensors : (onOpStart types config fn).inputTensors = fn.inputs.flatMap (recordedTensors types) :=
    hrecorded.tensors
  have htensorlists : (onOpStart types config fn).inputTensorlists =
      fn.inputs.flatMap (recordedTensorlists types) :=
    hrecorded.tensorlists
  have hscalars : (onOpStart types config fn).inputScalars = fn.inputs.flatMap recordedScalars :=
    hrecorded.scalars
  have hplain : ∀ t ∈ fn.inputs.flatMap (recordedTensors types), Plain t := by
    intro t ht
    obtain ⟨value, -, ht⟩ := List.mem_flatMap.mp ht
    exact plain_of_recordedTensors types ht
  have hplains : ∀ ts ∈ fn.inputs.flatMap (recordedTensorlists types), ∀ t ∈ ts, Plain t := by
    intro ts hts t ht
    obtain ⟨value, -, hts⟩ := List.mem_flatMap.mp hts
    exact plain_of_recordedTensorlists types hts ht
  have hscalar : ∀ scalar ∈ fn.inputs.flatMap recordedScalars, ';' ∉ scalar ∧ Text.Trimmed scalar := by
    intro scalar hscalar
    obtain ⟨value, -, hscalar⟩ := List.mem_flatMap.mp hscalar
    rw [recordedScalars] at hscalar
    split_ifs at hscalar
    · rw [List.mem_singleton.mp hscalar]
      exact parseTypeName_piece value
    · cases hscalar
  obtain ⟨h3, h5, h6, h7⟩ := fieldDict_opRange (onOpStart types config fn)
  rw [torchOpInputs, parseInputFromString, TorchOpBean.inputDtypes, TorchOpBean.inputTensors,
    TorchOpBean.inputTensorlists, TorchOpBean.inputScalars, h3, h5, h6, h7, hdtypes, htensors, htensorlists,
    hscalars, inputTexts_inputDtypes, inputTexts_encodeTensors hplain, inputTexts_encodeTensorLists hplains,
    inputTexts_scalars hscalar]
  exact parseInputs_recorded types rfl rfl rfl

/-! ### Lists without tensors -/

/-- There is no `None` in a list that is to be read. -/
theorem none_notMem_expected {value : IValue σ} {ts : List (Option TensorMetadata)}
    (h : expected types value = .tensorList ts) : none ∉ ts := by
  cases value with
  | tensor t =>
    rw [expected] at h
    split_ifs at h
  | tensorList ts' =>
    cases h
    intro hmem
    obtain ⟨t, -, hnone⟩ := List.mem_map.mp hmem
    cases hnone
  | bool | int | double | complexDouble | symbolic | list values | string | none => cases h

theorem readBack_of_not_hasTensors {value : IValue σ} (h : ¬ hasTensors value = true) :
    readBack types value = .tensorList [none] :=
  if_neg h

/-- The inputs survive if and only if every list of tensors has one that is recorded. -/
theorem survives_iff {config : ProfilerConfig} (h : config.reportDetails = true) (fn : RecordFunction σ) :
    Survives types fn.inputs (torchOpInputs (fieldDict (onOpStart types config fn).fields)) ↔
      ∀ value ∈ fn.inputs, hasTensors value = true := by
  rw [torchOpInputs_onOpStart types h fn]
  constructor
  · rintro ⟨-, hnone⟩ value hvalue
    by_contra hempty
    -- The list is read as `[None]`.
    have hmem : Input.tensorList [none] ∈ fn.inputs.map (readBack types) := by
      rw [← readBack_of_not_hasTensors types hempty]
      exact List.mem_map_of_mem hvalue
    exact hnone _ rfl [none] hmem List.mem_cons_self
  · intro hall
    have heq : fn.inputs.map (readBack types) = fn.inputs.map (expected types) := by
      apply List.map_congr_left
      intro value hvalue
      exact if_pos (hall value hvalue)
    refine ⟨congrArg some heq, fun read hread ts hts => ?_⟩
    rw [← Option.some.inj hread, heq] at hts
    obtain ⟨value, -, hvalue⟩ := List.mem_map.mp hts
    exact none_notMem_expected types hvalue

/-! ### Examples of operators -/

/-- Some types of elements. -/
inductive ScalarType
  | float
  | half
  | long
  | complexFloat
  deriving DecidableEq

def scalarTypeName : ScalarType → Text
  | .float => "float".toList
  | .half => "c10::Half".toList
  | .long => "long int".toList
  | .complexFloat => "c10::complex<float>".toList

def scalarTypes : TypeMeta ScalarType where
  name := scalarTypeName
  elementSize
    | .float => 4
    | .half => 2
    | .long | .complexFloat => 8
  name_ne_nil s := by cases s <;> decide +kernel
  separators s := by cases s <;> decide +kernel
  trimmed s := by cases s <;> decide +kernel
  notMem_tags s := by cases s <;> decide +kernel

def allDetails : ProfilerConfig where
  reportInputShapes := true
  withStack := true
  withModules := false
  profileMemory := true

def exampleTensor (impl : ℕ) (scalarType : ScalarType) (sizes : List ℤ) : Tensor ScalarType where
  impl := impl
  storage := some (impl + 64)
  scalarType := scalarType
  sizes := sizes
  strides := sizes.map fun _ => 1
  deviceType := 20
  deviceIndex := 0

/-- An operator with inputs. -/
def exampleFunction (inputs : List (IValue ScalarType)) : RecordFunction ScalarType where
  clockTime := 1
  seqNr := 2
  processId := 3
  threadId := 4
  forwardThreadId := 0
  isAsync := false
  name := "aten::cat".toList
  scope := 0
  inputs := inputs
  stack := ["model.py(3): forward".toList]
  moduleHierarchy := []

/-- A list with two tensors and one that is not defined, a tensor without dimensions, a scalar and a text. -/
def mixedInputs : List (IValue ScalarType) :=
  [.tensorList [exampleTensor 0x1000 .float [2, 3], { exampleTensor 0x1100 .half [1] with defined := false },
      exampleTensor 0x1200 .complexFloat [4]],
    .tensor (exampleTensor 0x1300 .long []), .int, .string]

theorem survives_mixedInputs : Survives scalarTypes mixedInputs
    (torchOpInputs (fieldDict (onOpStart scalarTypes allDetails (exampleFunction mixedInputs)).fields)) :=
  (@survives_iff _ scalarTypes allDetails rfl (exampleFunction mixedInputs)).mpr (by decide)

/-- An empty list of tensors is read as a list with one `None`. -/
theorem not_survives_emptyList : ¬ Survives scalarTypes [.tensorList []]
    (torchOpInputs (fieldDict
      (onOpStart scalarTypes allDetails (exampleFunction [.tensorList []])).fields)) := by
  have hread : torchOpInputs (fieldDict
      (onOpStart scalarTypes allDetails (exampleFunction [.tensorList []])).fields) =
        some [.tensorList [none]] := by
    decide +kernel
  rw [hread]
  rintro ⟨-, hnone⟩
  exact hnone _ rfl [none] List.mem_cons_self List.mem_cons_self

end EventTreeParser

end TorchNpu.Profiler
