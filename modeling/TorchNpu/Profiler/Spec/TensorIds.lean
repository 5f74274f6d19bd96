/-
  What the ids of the tensors say, and which events get them.
-/
import TorchNpu.Profiler.EventTree

namespace TorchNpu.Profiler.EventTreeParser

/-- The ids that the references to the tensors are to get. -/
structure IdsAssigned (tensors : List RawTensorInfo) (refs : List IdReference) : Prop where
  length_eq : refs.length = tensors.length
  isSome_allocationId : ∀ ref ∈ refs, ref.allocationId.isSome
  /-- Two references are to one storage when they have the same key, and it is not freed from the one up to
  the other. -/
  allocationId_eq_iff : ∀ {i j : ℕ} {t t' : RawTensorInfo} {ref ref' : IdReference}, i < j →
    tensors[i]? = some t → tensors[j]? = some t' → refs[i]? = some ref → refs[j]? = some ref' →
    (ref.allocationId = ref'.allocationId ↔ t.key = t'.key ∧
      ∀ (k : ℕ) (u : RawTensorInfo), i ≤ k → k < j → tensors[k]? = some u → u.key = t.key → u.isFree = false)
  /-- The storages that have a tensor give an id to all their references. -/
  isSome_tensorId_iff : ∀ ref ∈ refs, (ref.tensorId.isSome ↔
    ∃ (i : ℕ) (t : RawTensorInfo) (ref' : IdReference), tensors[i]? = some t ∧ refs[i]? = some ref' ∧
      ref'.allocationId = ref.allocationId ∧ t.impl.isSome)
  tensorId_eq_iff : ∀ ref ∈ refs, ∀ ref' ∈ refs, ref.tensorId.isSome → ref'.tensorId.isSome →
    (ref.tensorId = ref'.tensorId ↔ ref.allocationId = ref'.allocationId)

/-! ### The ids -/

theorem getElem?_allocationIds_eq_iff {tensors : List RawTensorInfo} {i j : ℕ} (hij : i < j)
    {t t' : RawTensorInfo} (hi : tensors[i]? = some t) (hj : tensors[j]? = some t') :
    (allocationIds tensors)[i]? = (allocationIds tensors)[j]? ↔
      t.key = t'.key ∧ ∀ (k : ℕ) (u : RawTensorInfo), i ≤ k → k < j → tensors[k]? = some u →
        u.key = t.key → u.isFree = false := by
  have hkeys : ∀ {k : ℕ} {u : RawTensorInfo}, tensors[k]? = some u →
      (tensors.map fun t => (t.key, t.isFree))[k]? = some (u.key, u.isFree) := by
    intro k u hk
    rw [List.getElem?_map, hk, Option.map_some]
  rw [allocationIds, Naming.names_eq_names_iff Naming.distinct_empty hij (hkeys hi) (hkeys hj)]
  refine and_congr_right fun _ => ⟨?_, ?_⟩
  · intro h k u hik hkj hu hkey
    apply Bool.eq_false_of_not_eq_true
    intro hfree
    apply h k hik hkj
    rw [hkeys hu, hkey, hfree]
  · intro h k hik hkj hk
    rw [List.getElem?_map, Option.map_eq_some_iff] at hk
    obtain ⟨u, hu, he⟩ := hk
    have hfree := h k u hik hkj hu (congrArg Prod.fst he)
    have hfreed : u.isFree = true := congrArg Prod.snd he
    rw [hfree] at hfreed
    exact absurd hfreed (by simp)

theorem length_allocationIds (tensors : List RawTensorInfo) :
    (allocationIds tensors).length = tensors.length := by
  rw [allocationIds, Naming.length_names, List.length_map]

theorem mem_tensorSet {tensors : List RawTensorInfo} {ids : List (Option ℕ)} {id : Option ℕ} :
    id ∈ tensorSet tensors ids ↔ ∃ (i : ℕ) (t : RawTensorInfo), tensors[i]? = some t ∧ ids[i]? = some id ∧ t.impl.isSome := by
  rw [tensorSet, List.mem_map]
  constructor
  · rintro ⟨⟨t, id⟩, hmem, rfl⟩
    rw [List.mem_filter] at hmem
    obtain ⟨i, hi⟩ := List.mem_iff_getElem?.mp hmem.1
    rw [List.getElem?_zip_eq_some] at hi
    exact ⟨i, t, hi.1, hi.2, hmem.2⟩
  · rintro ⟨i, t, ht, hid, himpl⟩
    refine ⟨(t, id), ?_, rfl⟩
    rw [List.mem_filter]
    exact ⟨List.mem_iff_getElem?.mpr ⟨i, List.getElem?_zip_eq_some.mpr ⟨ht, hid⟩⟩, himpl⟩

/-- The allocation ids of the tensors kept all have a tensor id, so that step 5 never returns early. -/
theorem exists_idMap {kept ids : List (Option ℕ)} {id : Option ℕ} (hmem : id ∈ ids) (hkept : id ∈ kept) :
    ∃ tensorId, (idMap kept ids).map id = some tensorId := by
  apply Naming.exists_map_foldl_enter
  rw [List.mem_filter]
  exact ⟨hmem, by simpa using hkept⟩

theorem distinct_idMap (kept ids : List (Option ℕ)) : (idMap kept ids).Distinct :=
  Naming.distinct_foldl_enter Naming.distinct_empty _

local instance idsLawful : LawfulBEq (Option ℕ) := inferInstance

/-- The id that step 5 writes. -/
def tensorIdOf (kept : List (Option ℕ)) (idMap : Naming (Option ℕ)) (allocationId : Option ℕ) : Option ℕ :=
  if allocationId ∈ kept then idMap.map allocationId else none

theorem writeBack_eq_map {kept : List (Option ℕ)} {idMap : Naming (Option ℕ)} {ids : List (Option ℕ)}
    (h : ∀ id ∈ ids, id ∈ kept → ∃ tensorId, idMap.map id = some tensorId) :
    writeBack kept idMap ids =
      ids.map fun allocationId => { tensorId := tensorIdOf kept idMap allocationId, allocationId } := by
  induction ids with
  | nil => rfl
  | cons id ids ih =>
    have ih := ih fun id' hid' => h id' (List.mem_cons_of_mem id hid')
    rw [List.map_cons, writeBack, tensorIdOf]
    split
    · rename_i hkept
      obtain ⟨tensorId, hid⟩ := h id (List.mem_cons_self ..) hkept
      simp only [hid]
      rw [ih]
    · rw [ih]

theorem assignIds_eq (tensors : List RawTensorInfo) :
    assignIds tensors = (allocationIds tensors).map fun allocationId =>
      { tensorId := tensorIdOf (tensorSet tensors (allocationIds tensors))
          (idMap (tensorSet tensors (allocationIds tensors)) (allocationIds tensors)) allocationId
        allocationId } :=
  writeBack_eq_map fun _ hid hkept => exists_idMap hid hkept

/-- The references get the ids that they are to get. -/
theorem idsAssigned_assignIds (tensors : List RawTensorInfo) : IdsAssigned tensors (assignIds tensors) := by
  rw [assignIds_eq]
  generalize hids : allocationIds tensors = ids
  generalize hkept : tensorSet tensors ids = kept
  have hisSome : ∀ id ∈ ids, ((tensorIdOf kept (idMap kept ids) id).isSome ↔ id ∈ kept) := by
    intro id hid
    rw [tensorIdOf]
    split
    · rename_i h
      obtain ⟨tensorId, htensorId⟩ := exists_idMap hid h
      simp [htensorId, h]
    · rename_i h
      simp [h]
  constructor
  · rw [List.length_map, ← hids, length_allocationIds]
  · intro ref href
    obtain ⟨id, hid, rfl⟩ := List.mem_map.mp href
    obtain ⟨i, hi⟩ := List.mem_iff_getElem?.mp hid
    rw [← hids, allocationIds] at hi
    obtain ⟨number, rfl⟩ := Naming.exists_names hi
    rfl
  · intro i j t t' ref ref' hij hi hj hri hrj
    rw [List.getElem?_map, Option.map_eq_some_iff] at hri hrj
    obtain ⟨id, hid, rfl⟩ := hri
    obtain ⟨id', hid', rfl⟩ := hrj
    have hiff := getElem?_allocationIds_eq_iff hij hi hj
    rw [hids, hid, hid', Option.some_inj] at hiff
    exact hiff
  · intro ref href
    obtain ⟨id, hid, rfl⟩ := List.mem_map.mp href
    rw [hisSome id hid, ← hkept, mem_tensorSet]
    constructor
    · rintro ⟨i, t, ht, hi, himpl⟩
      exact ⟨i, t, _, ht, by rw [List.getElem?_map, hi, Option.map_some], rfl, himpl⟩
    · rintro ⟨i, t, ref', ht, hi, he, himpl⟩
      rw [List.getElem?_map, Option.map_eq_some_iff] at hi
      obtain ⟨id', hid', rfl⟩ := hi
      dsimp only at he
      rw [he] at hid'
      exact ⟨i, t, ht, hid', himpl⟩
  · intro ref href ref' href' hsome hsome'
    obtain ⟨id, hid, rfl⟩ := List.mem_map.mp href
    obtain ⟨id', hid', rfl⟩ := List.mem_map.mp href'
    have hmem := (hisSome id hid).mp hsome
    have hmem' := (hisSome id' hid').mp hsome'
    obtain ⟨tensorId, htensorId⟩ := exists_idMap hid hmem
    dsimp only
    rw [tensorIdOf, tensorIdOf, if_pos hmem, if_pos hmem']
    constructor
    · intro he
      rw [htensorId] at he
      exact (distinct_idMap kept ids).injective htensorId he.symm
    · intro he
      rw [he]

/-! ### The events that can be read -/

/-- Every tensor of an input list was parsed. -/
def ItemParsed : Input → Prop
  | .tensorList ts => none ∉ ts
  | _ => True

def ModuleParamParsed (p : ModuleParam) : Prop := p.tensor ≠ none

def OptimizerParamParsed (p : OptimizerParam) : Prop :=
  p.tensor ≠ none ∧ ∃ state, p.state = some state ∧ ∀ entry ∈ state, entry.2 ≠ none

/-- Every tensor of the parameters that are parsed at all was parsed. -/
def ParamsParsed (moduleParameters : Option (List (Option ModuleParam)))
    (optimizerParameters : Option (List (Option OptimizerParam))) : Prop :=
  match moduleParameters, optimizerParameters with
  | some ps, _ => ∀ p, some p ∈ ps → ModuleParamParsed p
  | none, some ps => ∀ p, some p ∈ ps → OptimizerParamParsed p
  | none, none => True

/-- The parameters of a call are looked at the first time that its key is seen. -/
def EventParsed (seen : ℤ → Prop) : ExtraFields → Prop
  | .torchOp _ _ inputs => ∀ item ∈ inputs, ItemParsed item
  | .allocation .. => True
  | .pyCall _ none _ _ => True
  | .pyCall _ (some key) moduleParameters optimizerParameters =>
    ¬ seen key → ParamsParsed moduleParameters optimizerParameters

/-- The key of a Python call. -/
def callKey (ev : ProfilerEvent) : Option ℤ :=
  match ev.extraFields with
  | .pyCall _ key _ _ => key
  | _ => none

/-- Every event is parsed, where the calls before it are the ones seen. -/
def EventsParsed (sortedEvents : List ProfilerEvent) : Prop :=
  ∀ before ev after, sortedEvents = before ++ ev :: after →
    EventParsed (fun key => ∃ ev' ∈ before, callKey ev' = some key) ev.extraFields

theorem isSome_mapM {α β : Type*} (f : α → Option β) (as : List α) :
    (as.mapM f).isSome ↔ ∀ a ∈ as, (f a).isSome := by
  induction as with
  | nil => simp
  | cons a as ih =>
    rw [List.forall_mem_cons, ← ih, List.mapM_cons]
    cases f a <;> cases as.mapM f <;> simp

theorem isSome_readTensor (t : Option TensorMetadata) : (readTensor t).isSome ↔ t ≠ none := by
  cases t <;> simp [readTensor]

theorem isSome_itemTensors (item : Input) : (itemTensors item).isSome ↔ ItemParsed item := by
  cases item with
  | tensor t => simp [itemTensors, ItemParsed]
  | text text => simp [itemTensors, ItemParsed]
  | tensorList ts =>
    rw [itemTensors, ItemParsed, isSome_mapM]
    simp only [isSome_readTensor]
    exact ⟨fun h hmem => h none hmem rfl, fun h t ht he => h (he ▸ ht)⟩

theorem isSome_moduleParamTensors (p : ModuleParam) :
    (moduleParamTensors (some p)).isSome ↔ ModuleParamParsed p := by
  rw [moduleParamTensors, ModuleParamParsed, ← isSome_readTensor]
  cases readTensor p.tensor <;> simp

theorem isSome_optimizerParamTensors (p : OptimizerParam) :
    (optimizerParamTensors (some p)).isSome ↔ OptimizerParamParsed p := by
  rw [optimizerParamTensors, OptimizerParamParsed, ← isSome_readTensor]
  cases readTensor p.tensor with
  | none => simp
  | some tensor =>
    cases hstate : p.state with
    | none => simp
    | some state =>
      have hmapM := isSome_mapM (fun entry : Text × Option TensorMetadata => readTensor entry.2) state
      simp only [isSome_readTensor] at hmapM
      cases hstates : state.mapM fun entry => readTensor entry.2 with
      | none =>
        rw [hstates] at hmapM
        simpa [hstates] using hmapM
      | some states =>
        rw [hstates] at hmapM
        simpa [hstates] using hmapM

theorem isSome_paramTensors (moduleParameters : Option (List (Option ModuleParam)))
    (optimizerParameters : Option (List (Option OptimizerParam))) :
    (paramTensors moduleParameters optimizerParameters).isSome ↔
      ParamsParsed moduleParameters optimizerParameters := by
  -- A parameter that is `None` is passed over.
  have hall : ∀ {α : Type} (f : Option α → Option (List RawTensorInfo)) (parsed : α → Prop),
      (f none).isSome → (∀ p, (f (some p)).isSome ↔ parsed p) → ∀ ps : List (Option α),
      (((ps.mapM f).map List.flatten).isSome ↔ ∀ p, some p ∈ ps → parsed p) := by
    intro α f parsed hnone hsome ps
    rw [Option.isSome_map, isSome_mapM]
    constructor
    · intro h p hp
      exact (hsome p).mp (h (some p) hp)
    · intro h p hp
      cases p with
      | none => exact hnone
      | some p => exact (hsome p).mpr (h p hp)
  cases moduleParameters with
  | some ps => exact hall moduleParamTensors ModuleParamParsed rfl isSome_moduleParamTensors ps
  | none =>
    cases optimizerParameters with
    | some ps => exact hall optimizerParamTensors OptimizerParamParsed rfl isSome_optimizerParamTensors ps
    | none => simp [paramTensors, ParamsParsed]

theorem isSome_eventTensors (seenPycalls : List ℤ) (fields : ExtraFields) :
    (eventTensors seenPycalls fields).isSome ↔ EventParsed (· ∈ seenPycalls) fields := by
  cases fields with
  | torchOp endTimeNs forwardTid inputs =>
    rw [eventTensors, EventParsed, Option.isSome_map, isSome_mapM]
    simp only [isSome_itemTensors]
  | allocation ptr allocSize deviceType deviceIndex => simp [eventTensors, EventParsed]
  | pyCall endTimeNs key moduleParameters optimizerParameters =>
    cases key with
    | none => simp [eventTensors, EventParsed]
    | some key =>
      rw [eventTensors, EventParsed, ← isSome_paramTensors]
      split
      · rename_i hseen
        simp [hseen]
      · rename_i hseen
        simp [hseen]

/-- After an event its key is seen. -/
theorem mem_seenPycalls {seenPycalls seenPycalls' : List ℤ} {ev : ProfilerEvent}
    {tensors : List RawTensorInfo} (h : eventTensors seenPycalls ev.extraFields = some (tensors, seenPycalls'))
    (key : ℤ) : key ∈ seenPycalls' ↔ key ∈ seenPycalls ∨ callKey ev = some key := by
  rw [callKey]
  cases hfields : ev.extraFields with
  | torchOp endTimeNs forwardTid inputs =>
    rw [hfields, eventTensors, Option.map_eq_some_iff] at h
    obtain ⟨tensors', -, he⟩ := h
    obtain ⟨-, rfl⟩ := Prod.mk.inj he
    simp
  | allocation ptr allocSize deviceType deviceIndex =>
    rw [hfields, eventTensors, Option.some_inj] at h
    obtain ⟨-, rfl⟩ := Prod.mk.inj h
    simp
  | pyCall endTimeNs key' moduleParameters optimizerParameters =>
    cases key' with
    | none =>
      rw [hfields, eventTensors, Option.some_inj] at h
      obtain ⟨-, rfl⟩ := Prod.mk.inj h
      simp
    | some key' =>
      rw [hfields, eventTensors] at h
      split at h
      · rename_i hseen
        rw [Option.some_inj] at h
        obtain ⟨-, rfl⟩ := Prod.mk.inj h
        simp only [Option.some_inj]
        exact ⟨Or.inl, fun h => h.elim id fun he => he ▸ hseen⟩
      · rw [Option.map_eq_some_iff] at h
        obtain ⟨tensors', -, he⟩ := h
        obtain ⟨-, rfl⟩ := Prod.mk.inj he
        rw [List.mem_cons, Option.some_inj, or_comm]
        exact or_congr_right eq_comm

/-- `get_tensor_info` reads the events that are parsed, from a loop's middle on. -/
theorem isSome_tensorLoop (sortedEvents : List ProfilerEvent) (seenPycalls : List ℤ) :
    (tensorLoop sortedEvents seenPycalls).isSome ↔
      ∀ before ev after, sortedEvents = before ++ ev :: after →
        EventParsed (fun key => key ∈ seenPycalls ∨ ∃ ev' ∈ before, callKey ev' = some key)
          ev.extraFields := by
  induction sortedEvents generalizing seenPycalls with
  | nil => simp [tensorLoop]
  | cons ev sortedEvents ih =>
    have hhead := isSome_eventTensors seenPycalls ev.extraFields
    have hseen : ∀ ev : ProfilerEvent,
        EventParsed (fun key => key ∈ seenPycalls ∨ ∃ ev' ∈ ([] : List ProfilerEvent), callKey ev' = some key)
          ev.extraFields = EventParsed (· ∈ seenPycalls) ev.extraFields := by
      intro ev
      simp
    rw [tensorLoop]
    cases hev : eventTensors seenPycalls ev.extraFields with
    | none =>
      rw [hev] at hhead
      apply iff_of_false (by simp)
      intro h
      have hparsed := h [] ev sortedEvents rfl
      rw [hseen] at hparsed
      exact absurd (hhead.mpr hparsed) (by simp)
    | some result =>
      obtain ⟨tensors, seenPycalls'⟩ := result
      rw [hev] at hhead
      have htail : (tensorLoop (ev :: sortedEvents) seenPycalls).isSome =
          (tensorLoop sortedEvents seenPycalls').isSome := by
        rw [tensorLoop, hev]
        change (do let rest ← tensorLoop sortedEvents seenPycalls'; return tensors ++ rest).isSome = _
        cases tensorLoop sortedEvents seenPycalls' <;> rfl
      rw [tensorLoop, hev] at htail
      rw [htail, ih seenPycalls']
      have hkeys : ∀ before : List ProfilerEvent,
          (fun key => key ∈ seenPycalls' ∨ ∃ ev' ∈ before, callKey ev' = some key) =
            fun key => key ∈ seenPycalls ∨ ∃ ev' ∈ ev :: before, callKey ev' = some key := by
        intro before
        funext key
        rw [mem_seenPycalls hev, List.exists_mem_cons_iff, or_assoc]
      constructor
      · intro h before ev' after he
        cases before with
        | nil =>
          obtain ⟨rfl, rfl⟩ := List.cons.inj he
          rw [hseen]
          exact hhead.mp rfl
        | cons first before =>
          obtain ⟨rfl, rfl⟩ := List.cons.inj he
          rw [← hkeys]
          exact h before ev' after rfl
      · intro h before ev' after he
        rw [hkeys]
        exact h (ev :: before) ev' after (by rw [he]; rfl)

/-! ### The ids of a list of events -/

/-- The events get ids as they are to get them. -/
def IdsCalculated (sortedEvents : List ProfilerEvent) : Prop :=
  ∃ tensors refs, getTensorInfo sortedEvents = some tensors ∧ calculateUniqueId sortedEvents = some refs ∧
    IdsAssigned tensors refs

theorem idsCalculated_iff (sortedEvents : List ProfilerEvent) :
    IdsCalculated sortedEvents ↔ EventsParsed sortedEvents := by
  have hsome : (getTensorInfo sortedEvents).isSome ↔ EventsParsed sortedEvents := by
    rw [getTensorInfo, isSome_tensorLoop, EventsParsed]
    simp
  rw [← hsome]
  constructor
  · rintro ⟨tensors, refs, htensors, -, -⟩
    rw [htensors]
    rfl
  · intro h
    obtain ⟨tensors, htensors⟩ := Option.isSome_iff_exists.mp h
    refine ⟨tensors, assignIds tensors, htensors, ?_, idsAssigned_assignIds tensors⟩
    rw [calculateUniqueId, htensors, Option.map_some]

/-- An empty list of tensors is written as a bracket alone, and read back as a list of one tensor that could
not be parsed. -/
theorem not_idsCalculated_emptyTensorList :
    ∃ inputs, parseInputFromString (some "TensorList".toList) none (some ['\x7d']) none = some inputs ∧
      ¬ IdsCalculated
        [{ tid := 1, startTimeNs := 0, extraFields := .torchOp 10 0 inputs },
          { tid := 1, startTimeNs := 2, extraFields := .allocation 4096 512 20 0 }] := by
  refine ⟨[.tensorList [none]], by decide +kernel, ?_⟩
  rw [idsCalculated_iff]
  intro h
  have hparsed := h [] _ _ rfl
  exact hparsed _ (List.mem_singleton_self _) (List.mem_singleton_self _)

end TorchNpu.Profiler.EventTreeParser
