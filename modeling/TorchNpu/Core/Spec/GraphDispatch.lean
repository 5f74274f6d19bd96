/-
  What an update does to the calls that were recorded.

  `bound` is the value that a recorded call gives a parameter, however it is passed.  A given value reaches its
  parameter if this is passed by keyword, or at the index of the table of the handlers; a parameter that was left out,
  or is at another index, keeps its value.
-/
import TorchNpu.Core.GraphDispatch
import Mathlib.Data.List.Forall2
import Mathlib.Tactic.Common

namespace TorchNpu.Core

variable {V : Type} {params : HandledOp → List String} {defaults : HandledOp → String → V}
  {record record' : GraphDispatchRecord V} {input : Dict String V} {key : String}

/-- The indices of the handlers are those of the operators' parameters. -/
def Fits (params : HandledOp → List String) : Prop :=
  ∀ op, (params op).idxOf op.argSpec.2 = op.argSpec.1

namespace GraphDispatchRecord

/-- The value of a parameter in a recorded call. -/
def bound (params : HandledOp → List String) (defaults : HandledOp → String → V) (record : GraphDispatchRecord V)
    (key : String) : V :=
  (record.kwargs.get? key).getD
    ((record.args[(params record.op).idxOf key]?).getD (defaults record.op key))

/-! ### The update of one record -/

theorem get?_updateKwargs (record : GraphDispatchRecord V) (input : Dict String V) (key : String) :
    (record.updateKwargs input).kwargs.get? key =
      (record.kwargs.get? key).map fun w => (input.get? key).getD w := by
  have hstep (kwargs : Dict String V) (entry : String × V) (key : String) :
      (if (kwargs.get? entry.1).isSome then kwargs.modify entry.1 fun _ => entry.2 else kwargs).get? key =
        if key = entry.1 then (kwargs.get? key).map fun _ => entry.2 else kwargs.get? key := by
    by_cases hkey : key = entry.1
    · subst hkey
      rcases h : kwargs.get? entry.1 with _ | w
      · simp [h]
      · simp [Dict.get?_modify]
    · split_ifs
      · rw [Dict.get?_modify, if_neg hkey]
      · rfl
  show (input.entries.foldl _ record.kwargs).get? key = _
  rw [@Dict.get?_foldl String V (String × V) _ _ Prod.fst (fun old entry => old.map fun _ => entry.2) hstep,
    Dict.filter_entries]
  rcases input.get? key with _ | v
  · simp
  · rfl

theorem updateArgs_eq (record : GraphDispatchRecord V) (input : Dict String V) :
    record.updateArgs input = { record with
      args := match input.get? record.op.argSpec.2 with
        | some v => record.args.set record.op.argSpec.1 v
        | none => record.args } := by
  unfold updateArgs
  rcases input.get? record.op.argSpec.2 with _ | v
  · rfl
  · dsimp only
    split_ifs with h
    · rfl
    · rw [List.set_eq_of_length_le (by omega)]

theorem op_update : (record.update input).op = record.op := by
  rw [update, updateArgs_eq]
  rfl

theorem kwargs_update : (record.update input).kwargs = (record.updateKwargs input).kwargs := by
  rw [update, updateArgs_eq]

/-- The arguments after an update: only the one at the index of the table is another one. -/
theorem getElem?_args_update (record : GraphDispatchRecord V) (input : Dict String V) (i : ℕ) :
    (record.update input).args[i]? = (record.args[i]?).map fun w =>
      if i = record.op.argSpec.1 then (input.get? record.op.argSpec.2).getD w else w := by
  rw [update, updateArgs_eq]
  show (match input.get? record.op.argSpec.2 with
    | some v => record.args.set record.op.argSpec.1 v
    | none => record.args)[i]? = _
  rcases input.get? record.op.argSpec.2 with _ | v
  · simp
  · dsimp only
    rw [List.getElem?_set]
    by_cases h : i = record.op.argSpec.1
    · subst h
      simp only [if_true, Option.getD_some]
      split_ifs with hlt
      · rw [List.getElem?_eq_getElem hlt]
        rfl
      · rw [List.getElem?_eq_none (by omega)]
        rfl
    · simp [h, Ne.symm h]

/-- The given value gets to its parameter: this is passed by keyword, or at the index of the table, or has the value
    anyway. -/
def Reached (params : HandledOp → List String) (defaults : HandledOp → String → V) (record : GraphDispatchRecord V)
    (input : Dict String V) : Prop :=
  ∀ key ∈ params record.op, ∀ v ∈ input.get? key,
    (record.kwargs.get? key).isSome ∨
      key = record.op.argSpec.2 ∧ record.op.argSpec.1 < record.args.length ∨
      record.bound params defaults key = v

/-- The named parameters have the given values, and the other ones those they had. -/
def Updated (params : HandledOp → List String) (defaults : HandledOp → String → V)
    (record record' : GraphDispatchRecord V) (input : Dict String V) : Prop :=
  ∀ key ∈ params record.op,
    record'.bound params defaults key = (input.get? key).getD (record.bound params defaults key)

/-- The value of a parameter after an update. -/
theorem bound_update (hfits : Fits params) (hkey : key ∈ params record.op) :
    (record.update input).bound params defaults key =
      if (record.kwargs.get? key).isSome ∨
          key = record.op.argSpec.2 ∧ record.op.argSpec.1 < record.args.length then
        (input.get? key).getD (record.bound params defaults key)
      else record.bound params defaults key := by
  have hindex : (params record.op).idxOf key = record.op.argSpec.1 ↔ key = record.op.argSpec.2 := by
    rw [← hfits record.op, List.idxOf_inj hkey]
  unfold bound
  rw [op_update, kwargs_update, get?_updateKwargs, getElem?_args_update]
  rcases record.kwargs.get? key with _ | w
  · simp only [hindex, Option.map_none, Option.getD_none, Option.isSome_none, Bool.false_eq_true, false_or]
    by_cases h : key = record.op.argSpec.2
    · rw [hindex.mpr h, h]
      by_cases hlt : record.op.argSpec.1 < record.args.length
      · rw [List.getElem?_eq_getElem hlt, if_pos ⟨rfl, hlt⟩]
        simp
      · rw [List.getElem?_eq_none (by omega), if_neg fun hand => hlt hand.2]
        simp
    · rw [if_neg fun hand => h hand.1]
      simp [h]
  · simp

theorem updated_iff (hfits : Fits params) :
    record.Updated params defaults (record.update input) input ↔ record.Reached params defaults input := by
  unfold Updated Reached
  apply forall₂_congr
  intro key hkey
  rw [bound_update hfits hkey]
  split_ifs with h
  · constructor
    · exact fun _ v _ => h.imp_right .inl
    · exact fun _ => rfl
  · rcases input.get? key with _ | v
    · simp
    · rw [not_or] at h
      simp [h]

/-! ### Records that stay -/

/-- The same call. -/
def Same (record record' : GraphDispatchRecord V) : Prop :=
  record'.op = record.op ∧ record'.args = record.args ∧ ∀ key, record'.kwargs.get? key = record.kwargs.get? key

/-- The given values are those that the keywords have. -/
def KeepsKwargs (record : GraphDispatchRecord V) (input : Dict String V) : Prop :=
  ∀ key, ∀ v ∈ input.get? key, ∀ w ∈ record.kwargs.get? key, v = w

/-- The given value of the table is the one of its argument. -/
def KeepsArgs (record : GraphDispatchRecord V) (input : Dict String V) : Prop :=
  ∀ v ∈ input.get? record.op.argSpec.2, ∀ w ∈ record.args[record.op.argSpec.1]?, v = w

theorem kwargs_same_iff : (∀ key, (record.updateKwargs input).kwargs.get? key = record.kwargs.get? key) ↔
    record.KeepsKwargs input := by
  apply forall_congr'
  intro key
  rw [get?_updateKwargs]
  rcases record.kwargs.get? key with _ | w
  · simp
  · rcases input.get? key with _ | v <;> simp

theorem same_updateKwargs_iff : record.Same (record.updateKwargs input) ↔ record.KeepsKwargs input := by
  rw [← kwargs_same_iff]
  exact ⟨fun h => h.2.2, fun h => ⟨rfl, rfl, h⟩⟩

theorem args_same_iff : (record.update input).args = record.args ↔ record.KeepsArgs input := by
  rw [List.ext_getElem?_iff]
  simp only [getElem?_args_update]
  constructor
  · intro h v hv w hw
    have hi := h record.op.argSpec.1
    rw [hw, hv] at hi
    simpa using hi
  · intro h i
    rcases hw : record.args[i]? with _ | w
    · rfl
    · rw [Option.map_some]
      split_ifs with hi
      · subst hi
        rcases hv : input.get? record.op.argSpec.2 with _ | v
        · rfl
        · rw [Option.getD_some, h v hv w hw]
      · rfl

theorem same_update_iff : record.Same (record.update input) ↔ record.KeepsKwargs input ∧ record.KeepsArgs input := by
  rw [← kwargs_same_iff, ← args_same_iff, ← kwargs_update]
  exact ⟨fun h => ⟨h.2.2, h.2.1⟩, fun h => ⟨op_update, h.2, h.1⟩⟩

end GraphDispatchRecord

open GraphDispatchRecord

/-! ### The update of a graph -/

variable {fails : ℕ → Option UpdateFailure} {records : List (GraphDispatchRecord V)} {inputs : List (Dict String V)}

/-- If the update returns, every record has been updated; if it raises, every record is the same. -/
def UpdateSound (params : HandledOp → List String) (defaults : HandledOp → String → V)
    (records : List (GraphDispatchRecord V)) (inputs : List (Dict String V))
    (result : Bool × List (GraphDispatchRecord V)) : Prop :=
  if result.1 then
    List.Forall₂ (fun before after => before.1.Updated params defaults after before.2) (records.zip inputs) result.2
  else List.Forall₂ Same records result.2

/-- What has been updated before the update raises had the given values. -/
def KeepsUntil (fails : ℕ → Option UpdateFailure) :
    ℕ → List (GraphDispatchRecord V) → List (Dict String V) → Prop
  | i, record :: records, input :: inputs =>
    match fails i with
    | some .taskBegin => True
    | some .noHandler => record.KeepsKwargs input
    | some .operator => record.KeepsKwargs input ∧ record.KeepsArgs input
    | none => (record.KeepsKwargs input ∧ record.KeepsArgs input) ∧ KeepsUntil fails (i + 1) records inputs
  | _, _, _ => True

theorem same_refl (record : GraphDispatchRecord V) : record.Same record :=
  ⟨rfl, rfl, fun _ => rfl⟩

theorem forall₂_same_refl (records : List (GraphDispatchRecord V)) : List.Forall₂ Same records records :=
  List.forall₂_same.mpr fun record _ => same_refl record

/-- The update of no record raises. -/
def Returns (fails : ℕ → Option UpdateFailure) (i : ℕ) (records : List (GraphDispatchRecord V)) : Prop :=
  ∀ j < records.length, fails (i + j) = none

instance (fails : ℕ → Option UpdateFailure) (i : ℕ) (records : List (GraphDispatchRecord V)) :
    Decidable (Returns fails i records) :=
  inferInstanceAs (Decidable (∀ j < records.length, fails (i + j) = none))

theorem returns_cons {i : ℕ} :
    Returns fails i (record :: records) ↔ fails i = none ∧ Returns fails (i + 1) records := by
  constructor
  · intro h
    refine ⟨h 0 (Nat.succ_pos _), fun j hj => ?_⟩
    have := h (j + 1) (Nat.succ_lt_succ hj)
    rwa [show i + (j + 1) = i + 1 + j by omega] at this
  · rintro ⟨h0, h⟩ j hj
    rcases j with _ | j
    · exact h0
    · have := h j (Nat.lt_of_succ_lt_succ hj)
      rwa [show i + 1 + j = i + (j + 1) by omega] at this

theorem updateRecords_of_returns {i : ℕ} (hlength : inputs.length = records.length) (h : Returns fails i records) :
    updateRecords fails i records inputs = (true, List.zipWith update records inputs) := by
  induction records generalizing i inputs with
  | nil => simp [updateRecords]
  | cons record records ih =>
    obtain ⟨input, inputs, rfl⟩ := List.exists_cons_of_length_eq_add_one hlength
    obtain ⟨h0, h⟩ := returns_cons.mp h
    rw [updateRecords, h0, ih (Nat.succ.inj hlength) h]
    rfl

/-- Up to where the loop raises, the records are the same if the given values are those they had. -/
theorem updateRecords_of_not_returns {i : ℕ} (hlength : inputs.length = records.length)
    (h : ¬Returns fails i records) :
    (updateRecords fails i records inputs).1 = false ∧
      (List.Forall₂ Same records (updateRecords fails i records inputs).2 ↔ KeepsUntil fails i records inputs) := by
  induction records generalizing i inputs with
  | nil => exact absurd (fun j hj => absurd hj (Nat.not_lt_zero j)) h
  | cons record records ih =>
    obtain ⟨input, inputs, rfl⟩ := List.exists_cons_of_length_eq_add_one hlength
    have hrest := forall₂_same_refl records
    rw [returns_cons, not_and] at h
    unfold updateRecords KeepsUntil
    rcases hfails : fails i with _ | _ | _ | _
    · obtain ⟨h1, h2⟩ := ih (Nat.succ.inj hlength) (h hfails)
      refine ⟨h1, ?_⟩
      show List.Forall₂ Same (record :: records) (record.update input :: _) ↔ _
      rw [List.forall₂_cons, h2, same_update_iff]
    · exact ⟨rfl, iff_of_true (forall₂_same_refl _) trivial⟩
    · refine ⟨rfl, ?_⟩
      show List.Forall₂ Same (record :: records) (record.updateKwargs input :: records) ↔ _
      rw [List.forall₂_cons, same_updateKwargs_iff]
      exact and_iff_left hrest
    · refine ⟨rfl, ?_⟩
      show List.Forall₂ Same (record :: records) (record.update input :: records) ↔ _
      rw [List.forall₂_cons, same_update_iff]
      exact and_iff_left hrest

theorem forall₂_updated_iff (hfits : Fits params) (hlength : inputs.length = records.length) :
    List.Forall₂ (fun before after => before.1.Updated params defaults after before.2) (records.zip inputs)
        (List.zipWith update records inputs) ↔ List.Forall₂ (Reached params defaults) records inputs := by
  induction records generalizing inputs with
  | nil =>
    obtain rfl := List.length_eq_zero_iff.mp hlength
    simp
  | cons record records ih =>
    obtain ⟨input, inputs, rfl⟩ := List.exists_cons_of_length_eq_add_one hlength
    rw [List.zip_cons_cons, List.zipWith_cons_cons, List.forall₂_cons, List.forall₂_cons, updated_iff hfits,
      ih (Nat.succ.inj hlength)]

/-- What the update of a graph needs: if it returns, that every given value gets to its parameter; if it raises in the
    loop, that what has been updated had the given values. -/
def UpdateNeeds (params : HandledOp → List String) (defaults : HandledOp → String → V) (autoDispatchCapture : Bool)
    (fails : ℕ → Option UpdateFailure) (records : List (GraphDispatchRecord V))
    (cpuUpdateInput : List (Dict String V)) : Prop :=
  autoDispatchCapture = true → (spreadInput records cpuUpdateInput).length = records.length →
    if Returns fails 0 records then
      List.Forall₂ (Reached params defaults) records (spreadInput records cpuUpdateInput)
    else KeepsUntil fails 0 records (spreadInput records cpuUpdateInput)

/-- An update that returns has given the recorded calls the values, and one that raises has changed none of them,
    exactly if the values get to their parameters, or are those that were there. -/
theorem updateGraph_sound_iff (hfits : Fits params) (defaults : HandledOp → String → V) (autoDispatchCapture : Bool)
    (fails : ℕ → Option UpdateFailure) (records : List (GraphDispatchRecord V))
    (cpuUpdateInput : List (Dict String V)) :
    UpdateSound params defaults records (spreadInput records cpuUpdateInput)
        (updateGraph autoDispatchCapture fails records cpuUpdateInput) ↔
      UpdateNeeds params defaults autoDispatchCapture fails records cpuUpdateInput := by
  unfold UpdateNeeds updateGraph UpdateSound
  dsimp only
  by_cases hboth : autoDispatchCapture = true ∧ (spreadInput records cpuUpdateInput).length = records.length
  · obtain ⟨rfl, hlength⟩ := hboth
    simp only [hlength, BEq.rfl, Bool.and_self, if_true, forall_const]
    split_ifs with hfalse hreturns hreturns
    · rw [updateRecords_of_returns hlength hreturns]
      exact forall₂_updated_iff hfits hlength
    · rw [(updateRecords_of_not_returns hlength hreturns).1] at hfalse
      cases hfalse
    · rw [updateRecords_of_returns hlength hreturns] at hfalse
      exact absurd rfl hfalse
    · exact (updateRecords_of_not_returns hlength hreturns).2
  · have hno : (autoDispatchCapture && (spreadInput records cpuUpdateInput).length == records.length) = false := by
      rw [Bool.and_eq_false_iff, beq_eq_false_iff_ne]
      rcases autoDispatchCapture with _ | _
      · exact .inl rfl
      · exact .inr fun h => hboth ⟨rfl, h⟩
    simp only [hno, Bool.false_eq_true, if_false]
    exact iff_of_true (forall₂_same_refl records) fun h1 h2 => absurd ⟨h1, h2⟩ hboth

/-! ### Examples -/

/-- The parameters up to those of the table. -/
def exampleParams : HandledOp → List String
  | .ifaV1 => ["query", "key", "value", "pse_shift", "atten_mask", "actual_seq_lengths", "actual_seq_lengths_kv"]
  | .ifaV2 => ["query", "key", "value", "query_rope", "key_rope", "pse_shift", "atten_mask", "actual_seq_qlen",
      "actual_seq_kvlen"]
  | .pagedAttention => ["query", "key_cache", "value_cache", "num_kv_heads", "num_heads", "scale_value",
      "block_table", "context_lens"]
  | .multiHeadLatentAttention => ["q_nope", "q_rope", "ctkv", "k_rope", "block_tables", "context_lens"]

theorem fits_exampleParams : Fits exampleParams := by
  intro op
  cases op <;> decide

def single (key : String) (v : ℕ) : Dict String ℕ :=
  Dict.empty.modify key fun _ => v

/-- A call with three arguments, and a keyword or none. -/
def exampleRecord (kwargs : Dict String ℕ) : GraphDispatchRecord ℕ :=
  ⟨.ifaV1, [1, 2, 3], kwargs⟩

/-- The update of all records. -/
def exampleInput : List (Dict String ℕ) :=
  [single "actual_seq_lengths_kv" 8]

/-- What an update with it should do. -/
def ExampleSound (fails : ℕ → Option UpdateFailure) (records : List (GraphDispatchRecord ℕ)) : Prop :=
  UpdateSound exampleParams (fun _ _ => 0) records (spreadInput records exampleInput)
    (updateGraph true fails records exampleInput)

theorem updateGraph_sound_iff_keyword :
    ExampleSound (fun _ => none) [exampleRecord (single "actual_seq_lengths_kv" 7)] ↔
      UpdateNeeds exampleParams (fun _ _ => 0) true (fun _ => none)
        [exampleRecord (single "actual_seq_lengths_kv" 7)] exampleInput :=
  updateGraph_sound_iff fits_exampleParams _ _ _ _ _

/-- A parameter that was left out at the capture keeps its default; and the first record has been changed when the
    update of the second one raises. -/
theorem not_updateGraph_sound :
    ¬ExampleSound (fun _ => none) [exampleRecord Dict.empty] ∧
      ¬ExampleSound (fun i => if i = 1 then some .operator else none)
        (List.replicate 2 (exampleRecord (single "actual_seq_lengths_kv" 7))) := by
  constructor
  · intro h
    unfold ExampleSound UpdateSound at h
    rw [if_pos (by decide)] at h
    obtain ⟨h, -⟩ := List.forall₂_cons.mp h
    exact absurd (h "actual_seq_lengths_kv" (by decide)) (by decide)
  · intro h
    unfold ExampleSound UpdateSound at h
    rw [if_neg (by decide)] at h
    obtain ⟨h, -⟩ := List.forall₂_cons.mp h
    exact absurd (h.2.2 "actual_seq_lengths_kv") (by decide)

end TorchNpu.Core
