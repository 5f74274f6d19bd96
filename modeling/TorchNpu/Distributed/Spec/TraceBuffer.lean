/-
  The entries of the flight recorder.

  `RingInv` says where the entries of the last ids are and where the next one goes.  An entry changes after its
  record, but `Entry.base` does not, and so the entries are compared by it.
-/
import TorchNpu.Distributed.TraceBuffer
import TorchNpu.Lib.Ring
import Mathlib.Data.List.Rotate

namespace TorchNpu.Distributed

variable {E : Type*}

/-- The entry without what is found out after its record. -/
def Entry.base (r : Entry E) : Entry E :=
  { r with
    start := none
    end_ := none
    duration := none
    timeDiscoveredStarted := none
    timeDiscoveredCompleted := none
    retired := false }

@[simp]
theorem Entry.base_updateState (r : Entry E) (seen : Observation) : (r.updateState seen).base = r.base := by
  simp only [updateState]
  split_ifs <;> rfl

namespace TraceBuffer

variable {b b' : TraceBuffer E}

/-! ### What is claimed -/

/-- The entries that the records have made, as far as they do not change. -/
def recordedEntries (b : TraceBuffer E) : List (Entry E) :=
  b.recorded.mapIdx fun id args => (Entry.ofArgs id args).base

/-- The entry of an id is at its index exactly while the id is among the last ones, and it is nowhere else. -/
def Placed (b : TraceBuffer E) : Prop :=
  (∀ k, (∃ e : Entry E, b.entries[k % b.maxEntries]? = some e ∧ e.id = k) ↔
    k < b.recorded.length ∧ b.recorded.length ≤ k + b.maxEntries) ∧
  ∀ i (e : Entry E), b.entries[i]? = some e →
    e.id % b.maxEntries = i ∧ b.recordedEntries[e.id]? = some e.base

/-- A dump has the last entries, in the order of their ids. -/
def Dumped (b : TraceBuffer E) : Prop :=
  ∀ look : Entry E → Observation, (b.dumpEntries look).map Entry.base =
      b.recordedEntries.drop (b.recorded.length - min b.recorded.length b.maxEntries) ∧
    (b.dumpEntries look).map Entry.id =
      List.range' (b.recorded.length - min b.recorded.length b.maxEntries) (min b.recorded.length b.maxEntries)

/-- The id that a step of `retire_id` is about. -/
def retires (b : TraceBuffer E) : TraceLabel E → Option ℕ
  | .retireId _ id _ _ => id
  | .setDuration thread _ => b.retiring thread
  | .record _ | .updateState _ _ => none

/-- `retire_id` changes the entry with its id only. -/
def RetiresOnly (b : TraceBuffer E) : Prop :=
  ∀ (l : TraceLabel E) k (b' : TraceBuffer E), b.retires l = some k → b.step l = some b' →
    b'.next = b.next ∧ b'.id = b.id ∧ b'.entries.length = b.entries.length ∧
    ∀ (i : ℕ) (e : Entry E), b.entries[i]? = some e → e.id ≠ k → b'.entries[i]? = some e

/-- The arguments of the calls of `record`. -/
def recordsOf (ls : List (TraceLabel E)) : List (RecordArgs E) :=
  ls.filterMap fun
    | .record args => some args
    | .updateState _ _ | .retireId _ _ _ _ | .setDuration _ _ => none

/-! ### The invariant -/

/-- The entries of the last ids are in their places. -/
structure RingInv (b : TraceBuffer E) : Prop where
  pos : 0 < b.maxEntries
  id : b.id = b.recorded.length
  length : b.entries.length = min b.id b.maxEntries
  next : b.next = if b.id < b.maxEntries then 0 else b.id % b.maxEntries
  entry : ∀ k, k < b.id → b.id ≤ k + b.maxEntries →
    b.entries[k % b.maxEntries]?.map Entry.base = b.recordedEntries[k]?

theorem length_recordedEntries (b : TraceBuffer E) : b.recordedEntries.length = b.recorded.length :=
  List.length_mapIdx

theorem id_of_recordedEntries {k : ℕ} {e : Entry E} (h : b.recordedEntries[k]? = some e) : e.id = k := by
  rw [recordedEntries, List.getElem?_mapIdx, Option.map_eq_some_iff] at h
  obtain ⟨args, -, rfl⟩ := h
  rfl

theorem ringInv_start {maxEntries : ℕ} (hpos : 0 < maxEntries) :
    ({ maxEntries } : TraceBuffer E).RingInv where
  pos := hpos
  id := rfl
  length := by simp
  next := (if_pos hpos).symm
  entry := nofun

/-- Replacing entries by ones with the same base. -/
theorem RingInv.set (h : b.RingInv) (hmax : b'.maxEntries = b.maxEntries) (hnext : b'.next = b.next)
    (hid : b'.id = b.id) (hrecorded : b'.recorded = b.recorded)
    (hentries : b'.entries.map Entry.base = b.entries.map Entry.base) : b'.RingInv := by
  have hlength : b'.entries.length = b.entries.length := by
    simpa using congrArg List.length hentries
  constructor
  · rw [hmax]
    exact h.pos
  · rw [hid, hrecorded, h.id]
  · rw [hlength, hid, hmax, h.length]
  · rw [hnext, hid, hmax, h.next]
  · intro k hk hk'
    rw [hid] at hk hk'
    rw [hmax] at hk' ⊢
    rw [← List.getElem?_map, hentries, List.getElem?_map, h.entry k hk hk', recordedEntries, recordedEntries,
      hrecorded]

section Push

variable (te : Entry E)

/-- The new entry is put at the index of the next id. -/
theorem RingInv.getElem?_pushEntry (h : b.RingInv) (i : ℕ) :
    (b.pushEntry te).entries[i]? = if i = b.id % b.maxEntries then some te else b.entries[i]? := by
  have hlength := h.length
  by_cases hroom : b.entries.length < b.maxEntries
  · have hid : b.id % b.maxEntries = b.entries.length := by
      rw [Nat.mod_eq_of_lt] <;> omega
    rw [pushEntry, if_pos hroom, hid]
    split_ifs with hi
    · rw [hi, List.getElem?_concat_length]
    · rcases Nat.lt_or_gt_of_ne hi with hlt | hgt
      · rw [List.getElem?_append_left hlt]
      · rw [List.getElem?_eq_none (by simp; omega), List.getElem?_eq_none hgt.le]
  · have hnext : b.next = b.id % b.maxEntries := by
      rw [h.next, if_neg (by omega)]
    have hmod := Nat.mod_lt b.id h.pos
    rw [pushEntry, if_neg hroom]
    show (b.entries.set b.next te)[i]? = _
    rw [hnext]
    split_ifs with hi
    · rw [hi, List.getElem?_set_self (by omega)]
    · rw [List.getElem?_set_ne (Ne.symm hi)]

theorem RingInv.length_pushEntry (h : b.RingInv) :
    (b.pushEntry te).entries.length = min (b.id + 1) b.maxEntries := by
  have hlength := h.length
  by_cases hroom : b.entries.length < b.maxEntries
  · rw [pushEntry, if_pos hroom, List.length_append, List.length_singleton]
    omega
  · rw [pushEntry, if_neg hroom]
    show (b.entries.set b.next te).length = _
    rw [List.length_set]
    omega

theorem RingInv.next_pushEntry (h : b.RingInv) :
    (b.pushEntry te).next = if b.id + 1 < b.maxEntries then 0 else (b.id + 1) % b.maxEntries := by
  have hlength := h.length
  have hnext := h.next
  by_cases hroom : b.entries.length < b.maxEntries
  · rw [if_pos (by omega)] at hnext
    rw [pushEntry, if_pos hroom, hnext]
    split_ifs with hlast
    · rfl
    · -- The buffer has just become full.
      have heq : b.id + 1 = b.maxEntries := by omega
      rw [heq, Nat.mod_self]
  · rw [if_neg (by omega)] at hnext
    rw [pushEntry, if_neg hroom, if_neg (show ¬ b.id + 1 < b.maxEntries by omega)]
    show (if b.next + 1 = b.maxEntries then 0 else b.next + 1) = _
    have hstep := Ring.next_eq_ite (Nat.mod_lt b.id h.pos)
    rw [Ring.next, Nat.mod_add_mod] at hstep
    rw [hnext, ← hstep]

end Push

theorem recordedEntries_append (b : TraceBuffer E) (args : RecordArgs E) :
    (b.recorded ++ [args]).mapIdx (fun id args => (Entry.ofArgs id args).base) =
      b.recordedEntries ++ [(Entry.ofArgs b.recorded.length args).base] := by
  rw [List.mapIdx_append, List.mapIdx_singleton, Nat.zero_add]
  rfl

theorem maxEntries_pushEntry (b : TraceBuffer E) (te : Entry E) :
    (b.pushEntry te).maxEntries = b.maxEntries := by
  rw [pushEntry]
  split_ifs <;> rfl

theorem RingInv.record (h : b.RingInv) (args : RecordArgs E) : (b.record args).1.RingInv := by
  have henabled : b.enabled = true := decide_eq_true h.pos
  rw [TraceBuffer.record, if_neg (by rw [henabled]; decide)]
  constructor
  · show 0 < (b.pushEntry _).maxEntries
    rw [maxEntries_pushEntry]
    exact h.pos
  · show b.id + 1 = (b.recorded ++ [args]).length
    rw [List.length_append, h.id]
    rfl
  · exact (h.length_pushEntry _).trans (by rw [maxEntries_pushEntry])
  · exact (h.next_pushEntry _).trans (by rw [maxEntries_pushEntry])
  · intro k hk hk'
    show (b.pushEntry _).entries[k % (b.pushEntry _).maxEntries]?.map Entry.base =
      ((b.recorded ++ [args]).mapIdx fun id args => (Entry.ofArgs id args).base)[k]?
    replace hk' : b.id + 1 ≤ k + b.maxEntries := (maxEntries_pushEntry b _) ▸ hk'
    replace hk : k < b.id + 1 := hk
    rw [maxEntries_pushEntry, h.getElem?_pushEntry, recordedEntries_append, ← h.id]
    by_cases hlast : k = b.id
    · rw [hlast, if_pos rfl, List.getElem?_append_right (by rw [length_recordedEntries, h.id]),
        length_recordedEntries, h.id, Nat.sub_self]
      rfl
    · have hlt : k < b.id := by omega
      have hlt' : k < b.recordedEntries.length := by rwa [length_recordedEntries, ← h.id]
      rw [if_neg (Ring.mod_ne_mod hlt (by omega)), List.getElem?_append_left hlt']
      exact h.entry k hlt (by omega)

/-- Setting an entry to one with the same base. -/
theorem map_base_set {l : List (Entry E)} {i : ℕ} {e e' : Entry E} (he : l[i]? = some e)
    (hbase : e'.base = e.base) : (l.set i e').map Entry.base = l.map Entry.base := by
  obtain ⟨hi, rfl⟩ := List.getElem?_eq_some_iff.mp he
  rw [List.map_set, hbase, ← List.getElem_map Entry.base (h := by simpa using hi), List.set_getElem_self]

/-! ### The other steps -/

/-- One of the entries with `P` is set to one with the same base, at most. -/
structure Changes (b b' : TraceBuffer E) (P : Entry E → Prop) : Prop where
  maxEntries : b'.maxEntries = b.maxEntries
  next : b'.next = b.next
  id : b'.id = b.id
  recorded : b'.recorded = b.recorded
  entries : b'.entries = b.entries ∨ ∃ i e e', b.entries[i]? = some e ∧ P e ∧ e'.base = e.base ∧
    b'.entries = b.entries.set i e'

variable {P : Entry E → Prop}

theorem changes_self (b : TraceBuffer E) : b.Changes b P :=
  ⟨rfl, rfl, rfl, rfl, .inl rfl⟩

theorem changes_retireId {thread k : ℕ} {computeDuration : Bool} {seen : Observation}
    (h : b.retireId thread (some k) computeDuration seen = some b') : b.Changes b' fun e => e.id = k := by
  rw [retireId] at h
  split_ifs at h with henabled
  · cases h
    exact b.changes_self
  · obtain ⟨e, he, rfl⟩ := Option.map_eq_some_iff.mp h
    dsimp only
    by_cases hid : e.id = k
    · rw [if_pos hid]
      refine ⟨rfl, rfl, rfl, rfl, .inr ⟨_, e, _, he, hid, ?_, rfl⟩⟩
      exact e.base_updateState seen
    · rw [if_neg hid]
      exact b.changes_self

theorem changes_setDuration {thread k : ℕ} {duration : Option ℚ}
    (h : b.setDuration thread k duration = some b') : b.Changes b' fun e => e.id = k := by
  obtain ⟨e, he, rfl⟩ := Option.map_eq_some_iff.mp h
  split_ifs with hid hduration
  · exact ⟨rfl, rfl, rfl, rfl, .inl rfl⟩
  · refine ⟨rfl, rfl, rfl, rfl, .inr ⟨_, e, { e with duration }, he, not_not.mp hid, rfl, ?_⟩⟩
    rfl
  · exact ⟨rfl, rfl, rfl, rfl, .inl rfl⟩

/-- An exception changes nothing. -/
theorem Changes.getD {r : Option (TraceBuffer E)} (h : ∀ b', r = some b' → b.Changes b' P) :
    b.Changes (r.getD b) P := by
  cases r with
  | none => exact b.changes_self
  | some b' => exact h b' rfl

theorem Changes.mono {Q : Entry E → Prop} (h : b.Changes b' P) (hPQ : ∀ e, P e → Q e) : b.Changes b' Q where
  maxEntries := h.maxEntries
  next := h.next
  id := h.id
  recorded := h.recorded
  entries := h.entries.imp_right fun ⟨i, e, e', he, hP, hset⟩ => ⟨i, e, e', he, hPQ e hP, hset⟩

/-- What the steps other than `record` do. -/
theorem record_or_changes {l : TraceLabel E} (hstep : b.step l = some b') :
    (∃ args, l = .record args ∧ b' = (b.record args).1) ∨
    b.Changes b' fun e => ∀ k, b.retires l = some k → e.id = k := by
  cases l with
  | record args => exact .inl ⟨args, rfl, (Option.some.inj hstep).symm⟩
  | updateState index seen =>
    obtain ⟨e, he, rfl⟩ := Option.map_eq_some_iff.mp hstep
    exact .inr ⟨rfl, rfl, rfl, rfl, .inr ⟨index, e, _, he, nofun, e.base_updateState seen, rfl⟩⟩
  | retireId thread id computeDuration seen =>
    right
    rw [step] at hstep
    split_ifs at hstep with hidle
    cases hstep
    cases id with
    | none => exact b.changes_self
    | some id =>
      refine Changes.getD fun b' h => (changes_retireId h).mono fun e he k hk => ?_
      rwa [← Option.some.inj hk]
  | setDuration thread duration =>
    right
    obtain ⟨id, hid, rfl⟩ := Option.map_eq_some_iff.mp hstep
    refine Changes.getD fun b' h => (changes_setDuration h).mono fun e he k hk => ?_
    rwa [← Option.some.inj (hid.symm.trans hk)]

theorem Changes.ringInv (h : b.Changes b' P) (hinv : b.RingInv) : b'.RingInv := by
  apply hinv.set h.maxEntries h.next h.id h.recorded
  obtain hsame | ⟨i, e, e', he, -, hbase, hset⟩ := h.entries
  · rw [hsame]
  · rw [hset, map_base_set he hbase]

theorem RingInv.step (h : b.RingInv) {l : TraceLabel E} (hstep : b.step l = some b') : b'.RingInv := by
  obtain ⟨args, rfl, rfl⟩ | hchanges := record_or_changes hstep
  · exact h.record args
  · exact hchanges.ringInv h

/-- Steps of `retire_id` change nothing else. -/
theorem retiresOnly (b : TraceBuffer E) : b.RetiresOnly := by
  intro l k b' hk hstep
  obtain ⟨args, rfl, rfl⟩ | hchanges := record_or_changes hstep
  · cases hk
  · refine ⟨hchanges.next, hchanges.id, ?_, ?_⟩
    · obtain hsame | ⟨i, e, e', -, -, -, hset⟩ := hchanges.entries
      · rw [hsame]
      · rw [hset, List.length_set]
    · intro j r hr hne
      obtain hsame | ⟨i, e, e', he, hid, -, hset⟩ := hchanges.entries
      · rwa [hsame]
      · rw [hset, List.getElem?_set_ne, hr]
        rintro rfl
        rw [he] at hr
        cases hr
        exact hne (hid k hk)

/-! ### What follows from the invariant -/

/-- Every entry is the one of an id among the last ones. -/
theorem RingInv.exists_id (h : b.RingInv) {i : ℕ} {e : Entry E} (he : b.entries[i]? = some e) :
    e.id % b.maxEntries = i ∧ e.id < b.id ∧ b.id ≤ e.id + b.maxEntries ∧
      b.recordedEntries[e.id]? = some e.base := by
  have hpos := h.pos
  have hlength := h.length
  have hi : i < b.entries.length := (List.getElem?_eq_some_iff.mp he).choose
  -- The last id with this index.
  obtain ⟨k, hk, hk', hmod⟩ : ∃ k, k < b.id ∧ b.id ≤ k + b.maxEntries ∧ k % b.maxEntries = i := by
    have hrounds := Nat.div_add_mod (b.id - 1 - i) b.maxEntries
    have hrest := Nat.mod_lt (b.id - 1 - i) hpos
    refine ⟨i + b.maxEntries * ((b.id - 1 - i) / b.maxEntries), by omega, by omega, ?_⟩
    rw [Nat.add_mul_mod_self_left, Nat.mod_eq_of_lt (by omega)]
  have hentry := h.entry k hk hk'
  rw [hmod, he, Option.map_some] at hentry
  obtain rfl : e.id = k := by
    have hid := id_of_recordedEntries hentry.symm
    exact hid
  exact ⟨hmod, hk, hk', hentry.symm⟩

theorem RingInv.placed (h : b.RingInv) : b.Placed := by
  refine ⟨fun k => ?_, fun i e he => ?_⟩
  · rw [← h.id]
    constructor
    · rintro ⟨e, he, rfl⟩
      obtain ⟨-, hlt, hle, -⟩ := h.exists_id he
      exact ⟨hlt, hle⟩
    · rintro ⟨hlt, hle⟩
      have hk : k < b.recordedEntries.length := by rw [length_recordedEntries, ← h.id]; exact hlt
      have hentry := (h.entry k hlt hle).trans (List.getElem?_eq_getElem hk)
      obtain ⟨e, he, hbase⟩ := Option.map_eq_some_iff.mp hentry
      refine ⟨e, he, ?_⟩
      have hid : e.base.id = k := by
        rw [hbase]
        exact id_of_recordedEntries (List.getElem?_eq_getElem hk)
      exact hid
  · obtain ⟨hmod, -, -, hrecorded⟩ := h.exists_id he
    exact ⟨hmod, hrecorded⟩

/-- The entries, the oldest one first. -/
theorem RingInv.rotate_entries (h : b.RingInv) : (b.entries.rotate b.next).map Entry.base =
    b.recordedEntries.drop (b.recorded.length - min b.recorded.length b.maxEntries) := by
  have hpos := h.pos
  have hlength := h.length
  have hnext := h.next
  rw [← h.id]
  apply List.ext_getElem?
  intro j
  by_cases hj : j < b.entries.length
  · rw [List.getElem?_map, List.getElem?_rotate hj, List.getElem?_drop,
      ← h.entry (b.id - min b.id b.maxEntries + j) (by omega) (by omega)]
    congr 2
    -- Both are the index of the same id.
    by_cases hfull : b.id < b.maxEntries
    · rw [if_pos hfull] at hnext
      rw [hnext, Nat.add_zero, Nat.mod_eq_of_lt hj, Nat.mod_eq_of_lt (by omega)]
      omega
    · have hsize : b.entries.length = b.maxEntries := by omega
      have hsum : b.id - min b.id b.maxEntries + j + b.maxEntries = j + b.id := by omega
      rw [if_neg hfull] at hnext
      rw [hnext, hsize, Nat.add_mod_mod, ← hsum, Nat.add_mod_right]
  · rw [List.getElem?_eq_none, List.getElem?_eq_none]
    · rw [List.length_drop, length_recordedEntries, ← h.id]
      omega
    · rw [List.length_map, List.length_rotate]
      omega

theorem map_id_recordedEntries (b : TraceBuffer E) :
    b.recordedEntries.map Entry.id = List.range' 0 b.recorded.length := by
  apply List.ext_getElem
  · rw [List.length_map, length_recordedEntries, List.length_range']
  · intro i hi hi'
    rw [List.length_map] at hi
    rw [List.getElem_map, List.getElem_range', Nat.zero_add, Nat.one_mul]
    exact id_of_recordedEntries (List.getElem?_eq_getElem hi)

theorem RingInv.dumped (h : b.RingInv) : b.Dumped := by
  intro look
  have hle : b.next ≤ b.entries.length := by
    have hpos := h.pos
    have hlength := h.length
    have hnext := h.next
    have hmod := Nat.mod_lt b.id hpos
    split_ifs at hnext
    · omega
    · omega
  have hbase : (b.dumpEntries look).map Entry.base =
      b.recordedEntries.drop (b.recorded.length - min b.recorded.length b.maxEntries) := by
    rw [← h.rotate_entries, List.rotate_eq_drop_append_take hle, dumpEntries, List.map_map]
    apply List.map_congr_left
    intro r _
    exact r.base_updateState (look r)
  refine ⟨hbase, ?_⟩
  have hid : (b.dumpEntries look).map Entry.id = ((b.dumpEntries look).map Entry.base).map Entry.id := by
    rw [List.map_map]
    rfl
  rw [hid, hbase, List.map_drop, map_id_recordedEntries, List.drop_range']
  congr 1 <;> omega

/-! ### Whole runs -/

theorem RingInv.recorded_step (h : b.RingInv) {l : TraceLabel E} (hstep : b.step l = some b') :
    b'.recorded = b.recorded ++ recordsOf [l] ∧ b'.maxEntries = b.maxEntries := by
  cases l with
  | record args =>
    have henabled : b.enabled = true := decide_eq_true h.pos
    obtain rfl := Option.some.inj hstep
    rw [TraceBuffer.record, if_neg (by rw [henabled]; decide)]
    exact ⟨rfl, maxEntries_pushEntry b _⟩
  | updateState | retireId | setDuration =>
    obtain ⟨args, hl, -⟩ | hchanges := record_or_changes hstep
    · cases hl
    · rw [hchanges.recorded]
      exact ⟨(List.append_nil _).symm, hchanges.maxEntries⟩

theorem RingInv.recorded_run (h : b.RingInv) {ls : List (TraceLabel E)}
    (hrun : Machine.run TraceBuffer.step b ls = some b') :
    b'.recorded = b.recorded ++ recordsOf ls ∧ b'.maxEntries = b.maxEntries := by
  induction ls generalizing b with
  | nil =>
    cases hrun
    exact ⟨(List.append_nil _).symm, rfl⟩
  | cons l ls ih =>
    obtain ⟨c, hc, hrun⟩ := Machine.run_cons.mp hrun
    obtain ⟨hstep, hmax⟩ := h.recorded_step hc
    obtain ⟨hrest, hmax'⟩ := ih (h.step hc) hrun
    have hcons : recordsOf (l :: ls) = recordsOf [l] ++ recordsOf ls := List.filterMap_append (l := [l])
    rw [hrest, hstep, hcons, List.append_assoc]
    exact ⟨rfl, hmax'.trans hmax⟩

/-- In every run of a buffer that is enabled, the entries are those of the last records, each in its place; a
dump has them in order; and `retire_id` changes one entry at most, the one with its id. -/
theorem ring_of_run {maxEntries : ℕ} (hpos : 0 < maxEntries) {ls : List (TraceLabel E)}
    (hrun : runFromStart maxEntries ls = some b) :
    b.maxEntries = maxEntries ∧ b.recorded = recordsOf ls ∧ b.id = (recordsOf ls).length ∧
      b.Placed ∧ b.Dumped ∧ b.RetiresOnly := by
  have hstart : ({ maxEntries } : TraceBuffer E).RingInv := ringInv_start hpos
  have hinv : b.RingInv := Machine.run_induction (fun _ _ _ h hstep => h.step hstep) hstart hrun
  obtain ⟨hrecorded, hmax⟩ := hstart.recorded_run hrun
  rw [List.nil_append] at hrecorded
  exact ⟨hmax, hrecorded, by rw [hinv.id, hrecorded], hinv.placed, hinv.dumped, b.retiresOnly⟩

/-- Two records in a buffer of one entry; the first one is overwritten while its duration is computed. -/
def overwrittenRun : List (TraceLabel ℕ) :=
  let args : RecordArgs ℕ :=
    { pgId := 0, pgName := ("0", "default_pg"), collectiveSeqId := 1, p2pSeqId := 0, opId := 1
      profilingName := "hccl:all_reduce", inputs := [⟨[2, 3], 6⟩], outputs := [⟨[2, 3], 6⟩]
      start := some 0, end_ := some 1, timeoutMs := 1800000, isP2P := false, timeCreated := 0 }
  [.record args, .retireId 0 (some 0) true ⟨true, true, 1, 2⟩, .record { args with opId := 2 },
    .setDuration 0 (some 1)]

theorem ring_overwrittenRun : ∃ b : TraceBuffer ℕ, runFromStart 1 overwrittenRun = some b ∧
    b.entries.map Entry.id = [1] ∧ b.entries.map Entry.duration = [none] ∧
    b.Placed ∧ b.Dumped ∧ b.RetiresOnly := by
  have hrun : ((runFromStart 1 overwrittenRun).any fun b =>
      decide (b.entries.map Entry.id = [1] ∧ b.entries.map Entry.duration = [none])) = true := by
    decide +kernel
  obtain ⟨b, hb, h⟩ := (Option.any_eq_true _ _).mp hrun
  obtain ⟨hid, hduration⟩ := of_decide_eq_true h
  obtain ⟨-, -, -, hplaced, hdumped, hretires⟩ := ring_of_run (by decide) hb
  exact ⟨b, hb, hid, hduration, hplaced, hdumped, hretires⟩

end TraceBuffer

end TorchNpu.Distributed
