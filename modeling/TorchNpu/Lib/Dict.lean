/-
  Dictionaries with their keys in the order in which they were first inserted.

  `Dict.modify` is the only update: it changes the value of a key where it stands, or adds the key at the end.
-/
import Mathlib.Data.List.Basic
import Mathlib.Data.List.Nodup

namespace TorchNpu

structure Dict (κ ν : Type*) where
  entries : List (κ × ν)
  nodupKeys : (entries.map Prod.fst).Nodup

namespace Dict

variable {κ ν α : Type*}

def empty : Dict κ ν where
  entries := []
  nodupKeys := List.nodup_nil

def keys (d : Dict κ ν) : List κ :=
  d.entries.map Prod.fst

def values (d : Dict κ ν) : List ν :=
  d.entries.map Prod.snd

variable [DecidableEq κ]

def get? (d : Dict κ ν) (key : κ) : Option ν :=
  d.entries.lookup key

theorem get?_empty (key : κ) : (empty : Dict κ ν).get? key = none :=
  rfl

theorem lookup_eq_some_iff {entries : List (κ × ν)} (hnodup : (entries.map Prod.fst).Nodup) {key : κ} {v : ν} :
    entries.lookup key = some v ↔ (key, v) ∈ entries := by
  induction entries with
  | nil => simp
  | cons entry entries ih =>
    obtain ⟨head, w⟩ := entry
    rw [List.map_cons, List.nodup_cons] at hnodup
    rw [List.lookup_cons, List.mem_cons, Prod.mk.injEq]
    by_cases h : key = head
    · have hnot : (head, v) ∉ entries := fun hmem => hnodup.1 (List.mem_map.mpr ⟨_, hmem, rfl⟩)
      simp [h, hnot, eq_comm]
    · rw [beq_false_of_ne h, ← ih hnodup.2]
      simp [h]

theorem mem_entries_iff {d : Dict κ ν} {key : κ} {v : ν} : (key, v) ∈ d.entries ↔ d.get? key = some v :=
  (lookup_eq_some_iff d.nodupKeys).symm

/-! ### Updates -/

def modifyEntries (key : κ) (f : Option ν → ν) : List (κ × ν) → List (κ × ν)
  | [] => [(key, f none)]
  | (head, v) :: entries =>
    if head = key then (head, f (some v)) :: entries else (head, v) :: modifyEntries key f entries

theorem map_fst_modifyEntries (key : κ) (f : Option ν → ν) (entries : List (κ × ν)) :
    (modifyEntries key f entries).map Prod.fst =
      if key ∈ entries.map Prod.fst then entries.map Prod.fst else entries.map Prod.fst ++ [key] := by
  induction entries with
  | nil => rfl
  | cons entry entries ih =>
    obtain ⟨head, v⟩ := entry
    rw [modifyEntries]
    by_cases h : head = key
    · simp [h]
    · rw [if_neg h, List.map_cons, ih]
      split_ifs with hmem hmem' hmem'
      · rfl
      · exact absurd (List.mem_cons_of_mem head hmem) hmem'
      · rcases List.mem_cons.mp hmem' with heq | hmem'
        · exact absurd heq.symm h
        · exact absurd hmem' hmem
      · rfl

/-- The value of a key becomes `f` of the one before. -/
def modify (d : Dict κ ν) (key : κ) (f : Option ν → ν) : Dict κ ν where
  entries := modifyEntries key f d.entries
  nodupKeys := by
    rw [map_fst_modifyEntries]
    split_ifs with hmem
    · exact d.nodupKeys
    · exact List.nodup_append.mpr ⟨d.nodupKeys, List.nodup_singleton key,
        fun a ha b hb heq => hmem ((List.mem_singleton.mp hb) ▸ heq ▸ ha)⟩

theorem lookup_modifyEntries (key key' : κ) (f : Option ν → ν) (entries : List (κ × ν)) :
    (modifyEntries key f entries).lookup key' =
      if key' = key then some (f (entries.lookup key)) else entries.lookup key' := by
  induction entries with
  | nil =>
    rw [modifyEntries, List.lookup_cons]
    by_cases h : key' = key
    · simp [h]
    · simp [h, beq_false_of_ne h]
  | cons entry entries ih =>
    obtain ⟨head, v⟩ := entry
    rw [modifyEntries]
    by_cases hhead : head = key
    · by_cases h : key' = key
      · simp [hhead, h]
      · simp [hhead, h, List.lookup_cons, beq_false_of_ne h]
    · rw [if_neg hhead, List.lookup_cons, ih, List.lookup_cons, List.lookup_cons,
        beq_false_of_ne (Ne.symm hhead)]
      by_cases h : key' = head
      · have hne : head ≠ key := hhead
        simp [h, hne]
      · simp [beq_false_of_ne h]

theorem get?_modify (d : Dict κ ν) (key key' : κ) (f : Option ν → ν) :
    (d.modify key f).get? key' = if key' = key then some (f (d.get? key)) else d.get? key' :=
  lookup_modifyEntries key key' f d.entries

/-- When each element of a list changes one key only, the value of a key comes from the elements for it. -/
theorem get?_foldl {step : Dict κ ν → α → Dict κ ν} {keyOf : α → κ} {g : Option ν → α → Option ν}
    (hstep : ∀ d x key, (step d x).get? key = if key = keyOf x then g (d.get? key) x else d.get? key)
    (l : List α) (d : Dict κ ν) (key : κ) :
    (l.foldl step d).get? key = (l.filter fun x => keyOf x = key).foldl g (d.get? key) := by
  induction l generalizing d with
  | nil => rfl
  | cons x l ih =>
    rw [List.foldl_cons, ih, hstep, List.filter_cons]
    by_cases h : key = keyOf x
    · simp [h]
    · simp [h, Ne.symm h]

/-- A key has one entry at most. -/
theorem filter_entries (d : Dict κ ν) (key : κ) :
    (d.entries.filter fun entry => entry.1 = key) = (d.get? key).toList.map (key, ·) := by
  obtain ⟨entries, hnodup⟩ := d
  show (entries.filter fun entry => entry.1 = key) = (entries.lookup key).toList.map (key, ·)
  induction entries with
  | nil => rfl
  | cons entry entries ih =>
    obtain ⟨head, v⟩ := entry
    rw [List.map_cons, List.nodup_cons] at hnodup
    rw [List.filter_cons, List.lookup_cons]
    by_cases h : key = head
    · subst h
      have hnone : (entries.filter fun entry => entry.1 = key) = [] := by
        rw [List.filter_eq_nil_iff]
        intro entry hentry heq
        exact hnodup.1 (List.mem_map.mpr ⟨entry, hentry, of_decide_eq_true heq⟩)
      simp [hnone]
    · rw [beq_false_of_ne h, if_neg (by simp [Ne.symm h]), ih hnodup.2]

end Dict

end TorchNpu
