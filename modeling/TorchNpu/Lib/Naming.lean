/-
  Keys are named by numbers in the order in which they are met, and a name may be given up, so that the next
  meeting of its key gives it a new one.
-/
import Mathlib.Logic.Function.Basic
import Mathlib.Data.List.Basic

namespace TorchNpu

/-- The names in use, and the next one. -/
structure Naming (κ : Type*) where
  map : κ → Option ℕ
  counter : ℕ

namespace Naming

variable {κ : Type*}

def empty : Naming κ where
  map _ := none
  counter := 0

/-- The names in use are below the counter, and no two keys share one. -/
structure Distinct (s : Naming κ) : Prop where
  lt_counter : ∀ {key id}, s.map key = some id → id < s.counter
  injective : ∀ {key key' id}, s.map key = some id → s.map key' = some id → key = key'

theorem distinct_empty : (empty : Naming κ).Distinct where
  lt_counter h := by simp [empty] at h
  injective h := by simp [empty] at h

/-- Whether a key is given up at none of the first `i` elements. -/
def KeptBefore (keys : List (κ × Bool)) (key : κ) (i : ℕ) : Prop :=
  ∀ k < i, keys[k]? ≠ some (key, true)

theorem keptBefore_zero (keys : List (κ × Bool)) (key : κ) : KeptBefore keys key 0 := by
  intro k hk
  omega

theorem keptBefore_succ (head : κ × Bool) (keys : List (κ × Bool)) (key : κ) (i : ℕ) :
    KeptBefore (head :: keys) key (i + 1) ↔ head ≠ (key, true) ∧ KeptBefore keys key i := by
  constructor
  · intro h
    refine ⟨fun he => h 0 (Nat.succ_pos i) (by rw [he]; rfl), ?_⟩
    intro k hk
    exact h (k + 1) (by omega)
  · rintro ⟨hhead, h⟩ k hk
    cases k with
    | zero =>
      intro he
      rw [List.getElem?_cons_zero] at he
      exact hhead (Option.some_inj.mp he)
    | succ k => exact h k (by omega)

variable [DecidableEq κ]

/-- A key without a name gets the next one. -/
def enter (s : Naming κ) (key : κ) : Naming κ :=
  match s.map key with
  | some _ => s
  | none => { map := Function.update s.map key (some s.counter), counter := s.counter + 1 }

/-- The name of a key is given up. -/
def drop (s : Naming κ) (key : κ) : Naming κ :=
  { s with map := Function.update s.map key none }

/-! ### `enter` and `drop` -/

theorem enter_of_some {s : Naming κ} {key : κ} {id : ℕ} (h : s.map key = some id) : s.enter key = s := by
  simp only [enter, h]

theorem enter_of_none {s : Naming κ} {key : κ} (h : s.map key = none) :
    s.enter key = { map := Function.update s.map key (some s.counter), counter := s.counter + 1 } := by
  simp only [enter, h]

theorem exists_map_enter (s : Naming κ) (key : κ) : ∃ id, (s.enter key).map key = some id := by
  cases h : s.map key with
  | some id => exact ⟨id, by rw [enter_of_some h, h]⟩
  | none => exact ⟨s.counter, by rw [enter_of_none h]; exact Function.update_self ..⟩

/-- A name in use is kept. -/
theorem map_enter_of_some {s : Naming κ} {key : κ} {id : ℕ} (h : s.map key = some id) (key' : κ) :
    (s.enter key').map key = some id := by
  cases h' : s.map key' with
  | some id' => rw [enter_of_some h', h]
  | none =>
    have hne : key ≠ key' := by
      intro he
      rw [he, h'] at h
      exact absurd h (by simp)
    rw [enter_of_none h']
    exact (Function.update_of_ne hne ..).trans h

theorem counter_le_enter (s : Naming κ) (key : κ) : s.counter ≤ (s.enter key).counter := by
  cases h : s.map key with
  | some id => exact Nat.le_of_eq (congrArg counter (enter_of_some h).symm)
  | none =>
    rw [enter_of_none h]
    exact Nat.le_succ _

/-- A name that no key has is not given again. -/
theorem enter_ne_some {s : Naming κ} {id : ℕ} (hlt : id < s.counter) (hfree : ∀ key, s.map key ≠ some id)
    (key' key : κ) : (s.enter key').map key ≠ some id := by
  cases h : s.map key' with
  | some id' =>
    rw [enter_of_some h]
    exact hfree key
  | none =>
    rw [enter_of_none h]
    intro hkey
    dsimp only at hkey
    by_cases he : key = key'
    · rw [he, Function.update_self, Option.some_inj] at hkey
      omega
    · rw [Function.update_of_ne he] at hkey
      exact hfree key hkey

theorem Distinct.enter {s : Naming κ} (h : s.Distinct) (key : κ) : (s.enter key).Distinct := by
  cases hkey : s.map key with
  | some id =>
    rw [enter_of_some hkey]
    exact h
  | none =>
    -- The counter is above all names in use, so that the new name is one of its own.
    rw [enter_of_none hkey]
    constructor
    · intro key' id hid
      dsimp only at hid ⊢
      by_cases he : key' = key
      · rw [he, Function.update_self, Option.some_inj] at hid
        omega
      · rw [Function.update_of_ne he] at hid
        have := h.lt_counter hid
        omega
    · intro key₁ key₂ id h₁ h₂
      dsimp only at h₁ h₂
      by_cases he₁ : key₁ = key <;> by_cases he₂ : key₂ = key
      · rw [he₁, he₂]
      · rw [he₁, Function.update_self, Option.some_inj] at h₁
        rw [Function.update_of_ne he₂] at h₂
        have := h.lt_counter h₂
        omega
      · rw [Function.update_of_ne he₁] at h₁
        rw [he₂, Function.update_self, Option.some_inj] at h₂
        have := h.lt_counter h₁
        omega
      · rw [Function.update_of_ne he₁] at h₁
        rw [Function.update_of_ne he₂] at h₂
        exact h.injective h₁ h₂

theorem map_drop_of_ne (s : Naming κ) {key key' : κ} (hne : key ≠ key') : (s.drop key').map key = s.map key :=
  Function.update_of_ne hne ..

theorem map_drop_self (s : Naming κ) (key : κ) : (s.drop key).map key = none :=
  Function.update_self ..

/-- What has a name after a key was dropped had it before. -/
theorem map_of_map_drop {s : Naming κ} {key key' : κ} {id : ℕ} (h : (s.drop key').map key = some id) :
    s.map key = some id := by
  by_cases he : key = key'
  · rw [he, map_drop_self] at h
    exact absurd h (by simp)
  · rwa [map_drop_of_ne s he] at h

theorem Distinct.drop {s : Naming κ} (h : s.Distinct) (key : κ) : (s.drop key).Distinct where
  lt_counter h' := h.lt_counter (map_of_map_drop h')
  injective h₁ h₂ := h.injective (map_of_map_drop h₁) (map_of_map_drop h₂)

/-! ### Names that are given up -/

/-- A key is met, and its name is given up after that when it comes with `true`. -/
def meet (s : Naming κ) (entry : κ × Bool) : Naming κ :=
  if entry.2 then (s.enter entry.1).drop entry.1 else s.enter entry.1

theorem Distinct.meet {s : Naming κ} (h : s.Distinct) (entry : κ × Bool) : (s.meet entry).Distinct := by
  rw [Naming.meet]
  split
  · exact (h.enter entry.1).drop entry.1
  · exact h.enter entry.1

theorem counter_le_meet (s : Naming κ) (entry : κ × Bool) : s.counter ≤ (s.meet entry).counter := by
  rw [meet]
  split
  · exact counter_le_enter s entry.1
  · exact counter_le_enter s entry.1

theorem map_enter_of_map_meet {s : Naming κ} {entry : κ × Bool} {key : κ} {id : ℕ}
    (h : (s.meet entry).map key = some id) : (s.enter entry.1).map key = some id := by
  rw [meet] at h
  split at h
  · exact map_of_map_drop h
  · exact h

/-- The names of the keys of a list. -/
def names : List (κ × Bool) → Naming κ → List (Option ℕ)
  | [], _ => []
  | entry :: keys, s => (s.enter entry.1).map entry.1 :: names keys (s.meet entry)

theorem length_names (keys : List (κ × Bool)) (s : Naming κ) : (names keys s).length = keys.length := by
  induction keys generalizing s with
  | nil => rfl
  | cons head keys ih => simp [names, ih]

theorem exists_names {keys : List (κ × Bool)} {s : Naming κ} {i : ℕ} {name : Option ℕ}
    (h : (names keys s)[i]? = some name) : ∃ id, name = some id := by
  induction keys generalizing s i with
  | nil => simp [names] at h
  | cons head keys ih =>
    cases i with
    | zero =>
      obtain ⟨id, hid⟩ := exists_map_enter s head.1
      refine ⟨id, ?_⟩
      rw [names, List.getElem?_cons_zero, hid, Option.some_inj] at h
      exact h.symm
    | succ i =>
      rw [names, List.getElem?_cons_succ] at h
      exact ih h

/-- A name that no key has is the name of no element. -/
theorem names_ne_of_free {keys : List (κ × Bool)} {s : Naming κ} {id : ℕ} (hlt : id < s.counter)
    (hfree : ∀ key, s.map key ≠ some id) (i : ℕ) : (names keys s)[i]? ≠ some (some id) := by
  induction keys generalizing s i with
  | nil => simp [names]
  | cons head keys ih =>
    have hfree' := enter_ne_some hlt hfree head.1
    cases i with
    | zero =>
      rw [names, List.getElem?_cons_zero]
      intro h
      exact hfree' head.1 (Option.some_inj.mp h)
    | succ i =>
      rw [names, List.getElem?_cons_succ]
      exact ih (Nat.lt_of_lt_of_le hlt (counter_le_meet s head))
        (fun key h => hfree' key (map_enter_of_map_meet h)) i

/-- The elements that have a name in use are those of its key, as long as it is not given up. -/
theorem names_eq_iff {keys : List (κ × Bool)} {s : Naming κ} (hs : s.Distinct) {key : κ} {id : ℕ}
    (hid : s.map key = some id) {i : ℕ} {entry : κ × Bool} (hentry : keys[i]? = some entry) :
    (names keys s)[i]? = some (some id) ↔ entry.1 = key ∧ KeptBefore keys key i := by
  induction keys generalizing s i with
  | nil => simp at hentry
  | cons head keys ih =>
    have hid' := map_enter_of_some hid head.1
    cases i with
    | zero =>
      rw [List.getElem?_cons_zero, Option.some_inj] at hentry
      rw [names, List.getElem?_cons_zero, Option.some_inj, hentry]
      rw [hentry] at hid'
      constructor
      · intro h
        exact ⟨(hs.enter entry.1).injective h hid', keptBefore_zero _ _⟩
      · intro h
        rw [h.1] at hid' ⊢
        exact hid'
    | succ i =>
      rw [List.getElem?_cons_succ] at hentry
      rw [names, List.getElem?_cons_succ, keptBefore_succ]
      by_cases hhead : head = (key, true)
      · -- The name is given up here, and no element after it has it.
        subst hhead
        have hfree : ∀ key', (s.meet (key, true)).map key' ≠ some id := by
          intro key' h
          have he : key' = key := (hs.enter key).injective (map_enter_of_map_meet h) hid'
          rw [he, meet, if_pos rfl, map_drop_self] at h
          exact absurd h (by simp)
        have hlt := Nat.lt_of_lt_of_le (hs.lt_counter hid) (counter_le_meet s (key, true))
        exact iff_of_false (names_ne_of_free hlt hfree i) (by simp)
      · have hkeep : (s.meet head).map key = some id := by
          rw [meet]
          split
          · rename_i hfreed
            have hkey : key ≠ head.1 := by
              intro he
              exact hhead (Prod.ext he.symm hfreed)
            rw [map_drop_of_ne _ hkey]
            exact hid'
          · exact hid'
        rw [ih (hs.meet head) hkeep hentry]
        exact ⟨fun h => ⟨h.1, hhead, h.2⟩, fun h => ⟨h.1, h.2.2⟩⟩

/-- Two elements have the same name when they have the same key, and it is not given up from the one up to
the other. -/
theorem names_eq_names_iff {keys : List (κ × Bool)} {s : Naming κ} (hs : s.Distinct) {i j : ℕ} (hij : i < j)
    {entry entry' : κ × Bool} (hi : keys[i]? = some entry) (hj : keys[j]? = some entry') :
    (names keys s)[i]? = (names keys s)[j]? ↔
      entry.1 = entry'.1 ∧ ∀ k, i ≤ k → k < j → keys[k]? ≠ some (entry.1, true) := by
  induction keys generalizing s i j with
  | nil => simp at hi
  | cons head keys ih =>
    obtain ⟨j, rfl⟩ := Nat.exists_eq_succ_of_ne_zero (Nat.ne_of_gt (Nat.lt_of_le_of_lt (Nat.zero_le i) hij))
    rw [Nat.succ_eq_add_one] at hij hj ⊢
    cases i with
    | zero =>
      rw [List.getElem?_cons_zero, Option.some_inj] at hi
      subst hi
      obtain ⟨id, hid⟩ := exists_map_enter s head.1
      -- The name of the head is in use after it, up to the element that gives it up.
      have hname : (names (head :: keys) s)[0]? = some (some id) := by
        rw [names, List.getElem?_cons_zero, hid]
      have hsame : (names (head :: keys) (s.enter head.1)) = names (head :: keys) s := by
        rw [names, names, meet, meet, enter_of_some hid]
      have hiff := names_eq_iff (hs.enter head.1) hid hj
      rw [hsame] at hiff
      rw [hname, eq_comm, hiff, eq_comm]
      exact and_congr_right fun _ => ⟨fun h k _ hk => h k hk, fun h k hk => h k (Nat.zero_le k) hk⟩
    | succ i =>
      rw [List.getElem?_cons_succ] at hi hj
      rw [names, List.getElem?_cons_succ, List.getElem?_cons_succ]
      rw [ih (hs.meet head) (Nat.lt_of_succ_lt_succ hij) hi hj]
      refine and_congr_right fun _ => ⟨?_, ?_⟩
      · intro h k hik hkj
        obtain ⟨k, rfl⟩ := Nat.exists_eq_add_of_le' (Nat.le_trans (Nat.succ_pos i) hik)
        exact h k (by omega) (by omega)
      · intro h k hik hkj
        exact h (k + 1) (by omega) (by omega)

/-! ### Names that are kept -/

theorem distinct_foldl_enter {s : Naming κ} (h : s.Distinct) (keys : List κ) : (keys.foldl enter s).Distinct := by
  induction keys generalizing s with
  | nil => exact h
  | cons key keys ih => exact ih (h.enter key)

theorem map_foldl_enter_of_some {s : Naming κ} {key : κ} {id : ℕ} (h : s.map key = some id) (keys : List κ) :
    (keys.foldl enter s).map key = some id := by
  induction keys generalizing s with
  | nil => exact h
  | cons key' keys ih => exact ih (map_enter_of_some h key')

/-- Every key of a list has a name in the end. -/
theorem exists_map_foldl_enter (s : Naming κ) {keys : List κ} {key : κ} (h : key ∈ keys) :
    ∃ id, (keys.foldl enter s).map key = some id := by
  induction keys generalizing s with
  | nil => simp at h
  | cons key' keys ih =>
    rcases List.mem_cons.mp h with rfl | h
    · obtain ⟨id, hid⟩ := exists_map_enter s key
      exact ⟨id, map_foldl_enter_of_some hid keys⟩
    · exact ih (s.enter key') h

end Naming

end TorchNpu
