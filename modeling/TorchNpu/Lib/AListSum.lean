/-
  Sums over the entries of an association list.

  `AList.total f m` adds up `f key value` over `m`.  The two rules say what inserting and erasing a
  key does to it, in terms of the value the key had before.
-/
import Mathlib.Data.List.AList
import Mathlib.Algebra.BigOperators.Group.Finset.Basic
import Mathlib.Algebra.GroupWithZero.Nat

namespace TorchNpu

variable {α β : Type*} [DecidableEq α]

/-- The sum of `f key value` over the entries of `m`. -/
def total (f : α → β → ℕ) (m : AList fun _ : α => β) : ℕ :=
  (m.entries.map fun e => f e.1 e.2).sum

/-- The part of the sum that belongs to one key. -/
def partAt (f : α → β → ℕ) (m : AList fun _ : α => β) (key : α) : ℕ :=
  ((m.lookup key).map (f key)).getD 0

/-- Erasing a key takes its part away. -/
theorem total_erase (f : α → β → ℕ) (m : AList fun _ : α => β) (key : α) :
    partAt f m key + total f (m.erase key) = total f m := by
  obtain ⟨entries, hnodup⟩ := m
  show ((entries.dlookup key).map (f key)).getD 0
    + ((entries.kerase key).map fun e => f e.1 e.2).sum = (entries.map fun e => f e.1 e.2).sum
  induction entries with
  | nil => rfl
  | cons e entries ih =>
    obtain ⟨first, value⟩ := e
    by_cases hkey : key = first
    · subst hkey
      have hkerase : List.kerase key (⟨key, value⟩ :: entries) = entries :=
        List.kerase_cons_eq rfl
      rw [List.dlookup_cons_eq, hkerase]
      rfl
    · have hrest := ih (List.nodupKeys_cons.mp hnodup).2
      rw [List.dlookup_cons_ne _ _ hkey, List.kerase_cons_ne hkey, List.map_cons, List.map_cons,
        List.sum_cons, List.sum_cons]
      omega

/-- Inserting a value replaces the key's part. -/
theorem total_insert (f : α → β → ℕ) (m : AList fun _ : α => β) (key : α) (value : β) :
    partAt f m key + total f (m.insert key value) = f key value + total f m := by
  have herase := total_erase f m key
  have hinsert : total f (m.insert key value) = f key value + total f (m.erase key) := by
    rw [total, AList.entries_insert, List.map_cons, List.sum_cons]
    rfl
  omega

/-- Two different keys have room for both their parts. -/
theorem partAt_add_partAt_le (f : α → β → ℕ) (m : AList fun _ : α => β) {key key' : α}
    (h : key' ≠ key) : partAt f m key + partAt f m key' ≤ total f m := by
  have herase := total_erase f m key
  have herase' := total_erase f (m.erase key) key'
  have hsame : partAt f (m.erase key) key' = partAt f m key' := by
    rw [partAt, AList.lookup_erase_ne h, partAt]
  omega

end TorchNpu

/-!
  Sums over the values of a function that is changed in one place.
-/

namespace TorchNpu

variable {ι : Type*} [Fintype ι] [DecidableEq ι] {β : ι → Type*} {M : Type*} [AddCommMonoid M]

/-- One term is exchanged for another. -/
theorem sum_update_add (f : ∀ i, β i → M) (g : ∀ i, β i) (i : ι) (b : β i) :
    ∑ j, f j (Function.update g i b j) + f i (g i) = ∑ j, f j (g j) + f i b := by
  have hrest : ∑ j ∈ Finset.univ.erase i, f j (Function.update g i b j) =
      ∑ j ∈ Finset.univ.erase i, f j (g j) := by
    apply Finset.sum_congr rfl
    intro j hj
    rw [Function.update_of_ne (Finset.ne_of_mem_erase hj)]
  rw [← Finset.add_sum_erase _ _ (Finset.mem_univ i), ← Finset.add_sum_erase _ (fun j => f j (g j))
    (Finset.mem_univ i), Function.update_self, hrest]
  rw [add_comm, ← add_assoc, add_right_comm]

end TorchNpu
