/-
  Lists of keys that are compared by the first difference, and by the sum of the weights of the keys.
-/
import Mathlib.Algebra.Order.Ring.Int
import Mathlib.Order.Defs.LinearOrder

namespace TorchNpu.WeightedKeys

variable {K : Type*} [LinearOrder K]

/-- The sum of the weights of the keys. -/
def totalWeight : List (K → ℤ) → List K → ℤ
  | weight :: weights, key :: keys => weight key + totalWeight weights keys
  | _, _ => 0

/-- At the first difference the first list has the larger key. -/
def atLeast : List K → List K → Bool
  | key :: keys, key' :: keys' => decide (key' < key) || decide (key = key') && atLeast keys keys'
  | _, _ => true

/-- At the first difference the list with the larger key has the larger weights from there on. -/
def Outweighs : List (K → ℤ) → List K → List K → Prop
  | weight :: weights, key :: keys, key' :: keys' =>
    if key = key' then Outweighs weights keys keys'
    else key' < key ↔ totalWeight (weight :: weights) (key' :: keys') ≤ totalWeight (weight :: weights) (key :: keys)
  | _, _, _ => True

/-- The sums are in the order of the lists exactly if no later weights outweigh the first difference. -/
theorem totalWeight_le_iff (weights : List (K → ℤ)) {keys keys' : List K} (h : keys.length = weights.length)
    (h' : keys'.length = weights.length) :
    decide (totalWeight weights keys' ≤ totalWeight weights keys) = atLeast keys keys' ↔ Outweighs weights keys keys' := by
  induction weights generalizing keys keys' with
  | nil =>
    obtain rfl := List.length_eq_zero_iff.mp h
    obtain rfl := List.length_eq_zero_iff.mp h'
    exact iff_of_true rfl (by unfold Outweighs; trivial)
  | cons weight weights ih =>
    obtain ⟨key, keys, rfl⟩ := List.exists_cons_of_length_eq_add_one h
    obtain ⟨key', keys', rfl⟩ := List.exists_cons_of_length_eq_add_one h'
    unfold atLeast Outweighs
    split_ifs with hkey
    · subst hkey
      rw [← ih (Nat.succ.inj h) (Nat.succ.inj h'), totalWeight, totalWeight, decide_eq_false (lt_irrefl _), decide_eq_true rfl,
        Bool.false_or, Bool.true_and]
      simp only [add_le_add_iff_left]
    · rw [decide_eq_false hkey, Bool.false_and, Bool.or_false, decide_eq_decide]
      exact iff_comm

end TorchNpu.WeightedKeys
