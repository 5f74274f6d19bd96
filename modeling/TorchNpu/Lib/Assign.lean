/-
  A function that is given values in a list of places.
-/
import Mathlib.Data.List.Nodup

namespace TorchNpu

namespace Assign

variable {β : Type} {f : ℕ → β} {places : List ℕ} {vs : List β} {p : ℕ}

/-- The places get the values, the first of them where a place is listed more than once. -/
def assign (f : ℕ → β) (places : List ℕ) (vs : List β) (p : ℕ) : β :=
  ((places.zip vs).lookup p).getD (f p)

theorem assign_cons {q : ℕ} {v : β} :
    assign f (q :: places) (v :: vs) p = if p = q then v else assign f places vs p := by
  unfold assign
  rw [List.zip_cons_cons, List.lookup_cons]
  by_cases h : p = q
  · rw [h, beq_self_eq_true, if_pos rfl, Option.getD_some]
  · rw [beq_false_of_ne h, if_neg h]

theorem assign_of_not_mem (h : p ∉ places) : assign f places vs p = f p := by
  induction places generalizing vs with
  | nil => rfl
  | cons q places ih =>
    rw [List.mem_cons, not_or] at h
    cases vs with
    | nil => rfl
    | cons v vs => rw [assign_cons, if_neg h.1, ih h.2]

/-- Places that are listed once have the values they were given. -/
theorem map_assign (hnodup : places.Nodup) (hlength : vs.length = places.length) :
    places.map (assign f places vs) = vs := by
  induction places generalizing vs with
  | nil => exact (List.length_eq_zero_iff.mp hlength).symm
  | cons q places ih =>
    obtain ⟨v, vs, rfl⟩ := List.exists_cons_of_length_eq_add_one hlength
    rw [List.nodup_cons] at hnodup
    rw [List.map_cons, assign_cons, if_pos rfl]
    congr 1
    refine Eq.trans (List.map_congr_left fun p hp => ?_) (ih hnodup.2 (Nat.succ_inj.mp hlength))
    rw [assign_cons, if_neg fun h : p = q => hnodup.1 (h ▸ hp)]

/-- A value is an old one or was given to its place. -/
theorem assign_eq_or (f : ℕ → β) (hlength : vs.length = places.length) (p : ℕ) :
    p ∉ places ∧ assign f places vs p = f p ∨
      ∃ k : ℕ, places[k]? = some p ∧ vs[k]? = some (assign f places vs p) := by
  induction places generalizing vs with
  | nil => exact .inl ⟨List.not_mem_nil, rfl⟩
  | cons q places ih =>
    obtain ⟨v, vs, rfl⟩ := List.exists_cons_of_length_eq_add_one hlength
    rw [assign_cons]
    by_cases h : p = q
    · rw [if_pos h, h]
      exact .inr ⟨0, rfl, rfl⟩
    · rw [if_neg h]
      rcases ih (Nat.succ_inj.mp hlength) with ⟨hmem, heq⟩ | ⟨k, hk, hv⟩
      · exact .inl ⟨fun hp => (List.mem_cons.mp hp).elim h hmem, heq⟩
      · exact .inr ⟨k + 1, hk, hv⟩

end Assign

end TorchNpu
