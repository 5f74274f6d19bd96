/-
  Spans of numbers that are laid one after the other.
-/
import Mathlib.Order.Nat
import Mathlib.Data.List.Basic

namespace TorchNpu

variable {α : Type*}

/-- The spans stand in order between `lo` and `hi`, and none begins before those ahead of it end. -/
structure Spans (start size : α → ℕ) (lo hi : ℕ) (l : List α) : Prop where
  le : lo ≤ hi
  pairwise : l.Pairwise fun a b => start a + size a ≤ start b
  within : ∀ a ∈ l, lo ≤ start a ∧ start a + size a ≤ hi

namespace Spans

variable {start size : α → ℕ} {lo mid hi : ℕ} {l l' : List α}

theorem nil (h : lo ≤ hi) : Spans start size lo hi [] :=
  ⟨h, .nil, by simp⟩

theorem singleton {a : α} (hlo : lo ≤ start a) (hhi : start a + size a ≤ hi) : Spans start size lo hi [a] :=
  ⟨by omega, List.pairwise_singleton _ _, by simp [hlo, hhi]⟩

theorem append (h : Spans start size lo mid l) (h' : Spans start size mid hi l') :
    Spans start size lo hi (l ++ l') := by
  refine ⟨h.le.trans h'.le, List.pairwise_append.mpr ⟨h.pairwise, h'.pairwise, fun a ha b hb => ?_⟩, fun a ha => ?_⟩
  · exact (h.within a ha).2.trans (h'.within b hb).1
  · rcases List.mem_append.mp ha with ha | ha
    · exact ⟨(h.within a ha).1, (h.within a ha).2.trans h'.le⟩
    · exact ⟨h.le.trans (h'.within a ha).1, (h'.within a ha).2⟩

end Spans

end TorchNpu
