/-
  Positions in graphs: the paths from an object through the parts of objects.
-/
import Mathlib.Data.List.Basic

namespace TorchNpu.Paths

variable {R : Type*} (parts : R → List R)

/-- The object at a path, whose last step comes first. -/
def follow (root : R) : List ℕ → Option R
  | [] => some root
  | i :: path => (follow root path).bind fun x => (parts x)[i]?

/-- No path has `n` steps. -/
def Within : ℕ → R → Prop
  | 0, _ => False
  | n + 1, x => ∀ y ∈ parts x, Within n y

variable {parts} {root x : R}

theorem follow_append {path path' : List ℕ} (h : follow parts root path' = some x) :
    follow parts root (path ++ path') = follow parts x path := by
  induction path with
  | nil => exact h
  | cons i path ih => rw [List.cons_append, follow, ih, follow]

theorem within_iff {n : ℕ} :
    Within parts n root ↔ ∀ path x, follow parts root path = some x → path.length < n := by
  induction n generalizing root with
  | zero => exact iff_of_false id fun h => absurd (h [] root rfl) (Nat.not_lt_zero _)
  | succ n ih =>
    unfold Within
    constructor
    · intro h path x hx
      -- The first step leads to a part of the root.
      rcases List.eq_nil_or_concat path with rfl | ⟨path, i, rfl⟩
      · exact Nat.succ_pos n
      · rw [List.concat_eq_append] at hx ⊢
        rcases hy : (parts root)[i]? with _ | y
        · have hnone : ∀ path, follow parts root (path ++ [i]) = none := by
            intro path
            induction path with
            | nil => exact hy
            | cons j path ih => rw [List.cons_append, follow, ih, Option.bind_none]
          rw [hnone] at hx
          exact absurd hx (Option.some_ne_none x).symm
        · rw [follow_append (show follow parts root [i] = some y from hy)] at hx
          have hlt := ih.mp (h y (List.mem_of_getElem? hy)) path x hx
          rw [List.length_append, List.length_singleton]
          omega
    · intro h y hy
      obtain ⟨i, hi⟩ := List.mem_iff_getElem?.mp hy
      refine ih.mpr fun path x hx => ?_
      have hlt := h (path ++ [i]) x ((follow_append (show follow parts root [i] = some y from hi)).trans hx)
      rw [List.length_append, List.length_singleton] at hlt
      omega

/-- From an object that is its own part paths can be arbitrarily long. -/
theorem not_within_of_follow_self {path : List ℕ} (hne : path ≠ []) (h : follow parts x path = some x) (n : ℕ) :
    ¬Within parts n x := by
  have hlong : ∀ k, ∃ path', follow parts x path' = some x ∧ k ≤ path'.length := by
    intro k
    induction k with
    | zero => exact ⟨[], rfl, Nat.zero_le _⟩
    | succ k ih =>
      obtain ⟨path', hpath', hk⟩ := ih
      refine ⟨path ++ path', (follow_append hpath').trans h, ?_⟩
      have := List.length_pos_iff.mpr hne
      rw [List.length_append]
      omega
  intro hwithin
  obtain ⟨path', hpath', hn⟩ := hlong n
  exact absurd (within_iff.mp hwithin path' x hpath') (Nat.not_lt.mpr hn)

end TorchNpu.Paths
