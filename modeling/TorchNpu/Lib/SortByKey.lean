/-
  Lists that are sorted by a key.

  `insertionSort` keeps what has the same key in the order of the list, as a stable sort does
  (`pairwise_insertionSort_stable`), and selecting before the sort or after it is the same
  (`filterMap_insertionSort_on`).
-/
import Mathlib.Data.List.Sort
import Mathlib.Order.Lattice

namespace TorchNpu

namespace SortByKey

variable {α β τ : Type*} [LinearOrder τ] (key : α → τ)

theorem pairwise_orderedInsert_stable {R : α → α → Prop} {a : α} {l : List α}
    (hl : l.Pairwise fun x y => key x ≤ key y ∧ (key y ≤ key x → R x y)) (ha : ∀ x ∈ l, R a x) :
    (l.orderedInsert (fun x y => key x ≤ key y) a).Pairwise fun x y =>
      key x ≤ key y ∧ (key y ≤ key x → R x y) := by
  induction l with
  | nil => exact List.pairwise_singleton _ _
  | cons b l ih =>
    obtain ⟨hb, hl⟩ := List.pairwise_cons.mp hl
    obtain ⟨hab, ha⟩ := List.forall_mem_cons.mp ha
    rw [List.orderedInsert_cons]
    split_ifs with hle
    · refine List.pairwise_cons.mpr ⟨List.forall_mem_cons.mpr ⟨⟨hle, fun _ => hab⟩, fun x hx => ?_⟩,
        List.pairwise_cons.mpr ⟨hb, hl⟩⟩
      exact ⟨hle.trans (hb x hx).1, fun _ => ha x hx⟩
    · refine List.pairwise_cons.mpr ⟨fun x hx => ?_, ih hl ha⟩
      rcases (List.mem_orderedInsert _).mp hx with rfl | hx
      · exact ⟨(not_le.mp hle).le, fun h => absurd h hle⟩
      · exact hb x hx

/-- The sorted list is in the order of the keys, and what has the same key stays in its order. -/
theorem pairwise_insertionSort_stable {R : α → α → Prop} {l : List α} (h : l.Pairwise R) :
    (l.insertionSort fun x y => key x ≤ key y).Pairwise fun x y =>
      key x ≤ key y ∧ (key y ≤ key x → R x y) := by
  induction l with
  | nil => exact List.Pairwise.nil
  | cons a l ih =>
    obtain ⟨ha, h⟩ := List.pairwise_cons.mp h
    rw [List.insertionSort_cons]
    apply pairwise_orderedInsert_stable key (ih h)
    intro x hx
    exact ha x ((List.mem_insertionSort _).mp hx)

theorem pairwise_insertionSort_on (l : List α) :
    (l.insertionSort fun x y => key x ≤ key y).Pairwise fun x y => key x ≤ key y :=
  (pairwise_insertionSort_stable key (List.pairwise_of_forall fun _ _ => trivial)).imp And.left

/-! ### Selecting from a sorted list -/

variable {f : α → Option β} {key' : β → τ}

theorem orderedInsert_filterMap (hf : ∀ a b, f a = some b → key' b = key a) {a : α} {l : List α}
    (hl : l.Pairwise fun x y => key x ≤ key y) :
    (l.orderedInsert (fun x y => key x ≤ key y) a).filterMap f =
      ((f a).elim (l.filterMap f) fun b => (l.filterMap f).orderedInsert (fun x y => key' x ≤ key' y) b) := by
  induction l with
  | nil => cases hfa : f a <;> simp [hfa]
  | cons c l ih =>
    obtain ⟨hc, hl⟩ := List.pairwise_cons.mp hl
    rw [List.orderedInsert_cons]
    split_ifs with hle
    · cases hfa : f a with
      | none => simp [hfa]
      | some b =>
        -- What is left of the list begins with a key that is no smaller.
        rw [List.filterMap_cons_some hfa, Option.elim_some]
        have hall : ∀ y ∈ (c :: l).filterMap f, key' b ≤ key' y := by
          intro y hy
          obtain ⟨x, hx, hxy⟩ := List.mem_filterMap.mp hy
          rw [hf a b hfa, hf x y hxy]
          rcases List.mem_cons.mp hx with rfl | hx
          · exact hle
          · exact hle.trans (hc x hx)
        cases hlist : (c :: l).filterMap f with
        | nil => rfl
        | cons y ys =>
          rw [hlist] at hall
          rw [List.orderedInsert_cons, if_pos (hall y (by simp))]
    · cases hfc : f c with
      | none => rw [List.filterMap_cons_none hfc, ih hl, List.filterMap_cons_none hfc]
      | some d =>
        rw [List.filterMap_cons_some hfc, ih hl, List.filterMap_cons_some hfc]
        cases hfa : f a with
        | none => rfl
        | some b =>
          rw [Option.elim_some, Option.elim_some, List.orderedInsert_cons, hf a b hfa, hf c d hfc, if_neg hle]

/-- Selecting from a sorted list and sorting what is selected are the same. -/
theorem filterMap_insertionSort_on (hf : ∀ a b, f a = some b → key' b = key a) (l : List α) :
    (l.insertionSort fun x y => key x ≤ key y).filterMap f =
      (l.filterMap f).insertionSort fun x y => key' x ≤ key' y := by
  induction l with
  | nil => rfl
  | cons a l ih =>
    rw [List.insertionSort_cons, orderedInsert_filterMap key hf (pairwise_insertionSort_on key l), ih]
    cases hfa : f a with
    | none => rw [List.filterMap_cons_none hfa, Option.elim_none]
    | some b => rw [List.filterMap_cons_some hfa, Option.elim_some, List.insertionSort_cons]

end SortByKey

end TorchNpu
