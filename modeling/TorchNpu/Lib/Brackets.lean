/-
  Matching brackets in a list.

  The brackets are the elements of the list, by their indices.  A bracket closes another one if what stands
  between them is balanced, and is open at an index if nothing before the index closes it.  `stack` finds the
  open brackets by going through the list once.
-/
import Mathlib.Algebra.BigOperators.Group.List.Basic
import Mathlib.Algebra.Order.Ring.Int
import Mathlib.Data.List.Induction
import Mathlib.Data.List.Infix

namespace TorchNpu

namespace Brackets

variable {α : Type*} (opens : α → Bool)

/-- How many brackets a list opens and does not close. -/
def excess (l : List α) : ℤ :=
  (l.map fun x => if opens x then 1 else -1).sum

/-- The list closes only what it opens. -/
def Within (l : List α) : Prop :=
  ∀ p, p <+: l → 0 ≤ excess opens p

/-- What stands between two indices. -/
def between (l : List α) (i k : ℕ) : List α :=
  (l.take k).drop (i + 1)

/-- The bracket at the second index closes that at the first one. -/
structure Closes (l : List α) (i k : ℕ) : Prop where
  lt : i < k
  closing : ∃ x ∈ l[k]?, opens x = false
  within : Within opens (between l i k)
  balanced : excess opens (between l i k) = 0

/-- The bracket at the second index is open at the first one. -/
structure OpenAt (l : List α) (k i : ℕ) : Prop where
  lt : i < k
  opening : ∃ x ∈ l[i]?, opens x = true
  within : Within opens (between l i k)

/-- The last of the brackets that are open at an index. -/
def InnermostAt (l : List α) (k i : ℕ) : Prop :=
  OpenAt opens l k i ∧ ∀ j, OpenAt opens l k j → j ≤ i

variable {opens} {l l' : List α} {i j k k' : ℕ} {x : α}

/-! ### What stands between two indices -/

theorem between_append (hk : k ≤ l.length) : between (l ++ l') i k = between l i k := by
  rw [between, List.take_append_of_le_length hk, between]

theorem between_succ (hik : i < k) (hk : l[k]? = some x) : between l i (k + 1) = between l i k ++ [x] := by
  have hlt := (List.getElem?_eq_some_iff.mp hk).1
  rw [between, List.take_add_one, hk, between, List.drop_append_of_le_length]
  · rfl
  · rw [List.length_take]
    omega

theorem between_self (h : k ≤ i + 1) : between l i k = [] := by
  rw [between, List.drop_eq_nil_iff, List.length_take]
  omega

/-- An index between two others. -/
theorem between_split (hik : i < j) (hjk : j < k) (hj : l[j]? = some x) :
    between l i k = between l i j ++ x :: between l j k := by
  obtain ⟨hlt, rfl⟩ := List.getElem?_eq_some_iff.mp hj
  have htake : l.take k = l.take j ++ l[j] :: between l j k := by
    rw [between]
    conv_lhs => rw [← List.take_append_drop j (l.take k)]
    rw [List.take_take, min_eq_left hjk.le, List.drop_eq_getElem_cons (by rw [List.length_take]; omega),
      List.getElem_take]
  rw [between, htake, List.drop_append_of_le_length]
  · rfl
  · rw [List.length_take]
    omega

theorem between_mono (hkk : k ≤ k') : between l i k <+: between l i k' := by
  have : l.take k <+: l.take k' := by
    rw [← min_eq_left hkk, ← List.take_take]
    exact List.take_prefix _ _
  exact this.drop _

/-! ### Counting -/

theorem excess_nil : excess opens [] = 0 :=
  rfl

theorem excess_append (l l' : List α) : excess opens (l ++ l') = excess opens l + excess opens l' := by
  rw [excess, List.map_append, List.sum_append, excess, excess]

theorem excess_cons (x : α) (l : List α) :
    excess opens (x :: l) = (if opens x then 1 else -1) + excess opens l := by
  rw [excess, List.map_cons, List.sum_cons, excess]

theorem excess_singleton (x : α) : excess opens [x] = if opens x then 1 else -1 := by
  rw [excess_cons, excess_nil, add_zero]

theorem Within.excess_nonneg (h : Within opens l) : 0 ≤ excess opens l :=
  h l (List.prefix_refl l)

theorem Within.of_isPrefix (h : Within opens l) (hp : l' <+: l) : Within opens l' :=
  fun p hp' => h p (hp'.trans hp)

theorem within_nil : Within opens [] := by
  intro p hp
  rw [List.prefix_nil.mp hp]
  exact le_rfl

theorem within_append_singleton :
    Within opens (l ++ [x]) ↔ Within opens l ∧ 0 ≤ excess opens (l ++ [x]) := by
  constructor
  · exact fun h => ⟨h.of_isPrefix (List.prefix_append _ _), h.excess_nonneg⟩
  · intro ⟨hl, hx⟩ p hp
    rcases List.prefix_concat_iff.mp hp with rfl | hp
    · exact hx
    · exact hl p hp

/-! ### Brackets that are closed -/

/-- A bracket that is closed is not open later. -/
theorem Closes.not_within (h : Closes opens l i k) (hk : k < k') : ¬ Within opens (between l i k') := by
  obtain ⟨x, hx, hclosing⟩ := h.closing
  intro hwithin
  have hshort := (hwithin.of_isPrefix (between_mono (Nat.succ_le_of_lt hk))).excess_nonneg
  rw [between_succ h.lt hx, excess_append, h.balanced, excess_singleton, hclosing] at hshort
  simp at hshort

theorem Closes.unique (h : Closes opens l i k) (h' : Closes opens l i k') : k = k' := by
  rcases lt_trichotomy k k' with hlt | rfl | hlt
  · exact absurd h'.within (h.not_within hlt)
  · rfl
  · exact absurd h.within (h'.not_within hlt)

/-- A bracket that opens later, and is open as long as the first one, is closed before it. -/
theorem Closes.lt_of_within (h : Closes opens l i k) (hij : i < j) (hj : ∃ x ∈ l[j]?, opens x = true)
    (hwithin : Within opens (between l j k')) (hk : k ≤ k') : k < j := by
  by_contra hnot
  obtain ⟨x, hx, hopening⟩ := hj
  obtain ⟨y, hy, hclosing⟩ := h.closing
  rcases (not_lt.mp hnot).lt_or_eq with hlt | rfl
  · have hbalanced := h.balanced
    have hfirst := (h.within.of_isPrefix (between_mono hlt.le)).excess_nonneg
    have hsecond := (hwithin.of_isPrefix (between_mono hk)).excess_nonneg
    rw [between_split hij hlt hx, excess_append, excess_cons, hopening] at hbalanced
    simp at hbalanced
    omega
  · obtain rfl := Option.some.inj (hx.symm.trans hy)
    rw [hopening] at hclosing
    exact Bool.noConfusion hclosing

/-- Two pairs of brackets are nested or apart. -/
theorem Closes.nested (h : Closes opens l i k) (h' : Closes opens l j k') (hij : i < j)
    (hj : ∃ x ∈ l[j]?, opens x = true) : k < j ∨ k' < k := by
  by_contra hnot
  rw [not_or] at hnot
  exact hnot.1 (h.lt_of_within hij hj h'.within (not_lt.mp hnot.2))

theorem Closes.append (h : Closes opens l i k) (l' : List α) : Closes opens (l ++ l') i k := by
  obtain ⟨x, hx, hclosing⟩ := h.closing
  have hk := (List.getElem?_eq_some_iff.mp hx).1
  have hbetween : between (l ++ l') i k = between l i k := between_append hk.le
  refine ⟨h.lt, ⟨x, ?_, hclosing⟩, hbetween ▸ h.within, hbetween ▸ h.balanced⟩
  rw [List.getElem?_append_left hk]
  exact hx

theorem openAt_append (hk : k ≤ l.length) : OpenAt opens (l ++ l') k i ↔ OpenAt opens l k i := by
  have hbetween : between (l ++ l') i k = between l i k := between_append hk
  constructor
  · intro ⟨hlt, hopening, hwithin⟩
    rw [List.getElem?_append_left (by omega)] at hopening
    exact ⟨hlt, hopening, hbetween ▸ hwithin⟩
  · intro ⟨hlt, hopening, hwithin⟩
    refine ⟨hlt, ?_, hbetween ▸ hwithin⟩
    rwa [List.getElem?_append_left (by omega)]

theorem innermostAt_append (hk : k ≤ l.length) : InnermostAt opens (l ++ l') k i ↔ InnermostAt opens l k i := by
  rw [InnermostAt, InnermostAt, openAt_append hk]
  simp only [openAt_append hk]

/-! ### The stack -/

variable (opens) in
/-- The indices of the brackets that are open after the list, the last one first. -/
def stack (l : List α) : List ℕ :=
  l.zipIdx.foldl (fun stack x => if opens x.1 then x.2 :: stack else stack.tail) []

theorem stack_append_singleton :
    stack opens (l ++ [x]) = if opens x then l.length :: stack opens l else (stack opens l).tail := by
  simp [stack, List.zipIdx_append]

/-- A bracket is on the stack below those that were opened after it. -/
theorem openAt_of_stack {p : ℕ} (h : (stack opens l)[p]? = some i) :
    OpenAt opens l l.length i ∧ excess opens (between l i l.length) = p := by
  induction l using List.reverseRecOn generalizing p i with
  | nil => simp [stack] at h
  | append_singleton l x ih =>
    rw [stack_append_singleton] at h
    -- A bracket that was on the stack before.
    have hlater : ∀ (q : ℕ) (e : ℤ), (stack opens l)[q]? = some i → e = (if opens x then 1 else -1) → 0 ≤ q + e →
        OpenAt opens (l ++ [x]) (l ++ [x]).length i ∧
          excess opens (between (l ++ [x]) i (l ++ [x]).length) = q + e := by
      intro q e hq he hnonneg
      obtain ⟨hopen, hexcess⟩ := ih hq
      have hbetween : between (l ++ [x]) i (l ++ [x]).length = between l i l.length ++ [x] := by
        rw [List.length_append, List.length_singleton, between_succ (x := x) hopen.lt (by simp),
          between_append le_rfl]
      have hsum : excess opens (between l i l.length ++ [x]) = q + e := by
        rw [excess_append, hexcess, excess_singleton, he]
      rw [hbetween, hsum]
      refine ⟨⟨?_, ?_, ?_⟩, rfl⟩
      · rw [List.length_append, List.length_singleton]
        have := hopen.lt
        omega
      · rw [List.getElem?_append_left hopen.lt]
        exact hopen.opening
      · rw [hbetween]
        exact within_append_singleton.mpr ⟨hopen.within, by rw [hsum]; exact hnonneg⟩
    by_cases hx : opens x
    · rw [if_pos hx] at h
      cases p with
      | zero =>
        obtain rfl : l.length = i := by simpa using h
        rw [between_self (by simp)]
        refine ⟨⟨by simp, ⟨x, by simp, hx⟩, ?_⟩, rfl⟩
        rw [between_self (by simp)]
        exact within_nil
      | succ q =>
        rw [List.getElem?_cons_succ] at h
        have := hlater q 1 h (by simp [hx]) (by omega)
        push_cast
        exact this
    · rw [if_neg hx, List.getElem?_tail] at h
      have := hlater (p + 1) (-1) h (by simp [hx]) (by omega)
      push_cast at this
      rwa [add_neg_cancel_right] at this

theorem mem_stack_iff : i ∈ stack opens l ↔ OpenAt opens l l.length i := by
  constructor
  · intro h
    obtain ⟨p, hp⟩ := List.getElem?_of_mem h
    exact (openAt_of_stack hp).1
  · induction l using List.reverseRecOn with
    | nil => exact fun h => absurd h.lt (by simp)
    | append_singleton l x ih =>
      intro h
      have hlt := h.lt
      rw [List.length_append, List.length_singleton] at hlt
      rw [stack_append_singleton]
      rcases (Nat.le_of_lt_succ hlt).lt_or_eq with hlt | rfl
      · have hwithin := h.within
        obtain ⟨y, hy, hopening⟩ := h.opening
        rw [List.getElem?_append_left hlt] at hy
        rw [List.length_append, List.length_singleton, between_succ (x := x) hlt (by simp),
          between_append le_rfl, within_append_singleton] at hwithin
        obtain ⟨p, hp⟩ := List.getElem?_of_mem (ih ⟨hlt, ⟨y, hy, hopening⟩, hwithin.1⟩)
        by_cases hx : opens x
        · rw [if_pos hx]
          exact List.mem_cons_of_mem _ (List.mem_of_getElem? hp)
        · -- The bracket that is closed is the top of the stack.
          rw [if_neg hx]
          have hexcess := hwithin.2
          rw [excess_append, (openAt_of_stack hp).2, excess_singleton, if_neg hx] at hexcess
          obtain ⟨q, rfl⟩ : ∃ q, p = q + 1 := ⟨p - 1, by omega⟩
          apply List.mem_of_getElem? (i := q)
          rw [List.getElem?_tail]
          exact hp
      · obtain ⟨y, hy, hopening⟩ := h.opening
        obtain rfl : x = y := by simpa using hy
        rw [if_pos hopening]
        exact List.mem_cons_self

theorem pairwise_stack (opens : α → Bool) (l : List α) : (stack opens l).Pairwise (· > ·) := by
  induction l using List.reverseRecOn with
  | nil => exact List.Pairwise.nil
  | append_singleton l x ih =>
    rw [stack_append_singleton]
    split_ifs
    · exact List.pairwise_cons.mpr ⟨fun i hi => (mem_stack_iff.mp hi).lt, ih⟩
    · exact ih.tail

/-- The top of the stack is the innermost bracket. -/
theorem innermostAt_of_stack {rest : List ℕ} (h : stack opens l = i :: rest) : InnermostAt opens l l.length i := by
  refine ⟨mem_stack_iff.mp (h ▸ List.mem_cons_self), fun j hj => ?_⟩
  rw [← mem_stack_iff, h] at hj
  rcases List.mem_cons.mp hj with rfl | hj
  · exact le_rfl
  · have hsorted := pairwise_stack opens l
    rw [h] at hsorted
    exact ((List.pairwise_cons.mp hsorted).1 j hj).le

/-- The top of the stack is what a bracket closes. -/
theorem closes_of_stack {rest : List ℕ} (h : stack opens l = i :: rest) (hx : opens x = false) :
    Closes opens (l ++ [x]) i l.length := by
  obtain ⟨hopen, hexcess⟩ := openAt_of_stack (p := 0) (i := i) (by rw [h]; rfl)
  have hbetween : between (l ++ [x]) i l.length = between l i l.length := between_append le_rfl
  exact ⟨hopen.lt, ⟨x, by simp, hx⟩, hbetween ▸ hopen.within, hbetween ▸ hexcess⟩

end Brackets

end TorchNpu
