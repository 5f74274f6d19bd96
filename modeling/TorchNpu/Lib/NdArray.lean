/-
  Arrays of any rank, and cutting one of their dimensions into consecutive chunks.

  An index is a function from dimensions to coordinates.  A shape bounds it: a dimension that the shape does
  not have counts as one of size one, so an index within a shape is `0` from its rank on, and every place of
  an array has exactly one index within its shape.  Two arrays are `Same` if they have one shape and the same
  elements at the indices within it.

  `NdArray.chunk d p r` is chunk `r` of an array along its dimension `d`, and `Concatenated d p parts full`
  says that `parts 0`, …, `parts (p - 1)` make up `full` when they are laid one behind the other along `d`:
  an array's own chunks do (`concatenated_of_same_chunk`).

  `sumBox shape f` adds up `f` over the indices within `shape`.  Cutting one dimension cuts the sum
  (`sumBox_eq_sum_chunks`), and a sum that only one index contributes to is that index's term
  (`sumBox_ite_eq`).
-/
import TorchNpu.Lib.Chunks
import Mathlib.Algebra.BigOperators.Ring.Finset
import Mathlib.Data.List.GetD

namespace TorchNpu

/-! ### Indices -/

namespace Index

/-- The index has a place in an array of this shape. -/
def Within (shape : List ℕ) (i : ℕ → ℕ) : Prop :=
  ∀ d, i d < shape.getD d 1

/-- The index with `k` added to its coordinate in `d`. -/
def shift (i : ℕ → ℕ) (d k : ℕ) : ℕ → ℕ :=
  Function.update i d (i d + k)

/-- The index with first coordinate `k` and the coordinates of `i` behind it. -/
def cons (k : ℕ) (i : ℕ → ℕ) : ℕ → ℕ
  | 0 => k
  | d + 1 => i d

variable {shape : List ℕ} {i j : ℕ → ℕ} {d e k len : ℕ}

@[simp] theorem shift_self : shift i d k d = i d + k :=
  Function.update_self ..

theorem shift_of_ne (h : e ≠ d) : shift i d k e = i e :=
  Function.update_of_ne h ..

@[simp] theorem shift_zero : shift i d 0 = i := by
  unfold shift
  rw [Nat.add_zero, Function.update_eq_self]

@[simp] theorem cons_succ : cons k i (d + 1) = i d := rfl

theorem cons_coordinates : cons (i 0) (fun e => i (e + 1)) = i := by
  ext e
  rcases e with - | e <;> rfl

theorem shift_cons_zero {q : ℕ} : shift (cons k i) 0 q = cons (k + q) i := by
  ext e
  rcases e with - | e
  · exact shift_self
  · exact shift_of_ne (Nat.succ_ne_zero e)

theorem shift_cons_succ {q : ℕ} : shift (cons k i) (d + 1) q = cons k (shift i d q) := by
  ext e
  rcases e with - | e
  · exact shift_of_ne (Nat.succ_ne_zero d).symm
  · by_cases hed : e = d
    · subst hed
      rw [shift_self, cons_succ, cons_succ, shift_self]
    · rw [shift_of_ne (by omega), cons_succ, cons_succ, shift_of_ne hed]

theorem update_shift_of_ne {v : ℕ} (h : d ≠ e) :
    Function.update (shift i e k) d v = shift (Function.update i d v) e k := by
  unfold shift
  rw [Function.update_of_ne h.symm, Function.update_comm h]

theorem update_shift_self {v : ℕ} : Function.update (shift i d k) d v = Function.update i d v :=
  Function.update_idem ..

theorem shift_update_self {v : ℕ} : shift (Function.update i d v) d k = Function.update i d (v + k) := by
  unfold shift
  rw [Function.update_self, Function.update_idem]

theorem Within.cons {n : ℕ} {s : List ℕ} (hk : k < n) (h : Within s i) : Within (n :: s) (cons k i) := by
  intro e
  rcases e with - | e
  · exact hk
  · exact h e

theorem Within.tail {n : ℕ} {s : List ℕ} (h : Within (n :: s) i) : Within s fun e => i (e + 1) :=
  fun e => h (e + 1)

theorem getD_set_self (h : d < shape.length) : (shape.set d len).getD d 1 = len := by
  rw [List.getD_eq_getElem?_getD, List.getElem?_set_self h, Option.getD_some]

theorem getD_set_of_ne (h : e ≠ d) : (shape.set d len).getD e 1 = shape.getD e 1 := by
  rw [List.getD_eq_getElem?_getD, List.getElem?_set_ne h.symm, List.getD_eq_getElem?_getD]

theorem set_getD_self : shape.set d (shape.getD d 1) = shape := by
  by_cases h : d < shape.length
  · rw [List.getD_eq_getElem _ _ h, List.set_getElem_self]
  · exact List.set_eq_of_length_le (by omega)

theorem ext_getD {s t : List ℕ} (hlength : s.length = t.length) (h : ∀ e, s.getD e 1 = t.getD e 1) : s = t := by
  refine List.ext_getElem hlength fun e hs ht => ?_
  have he := h e
  rw [List.getD_eq_getElem _ _ hs, List.getD_eq_getElem _ _ ht] at he
  exact he

/-- An index of the piece of length `len` that begins at `k` is one of the whole. -/
theorem Within.shift (hd : d < shape.length) (hk : k + len ≤ shape.getD d 1) (h : Within (shape.set d len) i) :
    Within shape (shift i d k) := by
  intro e
  have he := h e
  by_cases hed : e = d
  · subst hed
    rw [getD_set_self hd] at he
    rw [shift_self]
    omega
  · rw [getD_set_of_ne hed] at he
    rw [shift_of_ne hed]
    exact he

theorem Within.eq_zero (h : Within shape i) (hd : shape.getD d 1 = 1) : i d = 0 := by
  have hd' := h d
  omega

end Index

/-! ### Arrays -/

/-- An array; only its elements at the indices within its shape count. -/
structure NdArray (α : Type*) where
  shape : List ℕ
  get : (ℕ → ℕ) → α

namespace NdArray

open Index

variable {α : Type*} {A B C : NdArray α} {d p r : ℕ}

/-- The size of dimension `d`; one beyond the rank. -/
def dim (A : NdArray α) (d : ℕ) : ℕ :=
  A.shape.getD d 1

def Same (A B : NdArray α) : Prop :=
  A.shape = B.shape ∧ ∀ i, Within A.shape i → A.get i = B.get i

theorem Same.refl (A : NdArray α) : Same A A :=
  ⟨rfl, fun _ _ => rfl⟩

theorem Same.symm (h : Same A B) : Same B A := by
  refine ⟨h.1.symm, fun i hi => ?_⟩
  rw [← h.1] at hi
  exact (h.2 i hi).symm

theorem Same.trans (hAB : Same A B) (hBC : Same B C) : Same A C := by
  refine ⟨hAB.1.trans hBC.1, fun i hi => ?_⟩
  have hi' : Within B.shape i := hAB.1 ▸ hi
  exact (hAB.2 i hi).trans (hBC.2 i hi')

/-- The places of `A` from `start` on along `d`, `len` of them. -/
def narrow (A : NdArray α) (d start len : ℕ) : NdArray α where
  shape := A.shape.set d len
  get i := A.get (shift i d start)

/-- Chunk `r` of the `p` chunks of `A` along `d`. -/
def chunk (A : NdArray α) (d p r : ℕ) : NdArray α :=
  A.narrow d (chunkStart (A.dim d) p r) (chunkLen (A.dim d) p r)

theorem dim_chunk (hd : d < A.shape.length) (p r : ℕ) : (A.chunk d p r).dim d = chunkLen (A.dim d) p r :=
  getD_set_self hd

/-- An array without elements keeps its shape when its empty dimension is cut. -/
theorem shape_chunk_of_dim_eq_zero (h : A.dim d = 0) : (A.chunk d p r).shape = A.shape := by
  have hbound := chunkStart_add_chunkLen_le (n := A.dim d) (p := p) (r := r)
  have hlen : chunkLen (A.dim d) p r = A.shape.getD d 1 := by
    unfold dim at hbound h ⊢
    omega
  show A.shape.set d (chunkLen (A.dim d) p r) = A.shape
  rw [hlen]
  exact set_getD_self

/-- `parts 0`, …, `parts (p - 1)`, laid one behind the other along `d`, are `full`. -/
structure Concatenated (d p : ℕ) (parts : ℕ → NdArray α) (full : NdArray α) : Prop where
  shape : ∀ r < p, (parts r).shape = full.shape.set d ((parts r).dim d)
  length : ∑ r ∈ Finset.range p, (parts r).dim d = full.dim d
  get : ∀ r < p, ∀ i, Within (parts r).shape i →
    (parts r).get i = full.get (shift i d (∑ q ∈ Finset.range r, (parts q).dim d))

theorem concatenated_of_same_chunk {parts : ℕ → NdArray α} {full : NdArray α} (hp : 0 < p)
    (hd : d < full.shape.length) (h : ∀ r < p, Same (parts r) (full.chunk d p r)) :
    Concatenated d p parts full := by
  have hdim : ∀ r < p, (parts r).dim d = chunkLen (full.dim d) p r := by
    intro r hr
    rw [dim, (h r hr).1]
    exact getD_set_self hd
  have hstart : ∀ r ≤ p, ∑ q ∈ Finset.range r, (parts q).dim d = chunkStart (full.dim d) p r := by
    intro r hr
    rw [← sum_chunkLen]
    refine Finset.sum_congr rfl fun q hq => hdim q ?_
    rw [Finset.mem_range] at hq
    omega
  refine ⟨fun r hr => ?_, ?_, fun r hr i hi => ?_⟩
  · rw [hdim r hr]
    exact (h r hr).1
  · rw [hstart p le_rfl, chunkStart_self hp]
  · rw [hstart r hr.le]
    exact (h r hr).2 i hi

end NdArray

/-! ### Sums over a shape -/

section SumBox

open Index

variable {M : Type*} [AddCommMonoid M] {shape : List ℕ} {f g : (ℕ → ℕ) → M} {d p : ℕ}

/-- The sum of `f` over the indices within the shape. -/
def sumBox : List ℕ → ((ℕ → ℕ) → M) → M
  | [], f => f fun _ => 0
  | n :: shape, f => ∑ k ∈ Finset.range n, sumBox shape fun i => f (cons k i)

theorem sumBox_congr (h : ∀ i, Within shape i → f i = g i) : sumBox shape f = sumBox shape g := by
  induction shape generalizing f g with
  | nil => exact h _ fun d => Nat.zero_lt_one
  | cons n shape ih =>
    refine Finset.sum_congr rfl fun k hk => ih fun i hi => ?_
    exact h _ (hi.cons (Finset.mem_range.mp hk))

theorem sumBox_zero : sumBox shape (fun _ => (0 : M)) = 0 := by
  induction shape with
  | nil => rfl
  | cons n shape ih => exact Finset.sum_eq_zero fun k _ => ih

theorem sumBox_eq_zero (h : ∀ i, Within shape i → f i = 0) : sumBox shape f = 0 :=
  (sumBox_congr h).trans sumBox_zero

/-- Cutting a dimension into chunks cuts the sum. -/
theorem sumBox_eq_sum_chunks (hp : 0 < p) (hd : d < shape.length) :
    sumBox shape f = ∑ r ∈ Finset.range p, sumBox (shape.set d (chunkLen (shape.getD d 1) p r))
      fun i => f (shift i d (chunkStart (shape.getD d 1) p r)) := by
  induction shape generalizing f d with
  | nil => exact absurd hd (Nat.not_lt_zero d)
  | cons n shape ih =>
    rcases d with - | d
    · show ∑ k ∈ Finset.range n, sumBox shape (fun i => f (cons k i)) = _
      rw [sum_range_eq_sum_chunks _ hp]
      refine Finset.sum_congr rfl fun r _ => Finset.sum_congr rfl fun k _ => ?_
      simp only [shift_cons_zero, List.getD_cons_zero]
    · show ∑ k ∈ Finset.range n, sumBox shape (fun i => f (cons k i)) = _
      have hd : d < shape.length := Nat.lt_of_succ_lt_succ hd
      simp only [ih hd]
      rw [Finset.sum_comm]
      refine Finset.sum_congr rfl fun r _ => Finset.sum_congr rfl fun k _ => ?_
      simp only [shift_cons_succ, List.getD_cons_succ]

/-- A sum to which only the index `o` contributes. -/
theorem sumBox_ite_eq {o : ℕ → ℕ} (ho : Within shape o) :
    sumBox shape (fun i => if ∀ d < shape.length, i d = o d then f i else 0) = f o := by
  induction shape generalizing f o with
  | nil =>
    have hzero : o = fun _ => 0 := by
      ext d
      exact Nat.lt_one_iff.mp (ho d)
    subst hzero
    rw [sumBox]
    exact if_pos fun d hd => absurd hd (Nat.not_lt_zero d)
  | cons n shape ih =>
    have h0 : o 0 < n := ho 0
    have hsplit : ∀ k i, (∀ d < (n :: shape).length, cons k i d = o d) ↔
        k = o 0 ∧ ∀ d < shape.length, i d = o (d + 1) := by
      intro k i
      constructor
      · intro h
        exact ⟨h 0 (Nat.succ_pos _), fun d hd => h (d + 1) (Nat.succ_lt_succ hd)⟩
      · rintro ⟨rfl, h⟩ d hd
        rcases d with - | d
        · rfl
        · exact h d (Nat.lt_of_succ_lt_succ hd)
    show ∑ k ∈ Finset.range n, sumBox shape _ = _
    rw [Finset.sum_eq_single_of_mem (o 0) (Finset.mem_range.mpr h0)]
    · simp only [hsplit, true_and]
      rw [ih ho.tail, cons_coordinates]
    · intro k _ hk
      refine sumBox_eq_zero fun i _ => if_neg ?_
      rw [hsplit]
      exact fun h => hk h.1

end SumBox

end TorchNpu
