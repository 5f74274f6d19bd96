/-
  Strided views of a memory.

  A view is given by its sizes, its strides and an offset.  `positions` lists the places of its elements in
  row-major order; a view is contiguous where these are consecutive.
-/
import Mathlib.Data.Multiset.Bind
import Mathlib.Algebra.GroupWithZero.Nat

namespace TorchNpu

namespace Strided

/-! ### Positions -/

/-- The places of the elements of a view, in row-major order. -/
def positions : List ℕ → List ℕ → ℕ → List ℕ
  | n :: sizes, stride :: strides, offset =>
    (List.range n).flatMap fun i => positions sizes strides (offset + i * stride)
  | _, _, offset => [offset]

/-- The strides of a contiguous tensor. -/
def contiguousStrides : List ℕ → List ℕ
  | [] => []
  | _ :: sizes => sizes.prod :: contiguousStrides sizes

theorem length_positions {sizes strides : List ℕ} (hlength : strides.length = sizes.length)
    (offset : ℕ) : (positions sizes strides offset).length = sizes.prod := by
  induction sizes generalizing strides offset with
  | nil =>
    obtain rfl := List.length_eq_zero_iff.mp hlength
    rfl
  | cons n sizes ih =>
    obtain ⟨stride, strides, rfl⟩ := List.exists_cons_of_length_eq_add_one hlength
    rw [positions, List.length_flatMap, List.prod_cons]
    simp only [ih (Nat.succ_inj.mp hlength), List.map_const', List.length_range, List.sum_replicate_nat]

theorem length_contiguousStrides (sizes : List ℕ) :
    (contiguousStrides sizes).length = sizes.length := by
  induction sizes with
  | nil => rfl
  | cons n sizes ih => rw [contiguousStrides, List.length_cons, List.length_cons, ih]

theorem flatMap_range' (n m offset : ℕ) :
    ((List.range n).flatMap fun i => List.range' (offset + i * m) m) =
      List.range' offset (n * m) := by
  induction n with
  | zero => simp
  | succ n ih =>
    rw [List.range_succ, List.flatMap_append, ih, List.flatMap_singleton, Nat.succ_mul,
      List.range'_append_1]

/-- The elements of a contiguous tensor are consecutive. -/
theorem positions_contiguousStrides (sizes : List ℕ) (offset : ℕ) :
    positions sizes (contiguousStrides sizes) offset = List.range' offset sizes.prod := by
  induction sizes generalizing offset with
  | nil => rfl
  | cons n sizes ih =>
    simp only [contiguousStrides, positions, ih, List.prod_cons]
    exact flatMap_range' n sizes.prod offset

/-! ### The order of the dimensions -/

/-- `positions`, with the dimensions as pairs of size and stride. -/
def places : List (ℕ × ℕ) → ℕ → List ℕ
  | [], offset => [offset]
  | (n, stride) :: dims, offset => (List.range n).flatMap fun i => places dims (offset + i * stride)

theorem positions_eq_places {sizes strides : List ℕ} (hlength : strides.length = sizes.length)
    (offset : ℕ) : positions sizes strides offset = places (sizes.zip strides) offset := by
  induction sizes generalizing strides offset with
  | nil => rfl
  | cons n sizes ih =>
    obtain ⟨stride, strides, rfl⟩ := List.exists_cons_of_length_eq_add_one hlength
    simp only [positions, List.zip_cons_cons, places, ih (Nat.succ_inj.mp hlength)]

theorem flatMap_comm_perm {α β γ : Type} (l : List α) (l' : List β) (f : α → β → List γ) :
    (l.flatMap fun a => l'.flatMap fun b => f a b).Perm (l'.flatMap fun b => l.flatMap fun a => f a b) := by
  rw [← Multiset.coe_eq_coe]
  simp only [← Multiset.coe_bind]
  exact Multiset.bind_bind _ _

/-- The places do not depend on the order of the dimensions. -/
theorem places_perm {dims dims' : List (ℕ × ℕ)} (h : dims.Perm dims') (offset : ℕ) :
    (places dims offset).Perm (places dims' offset) := by
  induction h generalizing offset with
  | nil => exact List.Perm.refl _
  | cons dim _ ih => exact List.Perm.flatMap_left _ fun i _ => ih _
  | swap d e dims =>
    simp only [places]
    refine (flatMap_comm_perm _ _ _).trans ?_
    refine List.Perm.flatMap_left _ fun i _ => List.Perm.flatMap_left _ fun j _ => ?_
    rw [Nat.add_right_comm]
  | trans _ _ ih ih' => exact (ih offset).trans (ih' offset)

/-- The dimensions of size one have no effect. -/
theorem places_filter {dims : List (ℕ × ℕ)} (hdims : ∀ dim ∈ dims, dim.1 ≠ 0) (offset : ℕ) :
    places (dims.filter fun dim => 2 ≤ dim.1) offset = places dims offset := by
  induction dims generalizing offset with
  | nil => rfl
  | cons dim dims ih =>
    obtain ⟨n, stride⟩ := dim
    rw [List.forall_mem_cons] at hdims
    rw [List.filter_cons]
    split_ifs with h
    · simp only [places, ih hdims.2]
    · obtain rfl : n = 1 := by
        have h : ¬2 ≤ n := by simpa using h
        have hn : n ≠ 0 := hdims.1
        omega
      rw [ih hdims.2, places, List.range_one, List.flatMap_singleton, Nat.zero_mul, Nat.add_zero]

theorem places_add (dims : List (ℕ × ℕ)) (offset shift : ℕ) :
    places dims (shift + offset) = (places dims offset).map (shift + ·) := by
  induction dims generalizing offset with
  | nil => rfl
  | cons dim dims ih =>
    simp only [places, List.map_flatMap, ← ih, Nat.add_assoc]

/-! ### Views with the same elements -/

theorem prod_ne_zero_iff {sizes : List ℕ} : sizes.prod ≠ 0 ↔ ∀ n ∈ sizes, n ≠ 0 := by
  rw [Ne, List.prod_eq_zero_iff_exists_zero_nat, not_exists]
  exact forall_congr' fun n => not_and

theorem places_head? {dims : List (ℕ × ℕ)} (hdims : ∀ dim ∈ dims, dim.1 ≠ 0) (offset : ℕ) :
    (places dims offset).head? = some offset := by
  induction dims generalizing offset with
  | nil => rfl
  | cons dim dims ih =>
    obtain ⟨n, stride⟩ := dim
    rw [List.forall_mem_cons] at hdims
    obtain ⟨n, rfl⟩ := Nat.exists_eq_succ_of_ne_zero hdims.1
    rw [places, List.range_succ_eq_map, List.flatMap_cons, Nat.zero_mul, Nat.add_zero,
      List.head?_append_of_ne_nil]
    · exact ih hdims.2 offset
    · intro hnil
      have hhead := ih hdims.2 offset
      rw [hnil] at hhead
      cases hhead

theorem length_places (dims : List (ℕ × ℕ)) (offset : ℕ) :
    (places dims offset).length = (dims.map Prod.fst).prod := by
  induction dims generalizing offset with
  | nil => rfl
  | cons dim dims ih =>
    obtain ⟨n, stride⟩ := dim
    rw [places, List.length_flatMap, List.map_cons, List.prod_cons]
    simp only [ih, List.map_const', List.length_range, List.sum_replicate_nat]

/-- Two views of the same sizes. -/
inductive SameSizes : List (ℕ × ℕ) → List (ℕ × ℕ) → Prop
  | nil : SameSizes [] []
  | cons {n stride stride' : ℕ} {dims dims' : List (ℕ × ℕ)} (h : SameSizes dims dims') :
    SameSizes ((n, stride) :: dims) ((n, stride') :: dims')

/-- Two views of the same sizes have the same elements if their strides agree wherever a size is not one. -/
inductive Agree : List (ℕ × ℕ) → List (ℕ × ℕ) → Prop
  | nil : Agree [] []
  | cons {n stride stride' : ℕ} {dims dims' : List (ℕ × ℕ)} (hstride : n ≠ 1 → stride = stride')
    (h : Agree dims dims') : Agree ((n, stride) :: dims) ((n, stride') :: dims')

theorem Agree.places_eq {dims dims' : List (ℕ × ℕ)} (h : Agree dims dims') (offset : ℕ) :
    places dims offset = places dims' offset := by
  induction h generalizing offset with
  | nil => rfl
  | @cons n stride stride' dims dims' hstride _ ih =>
    by_cases hn : n = 1
    · subst hn
      simp only [places, List.range_one, List.flatMap_singleton, Nat.zero_mul, ih]
    · rw [places, places, hstride hn]
      simp only [ih]

/-- The elements of a view, if it has any, determine it but for the strides where a size is one. -/
theorem agree_of_places_eq {dims dims' : List (ℕ × ℕ)} (hsizes : SameSizes dims dims')
    (hdims : ∀ dim ∈ dims, dim.1 ≠ 0) {offset offset' : ℕ} (h : places dims offset = places dims' offset') :
    offset = offset' ∧ Agree dims dims' := by
  induction hsizes generalizing offset offset' with
  | nil => exact ⟨List.cons.inj h |>.1, .nil⟩
  | @cons n stride stride' dims dims' hsizes ih =>
    rw [List.forall_mem_cons] at hdims
    have hdims' : ∀ dim ∈ dims', dim.1 ≠ 0 := by
      clear ih h
      induction hsizes with
      | nil => exact nofun
      | cons _ ih =>
        rw [List.forall_mem_cons] at hdims ⊢
        exact ⟨hdims.2.1, ih ⟨hdims.1, hdims.2.2⟩⟩
    have hlength (o o' : ℕ) : (places dims o).length = (places dims' o').length := by
      clear ih h hdims hdims'
      rw [length_places, length_places]
      induction hsizes with
      | nil => rfl
      | cons _ ih => rw [List.map_cons, List.map_cons, List.prod_cons, List.prod_cons, ih]
    obtain ⟨n, rfl⟩ := Nat.exists_eq_succ_of_ne_zero hdims.1
    simp only [places, List.range_succ_eq_map, List.flatMap_cons, Nat.zero_mul, Nat.add_zero] at h
    obtain ⟨hfirst, hrest⟩ := List.append_inj h (hlength _ _)
    obtain ⟨rfl, hagree⟩ := ih hdims.2 hfirst
    refine ⟨rfl, .cons ?_ hagree⟩
    intro hn
    obtain ⟨n, rfl⟩ := Nat.exists_eq_succ_of_ne_zero (show n ≠ 0 by omega)
    rw [List.range_succ_eq_map, List.map_cons, List.flatMap_cons, List.flatMap_cons] at hrest
    have hsecond := (List.append_inj hrest (hlength _ _)).1
    have hstart := (ih hdims.2 hsecond).1
    omega

theorem agree_zip_iff {sizes strides strides' : List ℕ} (hlength : strides.length = sizes.length)
    (hlength' : strides'.length = sizes.length) :
    Agree (sizes.zip strides) (sizes.zip strides') ↔
      ∀ k < sizes.length, sizes.getD k 0 ≠ 1 → strides.getD k 0 = strides'.getD k 0 := by
  induction sizes generalizing strides strides' with
  | nil => exact iff_of_true .nil nofun
  | cons n sizes ih =>
    obtain ⟨stride, strides, rfl⟩ := List.exists_cons_of_length_eq_add_one hlength
    obtain ⟨stride', strides', rfl⟩ := List.exists_cons_of_length_eq_add_one hlength'
    have ih := ih (Nat.succ_inj.mp hlength) (Nat.succ_inj.mp hlength')
    rw [List.zip_cons_cons, List.zip_cons_cons, List.length_cons, Nat.forall_lt_succ_left]
    simp only [List.getD_cons_zero, List.getD_cons_succ]
    rw [← ih]
    constructor
    · intro h
      cases h with
      | cons hstride hrest => exact ⟨hstride, hrest⟩
    · rintro ⟨hstride, hrest⟩
      exact .cons hstride hrest

/-- The place of the last element, from the offset. -/
def reach (dims : List (ℕ × ℕ)) : ℕ :=
  (dims.map fun dim => (dim.1 - 1) * dim.2).sum

theorem reach_mem_places {dims : List (ℕ × ℕ)} (hdims : ∀ dim ∈ dims, dim.1 ≠ 0) (offset : ℕ) :
    offset + reach dims ∈ places dims offset := by
  induction dims generalizing offset with
  | nil => exact List.mem_singleton_self _
  | cons dim dims ih =>
    obtain ⟨n, stride⟩ := dim
    rw [List.forall_mem_cons] at hdims
    rw [places, List.mem_flatMap]
    refine ⟨n - 1, List.mem_range.mpr (Nat.sub_one_lt hdims.1), ?_⟩
    have hlast := ih hdims.2 (offset + (n - 1) * stride)
    rw [Nat.add_assoc] at hlast
    exact hlast

theorem le_reach_of_mem_places {dims : List (ℕ × ℕ)} {offset place : ℕ} (h : place ∈ places dims offset) :
    place ≤ offset + reach dims := by
  induction dims generalizing offset with
  | nil => exact (List.mem_singleton.mp h).le
  | cons dim dims ih =>
    obtain ⟨n, stride⟩ := dim
    rw [places, List.mem_flatMap] at h
    obtain ⟨i, hi, hplace⟩ := h
    have hle := ih hplace
    have hstep : i * stride ≤ (n - 1) * stride :=
      Nat.mul_le_mul_right stride (Nat.le_sub_one_of_lt (List.mem_range.mp hi))
    rw [reach, List.map_cons, List.sum_cons, ← reach]
    dsimp only
    omega

theorem reach_contiguous {sizes : List ℕ} (h : ∀ n ∈ sizes, n ≠ 0) :
    reach (sizes.zip (contiguousStrides sizes)) + 1 = sizes.prod := by
  induction sizes with
  | nil => rfl
  | cons n sizes ih =>
    rw [List.forall_mem_cons] at h
    have hrest := ih h.2
    rw [contiguousStrides, List.zip_cons_cons, reach, List.map_cons, List.sum_cons, ← reach, List.prod_cons,
      Nat.add_assoc, hrest]
    obtain ⟨n, rfl⟩ := Nat.exists_eq_succ_of_ne_zero h.1
    rw [Nat.succ_sub_one, Nat.succ_mul]

/-- Dimensions of size one in front. -/
theorem contiguousStrides_replicate_append (m : ℕ) (sizes : List ℕ) :
    contiguousStrides (List.replicate m 1 ++ sizes) = List.replicate m sizes.prod ++ contiguousStrides sizes := by
  induction m with
  | zero => rfl
  | succ m ih =>
    rw [List.replicate_succ, List.replicate_succ, List.cons_append, List.cons_append, contiguousStrides, ih,
      List.prod_append, List.prod_replicate, one_pow, one_mul]

theorem Agree.reach_eq {dims dims' : List (ℕ × ℕ)} (h : Agree dims dims') : reach dims = reach dims' := by
  induction h with
  | nil => rfl
  | @cons n stride stride' dims dims' hstride _ ih =>
    have hfirst : (n - 1) * stride = (n - 1) * stride' := by
      by_cases hn : n = 1
      · rw [hn, Nat.sub_self, Nat.zero_mul, Nat.zero_mul]
      · rw [hstride hn]
    unfold reach at ih ⊢
    rw [List.map_cons, List.map_cons, List.sum_cons, List.sum_cons, ih]
    exact congrArg (· + _) hfirst

/-! ### Without a dimension -/

theorem zip_eraseIdx (sizes strides : List ℕ) (k : ℕ) :
    (sizes.eraseIdx k).zip (strides.eraseIdx k) = (sizes.zip strides).eraseIdx k := by
  induction sizes generalizing strides k with
  | nil => rw [List.eraseIdx_nil, List.zip_nil_left, List.zip_nil_left, List.eraseIdx_nil]
  | cons n sizes ih =>
    cases strides with
    | nil => rw [List.eraseIdx_nil, List.zip_nil_right, List.zip_nil_right, List.eraseIdx_nil]
    | cons stride strides =>
      cases k with
      | zero => rfl
      | succ k => rw [List.eraseIdx_cons_succ, List.eraseIdx_cons_succ, List.zip_cons_cons, ih, List.zip_cons_cons,
          List.eraseIdx_cons_succ]

/-- A dimension of size one has no effect. -/
theorem places_set_one {dims : List (ℕ × ℕ)} {k : ℕ} (hk : k < dims.length) (stride offset : ℕ) :
    places (dims.set k (1, stride)) offset = places (dims.eraseIdx k) offset := by
  induction dims generalizing k offset with
  | nil => exact absurd hk (Nat.not_lt_zero k)
  | cons dim dims ih =>
    cases k with
    | zero =>
      rw [List.set_cons_zero, List.eraseIdx_cons_zero, places, List.range_one, List.flatMap_singleton, Nat.zero_mul,
        Nat.add_zero]
    | succ k =>
      rw [List.set_cons_succ, List.eraseIdx_cons_succ, places, places]
      simp only [ih (Nat.succ_lt_succ_iff.mp hk)]

theorem reach_eraseIdx {dims : List (ℕ × ℕ)} {k : ℕ} (hk : k < dims.length) :
    reach dims = (dims[k].1 - 1) * dims[k].2 + reach (dims.eraseIdx k) := by
  induction dims generalizing k with
  | nil => exact absurd hk (Nat.not_lt_zero k)
  | cons dim dims ih =>
    cases k with
    | zero => rfl
    | succ k =>
      have hrest := ih (Nat.succ_lt_succ_iff.mp hk)
      rw [List.eraseIdx_cons_succ, List.getElem_cons_succ, reach, List.map_cons, List.sum_cons, ← reach, hrest, reach,
        reach, List.map_cons, List.sum_cons]
      omega

/-! ### Coordinates -/

/-- The coordinates of a place of a contiguous tensor. -/
def coordinates : List ℕ → ℕ → List ℕ
  | [], _ => []
  | _ :: sizes, place => place / sizes.prod :: coordinates sizes (place % sizes.prod)

end Strided

end TorchNpu

/-!
  The tuples of indices below given sizes, in row-major order.
-/

namespace TorchNpu.Strided

/-- The last index runs fastest. -/
def tuples : List ℕ → List (List ℕ)
  | [] => [[]]
  | n :: sizes => (List.range n).flatMap fun i => (tuples sizes).map (i :: ·)

/-- The place of an element from its indices. -/
def place : List ℕ → List ℕ → ℕ
  | stride :: strides, i :: indices => i * stride + place strides indices
  | _, _ => 0

theorem length_of_mem_tuples {sizes indices : List ℕ} (h : indices ∈ tuples sizes) :
    indices.length = sizes.length := by
  induction sizes generalizing indices with
  | nil =>
    rw [tuples, List.mem_singleton] at h
    rw [h]
  | cons n sizes ih =>
    rw [tuples, List.mem_flatMap] at h
    obtain ⟨i, -, h⟩ := h
    obtain ⟨tail, htail, rfl⟩ := List.mem_map.mp h
    rw [List.length_cons, List.length_cons, ih htail]

/-- The tuples of two lists of sizes. -/
theorem tuples_append (sizes sizes' : List ℕ) :
    tuples (sizes ++ sizes') = (tuples sizes).flatMap fun v => (tuples sizes').map (v ++ ·) := by
  induction sizes with
  | nil => simp [tuples]
  | cons n sizes ih =>
    rw [List.cons_append, tuples, tuples, ih, List.flatMap_assoc]
    congr 1
    funext i
    rw [List.map_flatMap, List.flatMap_map]
    simp only [List.map_map]
    rfl

theorem tuples_singleton (n : ℕ) : tuples [n] = (List.range n).map fun i => [i] := by
  simp [tuples, List.map_eq_flatMap]

/-- The places of the elements of a view are those of its tuples. -/
theorem positions_eq_map_place {sizes strides : List ℕ} (hlength : strides.length = sizes.length)
    (offset : ℕ) : positions sizes strides offset = (tuples sizes).map fun v => offset + place strides v := by
  induction sizes generalizing strides offset with
  | nil =>
    obtain rfl := List.length_eq_zero_iff.mp hlength
    rfl
  | cons n sizes ih =>
    obtain ⟨stride, strides, rfl⟩ := List.exists_cons_of_length_eq_add_one hlength
    simp only [positions, tuples, ih (Nat.succ_inj.mp hlength), List.map_flatMap, List.map_map]
    congr 1
    funext i
    apply List.map_congr_left
    intro v _
    simp only [Function.comp, place]
    omega

/-- In a contiguous tensor the tuples are numbered in their order. -/
theorem map_place_contiguousStrides (sizes : List ℕ) :
    (tuples sizes).map (place (contiguousStrides sizes)) = List.range sizes.prod := by
  have hpositions := positions_eq_map_place (length_contiguousStrides sizes) 0
  rw [positions_contiguousStrides] at hpositions
  simp only [Nat.zero_add] at hpositions
  rw [← hpositions, List.range_eq_range']

end TorchNpu.Strided
