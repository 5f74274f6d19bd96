/-
  The matrix product as a contraction, and its parts when a loop is cut.
-/
import TorchNpu.DTensor.MatrixOps

namespace TorchNpu.DTensor

open Index NdArray Placement Contraction

/-! ### The loops of the dimensions -/

section Loops

variable {s₁ s₂ : List ℕ} {r₁ r₂ t t' d : ℕ}

theorem loop₁_inj (ht : t < r₁) (ht' : t' < r₁) (h : loop₁ r₁ r₂ t = loop₁ r₁ r₂ t') : t = t' := by
  unfold loop₁ at h
  split_ifs at h <;> omega

theorem loop₂_inj (ht : t < r₂) (ht' : t' < r₂) (h : loop₂ r₁ r₂ t = loop₂ r₁ r₂ t') : t = t' := by
  unfold loop₂ at h
  split_ifs at h <;> omega

theorem loopOut_inj (h : loopOut r₁ r₂ t = loopOut r₁ r₂ t') : t = t' := by
  unfold loopOut at h
  split_ifs at h <;> omega

theorem size_loop₁_of_eq {v : ℕ} (ht : t < s₁.length) (h : loop₁ s₁.length r₂ t = v) :
    size s₁ (loop₁ s₁.length r₂) v = s₁.getD t 1 :=
  size_eq ht h fun _ ht' h' => loop₁_inj ht' ht (h'.trans h.symm)

theorem size_loop₂_of_eq {v : ℕ} (ht : t < s₂.length) (h : loop₂ r₁ s₂.length t = v) :
    size s₂ (loop₂ r₁ s₂.length) v = s₂.getD t 1 :=
  size_eq ht h fun _ ht' h' => loop₂_inj ht' ht (h'.trans h.symm)

theorem size_loop₁_inner (h₁ : 0 < s₁.length) : size s₁ (loop₁ s₁.length r₂) 0 = s₁.getD (innerDim₁ s₁) 1 := by
  unfold innerDim₁
  refine size_loop₁_of_eq (by omega) ?_
  unfold loop₁
  split_ifs <;> omega

theorem size_loop₂_inner (h₂ : 0 < s₂.length) : size s₂ (loop₂ r₁ s₂.length) 0 = s₂.getD (innerDim₂ s₂) 1 := by
  unfold innerDim₂
  refine size_loop₂_of_eq (by omega) ?_
  unfold loop₂
  split_ifs <;> omega

theorem getD_take {s : List ℕ} {n : ℕ} (h : d < n) : (s.take n).getD d 1 = s.getD d 1 := by
  rw [List.getD_eq_getElem?_getD, List.getElem?_take_of_lt h, List.getD_eq_getElem?_getD]

theorem length_batchShape {s : List ℕ} : (batchShape s).length = s.length - 2 := by
  rw [batchShape, List.length_take]
  omega

theorem size_loop₁_batch (hd : d < max (s₁.length - 2) (r₂ - 2)) :
    size s₁ (loop₁ s₁.length r₂) (d + 1) = alignedDim (batchShape s₁) (max (s₁.length - 2) (r₂ - 2)) d := by
  unfold alignedDim
  rw [length_batchShape]
  split_ifs with hout
  · refine size_eq_one fun t ht => Or.inr ?_
    unfold loop₁
    split_ifs <;> omega
  · rw [batchShape, getD_take (by omega)]
    refine size_loop₁_of_eq (by omega) ?_
    unfold loop₁
    split_ifs <;> omega

theorem size_loop₂_batch (hd : d < max (r₁ - 2) (s₂.length - 2)) :
    size s₂ (loop₂ r₁ s₂.length) (d + 1) = alignedDim (batchShape s₂) (max (r₁ - 2) (s₂.length - 2)) d := by
  unfold alignedDim
  rw [length_batchShape]
  split_ifs with hout
  · refine size_eq_one fun t ht => Or.inr ?_
    unfold loop₂
    split_ifs <;> omega
  · rw [batchShape, getD_take (by omega)]
    refine size_loop₂_of_eq (by omega) ?_
    unfold loop₂
    split_ifs <;> omega

theorem size_loop₁_row : size s₁ (loop₁ s₁.length r₂) (max (s₁.length - 2) (r₂ - 2) + 1) =
    if s₁.length ≤ 1 then 1 else s₁.getD (s₁.length - 2) 1 := by
  split_ifs with h
  · refine size_eq_one fun t ht => Or.inr ?_
    unfold loop₁
    split_ifs <;> omega
  · refine size_loop₁_of_eq (by omega) ?_
    unfold loop₁
    split_ifs <;> omega

theorem size_loop₂_row : size s₂ (loop₂ r₁ s₂.length) (max (r₁ - 2) (s₂.length - 2) + 1) = 1 := by
  refine size_eq_one fun t ht => Or.inr ?_
  unfold loop₂
  split_ifs <;> omega

theorem size_loop₁_column : size s₁ (loop₁ s₁.length r₂) (max (s₁.length - 2) (r₂ - 2) + 2) = 1 := by
  refine size_eq_one fun t ht => Or.inr ?_
  unfold loop₁
  split_ifs <;> omega

theorem size_loop₂_column : size s₂ (loop₂ r₁ s₂.length) (max (r₁ - 2) (s₂.length - 2) + 2) =
    if s₂.length ≤ 1 then 1 else s₂.getD (s₂.length - 1) 1 := by
  split_ifs with h
  · refine size_eq_one fun t ht => Or.inr ?_
    unfold loop₂
    split_ifs <;> omega
  · refine size_loop₂_of_eq (by omega) ?_
    unfold loop₂
    split_ifs <;> omega

end Loops

/-! ### Shapes through the loops -/

section Shapes

variable {s₁ s₂ : List ℕ} {t d u v : ℕ}

theorem length_matmulExtents : (matmulExtents s₁ s₂).length = batchRank s₁ s₂ + 3 :=
  length_extents

theorem getD_matmulExtents (hu : u < batchRank s₁ s₂ + 3) : (matmulExtents s₁ s₂).getD u 1 =
    broadcastDim (size s₁ (loop₁ s₁.length s₂.length) u) (size s₂ (loop₂ s₁.length s₂.length) u) :=
  getD_extents hu

theorem getD_matmulExtents_row (h : s₁.length = 1) : (matmulExtents s₁ s₂).getD (batchRank s₁ s₂ + 1) 1 = 1 := by
  rw [getD_matmulExtents (by omega)]
  unfold batchRank
  rw [size_loop₁_row, size_loop₂_row, if_pos h.le]
  exact if_pos rfl

theorem getD_matmulExtents_column (h : s₂.length = 1) :
    (matmulExtents s₁ s₂).getD (batchRank s₁ s₂ + 2) 1 = 1 := by
  rw [getD_matmulExtents (by omega)]
  unfold batchRank
  rw [size_loop₁_column, size_loop₂_column, if_pos h.le]
  exact if_pos rfl

/-- The rank of the product. -/
def outRank (s₁ s₂ : List ℕ) : ℕ :=
  batchRank s₁ s₂ + (if s₁.length = 1 then 0 else 1) + if s₂.length = 1 then 0 else 1

theorem broadcastDim_one_right (a : ℕ) : broadcastDim a 1 = a := by
  unfold broadcastDim
  split_ifs with h
  · exact h.symm
  · rfl

theorem broadcastDim_self (a : ℕ) : broadcastDim a a = a :=
  ite_self a

/-- The dimensions of the product have the sizes of their loops. -/
theorem matmulShape_eq (h₁ : 0 < s₁.length) (h₂ : 0 < s₂.length) : matmulShape s₁ s₂ =
    (List.range (outRank s₁ s₂)).map fun t => (matmulExtents s₁ s₂).getD (loopOut s₁.length s₂.length t) 1 := by
  have hbatch : broadcastShapes (batchShape s₁) (batchShape s₂) = (List.range (batchRank s₁ s₂)).map fun t =>
      (matmulExtents s₁ s₂).getD (loopOut s₁.length s₂.length t) 1 := by
    unfold broadcastShapes
    rw [length_batchShape, length_batchShape]
    refine List.map_congr_left fun d hd => ?_
    have hd : d < max (s₁.length - 2) (s₂.length - 2) := List.mem_range.mp hd
    have hloop : loopOut s₁.length s₂.length d = d + 1 := by
      unfold loopOut
      split_ifs <;> omega
    rw [hloop, getD_matmulExtents (by unfold batchRank; omega), size_loop₁_batch hd, size_loop₂_batch hd]
  have hrow : (matmulExtents s₁ s₂).getD (batchRank s₁ s₂ + 1) 1 =
      if s₁.length ≤ 1 then 1 else s₁.getD (s₁.length - 2) 1 := by
    rw [getD_matmulExtents (by omega)]
    unfold batchRank
    rw [size_loop₁_row, size_loop₂_row, broadcastDim_one_right]
  have hcolumn : (matmulExtents s₁ s₂).getD (batchRank s₁ s₂ + 2) 1 =
      if s₂.length ≤ 1 then 1 else s₂.getD (s₂.length - 1) 1 := by
    rw [getD_matmulExtents (by omega)]
    unfold batchRank
    rw [size_loop₁_column, size_loop₂_column]
    exact if_pos rfl
  have hloopRow : s₁.length ≠ 1 → loopOut s₁.length s₂.length (batchRank s₁ s₂) = batchRank s₁ s₂ + 1 :=
    fun h => if_neg fun h' => h h'.1
  have hloopColumn : s₁.length ≠ 1 → loopOut s₁.length s₂.length (batchRank s₁ s₂ + 1) = batchRank s₁ s₂ + 2 :=
    fun h => if_neg fun h' => h h'.1
  have hloopColumn' : s₁.length = 1 → loopOut s₁.length s₂.length (batchRank s₁ s₂) = batchRank s₁ s₂ + 2 :=
    fun h => if_pos ⟨h, le_rfl⟩
  unfold matmulShape outRank
  rw [hbatch]
  -- the dimensions behind the batch are split off one by one
  by_cases hs₁ : s₁.length = 1 <;> by_cases hs₂ : s₂.length = 1
  · simp only [hs₁, hs₂, if_true, List.append_nil, Nat.add_zero]
  · rw [if_pos hs₁, if_neg hs₂, if_pos hs₁, if_neg hs₂, Nat.add_zero, List.range_succ, List.map_append,
      List.append_nil, List.map_singleton, hloopColumn' hs₁, hcolumn, if_neg (by omega)]
  · rw [if_neg hs₁, if_pos hs₂, if_neg hs₁, if_pos hs₂, Nat.add_zero, List.range_succ, List.map_append,
      List.append_nil, List.map_singleton, hloopRow hs₁, hrow, if_neg (by omega)]
  · rw [if_neg hs₁, if_neg hs₂, if_neg hs₁, if_neg hs₂, List.range_succ, List.range_succ, List.map_append,
      List.map_append, List.map_singleton, List.map_singleton, hloopRow hs₁, hloopColumn hs₁, hrow, hcolumn,
      if_neg (by omega), if_neg (by omega)]

theorem length_matmulShape (h₁ : 0 < s₁.length) (h₂ : 0 < s₂.length) :
    (matmulShape s₁ s₂).length = outRank s₁ s₂ := by
  rw [matmulShape_eq h₁ h₂, List.length_map, List.length_range]

theorem getD_matmulShape (h₁ : 0 < s₁.length) (h₂ : 0 < s₂.length) (ht : t < outRank s₁ s₂) :
    (matmulShape s₁ s₂).getD t 1 = (matmulExtents s₁ s₂).getD (loopOut s₁.length s₂.length t) 1 := by
  rw [matmulShape_eq h₁ h₂, List.getD_eq_getElem _ _ (by rw [List.length_map, List.length_range]; exact ht),
    List.getElem_map, List.getElem_range]

theorem matmulShapes_iff (h₁ : 0 < s₁.length) (h₂ : 0 < s₂.length) : MatmulShapes s₁ s₂ ↔
    size s₁ (loop₁ s₁.length s₂.length) 0 = size s₂ (loop₂ s₁.length s₂.length) 0 ∧
      ∀ d < batchRank s₁ s₂, size s₁ (loop₁ s₁.length s₂.length) (d + 1) = 1 ∨
        size s₂ (loop₂ s₁.length s₂.length) (d + 1) = 1 ∨
          size s₁ (loop₁ s₁.length s₂.length) (d + 1) = size s₂ (loop₂ s₁.length s₂.length) (d + 1) := by
  rw [size_loop₁_inner h₁, size_loop₂_inner h₂]
  have hbatch : ∀ d < batchRank s₁ s₂, (size s₁ (loop₁ s₁.length s₂.length) (d + 1) =
      alignedDim (batchShape s₁) (batchRank s₁ s₂) d ∧ size s₂ (loop₂ s₁.length s₂.length) (d + 1) =
      alignedDim (batchShape s₂) (batchRank s₁ s₂) d) :=
    fun d hd => ⟨size_loop₁_batch hd, size_loop₂_batch hd⟩
  constructor
  · intro h
    refine ⟨h.inner, fun d hd => ?_⟩
    rw [(hbatch d hd).1, (hbatch d hd).2]
    exact h.batch d hd
  · rintro ⟨hinner, h⟩
    refine ⟨h₁, h₂, hinner, fun d hd => ?_⟩
    have hd' := h d hd
    rw [(hbatch d hd).1, (hbatch d hd).2] at hd'
    exact hd'

end Shapes

/-! ### The product is a contraction -/

section Product

variable {α : Type*} [AddCommMonoid α] [Mul α] {A B : NdArray α}

/-- The product as a contraction over its loops. -/
def matmulContraction (A B : NdArray α) : NdArray α :=
  contract (matmulExtents A.shape B.shape) (matmulShape A.shape B.shape)
    (loopOut A.shape.length B.shape.length) (loop₁ A.shape.length B.shape.length)
    (loop₂ A.shape.length B.shape.length) A B

/-- The points that are read at the place `o` of the product are those of the terms of its sum. -/
theorem read_out_iff {s₁ s₂ : List ℕ} {o i : ℕ → ℕ} {k : ℕ} (h₁ : 0 < s₁.length) (h₂ : 0 < s₂.length)
    (hi : Within (matmulExtents s₁ s₂) (cons k i)) :
    (∀ t < (matmulShape s₁ s₂).length,
      read (matmulShape s₁ s₂) (loopOut s₁.length s₂.length) (cons k i) t = o t) ↔
      ∀ d < batchRank s₁ s₂ + 2, i d = loopPoint s₁.length s₂.length o k (d + 1) := by
  have hread : ∀ t < outRank s₁ s₂, read (matmulShape s₁ s₂) (loopOut s₁.length s₂.length) (cons k i) t =
      cons k i (loopOut s₁.length s₂.length t) := by
    intro t ht
    have hJ := hi (loopOut s₁.length s₂.length t)
    unfold Contraction.read
    rw [getD_matmulShape h₁ h₂ ht]
    split_ifs <;> omega
  rw [length_matmulShape h₁ h₂]
  have hrow : s₁.length = 1 → i (batchRank s₁ s₂) = 0 :=
    fun hone => hi.eq_zero (d := batchRank s₁ s₂ + 1) (getD_matmulExtents_row hone)
  have hcolumn : s₂.length = 1 → i (batchRank s₁ s₂ + 1) = 0 :=
    fun hone => hi.eq_zero (d := batchRank s₁ s₂ + 2) (getD_matmulExtents_column hone)
  have hsucc : ∀ t, ∃ u, loopOut s₁.length s₂.length t = u + 1 := by
    intro t
    unfold loopOut
    split_ifs
    · exact ⟨t + 1, rfl⟩
    · exact ⟨t, rfl⟩
  constructor
  · intro h d hd
    have hout : ∀ t < outRank s₁ s₂, loopOut s₁.length s₂.length t = d + 1 → i d = o t := by
      intro t ht hloop
      rw [← h t ht, hread t ht, hloop]
      rfl
    unfold outRank batchRank loopOut at hout
    unfold batchRank at hd hrow hcolumn
    show i d = if d < max (s₁.length - 2) (s₂.length - 2) then o d else _
    split_ifs with hb hr h1 hc h2 h1'
    · refine hout d (by split_ifs <;> omega) (by split_ifs <;> omega)
    · subst hr
      exact hrow h1
    · refine hout d (by split_ifs <;> omega) (by split_ifs <;> omega)
    · subst hc
      exact hcolumn h2
    · refine hout (d - 1) (by split_ifs; omega) (by split_ifs <;> omega)
    · refine hout d (by split_ifs; omega) (by split_ifs <;> omega)
    · omega
  · intro h t ht
    rw [hread t ht]
    obtain ⟨u, hu⟩ := hsucc t
    rw [hu]
    have hubound : u < batchRank s₁ s₂ + 2 := by
      unfold outRank at ht
      unfold loopOut at hu
      unfold batchRank at *
      split_ifs at * <;> omega
    rw [cons_succ, h u hubound]
    show (if u < max (s₁.length - 2) (s₂.length - 2) then o u else _) = o t
    unfold outRank batchRank at ht
    unfold loopOut at hu
    unfold batchRank at hubound
    split_ifs with hb hr h1 hc h2 h1' <;> split_ifs at hu ht <;> first | omega | exact congrArg o (by omega)

/-- The points of the terms of a place of the product are points of its loops. -/
theorem loopPoint_within {s₁ s₂ : List ℕ} {o : ℕ → ℕ} {k : ℕ} (h₁ : 0 < s₁.length) (h₂ : 0 < s₂.length)
    (ho : Within (matmulShape s₁ s₂) o) (d : ℕ) :
    loopPoint s₁.length s₂.length o k (d + 1) < (matmulExtents s₁ s₂).getD (d + 1) 1 := by
  have hrow : s₁.length = 1 → (matmulExtents s₁ s₂).getD (batchRank s₁ s₂ + 1) 1 = 1 := getD_matmulExtents_row
  have hcolumn : s₂.length = 1 → (matmulExtents s₁ s₂).getD (batchRank s₁ s₂ + 2) 1 = 1 :=
    getD_matmulExtents_column
  have hout : ∀ t < outRank s₁ s₂, loopOut s₁.length s₂.length t = d + 1 →
      o t < (matmulExtents s₁ s₂).getD (d + 1) 1 := by
    intro t ht hloop
    rw [← hloop, ← getD_matmulShape h₁ h₂ ht]
    exact ho t
  have hbeyond : batchRank s₁ s₂ + 2 ≤ d → (matmulExtents s₁ s₂).getD (d + 1) 1 = 1 := by
    intro hd
    refine List.getD_eq_default _ _ ?_
    rw [length_matmulExtents]
    omega
  unfold outRank loopOut at hout
  unfold batchRank at hrow hcolumn hout hbeyond
  show (if d < max (s₁.length - 2) (s₂.length - 2) then o d else _) < _
  split_ifs with hb hr h1 hc h2 h1'
  · exact hout d (by split_ifs <;> omega) (by split_ifs <;> omega)
  · subst hr
    rw [hrow h1]
    exact Nat.zero_lt_one
  · exact hout d (by split_ifs <;> omega) (by split_ifs <;> omega)
  · subst hc
    rw [hcolumn h2]
    exact Nat.zero_lt_one
  · exact hout (d - 1) (by split_ifs; omega) (by split_ifs <;> omega)
  · exact hout d (by split_ifs; omega) (by split_ifs <;> omega)
  · rw [hbeyond (by omega)]
    exact Nat.zero_lt_one

theorem matmul_same_contraction (h : MatmulShapes A.shape B.shape) : Same (matmul A B) (matmulContraction A B) := by
  refine ⟨rfl, fun o ho => ?_⟩
  have h₁ := h.rank₁
  have h₂ := h.rank₂
  have ho : Within (matmulShape A.shape B.shape) o := ho
  have hinner : (matmulExtents A.shape B.shape).getD 0 1 = A.dim (innerDim₁ A.shape) := by
    rw [getD_matmulExtents (by omega), size_loop₁_inner h₁, size_loop₂_inner h₂, ← h.inner, broadcastDim_self]
    rfl
  obtain ⟨extents, hext⟩ : ∃ extents, matmulExtents A.shape B.shape = A.dim (innerDim₁ A.shape) :: extents := by
    rw [← hinner]
    rcases hcases : matmulExtents A.shape B.shape with - | ⟨n, extents⟩
    · have hlength : (matmulExtents A.shape B.shape).length = _ := length_matmulExtents
      rw [hcases] at hlength
      exact absurd hlength (by simp)
    · exact ⟨extents, rfl⟩
  have hlength : extents.length = batchRank A.shape B.shape + 2 := by
    have hlength : (matmulExtents A.shape B.shape).length = _ := length_matmulExtents
    rw [hext, List.length_cons] at hlength
    omega
  -- the terms of the sum are those of the points that are read at `o`
  simp only [matmul, matmulContraction, contract]
  rw [hext, sumBox]
  refine Finset.sum_congr rfl fun k hk => ?_
  have hk : k < A.dim (innerDim₁ A.shape) := Finset.mem_range.mp hk
  have hpoint : cons k (fun d => loopPoint A.shape.length B.shape.length o k (d + 1)) =
      loopPoint A.shape.length B.shape.length o k := by
    ext u
    rcases u with - | u <;> rfl
  have hwithin : Within extents fun d => loopPoint A.shape.length B.shape.length o k (d + 1) := by
    have := loopPoint_within h₁ h₂ ho (k := k)
    rw [hext] at this
    exact fun d => this d
  rw [← hpoint]
  refine (sumBox_ite_eq hwithin (f := fun i => A.get (Contraction.read A.shape _ (cons k i)) *
    B.get (Contraction.read B.shape _ (cons k i)))).symm.trans (sumBox_congr fun i hi => if_congr ?_ rfl rfl)
  have hJ : Within (matmulExtents A.shape B.shape) (cons k i) := by
    rw [hext]
    exact hi.cons hk
  rw [hlength, read_out_iff h₁ h₂ hJ]

end Product

/-! ### Cutting a loop of the product -/

/-- How the operands and the product go along when the loop `v` is cut into `p` equal chunks. -/
structure LoopCut (s₁ s₂ : List ℕ) (p v : ℕ) (cut cut₁ cut₂ : Option ℕ) : Prop where
  lt : v < batchRank s₁ s₂ + 3
  out : Follows (matmulExtents s₁ s₂) v (matmulShape s₁ s₂) (loopOut s₁.length s₂.length) cut
  first : Follows (matmulExtents s₁ s₂) v s₁ (loop₁ s₁.length s₂.length) cut₁
  second : Follows (matmulExtents s₁ s₂) v s₂ (loop₂ s₁.length s₂.length) cut₂
  is_cut : cut₁ ≠ none ∨ cut₂ ≠ none
  inner : v = 0 → cut₁ ≠ none ∧ cut₂ ≠ none
  summed : cut = none → v = 0
  dvd : p ∣ (matmulExtents s₁ s₂).getD v 1

namespace LoopCut

variable {s₁ s₂ : List ℕ} {p r v : ℕ} {cut cut₁ cut₂ : Option ℕ}

theorem matmulExtents_localShape (h : LoopCut s₁ s₂ p v cut cut₁ cut₂) :
    matmulExtents ((operand cut₁).localShape p r s₁) ((operand cut₂).localShape p r s₂) =
      (matmulExtents s₁ s₂).set v (chunkLen ((matmulExtents s₁ s₂).getD v 1) p r) := by
  have hextents := extents_localShape (p := p) (r := r) h.lt h.first h.second h.is_cut
  rw [matmulExtents, batchRank, length_localShape, length_localShape]
  exact hextents

theorem matmulShapes_localShape (h : LoopCut s₁ s₂ p v cut cut₁ cut₂) (hs : MatmulShapes s₁ s₂) :
    MatmulShapes ((operand cut₁).localShape p r s₁) ((operand cut₂).localShape p r s₂) := by
  have hlength₁ := length_localShape (operand cut₁) p r s₁
  have hlength₂ := length_localShape (operand cut₂) p r s₂
  obtain ⟨hinner, hbatch⟩ := (matmulShapes_iff hs.rank₁ hs.rank₂).mp hs
  rw [matmulShapes_iff (hlength₁ ▸ hs.rank₁) (hlength₂ ▸ hs.rank₂)]
  unfold batchRank at hbatch ⊢
  rw [hlength₁, hlength₂, localShape_operand h.first, localShape_operand h.second]
  constructor
  · by_cases hv : v = 0
    · subst hv
      rw [size_cutShape_self h.first, size_cutShape_self h.second]
      obtain ⟨hcut₁, hcut₂⟩ := h.inner rfl
      obtain ⟨t₁, rfl⟩ := Option.ne_none_iff_exists'.mp hcut₁
      obtain ⟨t₂, rfl⟩ := Option.ne_none_iff_exists'.mp hcut₂
      rfl
    · rw [size_cutShape_of_ne h.first (Ne.symm hv), size_cutShape_of_ne h.second (Ne.symm hv)]
      exact hinner
  · intro d hd
    by_cases hv : d + 1 = v
    · subst hv
      rw [size_cutShape_self h.first, size_cutShape_self h.second]
      rcases cut₁ with - | t₁
      · exact Or.inl rfl
      · rcases cut₂ with - | t₂
        · exact Or.inr (Or.inl rfl)
        · exact Or.inr (Or.inr rfl)
    · rw [size_cutShape_of_ne h.first hv, size_cutShape_of_ne h.second hv]
      exact hbatch d hd

theorem matmulShape_localShape (h : LoopCut s₁ s₂ p v cut cut₁ cut₂) (hs : MatmulShapes s₁ s₂) :
    matmulShape ((operand cut₁).localShape p r s₁) ((operand cut₂).localShape p r s₂) =
      (result cut).localShape p r (matmulShape s₁ s₂) := by
  have hlength₁ := length_localShape (operand cut₁) p r s₁
  have hlength₂ := length_localShape (operand cut₂) p r s₂
  have hs' := h.matmulShapes_localShape (r := r) hs
  have hrank : outRank ((operand cut₁).localShape p r s₁) ((operand cut₂).localShape p r s₂) = outRank s₁ s₂ := by
    unfold outRank batchRank
    rw [hlength₁, hlength₂]
  refine ext_getD ?_ fun t => ?_
  · rw [length_localShape, length_matmulShape hs'.rank₁ hs'.rank₂, hrank, length_matmulShape hs.rank₁ hs.rank₂]
  by_cases ht : t < outRank s₁ s₂
  · rw [getD_matmulShape hs'.rank₁ hs'.rank₂ (hrank ▸ ht), h.matmulExtents_localShape, hlength₁, hlength₂,
      localShape_result h.out]
    rcases cut with - | t₀
    · -- the loop that is summed has no dimension in the product
      obtain rfl := h.summed rfl
      have hne : loopOut s₁.length s₂.length t ≠ 0 := by
        unfold loopOut
        split_ifs <;> omega
      show _ = (matmulShape s₁ s₂).getD t 1
      rw [getD_set_of_ne hne, getD_matmulShape hs.rank₁ hs.rank₂ ht]
    · obtain ⟨ht₀, hloop, -, hunique⟩ := h.out
      show _ = ((matmulShape s₁ s₂).set t₀ _).getD t 1
      by_cases heq : t = t₀
      · subst heq
        rw [hloop, getD_set_self ht₀, getD_set_self]
        rw [length_matmulExtents]
        exact h.lt
      · rw [getD_set_of_ne heq, getD_matmulShape hs.rank₁ hs.rank₂ ht, getD_set_of_ne]
        intro hloop'
        refine heq (hunique t ?_ hloop')
        rw [length_matmulShape hs.rank₁ hs.rank₂]
        exact ht
  · rw [List.getD_eq_default, List.getD_eq_default]
    · rw [length_localShape, length_matmulShape hs.rank₁ hs.rank₂]
      omega
    · rw [length_matmulShape hs'.rank₁ hs'.rank₂, hrank]
      omega

section Arrays

variable {α : Type*} {A B grad : NdArray α}

theorem matmulShapes_localTensor (h : LoopCut A.shape B.shape p v cut cut₁ cut₂)
    (hs : MatmulShapes A.shape B.shape) :
    MatmulShapes ((operand cut₁).localTensor p r A).shape ((operand cut₂).localTensor p r B).shape := by
  rw [localTensor_shape, localTensor_shape]
  exact h.matmulShapes_localShape hs

variable [AddCommMonoid α] [Mul α]

theorem lt_length (h : LoopCut s₁ s₂ p v cut cut₁ cut₂) : v < (matmulExtents s₁ s₂).length := by
  rw [length_matmulExtents]
  exact h.lt

/-- The ranks' products recombine to the whole product. -/
theorem recombines_matmul (h : LoopCut A.shape B.shape p v cut cut₁ cut₂) (hp : 0 < p)
    (hs : MatmulShapes A.shape B.shape) :
    (result cut).Recombines p
      (fun r => matmul ((operand cut₁).localTensor p r A) ((operand cut₂).localTensor p r B)) (matmul A B) := by
  refine (recombines_contract hp h.lt_length h.first h.second h.out).congr (fun r _ => ?_)
    (matmul_same_contraction hs).symm
  refine Same.symm ?_
  have hsame := matmul_same_contraction (h.matmulShapes_localTensor (r := r) hs)
  unfold matmulContraction at hsame
  rw [localTensor_shape, localTensor_shape, h.matmulExtents_localShape, h.matmulShape_localShape hs,
    length_localShape, length_localShape] at hsame
  exact hsame

/-- The ranks' gradients of the first operand recombine to the whole one. -/
theorem recombines_matmulGrad₁ (h : LoopCut A.shape B.shape p v cut cut₁ cut₂) (hp : 0 < p)
    (hgrad : grad.shape = matmulShape A.shape B.shape) :
    (result cut₁).Recombines p
      (fun r => matmulGrad₁ ((operand cut).localTensor p r grad) ((operand cut₁).localTensor p r A)
        ((operand cut₂).localTensor p r B)) (matmulGrad₁ grad A B) := by
  have hout := h.out
  rw [← hgrad] at hout
  refine (recombines_contract hp h.lt_length hout h.second h.first).congr (fun r _ => ?_) (Same.refl _)
  unfold matmulGrad₁
  rw [localTensor_shape, localTensor_shape, h.matmulExtents_localShape, length_localShape, length_localShape,
    localShape_operand h.first, localShape_result h.first]
  exact Same.refl _

theorem recombines_matmulGrad₂ (h : LoopCut A.shape B.shape p v cut cut₁ cut₂) (hp : 0 < p)
    (hgrad : grad.shape = matmulShape A.shape B.shape) :
    (result cut₂).Recombines p
      (fun r => matmulGrad₂ ((operand cut).localTensor p r grad) ((operand cut₁).localTensor p r A)
        ((operand cut₂).localTensor p r B)) (matmulGrad₂ grad A B) := by
  have hout := h.out
  rw [← hgrad] at hout
  refine (recombines_contract hp h.lt_length hout h.first h.second).congr (fun r _ => ?_) (Same.refl _)
  unfold matmulGrad₂
  rw [localTensor_shape, localTensor_shape, h.matmulExtents_localShape, length_localShape, length_localShape,
    localShape_operand h.second, localShape_result h.second]
  exact Same.refl _

end Arrays

/-- What is cut along the loop is cut into equal chunks. -/
theorem even {s : List ℕ} {l : ℕ → ℕ} {cut₀ : Option ℕ} (h : LoopCut s₁ s₂ p v cut cut₁ cut₂)
    (hfollows : Follows (matmulExtents s₁ s₂) v s l cut₀) : (operand cut₀).Even p s ∧ (result cut₀).Even p s := by
  rcases cut₀ with - | t
  · exact ⟨trivial, trivial⟩
  · obtain ⟨ht, -, hsize, -⟩ := hfollows
    refine ⟨⟨ht, ?_⟩, ⟨ht, ?_⟩⟩ <;>
    · rw [hsize]
      exact h.dvd

end LoopCut

end TorchNpu.DTensor
