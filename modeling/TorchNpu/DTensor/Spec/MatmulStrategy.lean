/-
  The strategies of the matrix product are sound.

  Each of them cuts one loop of the product: the summed one, a batch dimension, the rows or the columns.  The
  families below say so one by one; the rest follows from cutting a loop.
-/
import TorchNpu.DTensor.Spec.Matmul

namespace TorchNpu.DTensor

open Index NdArray Placement Contraction

namespace LoopCut

variable {s₁ s₂ : List ℕ} {p i i₁ i₂ : ℕ}

theorem follows_out (hs : MatmulShapes s₁ s₂) {t v : ℕ} (ht : t < outRank s₁ s₂)
    (hloop : loopOut s₁.length s₂.length t = v) :
    Follows (matmulExtents s₁ s₂) v (matmulShape s₁ s₂) (loopOut s₁.length s₂.length) (some t) := by
  refine ⟨?_, hloop, ?_, fun t' _ h' => loopOut_inj (h'.trans hloop.symm)⟩
  · rw [length_matmulShape hs.rank₁ hs.rank₂]
    exact ht
  · rw [getD_matmulShape hs.rank₁ hs.rank₂ ht, hloop]

/-- The summed loop. -/
theorem ofInner (hs : MatmulShapes s₁ s₂) (hdvd : p ∣ s₁.getD (innerDim₁ s₁) 1) :
    LoopCut s₁ s₂ p 0 none (some (innerDim₁ s₁)) (some (innerDim₂ s₂)) := by
  have hrank₁ := hs.rank₁
  have hrank₂ := hs.rank₂
  have hloop₁ : loop₁ s₁.length s₂.length (innerDim₁ s₁) = 0 := by
    unfold loop₁ innerDim₁
    split_ifs <;> omega
  have hloop₂ : loop₂ s₁.length s₂.length (innerDim₂ s₂) = 0 := by
    unfold loop₂ innerDim₂
    split_ifs <;> omega
  have hextent : (matmulExtents s₁ s₂).getD 0 1 = s₁.getD (innerDim₁ s₁) 1 := by
    rw [getD_matmulExtents (by omega), size_loop₁_inner hrank₁, size_loop₂_inner hrank₂, ← hs.inner,
      broadcastDim_self]
  have hlt₁ : innerDim₁ s₁ < s₁.length := by
    unfold innerDim₁
    omega
  have hlt₂ : innerDim₂ s₂ < s₂.length := by
    unfold innerDim₂
    omega
  exact {
    lt := by omega
    out := by
      intro t _
      refine Or.inr ?_
      unfold loopOut
      split_ifs <;> omega
    first := ⟨hlt₁, hloop₁, hextent.symm, fun t ht h => loop₁_inj ht hlt₁ (h.trans hloop₁.symm)⟩
    second := ⟨hlt₂, hloop₂, hs.inner.symm.trans hextent.symm,
      fun t ht h => loop₂_inj ht hlt₂ (h.trans hloop₂.symm)⟩
    is_cut := Or.inl (Option.some_ne_none _)
    inner := fun _ => ⟨Option.some_ne_none _, Option.some_ne_none _⟩
    summed := fun _ => rfl
    dvd := by
      rw [hextent]
      exact hdvd }

/-- A loop that only the first operand has. -/
theorem ofFirst (hs : MatmulShapes s₁ s₂) {v t : ℕ} (ht : t < outRank s₁ s₂)
    (hout : loopOut s₁.length s₂.length t = v) (hi : i < s₁.length) (hloop : loop₁ s₁.length s₂.length i = v)
    (hnone : ∀ t < s₂.length, loop₂ s₁.length s₂.length t ≠ v) (hv : v ≠ 0) (hlt : v < batchRank s₁ s₂ + 3)
    (hdvd : p ∣ s₁.getD i 1) : LoopCut s₁ s₂ p v (some t) (some i) none := by
  have hextent : (matmulExtents s₁ s₂).getD v 1 = s₁.getD i 1 := by
    rw [getD_matmulExtents hlt, size_loop₁_of_eq hi hloop, size_eq_one fun t ht => Or.inr (hnone t ht),
      broadcastDim_one_right]
  exact {
    lt := hlt
    out := follows_out hs ht hout
    first := ⟨hi, hloop, hextent.symm, fun t ht h => loop₁_inj ht hi (h.trans hloop.symm)⟩
    second := fun t ht => Or.inr (hnone t ht)
    is_cut := Or.inl (Option.some_ne_none _)
    inner := fun h => absurd h hv
    summed := fun h => absurd h (Option.some_ne_none _)
    dvd := by
      rw [hextent]
      exact hdvd }

/-- A loop that only the second operand has. -/
theorem ofSecond (hs : MatmulShapes s₁ s₂) {v t : ℕ} (ht : t < outRank s₁ s₂)
    (hout : loopOut s₁.length s₂.length t = v) (hi : i < s₂.length) (hloop : loop₂ s₁.length s₂.length i = v)
    (hnone : ∀ t < s₁.length, loop₁ s₁.length s₂.length t ≠ v) (hv : v ≠ 0) (hlt : v < batchRank s₁ s₂ + 3)
    (hdvd : p ∣ s₂.getD i 1) : LoopCut s₁ s₂ p v (some t) none (some i) := by
  have hextent : (matmulExtents s₁ s₂).getD v 1 = s₂.getD i 1 := by
    rw [getD_matmulExtents hlt, size_loop₂_of_eq hi hloop, size_eq_one fun t ht => Or.inr (hnone t ht)]
    exact if_pos rfl
  exact {
    lt := hlt
    out := follows_out hs ht hout
    first := fun t ht => Or.inr (hnone t ht)
    second := ⟨hi, hloop, hextent.symm, fun t ht h => loop₂_inj ht hi (h.trans hloop.symm)⟩
    is_cut := Or.inr (Option.some_ne_none _)
    inner := fun h => absurd h hv
    summed := fun h => absurd h (Option.some_ne_none _)
    dvd := by
      rw [hextent]
      exact hdvd }

/-- A batch dimension of both operands that is not broadcast. -/
theorem ofBoth (hs : MatmulShapes s₁ s₂) {d : ℕ} (hd : d < batchRank s₁ s₂)
    (hi₁ : i₁ < s₁.length) (hloop₁ : loop₁ s₁.length s₂.length i₁ = d + 1)
    (hi₂ : i₂ < s₂.length) (hloop₂ : loop₂ s₁.length s₂.length i₂ = d + 1)
    (hsame : s₁.getD i₁ 1 = s₂.getD i₂ 1) (hdvd : p ∣ s₁.getD i₁ 1) :
    LoopCut s₁ s₂ p (d + 1) (some d) (some i₁) (some i₂) := by
  have hextent : (matmulExtents s₁ s₂).getD (d + 1) 1 = s₁.getD i₁ 1 := by
    rw [getD_matmulExtents (by omega), size_loop₁_of_eq hi₁ hloop₁, size_loop₂_of_eq hi₂ hloop₂, ← hsame,
      broadcastDim_self]
  have hout : loopOut s₁.length s₂.length d = d + 1 := by
    unfold batchRank at hd
    unfold loopOut
    split_ifs <;> omega
  have hrank : d < outRank s₁ s₂ := by
    unfold outRank
    omega
  exact {
    lt := by omega
    out := follows_out hs hrank hout
    first := ⟨hi₁, hloop₁, hextent.symm, fun t ht h => loop₁_inj ht hi₁ (h.trans hloop₁.symm)⟩
    second := ⟨hi₂, hloop₂, hsame.symm.trans hextent.symm,
      fun t ht h => loop₂_inj ht hi₂ (h.trans hloop₂.symm)⟩
    is_cut := Or.inl (Option.some_ne_none _)
    inner := fun h => absurd h (Nat.succ_ne_zero d)
    summed := fun h => absurd h (Option.some_ne_none _)
    dvd := by
      rw [hextent]
      exact hdvd }

/-- The rows, or a batch dimension of the first operand that the second one lacks. -/
theorem ofLeading₁ (hs : MatmulShapes s₁ s₂) (hi : i + 1 < s₁.length)
    (hlack : i + s₂.length < s₁.length ∨ i + 2 = s₁.length) (hdvd : p ∣ s₁.getD i 1) :
    ∃ v t, t + s₁.length = i + (batchRank s₁ s₂ + 2) ∧ LoopCut s₁ s₂ p v (some t) (some i) none := by
  refine ⟨loop₁ s₁.length s₂.length i, i + (batchRank s₁ s₂ + 2) - s₁.length, ?_, ?_⟩
  · unfold batchRank
    omega
  refine ofFirst hs ?_ ?_ (by omega) rfl ?_ ?_ ?_ hdvd
  · unfold outRank batchRank
    split_ifs <;> omega
  · unfold loopOut loop₁ batchRank
    split_ifs <;> omega
  · intro t ht
    unfold loop₂ loop₁
    split_ifs <;> omega
  · unfold loop₁
    split_ifs <;> omega
  · unfold loop₁ batchRank
    split_ifs <;> omega

/-- A batch dimension of the second operand that the first one lacks. -/
theorem ofLeading₂ (hs : MatmulShapes s₁ s₂) (hi : i + 2 < s₂.length) (hlack : i + s₁.length < s₂.length)
    (hdvd : p ∣ s₂.getD i 1) : ∃ v, LoopCut s₁ s₂ p v (some i) none (some i) := by
  have hrank := hs.rank₁
  refine ⟨i + 1, ofSecond hs ?_ ?_ (by omega) ?_ ?_ (Nat.succ_ne_zero i) ?_ hdvd⟩
  · unfold outRank batchRank
    omega
  · unfold loopOut
    split_ifs <;> omega
  · unfold loop₂
    split_ifs <;> omega
  · intro t ht
    unfold loop₁
    split_ifs <;> omega
  · unfold batchRank
    omega

/-- The columns. -/
theorem ofColumns (hs : MatmulShapes s₁ s₂) (h₂ : 2 ≤ s₂.length) (hdvd : p ∣ s₂.getD (s₂.length - 1) 1) :
    ∃ v, LoopCut s₁ s₂ p v (some (outRank s₁ s₂ - 1)) none (some (s₂.length - 1)) := by
  have hrank : outRank s₁ s₂ - 1 < outRank s₁ s₂ := by
    unfold outRank
    split_ifs <;> omega
  refine ⟨batchRank s₁ s₂ + 2, ofSecond hs hrank ?_ (by omega) ?_ ?_ (by omega) (by omega) hdvd⟩
  · unfold loopOut outRank batchRank
    split_ifs <;> omega
  · unfold loop₂ batchRank
    split_ifs <;> omega
  · intro t ht
    unfold loop₁ batchRank
    split_ifs <;> omega

/-- A batch dimension of both operands: if more than one rank shares both, neither is broadcast. -/
theorem ofBatch (hs : MatmulShapes s₁ s₂) {d : ℕ} (hp : 1 < p) (hd : d < batchRank s₁ s₂)
    (hi₁ : i₁ + 2 < s₁.length) (hd₁ : d + s₁.length = i₁ + (batchRank s₁ s₂ + 2))
    (hi₂ : i₂ + 2 < s₂.length) (hd₂ : d + s₂.length = i₂ + (batchRank s₁ s₂ + 2))
    (hdvd₁ : p ∣ s₁.getD i₁ 1) (hdvd₂ : p ∣ s₂.getD i₂ 1) :
    LoopCut s₁ s₂ p (d + 1) (some d) (some i₁) (some i₂) := by
  have hloop₁ : loop₁ s₁.length s₂.length i₁ = d + 1 := by
    unfold batchRank at hd₁
    unfold loop₁
    split_ifs <;> omega
  have hloop₂ : loop₂ s₁.length s₂.length i₂ = d + 1 := by
    unfold batchRank at hd₂
    unfold loop₂
    split_ifs <;> omega
  refine ofBoth hs hd (by omega) hloop₁ (by omega) hloop₂ ?_ hdvd₁
  have hbatch := ((matmulShapes_iff hs.rank₁ hs.rank₂).mp hs).2 d hd
  rw [size_loop₁_of_eq (by omega) hloop₁, size_loop₂_of_eq (by omega) hloop₂] at hbatch
  have hne : ∀ n, p ∣ n → n ≠ 1 := by
    rintro n hn rfl
    exact absurd (Nat.le_of_dvd Nat.one_pos hn) (by omega)
  rcases hbatch with h | h | h
  · exact absurd h (hne _ hdvd₁)
  · exact absurd h (hne _ hdvd₂)
  · exact h

end LoopCut

/-! ### Soundness -/

section Sound

variable {α : Type*} [AddCommMonoid α] [Mul α] {A B : NdArray α} {p : ℕ}

/-- Cut as the strategy says, the operands have products that make up the whole one. -/
def MatmulSound (p : ℕ) (A B : NdArray α) : Strategy → Prop
  | ([out], [some first, some second]) =>
    first.Even p A.shape ∧ second.Even p B.shape ∧ out.Even p (matmul A B).shape ∧
      (∀ r < p, MatmulShapes (first.localTensor p r A).shape (second.localTensor p r B).shape) ∧
      out.Recombines p (fun r => matmul (first.localTensor p r A) (second.localTensor p r B)) (matmul A B)
  | _ => False

theorem matmulSound_replicate (hs : MatmulShapes A.shape B.shape) :
    MatmulSound p A B ([.replicate], [some .replicate, some .replicate]) :=
  ⟨trivial, trivial, trivial, fun _ _ => hs, fun _ _ => Same.refl _⟩

theorem LoopCut.matmulSound {v : ℕ} {cut cut₁ cut₂ : Option ℕ} (h : LoopCut A.shape B.shape p v cut cut₁ cut₂)
    (hp : 0 < p) (hs : MatmulShapes A.shape B.shape) :
    MatmulSound p A B ([result cut], [some (operand cut₁), some (operand cut₂)]) :=
  ⟨(h.even h.first).1, (h.even h.second).1, (h.even h.out).2, fun _ _ => h.matmulShapes_localTensor hs,
    h.recombines_matmul hp hs⟩

theorem matmulSound_one {d d₁ d₂ : ℕ} (hs : MatmulShapes A.shape B.shape) (h₁ : d₁ < A.shape.length)
    (h₂ : d₂ < B.shape.length) (hd : d < (matmul A B).shape.length) :
    MatmulSound 1 A B ([.shard d], [some (.shard d₁), some (.shard d₂)]) := by
  refine ⟨⟨h₁, one_dvd _⟩, ⟨h₂, one_dvd _⟩, ⟨hd, one_dvd _⟩, fun r hr => ?_, ?_⟩
  · obtain rfl := Nat.lt_one_iff.mp hr
    rw [localTensor_one, localTensor_one]
    exact hs
  · refine recombines_one ⟨hd, one_dvd _⟩ ?_
    rw [localTensor_one, localTensor_one]
    exact Same.refl _

/-- A batch dimension of both operands. -/
theorem matmulSound_batch {d i₁ i₂ : ℕ} (hp : 0 < p) (hs : MatmulShapes A.shape B.shape)
    (hi₁ : i₁ + 2 < A.shape.length) (hd₁ : d + A.shape.length = i₁ + (batchRank A.shape B.shape + 2))
    (hi₂ : i₂ + 2 < B.shape.length) (hd₂ : d + B.shape.length = i₂ + (batchRank A.shape B.shape + 2))
    (hdvd₁ : p ∣ A.shape.getD i₁ 1) (hdvd₂ : p ∣ B.shape.getD i₂ 1) :
    MatmulSound p A B ([.shard d], [some (.shard i₁), some (.shard i₂)]) := by
  have hd : d < batchRank A.shape B.shape := by omega
  by_cases hone : p = 1
  · -- one rank may cut a dimension that is broadcast
    subst hone
    refine matmulSound_one hs (by omega) (by omega) ?_
    show d < (matmulShape A.shape B.shape).length
    rw [length_matmulShape hs.rank₁ hs.rank₂]
    unfold outRank
    omega
  · exact (LoopCut.ofBatch hs (by omega) hd hi₁ hd₁ hi₂ hd₂ hdvd₁ hdvd₂).matmulSound hp hs

variable {s : Strategy}

theorem vectorMatrixStrategies_sound (hp : 0 < p) (hs : MatmulShapes A.shape B.shape) (h₁ : A.shape.length = 1)
    (h₂ : 2 ≤ B.shape.length) (h : s ∈ vectorMatrixStrategies A.shape B.shape p) : MatmulSound p A B s := by
  simp only [vectorMatrixStrategies, List.mem_append, List.mem_flatMap, List.mem_range, mem_appendIf,
    decide_eq_true_eq] at h
  rcases h with (⟨i, hi, hdvd, rfl⟩ | ⟨hdvd, rfl⟩) | ⟨hdvd, rfl⟩
  · -- a leading dimension of the second operand
    obtain ⟨v, hcut⟩ := LoopCut.ofLeading₂ hs (by omega) (by omega) (Nat.dvd_of_mod_eq_zero hdvd)
    exact hcut.matmulSound hp hs
  · -- the summed dimension
    have hinner : innerDim₁ A.shape = 0 := by
      unfold innerDim₁
      omega
    have hcut := LoopCut.ofInner hs (hinner ▸ Nat.dvd_of_mod_eq_zero hdvd)
    rw [hinner] at hcut
    exact hcut.matmulSound hp hs
  · -- the columns
    obtain ⟨v, hcut⟩ := LoopCut.ofColumns hs h₂ (Nat.dvd_of_mod_eq_zero hdvd)
    have hrank : (batchShape B.shape ++ [B.shape.getD (B.shape.length - 1) 1]).length - 1 =
        outRank A.shape B.shape - 1 := by
      rw [List.length_append, length_batchShape, List.length_singleton]
      unfold outRank batchRank
      split_ifs <;> omega
    rw [hrank]
    exact hcut.matmulSound hp hs

theorem matrixVectorStrategies_sound (hp : 0 < p) (hs : MatmulShapes A.shape B.shape) (h₁ : 2 ≤ A.shape.length)
    (h₂ : B.shape.length = 1) (h : s ∈ matrixVectorStrategies A.shape B.shape p) : MatmulSound p A B s := by
  simp only [matrixVectorStrategies, List.mem_append, List.mem_flatMap, List.mem_range, mem_appendIf,
    decide_eq_true_eq] at h
  rcases h with ⟨i, hi, hdvd, rfl⟩ | ⟨hdvd, rfl⟩
  · -- a batch dimension, or the rows
    obtain ⟨v, t, ht, hcut⟩ := LoopCut.ofLeading₁ hs (i := i) (by omega) (by omega) (Nat.dvd_of_mod_eq_zero hdvd)
    obtain rfl : t = i := by
      unfold batchRank at ht
      omega
    exact hcut.matmulSound hp hs
  · -- the summed dimension
    have hinner : innerDim₂ B.shape = 0 := by
      unfold innerDim₂
      omega
    have hcut := LoopCut.ofInner hs (p := p) (by rw [hs.inner, hinner]; exact Nat.dvd_of_mod_eq_zero hdvd)
    rw [hinner] at hcut
    exact hcut.matmulSound hp hs

theorem matrixMatrixStrategies_sound (hp : 0 < p) (hs : MatmulShapes A.shape B.shape) (h₁ : 2 ≤ A.shape.length)
    (h₂ : 2 ≤ B.shape.length) (h : s ∈ matrixMatrixStrategies A.shape B.shape p) : MatmulSound p A B s := by
  have hrank : (broadcastShapes (batchShape A.shape) (batchShape B.shape) ++
      [A.shape.getD (A.shape.length - 2) 1, B.shape.getD (B.shape.length - 1) 1]).length =
      batchRank A.shape B.shape + 2 := by
    unfold broadcastShapes
    rw [List.length_append, List.length_map, List.length_range, length_batchShape, length_batchShape]
    rfl
  have hout : outRank A.shape B.shape = batchRank A.shape B.shape + 2 := by
    unfold outRank
    rw [if_neg (by omega), if_neg (by omega)]
  have hbatchRank : batchRank A.shape B.shape = max A.shape.length B.shape.length - 2 := by
    unfold batchRank
    omega
  simp only [matrixMatrixStrategies, List.mem_append, List.mem_flatMap, List.mem_reverse, List.mem_range,
    mem_appendIf, decide_eq_true_eq, hrank] at h
  rcases h with (((⟨i, hi, hbatch, rfl⟩ | ⟨i, hi, h⟩) | ⟨hdvd, rfl⟩) | ⟨hdvd, rfl⟩) | ⟨hdvd, rfl⟩
  · -- a batch dimension that both operands have
    obtain ⟨hdvd₁, hdvd₂⟩ := hbatch
    split_ifs at hdvd₁ hdvd₂ ⊢ with hlonger
    · exact matmulSound_batch hp hs (by omega) (by omega) (by omega) (by omega) (Nat.dvd_of_mod_eq_zero hdvd₁)
        (Nat.dvd_of_mod_eq_zero hdvd₂)
    · exact matmulSound_batch hp hs (by omega) (by omega) (by omega) (by omega) (Nat.dvd_of_mod_eq_zero hdvd₁)
        (Nat.dvd_of_mod_eq_zero hdvd₂)
  · -- a batch dimension that only the longer operand has
    split_ifs at h with hlonger
    · obtain rfl := List.mem_singleton.mp h
      obtain ⟨v, t, ht, hcut⟩ := LoopCut.ofLeading₁ hs (i := i) (by omega) (by omega)
        (Nat.dvd_of_mod_eq_zero hlonger.2)
      obtain rfl : t = i := by omega
      exact hcut.matmulSound hp hs
    · rw [mem_appendIf, decide_eq_true_eq] at h
      obtain ⟨⟨hshorter, hdvd⟩, rfl⟩ := h
      obtain ⟨v, hcut⟩ := LoopCut.ofLeading₂ hs (i := i) (by omega) (by omega) (Nat.dvd_of_mod_eq_zero hdvd)
      exact hcut.matmulSound hp hs
  · -- the rows
    obtain ⟨v, t, ht, hcut⟩ := LoopCut.ofLeading₁ hs (i := A.shape.length - 2) (by omega) (by omega)
      (Nat.dvd_of_mod_eq_zero hdvd)
    obtain rfl : t = batchRank A.shape B.shape + 2 - 2 := by omega
    exact hcut.matmulSound hp hs
  · -- the columns
    obtain ⟨v, hcut⟩ := LoopCut.ofColumns hs h₂ (Nat.dvd_of_mod_eq_zero hdvd)
    rw [← hout]
    exact hcut.matmulSound hp hs
  · -- the summed dimension
    exact (LoopCut.ofInner hs (Nat.dvd_of_mod_eq_zero hdvd)).matmulSound hp hs

/-- Every strategy is sound, whatever shapes the product admits. -/
theorem customMatmulStrategy_sound (hp : 0 < p) (hs : MatmulShapes A.shape B.shape)
    (h : s ∈ customMatmulStrategy A.shape B.shape p) : MatmulSound p A B s := by
  have hrank₁ := hs.rank₁
  have hrank₂ := hs.rank₂
  unfold customMatmulStrategy at h
  rw [List.mem_cons] at h
  rcases h with rfl | h
  · exact matmulSound_replicate hs
  · split_ifs at h with hboth hone₁ hone₂
    · exact absurd h List.not_mem_nil
    · exact vectorMatrixStrategies_sound hp hs hone₁ (by omega) h
    · exact matrixVectorStrategies_sound hp hs (by omega) hone₂ h
    · exact matrixMatrixStrategies_sound hp hs (by omega) (by omega) h

/-- A batch of four matrices times one matrix, the batch over two ranks. -/
theorem customMatmulStrategy_sound_batch :
    MatmulSound 2 ⟨[4, 2, 3], fun i => (i 0 + i 1 : ℤ)⟩ ⟨[3, 5], fun i => i 1⟩
      ([.shard 0], [some (.shard 0), some .replicate]) :=
  customMatmulStrategy_sound (by decide) ⟨by decide, by decide, by decide, by decide⟩ (by decide)

end Sound

end TorchNpu.DTensor
