/-
  The strategies of the gradients of the matrix product, and the shapes for which they are sound.

  A strategy that cuts one loop of the product is sound.  For operands of different ranks above two the rule
  gives the gradient of the shorter operand the dimensions of the longer one, and for a vector times a matrix
  it gives the vector's gradient a dimension that a vector does not have.
-/
import TorchNpu.DTensor.Spec.MatmulStrategy

namespace TorchNpu.DTensor

open Index NdArray Placement Contraction

variable {α : Type*} [AddCommMonoid α] [Mul α] {grad A B : NdArray α} {p : ℕ}

/-- Cut as the strategy says, the gradient and the operands have gradients that make up the whole ones. -/
def BackwardSound (p : ℕ) (grad A B : NdArray α) : Strategy → Prop
  | ([out₁, out₂], some g :: some first :: some second :: _) =>
    g.Even p grad.shape ∧ first.Even p A.shape ∧ second.Even p B.shape ∧
      (∀ r < p, MatmulShapes (first.localTensor p r A).shape (second.localTensor p r B).shape ∧
        (g.localTensor p r grad).shape =
          matmulShape (first.localTensor p r A).shape (second.localTensor p r B).shape) ∧
      out₁.Recombines p (fun r => matmulGrad₁ (g.localTensor p r grad) (first.localTensor p r A)
        (second.localTensor p r B)) (matmulGrad₁ grad A B) ∧
      out₂.Recombines p (fun r => matmulGrad₂ (g.localTensor p r grad) (first.localTensor p r A)
        (second.localTensor p r B)) (matmulGrad₂ grad A B)
  | _ => False

/-! ### Sound strategies -/

theorem backwardSound_replicate (hs : MatmulShapes A.shape B.shape)
    (hgrad : grad.shape = matmulShape A.shape B.shape) (rest : List (Option Placement)) :
    BackwardSound p grad A B
      ([.replicate, .replicate], some .replicate :: some .replicate :: some .replicate :: rest) :=
  ⟨trivial, trivial, trivial, fun _ _ => ⟨hs, hgrad⟩, fun _ _ => Same.refl _, fun _ _ => Same.refl _⟩

theorem LoopCut.backwardSound {v : ℕ} {cut cut₁ cut₂ : Option ℕ} (h : LoopCut A.shape B.shape p v cut cut₁ cut₂)
    (hp : 0 < p) (hs : MatmulShapes A.shape B.shape) (hgrad : grad.shape = matmulShape A.shape B.shape)
    (rest : List (Option Placement)) :
    BackwardSound p grad A B ([result cut₁, result cut₂],
      some (operand cut) :: some (operand cut₁) :: some (operand cut₂) :: rest) := by
  refine ⟨?_, (h.even h.first).1, (h.even h.second).1, fun r _ => ⟨h.matmulShapes_localTensor hs, ?_⟩,
    h.recombines_matmulGrad₁ hp hgrad, h.recombines_matmulGrad₂ hp hgrad⟩
  · rw [hgrad]
    exact (h.even h.out).1
  · rw [localTensor_shape, localTensor_shape, localTensor_shape, h.matmulShape_localShape hs, hgrad,
      localShape_operand h.out, localShape_result h.out]

/-- A strategy that cuts dimensions that exist is sound on one rank. -/
theorem backwardSound_one {d d₁ d₂ e₁ e₂ : ℕ} (hs : MatmulShapes A.shape B.shape)
    (hgrad : grad.shape = matmulShape A.shape B.shape) (hd : d < grad.shape.length) (hd₁ : d₁ < A.shape.length)
    (hd₂ : d₂ < B.shape.length) (he₁ : e₁ < A.shape.length) (he₂ : e₂ < B.shape.length)
    (rest : List (Option Placement)) :
    BackwardSound 1 grad A B
      ([.shard e₁, .shard e₂], some (.shard d) :: some (.shard d₁) :: some (.shard d₂) :: rest) := by
  refine ⟨⟨hd, one_dvd _⟩, ⟨hd₁, one_dvd _⟩, ⟨hd₂, one_dvd _⟩, fun r hr => ?_, ?_, ?_⟩
  · obtain rfl := Nat.lt_one_iff.mp hr
    rw [localTensor_one, localTensor_one, localTensor_one]
    exact ⟨hs, hgrad⟩
  · refine recombines_one ⟨he₁, one_dvd _⟩ ?_
    rw [localTensor_one, localTensor_one, localTensor_one]
    exact Same.refl _
  · refine recombines_one ⟨he₂, one_dvd _⟩ ?_
    rw [localTensor_one, localTensor_one, localTensor_one]
    exact Same.refl _

omit [AddCommMonoid α] [Mul α] in
theorem length_grad (hs : MatmulShapes A.shape B.shape) (hgrad : grad.shape = matmulShape A.shape B.shape)
    (h₁ : 2 ≤ A.shape.length) (h₂ : 2 ≤ B.shape.length) :
    grad.shape.length = batchRank A.shape B.shape + 2 := by
  rw [hgrad, length_matmulShape hs.rank₁ hs.rank₂]
  unfold outRank
  rw [if_neg (by omega), if_neg (by omega)]

section Families

variable {s : Strategy} (hp : 0 < p) (hs : MatmulShapes A.shape B.shape)
  (hgrad : grad.shape = matmulShape A.shape B.shape)
include hp hs hgrad

theorem backwardStrategies₂_sound (h₁ : 2 ≤ A.shape.length) (h₂ : B.shape.length = 1 ∨ B.shape.length = 2)
    (h : s ∈ backwardStrategies₂ grad.shape A.shape B.shape p) : BackwardSound p grad A B s := by
  simp only [backwardStrategies₂, List.mem_append, List.mem_flatMap, List.mem_range, mem_appendIf,
    decide_eq_true_eq] at h
  rcases h with (⟨hdvd, rfl⟩ | ⟨i, hi, hdvd, rfl⟩) | ⟨⟨htwo, hdvd⟩, rfl⟩
  · -- the summed dimension
    have hinner : innerDim₂ B.shape = 0 := by
      unfold innerDim₂
      omega
    have hcut := LoopCut.ofInner hs (p := p) (by rw [hs.inner, hinner]; exact Nat.dvd_of_mod_eq_zero hdvd)
    rw [hinner] at hcut
    exact hcut.backwardSound hp hs hgrad _
  · -- a batch dimension, or the rows
    obtain ⟨v, t, ht, hcut⟩ := LoopCut.ofLeading₁ hs (i := i) (by omega) (by omega) (Nat.dvd_of_mod_eq_zero hdvd)
    obtain rfl : t = i := by
      unfold batchRank at ht
      omega
    exact hcut.backwardSound hp hs hgrad _
  · -- the columns
    obtain ⟨v, hcut⟩ := LoopCut.ofColumns hs (p := p) (by omega) (by rw [htwo]; exact Nat.dvd_of_mod_eq_zero hdvd)
    rw [htwo, ← length_matmulShape hs.rank₁ hs.rank₂, ← hgrad] at hcut
    exact hcut.backwardSound hp hs hgrad _

theorem backwardStrategies₁_sound (h₁ : A.shape.length = 1 ∨ A.shape.length = 2) (h₂ : 2 ≤ B.shape.length)
    (hspecial : A.shape.length = 1 ∧ B.shape.length = 2 → ¬ p ∣ A.shape.getD 0 1)
    (h : s ∈ backwardStrategies₁ grad.shape A.shape B.shape p) : BackwardSound p grad A B s := by
  have hgradRank : grad.shape.length = outRank A.shape B.shape := by
    rw [hgrad, length_matmulShape hs.rank₁ hs.rank₂]
  simp only [backwardStrategies₁, List.mem_append, List.mem_flatMap, List.mem_range, mem_appendIf,
    decide_eq_true_eq] at h
  rcases h with ((⟨hdvd, rfl⟩ | ⟨hdvd, rfl⟩) | ⟨i, hi, hdvd, rfl⟩) | ⟨⟨htwo, hdvd⟩, rfl⟩
  · -- the summed dimension
    have hcut := LoopCut.ofInner hs (p := p) (Nat.dvd_of_mod_eq_zero hdvd)
    rw [if_neg]
    · exact hcut.backwardSound hp hs hgrad _
    · rintro ⟨htwo, hone⟩
      rw [hone] at hdvd
      exact hspecial ⟨hone, htwo⟩ (Nat.dvd_of_mod_eq_zero hdvd)
  · -- the columns
    obtain ⟨v, hcut⟩ := LoopCut.ofColumns hs h₂ (Nat.dvd_of_mod_eq_zero hdvd)
    rw [← hgradRank] at hcut
    exact hcut.backwardSound hp hs hgrad _
  · -- a batch dimension
    obtain ⟨v, hcut⟩ := LoopCut.ofLeading₂ hs (i := i) (by omega) (by omega) (Nat.dvd_of_mod_eq_zero hdvd)
    exact hcut.backwardSound hp hs hgrad _
  · -- the rows
    obtain ⟨v, t, ht, hcut⟩ := LoopCut.ofLeading₁ hs (i := 0) (by omega) (by omega) (Nat.dvd_of_mod_eq_zero hdvd)
    have hlength := length_grad hs hgrad (by omega) h₂
    obtain rfl : t = grad.shape.length - 2 := by omega
    exact hcut.backwardSound hp hs hgrad _

end Families

/-! ### The shapes for which every strategy is sound -/

/-- A batch dimension that both operands have is cut only where the gradient of the operand of shape `s`, which
is the shorter one by `diff` dimensions and has the dimension at `i`, has no elements. -/
def BatchEmpty (s : List ℕ) (diff i : ℕ) : Prop :=
  i + diff < s.length ∧ s.getD i 1 = 0 ∧ s.getD (i + diff) 1 = 0

structure BackwardShapes (s₁ s₂ : List ℕ) (p : ℕ) : Prop where
  vector : s₁.length = 1 → s₂.length = 2 → ¬ p ∣ s₁.getD 0 1
  longer₁ : 3 ≤ s₂.length → s₂.length < s₁.length →
    ¬ p ∣ s₂.getD (s₂.length - 1) 1 ∧ ¬ p ∣ s₁.getD (s₁.length - 1) 1 ∧
      ∀ i, i + 2 < s₂.length → p ∣ s₁.getD (i + (s₁.length - s₂.length)) 1 → p ∣ s₂.getD i 1 →
        BatchEmpty s₂ (s₁.length - s₂.length) i
  longer₂ : 3 ≤ s₁.length → s₁.length < s₂.length →
    ¬ p ∣ s₁.getD (s₁.length - 2) 1 ∧ ¬ p ∣ s₁.getD (s₁.length - 1) 1 ∧
      ∀ i, i + 2 < s₁.length → p ∣ s₁.getD i 1 → p ∣ s₂.getD (i + (s₂.length - s₁.length)) 1 →
        BatchEmpty s₁ (s₂.length - s₁.length) i

/-- The last two dimensions of the gradient are the rows and the columns. -/
theorem getD_grad (s₁ s₂ : List ℕ) (h₁ : 2 ≤ s₁.length) (h₂ : 2 ≤ s₂.length) :
    (matmulShape s₁ s₂).getD (batchRank s₁ s₂) 1 = s₁.getD (s₁.length - 2) 1 ∧
      (matmulShape s₁ s₂).getD (batchRank s₁ s₂ + 1) 1 = s₂.getD (s₂.length - 1) 1 := by
  have hlength : (broadcastShapes (batchShape s₁) (batchShape s₂)).length = batchRank s₁ s₂ := by
    unfold broadcastShapes
    rw [List.length_map, List.length_range, length_batchShape, length_batchShape]
    rfl
  have hshape : matmulShape s₁ s₂ = broadcastShapes (batchShape s₁) (batchShape s₂) ++
      [s₁.getD (s₁.length - 2) 1, s₂.getD (s₂.length - 1) 1] := by
    unfold matmulShape
    rw [if_neg (by omega), if_neg (by omega), List.append_assoc]
    rfl
  rw [hshape]
  constructor
  · rw [List.getD_append_right _ _ _ _ hlength.le, hlength, Nat.sub_self]
    rfl
  · rw [List.getD_append_right _ _ _ _ (by omega), hlength, Nat.add_sub_cancel_left]
    rfl

section Batched

variable {s : Strategy}

omit [Mul α] in
theorem recombines_of_batchEmpty {C : NdArray α} {parts : ℕ → NdArray α} {full : NdArray α} {d i : ℕ}
    (h : BatchEmpty C.shape (d - i) i) (hle : i ≤ d) (hparts : ∀ r < p, (parts r).shape = (C.chunk i p r).shape)
    (hfull : full.shape = C.shape) : (Placement.shard d).Recombines p parts full := by
  obtain ⟨hrange, hzero, hzero'⟩ := h
  rw [Nat.add_sub_cancel' hle] at hrange hzero'
  refine recombines_shard_of_empty (hfull ▸ hrange) ?_ fun r hr => ?_
  · rw [NdArray.dim, hfull]
    exact hzero'
  · rw [hparts r hr, shape_chunk_of_dim_eq_zero hzero, hfull]

/-- A batch dimension of both operands, for operands of different ranks: the shorter one's gradient is cut
along a dimension of the longer one, which is harmless only if it is empty. -/
theorem backwardSound_batch {d i₁ i₂ : ℕ} (hp : 1 < p) (hs : MatmulShapes A.shape B.shape)
    (hgrad : grad.shape = matmulShape A.shape B.shape)
    (hi₁ : i₁ + 2 < A.shape.length) (hd₁ : d + A.shape.length = i₁ + (batchRank A.shape B.shape + 2))
    (hi₂ : i₂ + 2 < B.shape.length) (hd₂ : d + B.shape.length = i₂ + (batchRank A.shape B.shape + 2))
    (hdvd₁ : p ∣ A.shape.getD i₁ 1) (hdvd₂ : p ∣ B.shape.getD i₂ 1)
    (hempty₁ : d ≠ i₁ → BatchEmpty A.shape (d - i₁) i₁) (hempty₂ : d ≠ i₂ → BatchEmpty B.shape (d - i₂) i₂) :
    BackwardSound p grad A B
      ([.shard d, .shard d], [some (.shard d), some (.shard i₁), some (.shard i₂), none]) := by
  have hd : d < batchRank A.shape B.shape := by omega
  have hcut := LoopCut.ofBatch hs hp hd hi₁ hd₁ hi₂ hd₂ hdvd₁ hdvd₂
  obtain ⟨hg, hfirst, hsecond, hlocal, hout₁, hout₂⟩ := hcut.backwardSound (by omega) hs hgrad [none]
  refine ⟨hg, hfirst, hsecond, hlocal, ?_, ?_⟩
  · by_cases hne : d = i₁
    · rw [hne] at hout₁ ⊢
      exact hout₁
    · exact recombines_of_batchEmpty (hempty₁ hne) (by unfold batchRank at hd₁; omega) (fun r _ => rfl) rfl
  · by_cases hne : d = i₂
    · rw [hne] at hout₂ ⊢
      exact hout₂
    · exact recombines_of_batchEmpty (hempty₂ hne) (by unfold batchRank at hd₂; omega) (fun r _ => rfl) rfl

theorem backwardStrategies_sound (hp : 0 < p) (hs : MatmulShapes A.shape B.shape)
    (hgrad : grad.shape = matmulShape A.shape B.shape) (h₁ : 3 ≤ A.shape.length) (h₂ : 3 ≤ B.shape.length)
    (hok : BackwardShapes A.shape B.shape p) (h : s ∈ backwardStrategies grad.shape A.shape B.shape p) :
    BackwardSound p grad A B s := by
  have hgradRank := length_grad hs hgrad (by omega) (by omega)
  have hout : outRank A.shape B.shape = grad.shape.length := by
    rw [hgrad, length_matmulShape hs.rank₁ hs.rank₂]
  have hbatchRank : batchRank A.shape B.shape = max A.shape.length B.shape.length - 2 := by
    unfold batchRank
    omega
  obtain ⟨hrows, hcolumns⟩ := getD_grad A.shape B.shape (by omega) (by omega)
  rw [← hgrad] at hrows hcolumns
  have hinner := hs.inner
  unfold innerDim₁ innerDim₂ at hinner
  simp only [backwardStrategies, List.mem_append, List.mem_flatMap, List.mem_reverse, List.mem_range,
    mem_appendIf, decide_eq_true_eq] at h
  rcases h with (((⟨hdvd, rfl⟩ | ⟨hdvd, rfl⟩) | ⟨hdvd, rfl⟩) | ⟨i, hi, hbatch, rfl⟩) | ⟨i, hi, h⟩
  · -- the columns: the second operand has the rank of the product
    have hdvd := Nat.dvd_of_mod_eq_zero hdvd
    rw [show grad.shape.length - 1 = batchRank A.shape B.shape + 1 by omega, hcolumns] at hdvd
    have hlonger : A.shape.length ≤ B.shape.length := by
      by_contra hlt
      exact (hok.longer₁ h₂ (by omega)).1 hdvd
    obtain ⟨v, hcut⟩ := LoopCut.ofColumns hs (by omega) hdvd
    rw [hout] at hcut
    have hlast : B.shape.length - 1 = grad.shape.length - 1 := by omega
    rw [hlast] at hcut ⊢
    exact hcut.backwardSound hp hs hgrad _
  · -- the rows: the first operand has the rank of the product
    have hdvd := Nat.dvd_of_mod_eq_zero hdvd
    rw [show grad.shape.length - 2 = batchRank A.shape B.shape by omega, hrows] at hdvd
    have hlonger : B.shape.length ≤ A.shape.length := by
      by_contra hlt
      exact (hok.longer₂ h₁ (by omega)).1 hdvd
    obtain ⟨v, t, ht, hcut⟩ := LoopCut.ofLeading₁ hs (i := A.shape.length - 2) (by omega) (by omega) hdvd
    obtain rfl : t = grad.shape.length - 2 := by omega
    have hrow : A.shape.length - 2 = grad.shape.length - 2 := by omega
    rw [hrow] at hcut ⊢
    exact hcut.backwardSound hp hs hgrad _
  · -- the summed dimension: both have
    have hdvd := Nat.dvd_of_mod_eq_zero hdvd
    have heq : A.shape.length = B.shape.length := by
      by_contra hne
      rcases Nat.lt_or_gt_of_ne hne with hlt | hlt
      · exact (hok.longer₂ h₁ hlt).2.1 hdvd
      · exact (hok.longer₁ h₂ hlt).2.1 hdvd
    have hcut := LoopCut.ofInner hs hdvd
    unfold innerDim₁ innerDim₂ at hcut
    rw [show grad.shape.length - 1 = A.shape.length - 1 by omega,
      show grad.shape.length - 2 = B.shape.length - 2 by omega]
    exact hcut.backwardSound hp hs hgrad _
  · -- a batch dimension that both operands have
    obtain ⟨hdvd₁, hdvd₂⟩ := hbatch
    by_cases hone : p = 1
    · -- one rank: the operands have one rank too, or the columns or the summed dimension are cut wrongly
      subst hone
      have heq : A.shape.length = B.shape.length := by
        by_contra hne
        rcases Nat.lt_or_gt_of_ne hne with hlt | hlt
        · exact (hok.longer₂ h₁ hlt).2.1 (one_dvd _)
        · exact (hok.longer₁ h₂ hlt).2.1 (one_dvd _)
      rw [if_neg (by omega)]
      exact backwardSound_one hs hgrad (by omega) (by omega) (by omega) (by omega) (by omega) _
    · split_ifs at hdvd₁ hdvd₂ ⊢ with hlonger
      · refine backwardSound_batch (by omega) hs hgrad (by omega) (by omega) (by omega) (by omega)
          (Nat.dvd_of_mod_eq_zero hdvd₁) (Nat.dvd_of_mod_eq_zero hdvd₂) (fun hne => absurd rfl hne) fun _ => ?_
        rw [show max A.shape.length B.shape.length - min A.shape.length B.shape.length =
          A.shape.length - B.shape.length by omega] at hdvd₁ ⊢
        rw [Nat.add_sub_cancel_left]
        exact (hok.longer₁ h₂ hlonger).2.2 i (by omega) (Nat.dvd_of_mod_eq_zero hdvd₁)
          (Nat.dvd_of_mod_eq_zero hdvd₂)
      · refine backwardSound_batch (by omega) hs hgrad (by omega) (by omega) (by omega) (by omega)
          (Nat.dvd_of_mod_eq_zero hdvd₁) (Nat.dvd_of_mod_eq_zero hdvd₂) (fun hne => ?_) fun hne => absurd rfl hne
        rw [show max A.shape.length B.shape.length - min A.shape.length B.shape.length =
          B.shape.length - A.shape.length by omega] at hdvd₂ hne ⊢
        rw [Nat.add_sub_cancel_left]
        exact (hok.longer₂ h₁ (by omega)).2.2 i (by omega) (Nat.dvd_of_mod_eq_zero hdvd₁)
          (Nat.dvd_of_mod_eq_zero hdvd₂)
  · -- a batch dimension that only the longer operand has
    split_ifs at h with hlonger
    · obtain rfl := List.mem_singleton.mp h
      obtain ⟨v, t, ht, hcut⟩ := LoopCut.ofLeading₁ hs (i := i) (by omega) (by omega)
        (Nat.dvd_of_mod_eq_zero hlonger.2)
      obtain rfl : t = i := by omega
      exact hcut.backwardSound hp hs hgrad _
    · rw [mem_appendIf, decide_eq_true_eq] at h
      obtain ⟨⟨hshorter, hdvd⟩, rfl⟩ := h
      obtain ⟨v, hcut⟩ := LoopCut.ofLeading₂ hs (i := i) (by omega) (by omega) (Nat.dvd_of_mod_eq_zero hdvd)
      exact hcut.backwardSound hp hs hgrad _

end Batched

/-! ### The other shapes -/

omit [Mul α] in
/-- The gradient of an operand that is cut along `e` is made up along another dimension only if it is empty. -/
theorem batchEmpty_of_recombines {C : NdArray α} {parts : ℕ → NdArray α} {full : NdArray α} {d e : ℕ} (hp : 1 < p)
    (h : (Placement.shard d).Recombines p parts full) (hne : e ≠ d) (he : e < C.shape.length)
    (hdvd : p ∣ C.shape.getD e 1) (hparts : ∀ r < p, (parts r).shape = (C.chunk e p r).shape)
    (hfull : full.shape = C.shape) : d < C.shape.length ∧ C.shape.getD e 1 = 0 ∧ C.shape.getD d 1 = 0 := by
  have hd := h.1
  obtain ⟨hzero, hzero'⟩ := dims_eq_zero_of_recombines hp h hne (hfull ▸ he)
    (by rw [NdArray.dim, hfull]; exact hdvd) fun r hr => by rw [hparts r hr, NdArray.dim, hfull]; rfl
  rw [NdArray.dim, hfull] at hzero hzero'
  exact ⟨hfull ▸ hd, hzero, hzero'⟩

omit [AddCommMonoid α] [Mul α] in
theorem dvd_columns (hgrad : grad.shape = matmulShape A.shape B.shape) (h₁ : 2 ≤ A.shape.length)
    (h₂ : 2 ≤ B.shape.length) (hs : MatmulShapes A.shape B.shape)
    (h : p ∣ B.shape.getD (B.shape.length - 1) 1) : p ∣ grad.shape.getD (grad.shape.length - 1) 1 := by
  have hlength := length_grad hs hgrad h₁ h₂
  rw [hlength, hgrad, show batchRank A.shape B.shape + 2 - 1 = batchRank A.shape B.shape + 1 by omega,
    (getD_grad _ _ h₁ h₂).2]
  exact h

omit [AddCommMonoid α] [Mul α] in
theorem dvd_rows (hgrad : grad.shape = matmulShape A.shape B.shape) (h₁ : 2 ≤ A.shape.length)
    (h₂ : 2 ≤ B.shape.length) (hs : MatmulShapes A.shape B.shape)
    (h : p ∣ A.shape.getD (A.shape.length - 2) 1) : p ∣ grad.shape.getD (grad.shape.length - 2) 1 := by
  have hlength := length_grad hs hgrad h₁ h₂
  rw [hlength, hgrad, Nat.add_sub_cancel, (getD_grad _ _ h₁ h₂).1]
  exact h

section Members

variable {g t₁ t₂ : List ℕ}

theorem mem_backward_columns (h : p ∣ g.getD (g.length - 1) 1) :
    ([.partialSum, .shard (g.length - 1)],
      [some (.shard (g.length - 1)), some .replicate, some (.shard (t₂.length - 1)), none]) ∈
        backwardStrategies g t₁ t₂ p := by
  simp only [backwardStrategies, List.mem_append, mem_appendIf, decide_eq_true_eq, Nat.mod_eq_zero_of_dvd h,
    and_self, true_or]

theorem mem_backward_rows (h : p ∣ g.getD (g.length - 2) 1) :
    ([.shard (g.length - 2), .partialSum],
      [some (.shard (g.length - 2)), some (.shard (t₁.length - 2)), some .replicate, none]) ∈
        backwardStrategies g t₁ t₂ p := by
  simp only [backwardStrategies, List.mem_append, mem_appendIf, decide_eq_true_eq, Nat.mod_eq_zero_of_dvd h,
    and_self, or_true, true_or]

theorem mem_backward_inner (h : p ∣ t₁.getD (t₁.length - 1) 1) :
    ([.shard (g.length - 1), .shard (g.length - 2)],
      [some .replicate, some (.shard (t₁.length - 1)), some (.shard (t₂.length - 2)), none]) ∈
        backwardStrategies g t₁ t₂ p := by
  simp only [backwardStrategies, List.mem_append, mem_appendIf, decide_eq_true_eq, Nat.mod_eq_zero_of_dvd h,
    and_self, or_true, true_or]

theorem mem_backward_batch₁ {i : ℕ} (hlonger : t₂.length < t₁.length) (hi : i + 2 < t₂.length)
    (h₁ : p ∣ t₁.getD (i + (t₁.length - t₂.length)) 1) (h₂ : p ∣ t₂.getD i 1) :
    ([.shard (i + (t₁.length - t₂.length)), .shard (i + (t₁.length - t₂.length))],
      [some (.shard (i + (t₁.length - t₂.length))), some (.shard (i + (t₁.length - t₂.length))),
        some (.shard i), none]) ∈ backwardStrategies g t₁ t₂ p := by
  have hdiff : max t₁.length t₂.length - min t₁.length t₂.length = t₁.length - t₂.length := by omega
  have hi : i < min t₁.length t₂.length - 2 := by omega
  simp only [backwardStrategies, List.mem_append, List.mem_flatMap, List.mem_reverse, List.mem_range,
    mem_appendIf, decide_eq_true_eq, hdiff, if_pos hlonger]
  exact Or.inl (Or.inr ⟨i, hi, ⟨Nat.mod_eq_zero_of_dvd h₁, Nat.mod_eq_zero_of_dvd h₂⟩, rfl⟩)

theorem mem_backward_batch₂ {i : ℕ} (hlonger : t₁.length < t₂.length) (hi : i + 2 < t₁.length)
    (h₁ : p ∣ t₁.getD i 1) (h₂ : p ∣ t₂.getD (i + (t₂.length - t₁.length)) 1) :
    ([.shard (i + (t₂.length - t₁.length)), .shard (i + (t₂.length - t₁.length))],
      [some (.shard (i + (t₂.length - t₁.length))), some (.shard i),
        some (.shard (i + (t₂.length - t₁.length))), none]) ∈ backwardStrategies g t₁ t₂ p := by
  have hdiff : max t₁.length t₂.length - min t₁.length t₂.length = t₂.length - t₁.length := by omega
  have hi : i < min t₁.length t₂.length - 2 := by omega
  have hshorter : ¬ t₂.length < t₁.length := by omega
  simp only [backwardStrategies, List.mem_append, List.mem_flatMap, List.mem_reverse, List.mem_range,
    mem_appendIf, decide_eq_true_eq, hdiff, if_neg hshorter]
  exact Or.inl (Or.inr ⟨i, hi, ⟨Nat.mod_eq_zero_of_dvd h₁, Nat.mod_eq_zero_of_dvd h₂⟩, rfl⟩)

end Members

theorem batched_of_all (h : ∀ s ∈ customMatmulBackwardStrategy grad.shape A.shape B.shape p, BackwardSound p grad A B s)
    (h₁ : 3 ≤ A.shape.length) (h₂ : 3 ≤ B.shape.length) :
    ∀ s ∈ backwardStrategies grad.shape A.shape B.shape p, BackwardSound p grad A B s := by
  intro s hmem
  refine h s ?_
  unfold customMatmulBackwardStrategy
  rw [if_neg (by omega), if_neg (by omega), if_neg (by omega)]
  exact List.mem_cons_of_mem _ hmem

theorem one_lt_of_not_dvd {n : ℕ} (hp : 0 < p) (h : ¬ p ∣ n) : 1 < p := by
  by_contra hle
  obtain rfl : p = 1 := by omega
  exact h (one_dvd n)

theorem backwardShapes_of_sound (hs : MatmulShapes A.shape B.shape)
    (hgrad : grad.shape = matmulShape A.shape B.shape) (hp : 0 < p)
    (h : ∀ s ∈ customMatmulBackwardStrategy grad.shape A.shape B.shape p, BackwardSound p grad A B s) :
    BackwardShapes A.shape B.shape p := by
  have hinner := hs.inner
  unfold innerDim₁ innerDim₂ at hinner
  constructor
  · -- a vector has no dimension for the cut that its gradient is given
    intro hone htwo hdvd
    have hmem : ([.shard A.shape.length, .shard (B.shape.length - 2)],
        [some .replicate, some (.shard (A.shape.length - 1)), some (.shard (B.shape.length - 2)), none]) ∈
          customMatmulBackwardStrategy grad.shape A.shape B.shape p := by
      unfold customMatmulBackwardStrategy backwardStrategies₁
      rw [if_neg (by omega), if_neg (by omega), if_pos (by omega)]
      simp only [hone, htwo, List.mem_cons, List.mem_append, mem_appendIf, decide_eq_true_eq, and_self, if_true,
        Nat.mod_eq_zero_of_dvd hdvd, Nat.sub_self, true_or, or_true]
    obtain ⟨-, -, -, -, hout₁, -⟩ := h _ hmem
    exact absurd hout₁.1 (lt_irrefl _)
  · intro h₂ hlonger
    have hbatched := batched_of_all h (by omega) h₂
    have hlength : grad.shape.length = A.shape.length := by
      rw [length_grad hs hgrad (by omega) (by omega)]
      unfold batchRank
      omega
    have hcolumns : ¬ p ∣ B.shape.getD (B.shape.length - 1) 1 := by
      intro hdvd
      obtain ⟨-, -, -, -, -, hout₂⟩ :=
        hbatched _ (mem_backward_columns (dvd_columns hgrad (by omega) (by omega) hs hdvd))
      have hlt : grad.shape.length - 1 < B.shape.length := hout₂.1
      omega
    have hp := one_lt_of_not_dvd hp hcolumns
    refine ⟨hcolumns, fun hdvd => ?_, fun i hi hdvd₁ hdvd₂ => ?_⟩
    · obtain ⟨-, -, -, -, -, hout₂⟩ := hbatched _ (mem_backward_inner hdvd)
      obtain ⟨hlt, -, hzero⟩ := batchEmpty_of_recombines hp hout₂ (C := B) (e := B.shape.length - 2) (by omega)
        (by omega) (hinner ▸ hdvd) (fun r _ => rfl) rfl
      rw [show grad.shape.length - 2 = B.shape.length - 1 by omega] at hzero
      exact hcolumns (hzero ▸ dvd_zero p)
    · obtain ⟨-, -, -, -, -, hout₂⟩ := hbatched _ (mem_backward_batch₁ hlonger hi hdvd₁ hdvd₂)
      exact batchEmpty_of_recombines hp hout₂ (C := B) (e := i) (by omega) (by omega) hdvd₂ (fun r _ => rfl) rfl
  · intro h₁ hlonger
    have hbatched := batched_of_all h h₁ (by omega)
    have hlength : grad.shape.length = B.shape.length := by
      rw [length_grad hs hgrad (by omega) (by omega)]
      unfold batchRank
      omega
    have hsummed : ¬ p ∣ A.shape.getD (A.shape.length - 1) 1 := by
      intro hdvd
      obtain ⟨-, -, -, -, hout₁, -⟩ := hbatched _ (mem_backward_inner hdvd)
      have hlt : grad.shape.length - 1 < A.shape.length := hout₁.1
      omega
    have hp := one_lt_of_not_dvd hp hsummed
    refine ⟨fun hdvd => ?_, hsummed, fun i hi hdvd₁ hdvd₂ => ?_⟩
    · obtain ⟨-, -, -, -, hout₁, -⟩ :=
        hbatched _ (mem_backward_rows (dvd_rows hgrad (by omega) (by omega) hs hdvd))
      obtain ⟨hlt, -, hzero⟩ := batchEmpty_of_recombines hp hout₁ (C := A) (e := A.shape.length - 2) (by omega)
        (by omega) hdvd (fun r _ => rfl) rfl
      rw [show grad.shape.length - 2 = A.shape.length - 1 by omega] at hzero
      exact hsummed (hzero ▸ dvd_zero p)
    · obtain ⟨-, -, -, -, hout₁, -⟩ := hbatched _ (mem_backward_batch₂ hlonger hi hdvd₁ hdvd₂)
      exact batchEmpty_of_recombines hp hout₁ (C := A) (e := i) (by omega) (by omega) hdvd₁ (fun r _ => rfl) rfl

end TorchNpu.DTensor
