/-
  When the storage of a format has room for all elements of the base shape.
-/
import Mathlib.Algebra.BigOperators.Group.List.Basic
import Mathlib.Tactic.Ring
import TorchNpu.Format.FormatHelper

namespace TorchNpu.Format

/-- A size filled up to whole blocks. -/
def filled (block n : ℕ) : ℕ := (n + block - 1) / block * block

theorem le_filled {block : ℕ} (hpos : 0 < block) (n : ℕ) : n ≤ filled block n := by
  have hdiv := Nat.div_add_mod (n + block - 1) block
  have hmod := Nat.mod_lt (n + block - 1) hpos
  rw [filled, Nat.mul_comm]
  omega

/-! ### The formats without dropped dimensions -/

theorem prod_inferShapeLessTo4 {dims sizes : List ℕ} (h : inferShapeLessTo4 dims = some sizes) :
    sizes.prod = dims.prod := by
  rw [inferShapeLessTo4.eq_def] at h
  split at h
  · rw [← Option.some_inj.mp h]
    rfl
  · rw [← Option.some_inj.mp h]
    simp
  · rw [← Option.some_inj.mp h]
    simp
  · rw [← Option.some_inj.mp h]
    simp
  · rw [← Option.some_inj.mp h]
  · exact absurd h (by simp)

/-- The blocks of a matrix have room for it. -/
theorem mul_le_prod_blocks {lastSize : ℕ} (hpos : 0 < lastSize) (h w : ℕ) :
    h * w ≤ [(w + lastSize - 1) / lastSize, (h + blockSize - 1) / blockSize, blockSize, lastSize].prod := by
  have hprod : [(w + lastSize - 1) / lastSize, (h + blockSize - 1) / blockSize, blockSize, lastSize].prod =
      filled blockSize h * filled lastSize w := by
    simp only [List.prod_cons, List.prod_nil, filled]
    ring
  rw [hprod]
  exact Nat.mul_le_mul (le_filled (by decide) h) (le_filled hpos w)

theorem prod_le_prod_nzBlocks {lastSize : ℕ} (hpos : 0 < lastSize) (dims : List ℕ) :
    dims.prod ≤ (nzBlocks lastSize dims).prod := by
  induction dims using nzBlocks.induct with
  | case1 => exact mul_le_prod_blocks hpos 1 1
  | case2 h => exact mul_le_prod_blocks hpos h 1
  | case3 h w =>
    rw [List.prod_cons, List.prod_singleton]
    exact mul_le_prod_blocks hpos h w
  | case4 n h w dims ih =>
    rw [nzBlocks, List.prod_cons, List.prod_cons]
    exact Nat.mul_le_mul_left n ih

theorem nzLastSize_pos {itemsize : ℕ} (h : itemsize ≠ 0) : 0 < nzLastSize itemsize := by
  rw [nzLastSize, blockBytes]
  split
  · decide
  · apply Nat.div_pos
    · omega
    · omega

/-! ### The formats with dropped dimensions -/

/-- Whether the dimensions that a format drops find room in what fills the others up. -/
def DroppedFit : AclFormat → List ℕ → Prop
  | .nc1hwc0, n :: c :: h :: w :: dropped => n * h * w = 0 ∨ c * dropped.prod ≤ filled 16 c
  | .fractalZ, n :: c :: h :: w :: dropped => h * w = 0 ∨ n * c * dropped.prod ≤ filled 16 n * filled 16 c
  | .ndhwc, n :: c :: d :: h :: w :: dropped => n * c * d * h * w = 0 ∨ dropped.prod ≤ 1
  | .ncdhw, n :: c :: d :: h :: w :: dropped => n * c * d * h * w = 0 ∨ dropped.prod ≤ 1
  | .ndc1hwc0, n :: c :: d :: h :: w :: dropped => n * d * h * w = 0 ∨ c * dropped.prod ≤ filled 16 c
  | .fractalZ3d, n :: c :: d :: h :: w :: dropped =>
    d * h * w = 0 ∨ n * c * dropped.prod ≤ filled 16 n * filled 16 c
  | _, _ => True

/-- What is common to two products. -/
theorem mul_le_mul_iff_or (k a b : ℕ) : k * a ≤ k * b ↔ k = 0 ∨ a ≤ b := by
  rcases Nat.eq_zero_or_pos k with rfl | hpos
  · simp
  · rw [Nat.mul_le_mul_left_iff hpos]
    exact ⟨Or.inr, fun h => h.resolve_left (Nat.ne_of_gt hpos)⟩

/-- The dimensions that a format has room for are no more than it was written for. -/
theorem droppedFit_of_length_le {format : AclFormat} {dims : List ℕ}
    (h : dims.length ≤ if format = .nc1hwc0 ∨ format = .fractalZ then 4 else 5) : DroppedFit format dims := by
  have hnil : ∀ (k : ℕ) {dropped : List ℕ}, dropped.length + k ≤ k → dropped = [] := by
    intro k dropped hle
    exact List.length_eq_zero_iff.mp (by omega)
  rw [DroppedFit.eq_def]
  split
  · rename_i n c h' w dropped
    obtain rfl := hnil 4 h
    right
    simpa using le_filled (by decide) c
  · rename_i n c h' w dropped
    obtain rfl := hnil 4 h
    right
    simpa using Nat.mul_le_mul (le_filled (by decide) n) (le_filled (by decide) c)
  · rename_i n c d h' w dropped
    obtain rfl := hnil 5 h
    right
    simp
  · rename_i n c d h' w dropped
    obtain rfl := hnil 5 h
    right
    simp
  · rename_i n c d h' w dropped
    obtain rfl := hnil 5 h
    right
    simpa using le_filled (by decide) c
  · rename_i n c d h' w dropped
    obtain rfl := hnil 5 h
    right
    simpa using Nat.mul_le_mul (le_filled (by decide) n) (le_filled (by decide) c)
  · trivial

theorem length_inferShapeLessTo4 {dims sizes : List ℕ} (h : inferShapeLessTo4 dims = some sizes) :
    sizes.length = 4 := by
  rw [inferShapeLessTo4.eq_def] at h
  split at h
  · rw [← Option.some_inj.mp h]
    rfl
  · rw [← Option.some_inj.mp h]
    rfl
  · rw [← Option.some_inj.mp h]
    rfl
  · rw [← Option.some_inj.mp h]
    rfl
  · rw [← Option.some_inj.mp h]
    rfl
  · exact absurd h (by simp)

theorem blocks4To5_iff {dims sizes : List ℕ} (h : blocks4To5 dims = some sizes) :
    dims.prod ≤ sizes.prod ↔ DroppedFit .nc1hwc0 dims := by
  rw [blocks4To5.eq_def] at h
  split at h
  · rename_i n c h' w dropped
    rw [← Option.some_inj.mp h, DroppedFit, ← mul_le_mul_iff_or]
    have hdims : (n :: c :: h' :: w :: dropped).prod = n * h' * w * (c * dropped.prod) := by
      simp only [List.prod_cons]
      ring
    have hsizes : [n, (c + 15) / 16, h', w, blockSize].prod = n * h' * w * filled 16 c := by
      simp only [List.prod_cons, List.prod_nil, filled, blockSize, Nat.add_sub_assoc, Nat.reduceLeDiff,
        Nat.reduceSub]
      ring
    rw [hdims, hsizes]
  · exact absurd h (by simp)

theorem blocksNDToZ_iff {dims sizes : List ℕ} (h : blocksNDToZ dims = some sizes) :
    dims.prod ≤ sizes.prod ↔ DroppedFit .fractalZ dims := by
  rw [blocksNDToZ.eq_def] at h
  split at h
  · rename_i n c h' w dropped
    rw [← Option.some_inj.mp h, DroppedFit, ← mul_le_mul_iff_or]
    have hdims : (n :: c :: h' :: w :: dropped).prod = h' * w * (n * c * dropped.prod) := by
      simp only [List.prod_cons]
      ring
    have hsizes : [(c + 15) / blockSize * h' * w, (n + 15) / blockSize, blockSize, blockSize].prod =
        h' * w * (filled 16 n * filled 16 c) := by
      simp only [List.prod_cons, List.prod_nil, filled, blockSize, Nat.add_sub_assoc, Nat.reduceLeDiff,
        Nat.reduceSub]
      ring
    rw [hdims, hsizes]
  · exact absurd h (by simp)

/-- A short shape is first written with four dimensions. -/
theorem short_iff {format : AclFormat} (hformat : format = .nc1hwc0 ∨ format = .fractalZ)
    {blocks : List ℕ → Option (List ℕ)}
    (hblocks : ∀ {dims sizes}, blocks dims = some sizes → (dims.prod ≤ sizes.prod ↔ DroppedFit format dims))
    {dims sizes : List ℕ}
    (h : (if dims.length < 4 then (inferShapeLessTo4 dims).bind blocks else blocks dims) = some sizes) :
    dims.prod ≤ sizes.prod ↔ DroppedFit format dims := by
  split at h
  · rename_i hshort
    obtain ⟨four, hfour, h⟩ := Option.bind_eq_some_iff.mp h
    rw [← prod_inferShapeLessTo4 hfour, hblocks h]
    have hlength := length_inferShapeLessTo4 hfour
    exact iff_of_true (droppedFit_of_length_le (by rw [if_pos hformat, hlength]))
      (droppedFit_of_length_le (by rw [if_pos hformat]; omega))
  · exact hblocks h

theorem inferShapeOfNDHWC_iff {dims sizes : List ℕ} (h : inferShapeOfNDHWC dims = some sizes) :
    dims.prod ≤ sizes.prod ↔ DroppedFit .ndhwc dims := by
  rw [inferShapeOfNDHWC.eq_def] at h
  split at h
  · rename_i n c d h' w dropped
    rw [← Option.some_inj.mp h, DroppedFit, ← mul_le_mul_iff_or]
    have hdims : (n :: c :: d :: h' :: w :: dropped).prod = n * c * d * h' * w * dropped.prod := by
      simp only [List.prod_cons]
      ring
    have hsizes : [n, d, h', w, c].prod = n * c * d * h' * w * 1 := by
      simp only [List.prod_cons, List.prod_nil]
      ring
    rw [hdims, hsizes]
  · exact absurd h (by simp)

theorem inferShapeOfNCDHW_iff {dims sizes : List ℕ} (h : inferShapeOfNCDHW dims = some sizes) :
    dims.prod ≤ sizes.prod ↔ DroppedFit .ncdhw dims := by
  rw [inferShapeOfNCDHW.eq_def] at h
  split at h
  · rename_i n c d h' w dropped
    rw [← Option.some_inj.mp h, DroppedFit, ← mul_le_mul_iff_or]
    have hdims : (n :: c :: d :: h' :: w :: dropped).prod = n * c * d * h' * w * dropped.prod := by
      simp only [List.prod_cons]
      ring
    have hsizes : [n, c, d, h', w].prod = n * c * d * h' * w * 1 := by
      simp only [List.prod_cons, List.prod_nil]
      ring
    rw [hdims, hsizes]
  · exact absurd h (by simp)

theorem inferShapeOfNDC1HWC0_iff {dims sizes : List ℕ} (h : inferShapeOfNDC1HWC0 dims = some sizes) :
    dims.prod ≤ sizes.prod ↔ DroppedFit .ndc1hwc0 dims := by
  rw [inferShapeOfNDC1HWC0.eq_def] at h
  split at h
  · rename_i n c d h' w dropped
    rw [← Option.some_inj.mp h, DroppedFit, ← mul_le_mul_iff_or]
    have hdims : (n :: c :: d :: h' :: w :: dropped).prod = n * d * h' * w * (c * dropped.prod) := by
      simp only [List.prod_cons]
      ring
    have hsizes : [n, d, (c + blockSize - 1) / blockSize, h', w, blockSize].prod =
        n * d * h' * w * filled 16 c := by
      simp only [List.prod_cons, List.prod_nil, filled, blockSize]
      ring
    rw [hdims, hsizes]
  · exact absurd h (by simp)

theorem inferShapeOfFZ3D_iff {dims sizes : List ℕ} (h : inferShapeOfFZ3D dims = some sizes) :
    dims.prod ≤ sizes.prod ↔ DroppedFit .fractalZ3d dims := by
  rw [inferShapeOfFZ3D.eq_def] at h
  split at h
  · rename_i n c d h' w dropped
    rw [← Option.some_inj.mp h, DroppedFit, ← mul_le_mul_iff_or]
    have hdims : (n :: c :: d :: h' :: w :: dropped).prod = d * h' * w * (n * c * dropped.prod) := by
      simp only [List.prod_cons]
      ring
    have hsizes : [d * ((c + blockSize - 1) / blockSize) * h' * w, (n + blockSize - 1) / blockSize, blockSize,
        blockSize].prod = d * h' * w * (filled 16 n * filled 16 c) := by
      simp only [List.prod_cons, List.prod_nil, filled, blockSize]
      ring
    rw [hdims, hsizes]
  · exact absurd h (by simp)

/-! ### All formats -/

end TorchNpu.Format
