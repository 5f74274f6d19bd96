/-
  Where the elements of a tensor in the format `FRACTAL_NZ` are.

  A matrix is cut into columns of blocks; in a block the rows of `lastSize` elements follow each other.  In terms of
  the place of an element in row-major order, the storage goes up from one element to the next one, but for the step
  from one row to the next one of the same matrix, if there are at least two columns of blocks.
-/
import Mathlib.Tactic.Ring
import TorchNpu.Format.FormatHelper
import TorchNpu.Lib.Strided

namespace TorchNpu.Format

open Strided

/-- The indices of an element in the blocks of `nzBlocks`. -/
def nzIndices (lastSize : ℕ) : List ℕ → List ℕ
  | [] => [0, 0, 0, 0]
  | [r] => [0, r / blockSize, r % blockSize, 0]
  | [r, c] => [c / lastSize, r / blockSize, r % blockSize, c % lastSize]
  | i :: r :: c :: indices => i :: nzIndices lastSize (r :: c :: indices)

/-- The place of an element in the storage. -/
def nzPlace (lastSize : ℕ) (sizes indices : List ℕ) : ℕ :=
  place (contiguousStrides (nzBlocks lastSize sizes)) (nzIndices lastSize indices)

/-! ### The places of row-major order -/

/-- The number of elements of a column of blocks. -/
def nzColumn (lastSize h : ℕ) : ℕ := (h + blockSize - 1) / blockSize * blockSize * lastSize

/-- `nzPlace` in a matrix. -/
def nzMatrix (lastSize h w y : ℕ) : ℕ :=
  y % w / lastSize * nzColumn lastSize h + y / w * lastSize + y % w % lastSize

/-- `nzPlace` of the element at a place in row-major order; it depends on the last two sizes only. -/
def nzFlat (lastSize h w x : ℕ) : ℕ :=
  x / (h * w) * ((w + lastSize - 1) / lastSize * nzColumn lastSize h) + nzMatrix lastSize h w (x % (h * w))

theorem nzBlocks_cons (lastSize n : ℕ) {sizes : List ℕ} (h : 2 ≤ sizes.length) :
    nzBlocks lastSize (n :: sizes) = n :: nzBlocks lastSize sizes := by
  match sizes, h with
  | _ :: _ :: _, _ => rfl

theorem nzIndices_cons (lastSize i : ℕ) {indices : List ℕ} (h : 2 ≤ indices.length) :
    nzIndices lastSize (i :: indices) = i :: nzIndices lastSize indices := by
  match indices, h with
  | _ :: _ :: _, _ => rfl

theorem length_coordinates (sizes : List ℕ) (x : ℕ) : (coordinates sizes x).length = sizes.length := by
  induction sizes generalizing x with
  | nil => rfl
  | cons n sizes ih => rw [coordinates, List.length_cons, List.length_cons, ih]

theorem prod_nzBlocks (lastSize h w : ℕ) (lead : List ℕ) :
    (nzBlocks lastSize (lead ++ [h, w])).prod =
      lead.prod * ((w + lastSize - 1) / lastSize * nzColumn lastSize h) := by
  induction lead with
  | nil =>
    simp only [List.nil_append, nzBlocks, List.prod_cons, List.prod_nil, nzColumn]
    ring
  | cons n lead ih =>
    rw [List.cons_append, nzBlocks_cons _ _ (by simp), List.prod_cons, List.prod_cons, ih, Nat.mul_assoc]

theorem nzPlace_coordinates_matrix (lastSize h w x : ℕ) :
    nzPlace lastSize [h, w] (coordinates [h, w] x) = nzMatrix lastSize h w x := by
  have hrow := Nat.div_add_mod (x / w) blockSize
  simp only [nzPlace, coordinates, nzIndices, nzBlocks, contiguousStrides, place, List.prod_cons, List.prod_nil,
    Nat.mul_one, Nat.div_one, Nat.add_zero, nzMatrix, nzColumn]
  calc x % w / lastSize * ((h + blockSize - 1) / blockSize * (blockSize * lastSize)) +
        (x / w / blockSize * (blockSize * lastSize) + (x / w % blockSize * lastSize + x % w % lastSize))
      = x % w / lastSize * ((h + blockSize - 1) / blockSize * blockSize * lastSize) +
        (blockSize * (x / w / blockSize) + x / w % blockSize) * lastSize + x % w % lastSize := by ring
    _ = _ := by rw [hrow]

theorem nzPlace_coordinates (lastSize h w : ℕ) (lead : List ℕ) {x : ℕ} (hx : x < (lead ++ [h, w]).prod) :
    nzPlace lastSize (lead ++ [h, w]) (coordinates (lead ++ [h, w]) x) = nzFlat lastSize h w x := by
  induction lead generalizing x with
  | nil =>
    have hx : x < h * w := by simpa using hx
    rw [List.nil_append, nzPlace_coordinates_matrix, nzFlat, Nat.div_eq_of_lt hx, Nat.mod_eq_of_lt hx,
      Nat.zero_mul, Nat.zero_add]
  | cons n lead ih =>
    rw [List.cons_append, List.prod_cons] at hx
    have hpos : 0 < (lead ++ [h, w]).prod := Nat.pos_of_mul_pos_left ((Nat.zero_le x).trans_lt hx)
    have hrest := ih (Nat.mod_lt x hpos)
    have hprod : (lead ++ [h, w]).prod = h * w * lead.prod := by
      rw [List.prod_append, List.prod_cons, List.prod_singleton, Nat.mul_comm]
    have hlength : 2 ≤ (coordinates (lead ++ [h, w]) (x % (lead ++ [h, w]).prod)).length := by
      rw [length_coordinates]
      simp
    rw [List.cons_append, nzPlace, nzBlocks_cons _ _ (by simp), coordinates, nzIndices_cons _ _ hlength,
      contiguousStrides, place, ← nzPlace, hrest, prod_nzBlocks, nzFlat, nzFlat, hprod]
    have hdiv : x % (h * w * lead.prod) / (h * w) + x / (h * w * lead.prod) * lead.prod = x / (h * w) := by
      have hsplit := Nat.mod_add_div (x / (h * w)) lead.prod
      rw [Nat.div_div_eq_div_mul] at hsplit
      rw [Nat.mod_mul_right_div_self, Nat.mul_comm (x / (h * w * lead.prod)), hsplit]
    rw [← hdiv, Nat.mod_mul_right_mod]
    ring
/-! ### Going from one element to the next -/

section

variable {lastSize h w : ℕ}

theorem le_nzColumn (lastSize h : ℕ) : h * lastSize ≤ nzColumn lastSize h := by
  apply Nat.mul_le_mul_right
  have hdiv := Nat.div_add_mod (h + blockSize - 1) blockSize
  have hmod := Nat.mod_lt (h + blockSize - 1) (show 0 < blockSize by decide)
  rw [Nat.mul_comm]
  omega

theorem nzColumn_eq (hh : h % 16 = 0) : nzColumn lastSize h = h * lastSize := by
  unfold nzColumn blockSize
  have hfilled : (h + 16 - 1) / 16 * 16 = h := by omega
  rw [hfilled]

/-- The elements of a matrix are in its blocks. -/
theorem nzMatrix_lt (hpos : 0 < lastSize) {y : ℕ} (hy : y < h * w) :
    nzMatrix lastSize h w y < (w + lastSize - 1) / lastSize * nzColumn lastSize h := by
  have hw : 0 < w := Nat.pos_of_mul_pos_left ((Nat.zero_le y).trans_lt hy)
  have hcolumn : y % w / lastSize + 1 ≤ (w + lastSize - 1) / lastSize := by
    rw [← Nat.add_div_right _ hpos]
    apply Nat.div_le_div_right
    have hmod := Nat.mod_lt y hw
    omega
  have hrow : (y / w + 1) * lastSize ≤ nzColumn lastSize h := by
    refine le_trans (Nat.mul_le_mul_right _ ?_) (le_nzColumn lastSize h)
    exact Nat.div_lt_of_lt_mul (Nat.mul_comm h w ▸ hy)
  have hlast := Nat.mod_lt (y % w) hpos
  calc nzMatrix lastSize h w y
      < y % w / lastSize * nzColumn lastSize h + (y / w + 1) * lastSize := by
        rw [nzMatrix, Nat.add_mul, Nat.one_mul]
        omega
    _ ≤ (y % w / lastSize + 1) * nzColumn lastSize h := by
        rw [Nat.add_mul (y % w / lastSize), Nat.one_mul]
        exact Nat.add_le_add_left hrow _
    _ ≤ _ := Nat.mul_le_mul_right _ hcolumn

theorem succ_mod_of_not_dvd {m y : ℕ} (h : ¬m ∣ y + 1) : (y + 1) % m = y % m + 1 := by
  have hdiv := Nat.div_add_mod y m
  have hdiv' := Nat.div_add_mod (y + 1) m
  rw [Nat.succ_div_of_not_dvd h] at hdiv'
  omega

/-- In a row of blocks, too. -/
theorem nzMatrix_lt_succ (hpos : 0 < lastSize) (hh : 2 ≤ h) {y : ℕ} (hy : ¬w ∣ y + 1) :
    nzMatrix lastSize h w y < nzMatrix lastSize h w (y + 1) := by
  have hdiv : (y + 1) / w = y / w := Nat.succ_div_of_not_dvd hy
  rw [nzMatrix, nzMatrix, succ_mod_of_not_dvd hy, hdiv]
  by_cases hlast : lastSize ∣ y % w + 1
  · rw [Nat.succ_div_of_dvd hlast, Nat.mod_eq_zero_of_dvd hlast, Nat.add_mul _ 1, Nat.one_mul]
    have hle := le_nzColumn lastSize h
    have htwo : 2 * lastSize ≤ h * lastSize := Nat.mul_le_mul_right _ hh
    have hrest := Nat.mod_lt (y % w) hpos
    omega
  · rw [Nat.succ_div_of_not_dvd hlast, succ_mod_of_not_dvd hlast]
    omega

/-- From one row to the next one the storage goes back to the first column of blocks. -/
theorem nzMatrix_succ_lt (hpos : 0 < lastSize) (hh : 2 ≤ h) (hw : lastSize < w) {y : ℕ} (hy : w ∣ y + 1) :
    nzMatrix lastSize h w (y + 1) < nzMatrix lastSize h w y := by
  have hlast : y % w = w - 1 := by
    obtain ⟨k, hk⟩ := hy
    obtain ⟨k, rfl⟩ := Nat.exists_eq_add_one.mpr (Nat.pos_of_ne_zero (fun hzero : k = 0 => by
      rw [hzero, Nat.mul_zero] at hk
      exact absurd hk (Nat.succ_ne_zero y)))
    obtain rfl : y = w * k + (w - 1) := by
      rw [Nat.mul_add, Nat.mul_one] at hk
      omega
    rw [Nat.mul_add_mod, Nat.mod_eq_of_lt (by omega)]
  have hcolumn : 1 ≤ (w - 1) / lastSize := (Nat.one_le_div_iff hpos).mpr (by omega)
  have hmul := Nat.mul_le_mul_right (nzColumn lastSize h) hcolumn
  have hle := le_nzColumn lastSize h
  have htwo : 2 * lastSize ≤ h * lastSize := Nat.mul_le_mul_right _ hh
  rw [nzMatrix, nzMatrix, hlast, Nat.succ_div_of_dvd hy, Nat.mod_eq_zero_of_dvd hy, Nat.zero_div, Nat.zero_mul,
    Nat.zero_mod, Nat.add_mul, Nat.one_mul]
  omega

theorem nzFlat_of_dvd {x : ℕ} (hx : h * w ∣ x) :
    nzFlat lastSize h w x = x / (h * w) * ((w + lastSize - 1) / lastSize * nzColumn lastSize h) := by
  rw [nzFlat, Nat.mod_eq_zero_of_dvd hx, nzMatrix, Nat.zero_mod, Nat.zero_div, Nat.zero_div, Nat.zero_mul,
    Nat.zero_mul, Nat.zero_mod, Nat.add_zero]

theorem nzFlat_lt_succ (hpos : 0 < lastSize) (hh : 2 ≤ h) (hw : 0 < w) {x : ℕ} (hx : h * w ∣ x + 1 ∨ ¬w ∣ x + 1) :
    nzFlat lastSize h w x < nzFlat lastSize h w (x + 1) := by
  by_cases hmatrix : h * w ∣ x + 1
  · rw [nzFlat_of_dvd hmatrix, Nat.succ_div_of_dvd hmatrix, nzFlat, Nat.add_mul, Nat.one_mul]
    exact Nat.add_lt_add_left (nzMatrix_lt hpos (Nat.mod_lt x (Nat.mul_pos (by omega) hw))) _
  · have hrow := hx.resolve_left hmatrix
    rw [nzFlat, nzFlat, Nat.succ_div_of_not_dvd hmatrix, succ_mod_of_not_dvd hmatrix]
    apply Nat.add_lt_add_left
    apply nzMatrix_lt_succ hpos hh
    rw [← succ_mod_of_not_dvd hmatrix, Nat.dvd_mod_iff (Nat.dvd_mul_left w h)]
    exact hrow

theorem nzFlat_succ_lt (hpos : 0 < lastSize) (hh : 2 ≤ h) (hw : lastSize < w) {x : ℕ} (hx : w ∣ x + 1)
    (hmatrix : ¬h * w ∣ x + 1) : nzFlat lastSize h w (x + 1) < nzFlat lastSize h w x := by
  rw [nzFlat, nzFlat, Nat.succ_div_of_not_dvd hmatrix, succ_mod_of_not_dvd hmatrix]
  apply Nat.add_lt_add_left
  apply nzMatrix_succ_lt hpos hh hw
  rw [← succ_mod_of_not_dvd hmatrix, Nat.dvd_mod_iff (Nat.dvd_mul_left w h)]
  exact hx

/-- With one column of blocks the rows follow each other. -/
theorem nzFlat_of_le (hh : h % 16 = 0) (hw : 0 < w) (hle : w ≤ lastSize) (x : ℕ) :
    nzFlat lastSize h w x = x / w * lastSize + x % w := by
  have hmod : x % w < lastSize := (Nat.mod_lt x hw).trans_le hle
  have hone : (w + lastSize - 1) / lastSize = 1 := Nat.div_eq_of_lt_le (by omega) (by omega)
  have hrow : x % (h * w) / w + x / (h * w) * h = x / w := by
    have hsplit := Nat.mod_add_div (x / w) h
    rw [Nat.div_div_eq_div_mul, Nat.mul_comm w h, Nat.mul_comm h (x / (h * w))] at hsplit
    rw [Nat.mul_comm h w, Nat.mod_mul_right_div_self, Nat.mul_comm w h, hsplit]
  rw [nzFlat, nzMatrix, Nat.mod_mul_left_mod, Nat.div_eq_of_lt hmod, Nat.mod_eq_of_lt hmod, hone, nzColumn_eq hh,
    ← hrow]
  ring

/-! ### The elements after an offset -/

theorem nzBlocks_eq_of_dvd (hpos : 0 < lastSize) (hh : h % 16 = 0) (hw : lastSize ∣ w) :
    (w + lastSize - 1) / lastSize * nzColumn lastSize h = h * w := by
  obtain ⟨k, rfl⟩ := hw
  have hcolumns : (lastSize * k + lastSize - 1) / lastSize = k := by
    rw [Nat.add_sub_assoc hpos, Nat.mul_add_div hpos, Nat.div_eq_of_lt (by omega), Nat.add_zero]
  rw [hcolumns, nzColumn_eq hh]
  ring

/-- The offset is a matrix further, if the storage goes down where it should and nowhere else. -/
theorem dvd_of_nzFlat_add (hpos : 0 < lastSize) (hh : 2 ≤ h) (hw : lastSize < w) {n offset : ℕ} (hn : h * w ≤ n)
    (hshift : ∀ e < n, nzFlat lastSize h w (offset + e) = offset + nzFlat lastSize h w e) : h * w ∣ offset := by
  have hw0 : 0 < w := hpos.trans hw
  have hrows : w < h * w := (Nat.lt_mul_iff_one_lt_left hw0).mpr hh
  -- A step down after `e` elements of the view is one of the base.
  have hstep : ∀ e, e + 1 < n → w ∣ e + 1 → ¬h * w ∣ e + 1 → w ∣ offset + (e + 1) ∧ ¬h * w ∣ offset + (e + 1) := by
    intro e he hrow hmatrix
    have hdown := nzFlat_succ_lt hpos hh hw hrow hmatrix
    rw [← Nat.add_lt_add_iff_left, ← hshift _ he, ← hshift e (by omega)] at hdown
    by_contra hup
    rw [not_and_or, not_not, or_comm] at hup
    exact absurd (nzFlat_lt_succ hpos hh hw0 hup) (Nat.lt_asymm hdown)
  have hrow : w ∣ offset := by
    have hfirst := hstep (w - 1) (by omega) (by rw [Nat.sub_add_cancel hw0])
      (by
        rw [Nat.sub_add_cancel hw0]
        exact fun hdvd => absurd (Nat.le_of_dvd hw0 hdvd) (by omega))
    rw [Nat.sub_add_cancel hw0] at hfirst
    exact (Nat.dvd_add_left dvd_rfl).mp hfirst.1
  by_contra hnot
  have hrest : 0 < offset % (h * w) := Nat.pos_of_ne_zero fun hzero => hnot (Nat.dvd_of_mod_eq_zero hzero)
  have hlt := Nat.mod_lt offset (hw0.trans hrows)
  have hsplit := Nat.div_add_mod offset (h * w)
  -- The last step to a new matrix of the base would be one within a matrix of the view.
  have hlast : h * w - offset % (h * w) - 1 + 1 = h * w - offset % (h * w) := Nat.sub_add_cancel (by omega)
  have hmatrix := hstep (h * w - offset % (h * w) - 1) (by omega)
    (by
      rw [hlast]
      exact Nat.dvd_sub (Nat.dvd_mul_left w h) ((Nat.dvd_mod_iff (Nat.dvd_mul_left w h)).mpr hrow))
    (by
      rw [hlast]
      exact fun hdvd => absurd (Nat.le_of_dvd (by omega) hdvd) (by omega))
  apply hmatrix.2
  rw [hlast]
  refine ⟨offset / (h * w) + 1, ?_⟩
  rw [Nat.mul_add, Nat.mul_one]
  omega

/-- When a tensor that starts at an offset is laid out as one that starts at zero. -/
theorem nzFlat_add_iff (hpos : 0 < lastSize) (hh : h % 16 = 0) (hmatrix : 0 < h * w) {n offset : ℕ} (hn : h * w ≤ n) :
    (∀ e < n, nzFlat lastSize h w (offset + e) = offset + nzFlat lastSize h w e) ↔
      offset = 0 ∨ lastSize ∣ w ∧ (h * w ∣ offset ∨ w = lastSize) := by
  have hw : 0 < w := Nat.pos_of_mul_pos_left hmatrix
  have hh0 : 0 < h := Nat.pos_of_mul_pos_right hmatrix
  have hwn : w ≤ n := (Nat.le_mul_of_pos_left w hh0).trans hn
  constructor
  · intro hshift
    rw [or_iff_not_imp_left]
    intro hoffset
    have hzero := hshift 0 (by omega)
    rcases Nat.lt_or_ge lastSize w with hlt | hle
    · -- Two columns of blocks: the offset is some matrices, and these take no more than their elements.
      have hdvd := dvd_of_nzFlat_add hpos (by omega) hlt hn hshift
      refine ⟨?_, .inl hdvd⟩
      rw [Nat.add_zero, nzFlat_of_dvd hdvd, nzFlat_of_dvd (Nat.dvd_zero _), Nat.zero_div, Nat.zero_mul,
        Nat.add_zero] at hzero
      obtain ⟨a, rfl⟩ := hdvd
      have ha : 0 < a := Nat.pos_of_ne_zero fun h0 => hoffset (by rw [h0, Nat.mul_zero])
      rw [Nat.mul_div_cancel_left a hmatrix, Nat.mul_comm (h * w) a, Nat.mul_right_inj ha.ne', nzColumn_eq hh,
        Nat.mul_left_comm, Nat.mul_right_inj hh0.ne'] at hzero
      exact ⟨_, (Nat.mul_comm _ _ ▸ hzero).symm⟩
    · have hfull : w = lastSize := by
        simp only [nzFlat_of_le hh hw hle] at hshift hzero
        have hsplit := Nat.div_add_mod offset w
        rcases Nat.eq_zero_or_pos (offset / w) with hfirst | hlater
        · -- Within the first row: look at the second one.
          have hlt : offset < w := Nat.lt_of_div_eq_zero hw hfirst
          have hrow := hshift (w - offset) (by omega)
          rw [Nat.add_sub_cancel' hlt.le, Nat.div_self hw, Nat.mod_self, Nat.div_eq_of_lt (by omega),
            Nat.mod_eq_of_lt (by omega)] at hrow
          omega
        · rw [Nat.add_zero, Nat.zero_div, Nat.zero_mod, Nat.zero_mul] at hzero
          have hrows : offset / w * lastSize = offset / w * w := by
            rw [Nat.mul_comm _ w]
            omega
          exact ((Nat.mul_right_inj hlater.ne').mp hrows).symm
      exact ⟨hfull ▸ dvd_rfl, .inr hfull⟩
  · rintro (rfl | ⟨hdvd, ⟨a, rfl⟩ | hfull⟩) e -
    · rw [Nat.zero_add, Nat.zero_add]
    · rw [nzFlat, nzFlat, Nat.mul_add_div hmatrix, Nat.mul_add_mod, Nat.add_mul, nzBlocks_eq_of_dvd hpos hh hdvd,
        Nat.add_assoc, Nat.mul_comm a]
    · rw [nzFlat_of_le hh hw hfull.le, nzFlat_of_le hh hw hfull.le, ← hfull, Nat.div_add_mod', Nat.div_add_mod']

end

end TorchNpu.Format
