/-
  When is the memory of a view in the format `FRACTAL_NZ` what the view would be stored as?

  The recognised views have consecutive elements in the row-major order of the base, but the memory is in the order of
  blocks.
-/
import TorchNpu.Contiguous.Spec.Broadcasting
import TorchNpu.Format.NzLayout
import TorchNpu.Format.Spec.FormatHelper

namespace TorchNpu.Contiguous

open Format Strided

/-- A storage holds the values of a tensor, given in row-major order. -/
def NzEncodes {α : Type} (lastSize : ℕ) (sizes : List ℕ) (storage values : ℕ → α) : Prop :=
  ∀ e < sizes.prod, storage (nzPlace lastSize sizes (coordinates sizes e)) = values e

theorem nzEncodes_iff {α : Type} {lastSize h w : ℕ} {lead : List ℕ} {storage values : ℕ → α} :
    NzEncodes lastSize (lead ++ [h, w]) storage values ↔
      ∀ e < (lead ++ [h, w]).prod, storage (nzFlat lastSize h w e) = values e := by
  unfold NzEncodes
  refine forall₂_congr fun e he => ?_
  rw [nzPlace_coordinates lastSize h w lead he]

/-- What is copied holds the values for all contents exactly if the places are the same. -/
theorem forall_storage_iff {α : Type} [Nontrivial α] {f : ℕ → ℕ} {n m offset : ℕ} (hle : offset + n ≤ m) :
    (∀ storage values : ℕ → α, (∀ x < m, storage (f x) = values x) →
      ∀ e < n, storage (offset + f e) = values (offset + e)) ↔ ∀ e < n, f (offset + e) = offset + f e := by
  constructor
  · intro h e he
    obtain ⟨a, b, hab⟩ := exists_pair_ne α
    -- Only the place of the element holds `a`.
    have hvalue := h (fun place => if place = f (offset + e) then a else b)
      (fun x => if f x = f (offset + e) then a else b) (fun x _ => rfl) e he
    by_contra hne
    simp only [if_neg (Ne.symm hne), if_true] at hvalue
    exact hab hvalue.symm
  · intro h storage values hencodes e he
    rw [← h e he]
    exact hencodes (offset + e) (by omega)

theorem exists_eq_append_sizeFromEnd {sizes : List ℕ} (h : 2 ≤ sizes.length) :
    ∃ lead, sizes = lead ++ [sizeFromEnd sizes 2, sizeFromEnd sizes 1] := by
  unfold sizeFromEnd
  rw [← List.length_reverse] at h
  match hreverse : sizes.reverse, h with
  | w :: h' :: lead, _ =>
    refine ⟨lead.reverse, ?_⟩
    rw [← List.reverse_reverse sizes, hreverse]
    simp

/-- What `check_reshape_match` has checked of a tensor in the format. -/
structure MatchesNz (desc : StoredTensorDesc) : Prop where
  contiguous : desc.view.isContiguous = true
  rank : 2 ≤ desc.sizes.length
  notPadded : desc.offset ≠ 0 → sizeFromEnd desc.sizes 1 % 16 = 0 ∧ sizeFromEnd desc.sizes 2 % 16 = 0
  columns : sizeFromEnd desc.sizes 1 = sizeFromEnd desc.baseSizes 1
  rows : sizeFromEnd desc.sizes 2 = sizeFromEnd desc.baseSizes 2

theorem matchesNz_of_checkReshapeMatch {desc : StoredTensorDesc} (hformat : desc.npuFormat = .fractalNz)
    (h : checkReshapeMatch desc = true) : MatchesNz desc := by
  have hbase : desc.npuFormat.isBaseFormatType = false := by
    rw [hformat]
    rfl
  unfold checkReshapeMatch canUseMemcpyForOtherFormat canUseMemecpyForNZFormat at h
  rw [hbase, hformat] at h
  simp only [Bool.not_false, if_true, Bool.if_false_left, Bool.decide_eq_true, Bool.and_eq_true, Bool.not_eq_true',
    decide_eq_false_iff_not, not_lt, Bool.or_eq_false_iff, not_not, Bool.and_true] at h
  obtain ⟨hcontiguous, hrank, hpadded, hcolumns, hrows⟩ := h
  refine ⟨(Bool.not_eq_false _).mp hcontiguous, hrank, fun hoffset => ?_, hcolumns, hrows⟩
  have hnot : ¬_ := fun hsize => hpadded ⟨hsize, decide_eq_true hoffset⟩
  simpa only [Bool.or_eq_true, decide_eq_true_eq, not_or, not_not] using hnot

/-- The bytes from the offset on are those that the view would be stored as, exactly if the view is empty, starts with
the base, or starts with a matrix whose columns of blocks are not filled up; with a single such column it may start
anywhere. -/
theorem nzEncodes_copy_iff {α : Type} [Nontrivial α] {desc : StoredTensorDesc} {itemsize : ℕ} (hvalid : desc.Valid)
    (hrank : 2 ≤ desc.baseSizes.length) (hformat : desc.npuFormat = .fractalNz)
    (hstorage : inferShapeNDToNZ desc.baseSizes itemsize = some desc.storageSizes)
    (h : checkReshapeMatch desc = true) :
    (∀ storage values : ℕ → α, NzEncodes (nzLastSize itemsize) desc.baseSizes storage values →
      NzEncodes (nzLastSize itemsize) desc.sizes (fun place => storage (desc.offset + place))
        fun e => values (desc.view.elements.getD e 0)) ↔
      desc.sizes.prod = 0 ∨ desc.offset = 0 ∨
        nzLastSize itemsize ∣ sizeFromEnd desc.sizes 1 ∧
          (sizeFromEnd desc.sizes 2 * sizeFromEnd desc.sizes 1 ∣ desc.offset ∨
            sizeFromEnd desc.sizes 1 = nzLastSize itemsize) := by
  have hmatches := matchesNz_of_checkReshapeMatch hformat h
  have hpos : 0 < nzLastSize itemsize := by
    apply nzLastSize_pos
    rintro rfl
    exact absurd hstorage (by simp [inferShapeNDToNZ])
  have helements : desc.view.elements = List.range' desc.offset desc.sizes.prod :=
    elements_of_isContiguous hvalid.lengths hmatches.contiguous
  rcases Nat.eq_zero_or_pos desc.sizes.prod with hempty | hsome
  · refine iff_of_true (fun storage values _ e he => ?_) (.inl hempty)
    rw [hempty] at he
    exact absurd he (Nat.not_lt_zero e)
  have hwithin : desc.offset + desc.sizes.prod ≤ desc.baseSizes.prod := by
    have hlast := hvalid.within (desc.offset + (desc.sizes.prod - 1)) (by
      rw [helements, List.mem_range'_1]
      omega)
    omega
  obtain ⟨lead, hlead⟩ := exists_eq_append_sizeFromEnd hmatches.rank
  obtain ⟨baseLead, hbaseLead⟩ := exists_eq_append_sizeFromEnd hrank
  have hnotPadded := hmatches.notPadded
  rw [← hmatches.rows, ← hmatches.columns] at hbaseLead
  generalize sizeFromEnd desc.sizes 2 = h', sizeFromEnd desc.sizes 1 = w at *
  have hprod : desc.sizes.prod = lead.prod * (h' * w) := by
    rw [hlead, List.prod_append, List.prod_cons, List.prod_singleton]
  have hplaces : (∀ storage values : ℕ → α, NzEncodes (nzLastSize itemsize) desc.baseSizes storage values →
      NzEncodes (nzLastSize itemsize) desc.sizes (fun place => storage (desc.offset + place))
        fun e => values (desc.view.elements.getD e 0)) ↔
      ∀ e < desc.sizes.prod, nzFlat (nzLastSize itemsize) h' w (desc.offset + e) =
        desc.offset + nzFlat (nzLastSize itemsize) h' w e := by
    rw [← forall_storage_iff (α := α) hwithin]
    refine forall₂_congr fun storage values => ?_
    rw [hbaseLead, hlead, nzEncodes_iff, nzEncodes_iff, ← hbaseLead, ← hlead]
    refine imp_congr_right fun _ => forall₂_congr fun e he => ?_
    have helement : desc.view.elements.getD e 0 = desc.offset + e := by
      rw [helements, List.getD_eq_getElem _ _ (by rw [List.length_range']; exact he), List.getElem_range', Nat.one_mul]
    rw [helement]
  rw [hplaces]
  by_cases hoffset : desc.offset = 0
  · refine iff_of_true (fun e _ => ?_) (.inr (.inl hoffset))
    rw [hoffset, Nat.zero_add, Nat.zero_add]
  · have hmatrix : 0 < h' * w := Nat.pos_of_mul_pos_left (hprod ▸ hsome)
    have hle : h' * w ≤ desc.sizes.prod := hprod ▸ Nat.le_mul_of_pos_left _ (Nat.pos_of_mul_pos_right (hprod ▸ hsome))
    rw [nzFlat_add_iff hpos (hnotPadded hoffset).2 hmatrix hle]
    exact (or_iff_right hsome.ne').symm

/-- The second of two matrices without padding. -/
theorem nzEncodes_copy_matrix :
    let desc : StoredTensorDesc :=
      { sizes := [1, 16, 16], strides := [256, 16, 1], offset := 256, baseSizes := [2, 16, 16],
        baseStrides := [256, 16, 1], npuFormat := .fractalNz, storageSizes := [2, 1, 1, 16, 16] }
    ∀ storage values : ℕ → ℕ, NzEncodes (nzLastSize 2) desc.baseSizes storage values →
      NzEncodes (nzLastSize 2) desc.sizes (fun place => storage (desc.offset + place))
        fun e => values (desc.view.elements.getD e 0) :=
  have hvalid : ContiguousTensorDesc.Valid
      { sizes := [1, 16, 16], strides := [256, 16, 1], offset := 256, baseSizes := [2, 16, 16],
        baseStrides := [256, 16, 1], npuFormat := .fractalNz } :=
    ⟨rfl, .inr rfl, by decide +kernel⟩
  (nzEncodes_copy_iff hvalid (by decide) rfl rfl (by decide +kernel)).mpr (by decide)

/-- A view of a matrix that starts in the middle of one. -/
theorem not_nzEncodes_copy :
    ¬∀ (desc : StoredTensorDesc) (itemsize : ℕ), desc.Valid → 2 ≤ desc.baseSizes.length →
      desc.npuFormat = .fractalNz → inferShapeNDToNZ desc.baseSizes itemsize = some desc.storageSizes →
        checkReshapeMatch desc = true →
          ∀ storage values : ℕ → ℕ, NzEncodes (nzLastSize itemsize) desc.baseSizes storage values →
            NzEncodes (nzLastSize itemsize) desc.sizes (fun place => storage (desc.offset + place))
              fun e => values (desc.view.elements.getD e 0) := by
  intro h
  have hvalid : ContiguousTensorDesc.Valid
      { sizes := [1, 32, 32], strides := [1024, 32, 1], offset := 512, baseSizes := [2, 32, 32],
        baseStrides := [1024, 32, 1], npuFormat := .fractalNz } :=
    ⟨rfl, .inr rfl, by decide +kernel⟩
  -- A storage whose values are its places.
  have hfirst := h
    { sizes := [1, 32, 32], strides := [1024, 32, 1], offset := 512, baseSizes := [2, 32, 32],
      baseStrides := [1024, 32, 1], npuFormat := .fractalNz, storageSizes := [2, 2, 2, 16, 16] } 2 hvalid (by decide) rfl
    rfl (by decide +kernel) id (fun e => nzPlace 16 [2, 32, 32] (coordinates [2, 32, 32] e)) (fun _ _ => rfl) 0
    (by decide)
  exact absurd hfirst (by decide +kernel)

end TorchNpu.Contiguous
