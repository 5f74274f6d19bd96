/-
  Do the operators for slices, selects and strided slices make the views they are used for?

  A view is what the operator makes of the base if both have the same sizes, the same offset and the same
  strides, up to the strides of dimensions of size one.  The offset is what goes wrong for a select, and the
  sizes are for a strided slice.
-/
import TorchNpu.Contiguous.Optimizers
import Mathlib.Data.List.GetD

namespace TorchNpu.Contiguous

open Strided

/-! ### Views of a contiguous base -/

namespace ContiguousTensorDesc

/-- The view has a stride for each size, the base is contiguous, and the view is inside of it.  The strides of a
base without elements are those of `torch` or those of `ComputeStrideFromShape`. -/
structure Valid (desc : ContiguousTensorDesc) : Prop where
  lengths : desc.strides.length = desc.sizes.length
  base : desc.baseStrides = contiguousStrides (desc.baseSizes.map (max 1)) ∨
    desc.baseStrides = contiguousStrides desc.baseSizes
  within : ∀ place ∈ desc.view.elements, place < desc.baseSizes.prod

variable {desc : ContiguousTensorDesc}

theorem Valid.baseLengths (h : desc.Valid) : desc.baseStrides.length = desc.baseSizes.length := by
  rcases h.base with hbase | hbase
  · rw [hbase, length_contiguousStrides, List.length_map]
  · rw [hbase, length_contiguousStrides]

theorem Valid.baseStrides_eq (h : desc.Valid) (hbase : desc.baseSizes.prod ≠ 0) :
    desc.baseStrides = contiguousStrides desc.baseSizes := by
  rcases h.base with hmax | hcontiguous
  · have hsame : desc.baseSizes.map (max 1) = desc.baseSizes := by
      refine (List.map_congr_left fun n hn => ?_).trans (List.map_id _)
      have hpos := prod_ne_zero_iff.mp hbase n hn
      show max 1 n = n
      omega
    rw [hmax, hsame]
  · exact hcontiguous

theorem Valid.offset_lt (h : desc.Valid) (hsizes : desc.sizes.prod ≠ 0) : desc.offset < desc.baseSizes.prod := by
  apply h.within
  unfold View.elements view
  rw [positions_eq_places h.lengths]
  apply List.mem_of_mem_head?
  rw [places_head? fun dim hdim => prod_ne_zero_iff.mp hsizes dim.1 (List.of_mem_zip hdim).1]
  exact rfl

end ContiguousTensorDesc

/-! ### `SliceContiguousOpt` -/

theorem shift_divideOffset (offset : ℕ) (strides : List ℕ) :
    (List.zipWith (· * ·) (divideOffset offset strides).1 strides).sum + (divideOffset offset strides).2 = offset := by
  induction strides generalizing offset with
  | nil => exact Nat.zero_add _
  | cons stride strides ih =>
    rw [divideOffset]
    simp only [List.zipWith_cons_cons, List.sum_cons]
    have hrest := ih (offset % stride)
    have hoffset := Nat.div_add_mod' offset stride
    omega

theorem length_divideOffset (offset : ℕ) (strides : List ℕ) :
    (divideOffset offset strides).1.length = strides.length := by
  induction strides generalizing offset with
  | nil => rfl
  | cons stride strides ih =>
    rw [divideOffset]
    exact congrArg (· + 1) (ih (offset % stride))

theorem positions_append_one {sizes strides : List ℕ} (hlength : strides.length = sizes.length) (stride offset : ℕ) :
    positions (sizes ++ [1]) (strides ++ [stride]) offset = positions sizes strides offset := by
  induction sizes generalizing strides offset with
  | nil =>
    obtain rfl := List.length_eq_zero_iff.mp hlength
    simp [positions]
  | cons n sizes ih =>
    obtain ⟨first, strides, rfl⟩ := List.exists_cons_of_length_eq_add_one hlength
    simp only [List.cons_append, positions, ih (Nat.succ_inj.mp hlength)]

theorem elements_sliceDims {desc : ContiguousTensorDesc} (hlength : desc.strides.length = desc.sizes.length)
    (offset : ℕ) :
    positions (sliceDims desc).1 (sliceDims desc).2 offset = positions desc.sizes desc.strides offset := by
  unfold sliceDims
  split
  · exact positions_append_one hlength 1 offset
  · rfl

/-- A recognised slice lies in the base, and the operator makes the view. -/
theorem slice_sound {desc : ContiguousTensorDesc} (hvalid : desc.Valid) {offsets size : List ℕ}
    (h : canUseSlice desc = some (offsets, size)) :
    (offsets.length = desc.baseSizes.length ∧ size.length = desc.baseSizes.length ∧
        ∀ k < desc.baseSizes.length, offsets.getD k 0 + size.getD k 0 ≤ desc.baseSizes.getD k 0) ∧
      (sliceToContiguous desc offsets size).elements = desc.view.elements := by
  unfold canUseSlice at h
  simp only [Option.ite_none_left_eq_some, Option.some.injEq, Prod.mk.injEq] at h
  obtain ⟨hstrides, hsizes, -, -, hrest, hbounds, rfl, rfl⟩ := h
  rw [not_not] at hstrides hsizes hrest
  have hshift := shift_divideOffset desc.offset (sliceDims desc).2
  refine ⟨⟨?_, hsizes, ?_⟩, ?_⟩
  · rw [length_divideOffset, hstrides, hvalid.baseLengths]
  · intro k hk
    rw [Bool.not_eq_true, List.any_eq_false] at hbounds
    have hbound := hbounds k (List.mem_range.mpr (hsizes ▸ hk))
    simp only [Bool.or_eq_true, decide_eq_true_eq, not_or, not_lt] at hbound
    exact hbound.1
  · rw [sliceToContiguous, View.elements, View.elements]
    show positions (sliceDims desc).1 desc.baseStrides
      (0 + (List.zipWith (· * ·) (divideOffset desc.offset (sliceDims desc).2).1 desc.baseStrides).sum) =
        positions desc.sizes desc.strides desc.offset
    rw [← hstrides, Nat.zero_add, ← elements_sliceDims hvalid.lengths]
    congr 1
    omega

/-- `narrow` in the first dimension. -/
theorem slice_sound_narrow :
    let desc : ContiguousTensorDesc :=
      { sizes := [2, 3], strides := [3, 1], offset := 3, baseSizes := [4, 3], baseStrides := [3, 1] }
    (([1, 0].length = 2 ∧ [2, 3].length = 2 ∧ ∀ k < 2, [1, 0].getD k 0 + [2, 3].getD k 0 ≤ [4, 3].getD k 0) ∧
      (sliceToContiguous desc [1, 0] [2, 3]).elements = desc.view.elements) :=
  have hvalid : ContiguousTensorDesc.Valid
      { sizes := [2, 3], strides := [3, 1], offset := 3, baseSizes := [4, 3], baseStrides := [3, 1] } :=
    ⟨rfl, .inr rfl, by decide⟩
  slice_sound hvalid (by decide)

/-! ### `IndexingContiguousOpt` -/

theorem divideOffset_contiguousStrides (sizes : List ℕ) (offset : ℕ) :
    (divideOffset offset (contiguousStrides sizes)).1 = coordinates sizes offset := by
  induction sizes generalizing offset with
  | nil => rfl
  | cons n sizes ih =>
    rw [contiguousStrides, divideOffset, coordinates]
    exact congrArg _ (ih _)

theorem divideOffset_rest_eq_zero {sizes : List ℕ} {offset : ℕ} (h : offset < sizes.prod) :
    (divideOffset offset (contiguousStrides sizes)).2 = 0 := by
  induction sizes generalizing offset with
  | nil =>
    rw [List.prod_nil, Nat.lt_one_iff] at h
    exact h
  | cons n sizes ih =>
    rw [contiguousStrides, divideOffset]
    apply ih
    apply Nat.mod_lt
    rw [List.prod_cons] at h
    exact Nat.pos_of_ne_zero fun hzero => by simp [hzero] at h

theorem getD_zipWith_min (l l' : List ℕ) (k : ℕ) :
    (List.zipWith min l l').getD k 0 = min (l.getD k 0) (l'.getD k 0) := by
  simp only [List.getD_eq_getElem?_getD, List.getElem?_zipWith]
  cases l[k]? <;> cases l'[k]? <;> simp

/-- What a strided slice keeps of a dimension. -/
theorem stridedSize_eq_iff {start size step base : ℕ} (hstep : step ≠ 0) :
    (min (start + size * step) base - min start base + (step - 1)) / step = size ↔
      size = 0 ∨ start + (size - 1) * step < base := by
  rw [Nat.div_eq_iff (Nat.pos_of_ne_zero hstep)]
  cases size with
  | zero => omega
  | succ size =>
    rw [Nat.add_sub_cancel, Nat.succ_mul]
    generalize size * step = last
    omega

/-- What `can_use_indexing` has checked, and what it has inferred. -/
structure InfersIndexing (desc : ContiguousTensorDesc) (start stop step : List ℕ) : Prop where
  base_ne_zero : desc.baseSizes.prod ≠ 0
  sizes_length : desc.sizes.length = desc.baseSizes.length
  strides_length : desc.strides.length = desc.baseStrides.length
  start_eq : start = (divideOffset desc.offset desc.baseStrides).1
  step_length : step.length = desc.sizes.length
  step_ne_zero : ∀ k < desc.sizes.length, step.getD k 0 ≠ 0
  step_eq : ∀ k < desc.sizes.length, step.getD k 0 = desc.strides.getD k 0 / desc.baseStrides.getD k 0
  stride_eq : ∀ k < desc.sizes.length, desc.strides.getD k 0 = step.getD k 0 * desc.baseStrides.getD k 0
  stop_eq : ∀ k < desc.sizes.length, stop.getD k 0 = start.getD k 0 + desc.sizes.getD k 0 * step.getD k 0

theorem infersIndexing_of_canUseIndexing {desc : ContiguousTensorDesc} (hvalid : desc.Valid) {start stop step : List ℕ}
    (h : canUseIndexing desc = some (start, stop, step)) : InfersIndexing desc start stop step := by
  unfold canUseIndexing at h
  simp only [Option.ite_none_left_eq_some, Option.some.injEq, Prod.mk.injEq] at h
  obtain ⟨hprod, hsizes, hstrides, hmultiple, -, -, -, -, rfl, rfl, rfl⟩ := h
  rw [not_not] at hsizes hstrides
  have hget (f : ℕ → ℕ) {k : ℕ} (hk : k < desc.sizes.length) :
      ((List.range desc.sizes.length).map f).getD k 0 = f k := by
    rw [List.getD_eq_getElem _ _ (by simpa using hk), List.getElem_map, List.getElem_range]
  have hcheck {k : ℕ} (hk : k < desc.sizes.length) : desc.baseStrides.getD k 0 ≠ 0 ∧
      desc.baseStrides.getD k 0 ≤ desc.strides.getD k 0 ∧
      desc.strides.getD k 0 % desc.baseStrides.getD k 0 = 0 := by
    rw [Bool.not_eq_true, List.any_eq_false] at hmultiple
    have hmultiple := hmultiple k (List.mem_range.mpr hk)
    simp only [Bool.or_eq_true, decide_eq_true_eq, not_or, not_lt, not_not, ne_eq] at hmultiple
    exact ⟨hmultiple.1.1, hmultiple.1.2, hmultiple.2⟩
  constructor
  case base_ne_zero => omega
  case sizes_length => exact hsizes
  case strides_length => exact hstrides
  case start_eq =>
    have hlength : (divideOffset desc.offset desc.baseStrides).1.length = desc.sizes.length := by
      rw [length_divideOffset, hvalid.baseLengths, hsizes]
    refine List.ext_getElem (by rw [hlength, List.length_map, List.length_range]) fun k hk hk' => ?_
    rw [List.getElem_map, List.getElem_range, List.getD_eq_getElem _ 0 hk']
  case step_length => rw [List.length_map, List.length_range]
  case step_ne_zero =>
    intro k hk
    rw [hget _ hk]
    obtain ⟨hbase, hle, -⟩ := hcheck hk
    exact Nat.pos_iff_ne_zero.mp (Nat.div_pos hle (Nat.pos_of_ne_zero hbase))
  case step_eq =>
    intro k hk
    exact hget _ hk
  case stride_eq =>
    intro k hk
    rw [hget _ hk]
    exact (Nat.div_mul_cancel (Nat.dvd_of_mod_eq_zero (hcheck hk).2.2)).symm
  case stop_eq =>
    intro k hk
    rw [hget _ hk, hget _ hk, hget _ hk]

section

variable {desc : ContiguousTensorDesc} {start stop step : List ℕ}

/-- In no dimension, the strided slice has to pass the end of the base. -/
def Fits (desc : ContiguousTensorDesc) (start step : List ℕ) : Prop :=
  ∀ k < desc.sizes.length, desc.sizes.getD k 0 = 0 ∨
    start.getD k 0 + (desc.sizes.getD k 0 - 1) * step.getD k 0 < desc.baseSizes.getD k 0

theorem indexing_sizes_iff (hinfers : InfersIndexing desc start stop step) :
    (indexingToContiguous desc start stop step).sizes = desc.sizes ↔ Fits desc start step := by
  have hsize (k : ℕ) (hk : k < desc.sizes.length) :
      ((min (stop.getD k 0) (desc.baseSizes.getD k 0) - min (start.getD k 0) (desc.baseSizes.getD k 0) +
          (step.getD k 0 - 1)) / step.getD k 0 = desc.sizes.getD k 0) ↔
        desc.sizes.getD k 0 = 0 ∨
          start.getD k 0 + (desc.sizes.getD k 0 - 1) * step.getD k 0 < desc.baseSizes.getD k 0 := by
    rw [hinfers.stop_eq k hk]
    exact stridedSize_eq_iff (hinfers.step_ne_zero k hk)
  unfold indexingToContiguous View.stridedSlice ContiguousTensorDesc.base
  rw [← hinfers.sizes_length, List.ext_getElem_iff]
  simp only [List.length_map, List.length_range, List.getElem_map, List.getElem_range, true_and, getD_zipWith_min]
  refine forall_congr' fun k => ⟨fun heq hk => ?_, fun hfit hk _ => ?_⟩
  · apply (hsize k hk).mp
    rw [heq hk hk, List.getD_eq_getElem]
  · rw [(hsize k hk).mpr (hfit hk), List.getD_eq_getElem]

theorem indexing_strides_eq (hvalid : desc.Valid) (hinfers : InfersIndexing desc start stop step) :
    (indexingToContiguous desc start stop step).strides = desc.strides := by
  unfold indexingToContiguous View.stridedSlice ContiguousTensorDesc.base
  refine List.ext_getElem ?_ fun k hk hk' => ?_
  · rw [List.length_zipWith, hinfers.step_length, ← hinfers.strides_length, hvalid.lengths, min_self]
  · rw [← List.getD_eq_getElem desc.strides 0 hk', hinfers.stride_eq k (hvalid.lengths ▸ hk'), List.getElem_zipWith,
      List.getD_eq_getElem, List.getD_eq_getElem]

/-- No start is cut down if the view has elements. -/
theorem indexing_offset_eq (hvalid : desc.Valid) (hinfers : InfersIndexing desc start stop step)
    (hfits : Fits desc start step) (hsizes : desc.sizes.prod ≠ 0) :
    (indexingToContiguous desc start stop step).offset = desc.offset := by
  have hlength : start.length = desc.sizes.length := by
    rw [hinfers.start_eq, length_divideOffset, hvalid.baseLengths, hinfers.sizes_length]
  have hclamped : List.zipWith min start desc.baseSizes = start := by
    refine List.ext_getElem ?_ fun k hk hk' => ?_
    · rw [List.length_zipWith, hlength, ← hinfers.sizes_length, min_self]
    · have hne : desc.sizes.getD k 0 ≠ 0 := by
        rw [List.getD_eq_getElem _ 0 (hlength ▸ hk')]
        exact prod_ne_zero_iff.mp hsizes _ (List.getElem_mem _)
      have hfit := hfits k (hlength ▸ hk')
      rw [← List.getD_eq_getElem _ 0 hk, ← List.getD_eq_getElem _ 0 hk', getD_zipWith_min]
      omega
  have hbase := hvalid.baseStrides_eq hinfers.base_ne_zero
  have hshift := shift_divideOffset desc.offset desc.baseStrides
  rw [hbase, divideOffset_rest_eq_zero (hvalid.offset_lt hsizes), ← hbase, ← hinfers.start_eq, Nat.add_zero] at hshift
  show 0 + (List.zipWith (· * ·) (List.zipWith min start desc.baseSizes) desc.baseStrides).sum = desc.offset
  rw [hclamped, hshift, Nat.zero_add]

/-- The strided slice makes a recognised view exactly if the last index that the view reads of a dimension, counted
from the coordinate of the offset, is inside of the base.  `can_use_indexing` lets one index too many pass. -/
theorem indexing_sound_iff (hvalid : desc.Valid) (h : canUseIndexing desc = some (start, stop, step)) :
    ((indexingToContiguous desc start stop step).sizes = desc.sizes ∧
        (indexingToContiguous desc start stop step).elements = desc.view.elements) ↔
      ∀ k < desc.sizes.length, desc.sizes.getD k 0 = 0 ∨
        (coordinates desc.baseSizes desc.offset).getD k 0 +
            (desc.sizes.getD k 0 - 1) * (desc.strides.getD k 0 / desc.baseStrides.getD k 0) <
          desc.baseSizes.getD k 0 := by
  have hinfers := infersIndexing_of_canUseIndexing hvalid h
  have hcondition : Fits desc start step ↔ ∀ k < desc.sizes.length, desc.sizes.getD k 0 = 0 ∨
      (coordinates desc.baseSizes desc.offset).getD k 0 +
          (desc.sizes.getD k 0 - 1) * (desc.strides.getD k 0 / desc.baseStrides.getD k 0) <
        desc.baseSizes.getD k 0 := by
    refine forall₂_congr fun k hk => ?_
    rw [hinfers.step_eq k hk, hinfers.start_eq, hvalid.baseStrides_eq hinfers.base_ne_zero,
      divideOffset_contiguousStrides]
  rw [← hcondition, ← indexing_sizes_iff hinfers]
  refine and_iff_left_of_imp fun hsizes => ?_
  rw [View.elements, View.elements, hsizes, indexing_strides_eq hvalid hinfers]
  by_cases hempty : desc.sizes.prod = 0
  · apply (List.length_eq_zero_iff.mp ((length_positions hvalid.lengths _).trans hempty)).trans
    exact (List.length_eq_zero_iff.mp ((length_positions hvalid.lengths _).trans hempty)).symm
  · rw [indexing_offset_eq hvalid hinfers ((indexing_sizes_iff hinfers).mp hsizes) hempty]
    exact rfl

/-- Every other row of a matrix. -/
theorem indexing_sound_iff_rows :
    let desc : ContiguousTensorDesc :=
      { sizes := [2, 3], strides := [6, 1], offset := 0, baseSizes := [4, 3], baseStrides := [3, 1] }
    ((indexingToContiguous desc [0, 0] [4, 3] [2, 1]).sizes = desc.sizes ∧
        (indexingToContiguous desc [0, 0] [4, 3] [2, 1]).elements = desc.view.elements) ↔
      ∀ k < 2, desc.sizes.getD k 0 = 0 ∨
        (coordinates [4, 3] 0).getD k 0 + (desc.sizes.getD k 0 - 1) * (desc.strides.getD k 0 / [3, 1].getD k 0) <
          [4, 3].getD k 0 :=
  have hvalid : ContiguousTensorDesc.Valid
      { sizes := [2, 3], strides := [6, 1], offset := 0, baseSizes := [4, 3], baseStrides := [3, 1] } :=
    ⟨rfl, .inr rfl, by decide⟩
  indexing_sound_iff hvalid (by decide)

/-- `x.view(20, 3)[::2][:8].view(2, 4, 3)[:, :3]` of a base of sizes 5, 4 and 3: the rows 0, 2 and 4 of a matrix that
has four rows. -/
theorem not_indexing_sound :
    ¬∀ (desc : ContiguousTensorDesc) (start stop step : List ℕ), desc.Valid →
      canUseIndexing desc = some (start, stop, step) →
        (indexingToContiguous desc start stop step).sizes = desc.sizes ∧
          (indexingToContiguous desc start stop step).elements = desc.view.elements := by
  intro hsound
  have h := hsound
    { sizes := [2, 3, 3], strides := [24, 6, 1], offset := 0, baseSizes := [5, 4, 3], baseStrides := [12, 3, 1] }
    [0, 0, 0] [4, 6, 3] [2, 2, 1] ⟨rfl, .inr rfl, by decide⟩ (by decide)
  revert h
  decide

end

/-! ### `SelectContiguousOpt` -/

/-- A view that is recognised lacks a dimension of the base. -/
theorem eraseIdx_selectDim {behind : ℕ × ℕ} {bases dims : List (ℕ × ℕ)} (hlength : bases.length = dims.length + 1)
    (h : bases = (recoverDims bases dims ++ [behind]).take bases.length) :
    selectDim bases dims < bases.length ∧ dims = bases.eraseIdx (selectDim bases dims) := by
  induction dims generalizing bases with
  | nil =>
    obtain ⟨base, rfl⟩ := List.length_eq_one_iff.mp hlength
    exact ⟨Nat.one_pos, rfl⟩
  | cons dim dims ih =>
    obtain ⟨base, bases, rfl⟩ := List.exists_cons_of_length_eq_add_one hlength
    rw [List.length_cons, List.length_cons, Nat.add_right_cancel_iff] at hlength
    unfold recoverDims at h
    unfold selectDim
    split_ifs at h ⊢ with hdim
    · rw [List.length_cons, hlength, List.take_append_of_le_length (by simp), List.take_of_length_le (by simp),
        List.cons.injEq] at h
      rw [List.eraseIdx_cons_zero]
      exact ⟨Nat.succ_pos _, h.2.symm⟩
    · rw [List.length_cons, List.cons_append, List.take_succ_cons, List.cons.injEq] at h
      obtain ⟨hlt, herase⟩ := ih hlength h.2
      rw [List.eraseIdx_cons_succ, ← herase, ← not_not.mp hdim]
      exact ⟨Nat.succ_lt_succ hlt, rfl⟩

/-- What `can_use_select` has checked, and what it has inferred. -/
structure InfersSelect (desc : ContiguousTensorDesc) (start length : List ℕ) (dim : ℕ) : Prop where
  dim_lt : dim < desc.baseSizes.length
  sizes_eq : desc.sizes = desc.baseSizes.eraseIdx dim
  strides_eq : desc.strides = desc.baseStrides.eraseIdx dim
  stride_ne_zero : desc.baseStrides.getD dim 0 ≠ 0
  start_eq : start = (List.replicate desc.baseSizes.length 0).set dim (desc.offset / desc.baseStrides.getD dim 0)
  length_eq : length = desc.baseSizes.set dim 1

theorem infersSelect_of_canUseSelect {desc : ContiguousTensorDesc} (hvalid : desc.Valid) {behind : ℕ × ℕ}
    {start length : List ℕ} (h : canUseSelect behind desc = some (start, length)) :
    ∃ dim, InfersSelect desc start length dim := by
  unfold canUseSelect at h
  simp only [Option.ite_none_left_eq_some, Option.some.injEq, Prod.mk.injEq] at h
  obtain ⟨hlengths, hrecover, hstride, rfl, rfl⟩ := h
  rw [not_or, not_not, not_not] at hlengths
  have hbase : (desc.baseSizes.zip desc.baseStrides).length = desc.baseSizes.length := by
    rw [List.length_zip, hvalid.baseLengths, min_self]
  have hselect : (desc.sizes.zip desc.strides).length = desc.sizes.length := by
    rw [List.length_zip, hvalid.lengths, min_self]
  obtain ⟨hlt, herase⟩ := eraseIdx_selectDim (by rw [hbase, hselect, hlengths.1]) (not_not.mp hrecover)
  rw [hbase] at hlt ⊢
  generalize selectDim (desc.baseSizes.zip desc.baseStrides) (desc.sizes.zip desc.strides) = dim at hstride hlt herase ⊢
  refine ⟨dim, hlt, ?_, ?_, hstride, ?_, ?_⟩
  · have hfst := congrArg (List.map Prod.fst) herase
    rw [List.map_fst_zip hvalid.lengths.ge, ← List.eraseIdx_map, List.map_fst_zip hvalid.baseLengths.ge] at hfst
    exact hfst
  · have hsnd := congrArg (List.map Prod.snd) herase
    rw [List.map_snd_zip hvalid.lengths.le, ← List.eraseIdx_map, List.map_snd_zip hvalid.baseLengths.le] at hsnd
    exact hsnd
  · refine List.ext_getElem (by simp) fun k hk hk' => ?_
    simp [List.getElem_set, eq_comm]
  · refine List.ext_getElem (by simp) fun k hk hk' => ?_
    rw [List.length_set] at hk'
    simp [List.getElem_set, eq_comm, hk']

theorem keep_replicate_false (l : List ℕ) : View.keep (List.replicate l.length false) l = l := by
  induction l with
  | nil => rfl
  | cons n l ih =>
    rw [List.length_cons, List.replicate_succ, View.keep, ih]

theorem keep_set_true {l : List ℕ} {k : ℕ} (hk : k < l.length) :
    View.keep ((List.replicate l.length false).set k true) l = l.eraseIdx k := by
  induction l generalizing k with
  | nil => exact absurd hk (Nat.not_lt_zero k)
  | cons n l ih =>
    rw [List.length_cons, List.replicate_succ]
    cases k with
    | zero => rw [List.set_cons_zero, View.keep, keep_replicate_false, List.eraseIdx_cons_zero]
    | succ k => rw [List.set_cons_succ, View.keep, ih (Nat.succ_lt_succ_iff.mp hk), List.eraseIdx_cons_succ]

theorem sum_zipWith_set {strides : List ℕ} {k : ℕ} (hk : k < strides.length) (n : ℕ) :
    (List.zipWith (· * ·) ((List.replicate strides.length 0).set k n) strides).sum = n * strides.getD k 0 := by
  have hzero (strides : List ℕ) :
      (List.zipWith (· * ·) (List.replicate strides.length 0) strides).sum = 0 := by
    induction strides with
    | nil => rfl
    | cons stride strides ih => simpa [List.replicate_succ] using ih
  induction strides generalizing k with
  | nil => exact absurd hk (Nat.not_lt_zero k)
  | cons stride strides ih =>
    rw [List.length_cons, List.replicate_succ]
    cases k with
    | zero => simp [hzero]
    | succ k =>
      rw [List.set_cons_succ, List.zipWith_cons_cons, List.sum_cons, Nat.zero_mul, Nat.zero_add,
        ih (Nat.succ_lt_succ_iff.mp hk), List.getD_cons_succ]

section

variable {desc : ContiguousTensorDesc} {start length : List ℕ} {dim : ℕ}

/-- The strided slice of a select, before the selected dimension is dropped. -/
theorem select_stridedSlice (hvalid : desc.Valid) (hinfers : InfersSelect desc start length dim) :
    let index := desc.offset / desc.baseStrides.getD dim 0
    let size := desc.baseSizes.getD dim 0
    desc.base.stridedSlice start (List.zipWith (· + ·) start length) (start.map fun _ => 1) =
      { sizes := desc.baseSizes.set dim (min (index + 1) size - min index size)
        strides := desc.baseStrides
        offset := min index size * desc.baseStrides.getD dim 0 } := by
  intro index size
  have hstart : List.zipWith min start desc.baseSizes =
      (List.replicate desc.baseSizes.length 0).set dim (min index size) := by
    rw [hinfers.start_eq]
    refine List.ext_getElem (by simp) fun k hk hk' => ?_
    rw [List.getElem_zipWith, List.getElem_set, List.getElem_set]
    by_cases hdim : dim = k
    · rw [if_pos hdim, if_pos hdim, ← List.getD_eq_getElem _ 0, ← hdim]
    · rw [if_neg hdim, if_neg hdim, List.getElem_replicate, Nat.zero_min]
  have hsize (k : ℕ) (hk : k < desc.baseSizes.length) :
      ((List.zipWith min (List.zipWith (· + ·) start length) desc.baseSizes).getD k 0 -
          (List.zipWith min start desc.baseSizes).getD k 0 + ((start.map fun _ => 1).getD k 0 - 1)) /
        (start.map fun _ => 1).getD k 0 =
      (desc.baseSizes.set dim (min (index + 1) size - min index size)).getD k 0 := by
    have hone : (start.map fun _ => 1).getD k 0 = 1 := by
      simp [hinfers.start_eq, List.getD_eq_getElem?_getD, hk]
    rw [hone, hstart, getD_zipWith_min, hinfers.start_eq, hinfers.length_eq]
    simp only [List.getD_eq_getElem?_getD, List.getElem?_zipWith, List.getElem?_set, List.length_replicate,
      List.getElem?_replicate, if_pos hk, List.getElem?_eq_getElem hk, Nat.sub_self, Nat.div_one, Nat.add_zero]
    by_cases hdim : dim = k
    · subst hdim
      simp [index, size, List.getD_eq_getElem?_getD, hk]
    · simp [hdim]
  unfold View.stridedSlice ContiguousTensorDesc.base View.shift
  rw [View.mk.injEq]
  refine ⟨?_, ?_, ?_⟩
  · refine List.ext_getElem (by simp) fun k hk hk' => ?_
    rw [List.getElem_map, List.getElem_range, hsize k (by simpa using hk), List.getD_eq_getElem]
  · refine List.ext_getElem ?_ fun k hk hk' => ?_
    · simp [hinfers.start_eq, hvalid.baseLengths]
    · rw [List.getElem_zipWith, List.getElem_map, Nat.one_mul]
  · rw [hstart, ← hvalid.baseLengths, sum_zipWith_set (hvalid.baseLengths ▸ hinfers.dim_lt), Nat.zero_add]

theorem select_shrinkMask (hinfers : InfersSelect desc start length dim) :
    List.zipWith (fun length size => decide (length = 1) && decide (size ≠ 1)) length desc.baseSizes =
      (List.replicate desc.baseSizes.length false).set dim (decide (desc.baseSizes.getD dim 0 ≠ 1)) := by
  rw [hinfers.length_eq]
  refine List.ext_getElem (by simp) fun k hk hk' => ?_
  rw [List.getElem_zipWith, List.getElem_set, List.getElem_set]
  by_cases hdim : dim = k
  · subst hdim
    rw [if_pos rfl, if_pos rfl, List.getD_eq_getElem _ 0 hinfers.dim_lt]
    simp
  · rw [if_neg hdim, if_neg hdim, List.getElem_replicate, decide_not, Bool.and_not_self]

/-- The index that is selected lies in the dimension. -/
theorem select_index_lt (hvalid : desc.Valid) (hinfers : InfersSelect desc start length dim)
    (hsizes : desc.sizes.prod ≠ 0) :
    desc.offset / desc.baseStrides.getD dim 0 < desc.baseSizes.getD dim 0 := by
  have hoffset := hvalid.offset_lt hsizes
  have hbase : desc.baseSizes.prod ≠ 0 := Nat.ne_of_gt (Nat.zero_lt_of_lt hoffset)
  have hzip : desc.sizes.zip desc.strides = (desc.baseSizes.zip desc.baseStrides).eraseIdx dim := by
    rw [hinfers.sizes_eq, hinfers.strides_eq, zip_eraseIdx]
  have hdim : dim < (desc.baseSizes.zip desc.baseStrides).length := by
    rw [List.length_zip, hvalid.baseLengths, min_self]
    exact hinfers.dim_lt
  -- The last element of the view is an element of the base.
  have hlast : desc.offset + reach (desc.sizes.zip desc.strides) < desc.baseSizes.prod := by
    apply hvalid.within
    unfold View.elements ContiguousTensorDesc.view
    rw [positions_eq_places hvalid.lengths]
    exact reach_mem_places (fun dim hdim => prod_ne_zero_iff.mp hsizes dim.1 (List.of_mem_zip hdim).1) _
  have hreach := reach_eraseIdx hdim
  have hprod := reach_contiguous (prod_ne_zero_iff.mp hbase)
  rw [← hvalid.baseStrides_eq hbase, hreach, ← hzip, List.getElem_zip] at hprod
  have hlt := hinfers.dim_lt
  have hlt' : dim < desc.baseStrides.length := hvalid.baseLengths ▸ hlt
  rw [List.getD_eq_getElem _ 0 hlt, List.getD_eq_getElem _ 0 hlt']
  have hpos := prod_ne_zero_iff.mp hbase _ (List.getElem_mem hinfers.dim_lt)
  apply Nat.lt_of_le_sub_one (Nat.pos_of_ne_zero hpos)
  apply Nat.div_le_of_le_mul
  rw [Nat.mul_comm]
  generalize (desc.baseSizes[dim] - 1) * desc.baseStrides[dim] = last at hprod ⊢
  omega

/-- The selected dimension is dropped if the base has more than one index of it, or none. -/
theorem select_shrink (hvalid : desc.Valid) (hinfers : InfersSelect desc start length dim) (size offset : ℕ) :
    ({ sizes := desc.baseSizes.set dim size, strides := desc.baseStrides, offset } : View).shrink
        ((List.replicate desc.baseSizes.length false).set dim (decide (desc.baseSizes.getD dim 0 ≠ 1))) =
      if desc.baseSizes.getD dim 0 = 1 then
        { sizes := desc.baseSizes.set dim size, strides := desc.baseStrides, offset }
      else { sizes := desc.sizes, strides := desc.strides, offset } := by
  have hlength : (desc.baseSizes.set dim size).length = desc.baseSizes.length := List.length_set
  unfold View.shrink
  split_ifs with hone
  · have hmask : (List.replicate desc.baseSizes.length false).set dim (decide (desc.baseSizes.getD dim 0 ≠ 1)) =
        List.replicate desc.baseSizes.length false := by
      rw [decide_eq_false (not_not.mpr hone)]
      exact List.ext_getElem (by simp) fun k hk hk' => by simp
    have hkeep := keep_replicate_false (desc.baseSizes.set dim size)
    have hkeep' := keep_replicate_false desc.baseStrides
    rw [hlength] at hkeep
    rw [hvalid.baseLengths] at hkeep'
    rw [hmask, hkeep, hkeep']
  · have hkeep := keep_set_true (hlength ▸ hinfers.dim_lt)
    have hkeep' := keep_set_true (l := desc.baseStrides) (hvalid.baseLengths ▸ hinfers.dim_lt)
    rw [hlength, List.eraseIdx_set_eq] at hkeep
    rw [hvalid.baseLengths] at hkeep'
    rw [decide_eq_true hone, hkeep, hkeep', ← hinfers.sizes_eq, ← hinfers.strides_eq]

/-- What the operator makes of a view with elements, at the offset that is a multiple of the stride. -/
theorem selectToContiguous_eq (hvalid : desc.Valid) (hinfers : InfersSelect desc start length dim)
    (hsizes : desc.sizes.prod ≠ 0) :
    let offset := desc.offset / desc.baseStrides.getD dim 0 * desc.baseStrides.getD dim 0
    selectToContiguous desc start length =
      if desc.baseSizes.getD dim 0 = 1 then
        { sizes := desc.baseSizes.set dim 1, strides := desc.baseStrides, offset }
      else { sizes := desc.sizes, strides := desc.strides, offset } := by
  have hindex := select_index_lt hvalid hinfers hsizes
  unfold selectToContiguous
  rw [select_stridedSlice hvalid hinfers, select_shrinkMask hinfers, select_shrink hvalid hinfers,
    Nat.min_eq_left hindex.le, Nat.min_eq_left hindex, Nat.succ_sub (Nat.le_refl _), Nat.sub_self]

theorem filter_set_one {sizes : List ℕ} {k : ℕ} (hk : k < sizes.length) :
    (sizes.set k 1).filter (· ≠ 1) = (sizes.eraseIdx k).filter (· ≠ 1) := by
  induction sizes generalizing k with
  | nil => exact absurd hk (Nat.not_lt_zero k)
  | cons n sizes ih =>
    cases k with
    | zero => rfl
    | succ k =>
      rw [List.set_cons_succ, List.eraseIdx_cons_succ, List.filter_cons, List.filter_cons,
        ih (Nat.succ_lt_succ_iff.mp hk)]

theorem select_sizes (hvalid : desc.Valid) (hinfers : InfersSelect desc start length dim)
    (hsizes : desc.sizes.prod ≠ 0) :
    (selectToContiguous desc start length).sizes.filter (· ≠ 1) = desc.sizes.filter (· ≠ 1) := by
  rw [selectToContiguous_eq hvalid hinfers hsizes]
  split_ifs
  · show (desc.baseSizes.set dim 1).filter (· ≠ 1) = _
    rw [filter_set_one hinfers.dim_lt, hinfers.sizes_eq]
  · rfl

theorem select_elements (hvalid : desc.Valid) (hinfers : InfersSelect desc start length dim)
    (hsizes : desc.sizes.prod ≠ 0) :
    (selectToContiguous desc start length).elements =
      positions desc.sizes desc.strides
        (desc.offset / desc.baseStrides.getD dim 0 * desc.baseStrides.getD dim 0) := by
  rw [selectToContiguous_eq hvalid hinfers hsizes]
  generalize desc.offset / desc.baseStrides.getD dim 0 * desc.baseStrides.getD dim 0 = offset
  split_ifs with hone
  · have hdims : (desc.baseSizes.set dim 1).zip desc.baseStrides =
        (desc.baseSizes.zip desc.baseStrides).set dim (1, desc.baseStrides.getD dim 0) := by
      refine List.ext_getElem (by simp) fun k hk hk' => ?_
      rw [List.getElem_zip, List.getElem_set, List.getElem_set]
      by_cases hdim : dim = k
      · subst hdim
        rw [if_pos rfl, if_pos rfl, List.getD_eq_getElem]
      · rw [if_neg hdim, if_neg hdim, List.getElem_zip]
    show positions (desc.baseSizes.set dim 1) desc.baseStrides offset = _
    rw [positions_eq_places (by rw [List.length_set, hvalid.baseLengths]), hdims, places_set_one,
      positions_eq_places hvalid.lengths, hinfers.sizes_eq, hinfers.strides_eq, zip_eraseIdx]
    rw [List.length_zip, hvalid.baseLengths, min_self]
    exact hinfers.dim_lt
  · rfl

theorem select_elements_eq_nil (hvalid : desc.Valid) (hinfers : InfersSelect desc start length dim)
    (hsizes : desc.sizes.prod = 0) : (selectToContiguous desc start length).elements = [] := by
  unfold selectToContiguous
  rw [select_stridedSlice hvalid hinfers, select_shrinkMask hinfers, select_shrink hvalid hinfers,
    ← List.length_eq_zero_iff]
  split_ifs with hone
  · unfold View.elements
    rw [length_positions (by rw [List.length_set, hvalid.baseLengths]),
      ← List.CommMonoid.mul_prod_eraseIdx (i := dim) (by rw [List.length_set]; exact hinfers.dim_lt),
      List.eraseIdx_set_eq, ← hinfers.sizes_eq, hsizes, Nat.mul_zero]
  · unfold View.elements
    rw [length_positions hvalid.lengths, hsizes]

/-- The dimension that a view lacks is determined, up to another one that is the same. -/
theorem stride_eq_of_eraseIdx_eq {sizes strides : List ℕ} (hlength : strides.length = sizes.length) {k k' : ℕ}
    (hk : k < sizes.length) (hk' : k' < sizes.length) (hstrides : strides.eraseIdx k = strides.eraseIdx k') :
    strides.getD k 0 = strides.getD k' 0 := by
  have hperm := List.getElem_cons_eraseIdx_perm (l := strides) (hlength ▸ hk)
  have hperm' := List.getElem_cons_eraseIdx_perm (l := strides) (hlength ▸ hk')
  rw [hstrides] at hperm
  have hsame := hperm.trans hperm'.symm
  rw [List.getD_eq_getElem _ 0 (hlength ▸ hk), List.getD_eq_getElem _ 0 (hlength ▸ hk')]
  have hsum := hsame.sum_nat
  rw [List.sum_cons, List.sum_cons] at hsum
  omega

/-- A recognised select makes the view, up to dimensions of size one, exactly if the offset is a multiple of the stride
of the dimension that the view lacks.  `can_use_select` does not look at the rest of the division. -/
theorem select_sound_iff (hvalid : desc.Valid) {behind : ℕ × ℕ} (h : canUseSelect behind desc = some (start, length)) :
    ((desc.sizes.prod ≠ 0 →
          (selectToContiguous desc start length).sizes.filter (· ≠ 1) = desc.sizes.filter (· ≠ 1)) ∧
        (selectToContiguous desc start length).elements = desc.view.elements) ↔
      desc.sizes.prod = 0 ∨ ∃ dim < desc.baseSizes.length, desc.sizes = desc.baseSizes.eraseIdx dim ∧
        desc.strides = desc.baseStrides.eraseIdx dim ∧ desc.baseStrides.getD dim 0 ∣ desc.offset := by
  obtain ⟨dim, hinfers⟩ := infersSelect_of_canUseSelect hvalid h
  rw [and_iff_right fun hsizes => select_sizes hvalid hinfers hsizes]
  by_cases hsizes : desc.sizes.prod = 0
  · have hview : desc.view.elements = [] :=
      List.length_eq_zero_iff.mp ((length_positions hvalid.lengths _).trans hsizes)
    rw [select_elements_eq_nil hvalid hinfers hsizes, hview]
    exact iff_of_true rfl (.inl hsizes)
  rw [select_elements hvalid hinfers hsizes, View.elements, ContiguousTensorDesc.view,
    positions_eq_places hvalid.lengths, positions_eq_places hvalid.lengths]
  have hdims : ∀ dim ∈ desc.sizes.zip desc.strides, dim.1 ≠ 0 := fun dim hdim =>
    prod_ne_zero_iff.mp hsizes dim.1 (List.of_mem_zip hdim).1
  constructor
  · intro heq
    have hhead := congrArg List.head? heq
    rw [places_head? hdims, places_head? hdims, Option.some.injEq] at hhead
    exact .inr ⟨dim, hinfers.dim_lt, hinfers.sizes_eq, hinfers.strides_eq, Dvd.intro_left _ hhead⟩
  · rintro (hempty | ⟨dim', hdim', -, hstrides, hdvd⟩)
    · exact absurd hempty hsizes
    · rw [← stride_eq_of_eraseIdx_eq hvalid.baseLengths hinfers.dim_lt hdim' (hinfers.strides_eq.symm.trans hstrides)]
        at hdvd
      rw [Nat.div_mul_cancel hdvd]

/-- `x.select(0, 2)` of a matrix. -/
theorem select_sound_iff_row :
    let desc : ContiguousTensorDesc :=
      { sizes := [4], strides := [1], offset := 8, baseSizes := [3, 4], baseStrides := [4, 1] }
    (([4].prod ≠ 0 → (selectToContiguous desc [2, 0] [1, 4]).sizes.filter (· ≠ 1) = [4].filter (· ≠ 1)) ∧
        (selectToContiguous desc [2, 0] [1, 4]).elements = desc.view.elements) ↔
      [4].prod = 0 ∨ ∃ dim < 2, [4] = [3, 4].eraseIdx dim ∧ [1] = [4, 1].eraseIdx dim ∧ [4, 1].getD dim 0 ∣ 8 :=
  have hvalid : ContiguousTensorDesc.Valid
      { sizes := [4], strides := [1], offset := 8, baseSizes := [3, 4], baseStrides := [4, 1] } :=
    ⟨rfl, .inr rfl, by decide⟩
  have haccepts : canUseSelect (0, 0)
      { sizes := [4], strides := [1], offset := 8, baseSizes := [3, 4], baseStrides := [4, 1] } =
        some ([2, 0], [1, 4]) := by
    decide
  select_sound_iff hvalid haccepts

/-- `x.view(-1)[2:6]` of a matrix of three rows and four columns: the first row is made instead. -/
theorem not_select_sound :
    ¬∀ (behind : ℕ × ℕ) (desc : ContiguousTensorDesc) (start length : List ℕ), desc.Valid →
      canUseSelect behind desc = some (start, length) →
        (selectToContiguous desc start length).elements = desc.view.elements := by
  intro hsound
  have h := hsound (0, 0)
    { sizes := [4], strides := [1], offset := 2, baseSizes := [3, 4], baseStrides := [4, 1] }
    [0, 0] [1, 4] ⟨rfl, .inr rfl, by decide⟩ (by decide)
  revert h
  decide

end

end TorchNpu.Contiguous
