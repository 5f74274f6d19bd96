/-
  Does a transpose of the base make the views that `can_use_permute` recognises?

  The axes of a view are sorted, and the strides are compared with those of a contiguous tensor.  The stride that is
  expected is kept in an `int`, so that a wrong one is accepted where this has run over.  Such a view reads
  elements more than once; a view that does not is made.
-/
import TorchNpu.Contiguous.Spec.Slicing

namespace TorchNpu.Contiguous

open Strided

/-! ### The order of the axes -/

theorem swapAxes_perm (dims : List PermuteDim) (i j : ℕ) : (swapAxes dims i j).Perm dims := by
  unfold swapAxes
  split
  case h_1 a b hi hj =>
    obtain ⟨hi', rfl⟩ := List.getElem?_eq_some_iff.mp hi
    obtain ⟨hj', rfl⟩ := List.getElem?_eq_some_iff.mp hj
    split_ifs
    · exact List.set_set_perm hi' hj'
    · exact List.Perm.refl _
  case h_2 => exact List.Perm.refl _

/-- The axes are only reordered. -/
theorem reorderAxes_perm (dims : List PermuteDim) : (reorderAxes dims).Perm dims := by
  unfold reorderAxes
  refine List.foldlRecOn (motive := fun reordered : List PermuteDim => reordered.Perm dims) _ _ (List.Perm.refl _) ?_
  intro reordered h i _
  refine List.foldlRecOn (motive := fun reordered : List PermuteDim => reordered.Perm dims) _ _ h ?_
  intro reordered h j _
  exact (swapAxes_perm reordered i j).trans h

/-! ### The inverse of the order -/

theorem length_invertIndexes (indexes : List ℕ) : (invertIndexes indexes).length = indexes.length := by
  unfold invertIndexes
  refine List.foldlRecOn (motive := fun perm : List ℕ => perm.length = indexes.length) _ _ rfl ?_
  intro perm h i _
  rw [List.length_set, h]

/-- `invertIndexes` inverts the order that the axes have been brought into. -/
theorem getD_invertIndexes {indexes : List ℕ} (h : indexes.Perm (List.range indexes.length)) {i : ℕ}
    (hi : i < indexes.length) : (invertIndexes indexes).getD (indexes.getD i 0) 0 = i := by
  have hinj : ∀ j < indexes.length, ∀ k < indexes.length, indexes.getD j 0 = indexes.getD k 0 → j = k := by
    intro j hj k hk heq
    rw [List.getD_eq_getElem _ _ hj, List.getD_eq_getElem _ _ hk] at heq
    exact (List.Nodup.getElem_inj_iff (h.nodup_iff.mpr List.nodup_range)).mp heq
  have hlt : ∀ j < indexes.length, indexes.getD j 0 < indexes.length := by
    intro j hj
    rw [List.getD_eq_getElem _ _ hj]
    exact List.mem_range.mp (h.subset (List.getElem_mem hj))
  -- After some rounds, the entries of the first axes have been written.
  have hrounds (rounds : ℕ) (hle : rounds ≤ indexes.length) :
      ((List.range rounds).foldl (fun perm i => perm.set (indexes.getD i 0) i) indexes).length = indexes.length ∧
        ∀ j < rounds,
          ((List.range rounds).foldl (fun perm i => perm.set (indexes.getD i 0) i) indexes).getD
            (indexes.getD j 0) 0 = j := by
    induction rounds with
    | zero => exact ⟨rfl, nofun⟩
    | succ rounds ih =>
      obtain ⟨hlength, hwritten⟩ := ih (Nat.le_of_succ_le hle)
      rw [List.range_succ, List.foldl_append, List.foldl_cons, List.foldl_nil]
      refine ⟨by rw [List.length_set, hlength], fun j hj => ?_⟩
      rw [List.getD_eq_getElem?_getD, List.getElem?_set]
      by_cases hlast : j = rounds
      · subst hlast
        rw [if_pos rfl, if_pos (hlength ▸ hlt j hle), Option.getD_some]
      · rw [if_neg, ← List.getD_eq_getElem?_getD]
        · exact hwritten j (by omega)
        · intro heq
          exact hlast (hinj rounds hle j (by omega) heq).symm
  exact (hrounds indexes.length (Nat.le_refl _)).2 i hi

/-- The inverse of a permutation is one. -/
theorem invertIndexes_perm {indexes : List ℕ} (h : indexes.Perm (List.range indexes.length)) :
    (invertIndexes indexes).Perm (List.range indexes.length) := by
  have hinverse (k : ℕ) (hk : k < indexes.length) : ∃ i, ∃ hi : i < indexes.length, indexes[i] = k :=
    List.getElem_of_mem (h.symm.subset (List.mem_range.mpr hk))
  have hsubset : List.range indexes.length ⊆ invertIndexes indexes := by
    intro i hi
    have hi := List.mem_range.mp hi
    have hget := getD_invertIndexes h hi
    have hlt : indexes.getD i 0 < (invertIndexes indexes).length := by
      rw [length_invertIndexes, List.getD_eq_getElem _ _ hi]
      exact List.mem_range.mp (h.subset (List.getElem_mem hi))
    rw [List.getD_eq_getElem _ _ hlt] at hget
    exact hget ▸ List.getElem_mem hlt
  refine ((List.subperm_of_subset List.nodup_range hsubset).perm_of_length_le ?_).symm
  rw [length_invertIndexes, List.length_range]

/-! ### The strides -/

/-- The sizes and strides of axes. -/
def axes (dims : List PermuteDim) : List (ℕ × ℕ) :=
  (dims.map PermuteDim.size).zip (dims.map PermuteDim.stride)

theorem currentStride_eq {dims : List PermuteDim} {stride : ℤ} (h : currentStride dims = some stride) :
    stride = ((dims.map PermuteDim.size).prod : ℤ).bmod (2 ^ 32) := by
  induction dims generalizing stride with
  | nil => exact (Option.some.inj h).symm
  | cons dim dims ih =>
    unfold currentStride at h
    obtain ⟨stride', hrest, h⟩ := Option.bind_eq_some_iff.mp h
    obtain ⟨-, h⟩ := Option.ite_none_left_eq_some.mp h
    rw [← Option.some.inj h, ih hrest, Int.bmod_mul_bmod, List.map_cons, List.prod_cons, Int.mul_comm, Int.natCast_mul]

/-- An `int` is not greater than the number that it stands for. -/
theorem bmod_le_self {n m : ℕ} : (n : ℤ).bmod m ≤ n := by
  rw [Int.bmod_def]
  have hmod : (n : ℤ) % m ≤ n := by exact_mod_cast Nat.mod_le n m
  split_ifs <;> omega

/-- Axes whose strides were accepted are those of a contiguous tensor if no element is read twice. -/
theorem agree_of_nodup {dims : List PermuteDim} {stride : ℤ} (h : currentStride dims = some stride)
    (hsizes : (dims.map PermuteDim.size).prod ≠ 0) (hnodup : (places (axes dims) 0).Nodup) :
    Agree (axes dims) ((dims.map PermuteDim.size).zip (contiguousStrides (dims.map PermuteDim.size))) := by
  induction dims generalizing stride with
  | nil => exact .nil
  | cons dim dims ih =>
    unfold currentStride at h
    obtain ⟨stride', hrest, h⟩ := Option.bind_eq_some_iff.mp h
    have hstride := not_not.mp (Option.ite_none_left_eq_some.mp h).1
    rw [List.map_cons, List.prod_cons] at hsizes
    obtain ⟨hdim, hpos⟩ := Nat.mul_ne_zero_iff.mp hsizes
    unfold axes at hnodup ⊢
    rw [List.map_cons, List.map_cons, List.zip_cons_cons, places, List.nodup_flatMap] at hnodup
    rw [List.map_cons, List.map_cons, List.zip_cons_cons, contiguousStrides, List.zip_cons_cons]
    have hfirst := hnodup.1 0 (List.mem_range.mpr (Nat.pos_of_ne_zero hdim))
    rw [Nat.zero_mul] at hfirst
    have hagree := ih hrest hpos hfirst
    refine .cons (fun hone => ?_) hagree
    -- The elements at the first two indexes: they overlap if the stride is too small.
    have hrange (offset : ℕ) : places (axes dims) offset = List.range' offset (dims.map PermuteDim.size).prod := by
      rw [hagree.places_eq, ← positions_eq_places (length_contiguousStrides _), positions_contiguousStrides]
    have htwo : 1 < dim.size := by omega
    have hdisjoint := List.pairwise_iff_getElem.mp hnodup.2 0 1 (by simp; omega) (by simpa using htwo) Nat.one_pos
    simp only [List.getElem_range, Function.onFun] at hdisjoint
    have hdisjoint : (places (axes dims) (0 + 0 * dim.stride)).Disjoint (places (axes dims) (0 + 1 * dim.stride)) :=
      hdisjoint
    rw [hrange, hrange, Nat.zero_mul, Nat.one_mul, Nat.zero_add, Nat.zero_add] at hdisjoint
    have hle : (dims.map PermuteDim.size).prod ≤ dim.stride := by
      by_contra hlt
      apply hdisjoint (a := dim.stride)
      · rw [List.mem_range'_1]
        omega
      · rw [List.mem_range'_1]
        omega
    have hge := bmod_le_self (n := (dims.map PermuteDim.size).prod) (m := 2 ^ 32)
    rw [← currentStride_eq hrest, hstride] at hge
    omega

/-! ### `PermuteContiguousOpt` -/

/-- The axes of a view, as they are numbered before they are reordered. -/
def viewAxes (desc : ContiguousTensorDesc) : List PermuteDim :=
  (List.range desc.sizes.length).map fun i =>
    { stride := desc.strides.getD i 0, size := desc.sizes.getD i 0, index := i }

/-- What `can_use_permute` has checked, and what it has inferred. -/
structure InfersPermute (desc : ContiguousTensorDesc) (perm sizes : List ℕ) (dims : List PermuteDim) : Prop where
  count_eq : desc.sizes.prod = desc.baseSizes.prod
  dims_perm : dims.Perm (viewAxes desc)
  strides_accepted : ∃ stride, currentStride dims = some stride
  perm_eq : perm = invertIndexes (dims.map PermuteDim.index)
  sizes_eq : sizes = dims.map PermuteDim.size

section

variable {desc : ContiguousTensorDesc} {perm sizes : List ℕ} {dims : List PermuteDim}

theorem infersPermute_of_canUsePermute (h : canUsePermute desc = some (perm, sizes)) :
    ∃ dims, InfersPermute desc perm sizes dims := by
  unfold canUsePermute at h
  simp only [Option.ite_none_left_eq_some, Option.some.injEq, Prod.mk.injEq] at h
  obtain ⟨hcount, hstrides, -, rfl, rfl⟩ := h
  rw [Option.isNone_iff_eq_none, ← Ne, Option.ne_none_iff_exists'] at hstrides
  exact ⟨_, not_not.mp hcount, reorderAxes_perm _, hstrides, rfl, rfl⟩

theorem map_size_viewAxes (desc : ContiguousTensorDesc) : (viewAxes desc).map PermuteDim.size = desc.sizes := by
  refine List.ext_getElem (by simp [viewAxes]) fun k hk hk' => ?_
  simp [viewAxes, hk']

theorem map_stride_viewAxes (hlength : desc.strides.length = desc.sizes.length) :
    (viewAxes desc).map PermuteDim.stride = desc.strides := by
  refine List.ext_getElem (by simp [viewAxes, hlength]) fun k hk hk' => ?_
  simp [viewAxes, hk']

theorem map_index_viewAxes (desc : ContiguousTensorDesc) :
    (viewAxes desc).map PermuteDim.index = List.range desc.sizes.length := by
  refine List.ext_getElem (by simp [viewAxes]) fun k hk hk' => ?_
  simp [viewAxes]

namespace InfersPermute

theorem length_eq (h : InfersPermute desc perm sizes dims) : dims.length = desc.sizes.length := by
  rw [h.dims_perm.length_eq, viewAxes, List.length_map, List.length_range]

theorem prod_eq (h : InfersPermute desc perm sizes dims) : sizes.prod = desc.sizes.prod := by
  rw [h.sizes_eq, (h.dims_perm.map PermuteDim.size).prod_eq, map_size_viewAxes]

theorem indexes_perm (h : InfersPermute desc perm sizes dims) :
    (dims.map PermuteDim.index).Perm (List.range (dims.map PermuteDim.index).length) := by
  rw [List.length_map, h.length_eq, ← map_index_viewAxes]
  exact h.dims_perm.map PermuteDim.index

theorem perm_perm (h : InfersPermute desc perm sizes dims) : perm.Perm (List.range desc.sizes.length) := by
  have hperm := invertIndexes_perm h.indexes_perm
  rw [List.length_map, h.length_eq] at hperm
  rw [h.perm_eq]
  exact hperm

/-- The axis that `perm` leads to is the one of the view. -/
theorem dims_getD (h : InfersPermute desc perm sizes dims) {j : ℕ} (hj : j < desc.sizes.length) :
    perm.getD j 0 < dims.length ∧
      dims[perm.getD j 0]? = some { stride := desc.strides.getD j 0, size := desc.sizes.getD j 0, index := j } := by
  have hmem : j ∈ dims.map PermuteDim.index :=
    h.indexes_perm.symm.subset (by rw [List.length_map, h.length_eq]; exact List.mem_range.mpr hj)
  obtain ⟨i, hi, hindex⟩ := List.getElem_of_mem hmem
  rw [List.length_map] at hi
  rw [List.getElem_map] at hindex
  have hperm : perm.getD j 0 = i := by
    have hinverse := getD_invertIndexes h.indexes_perm (by rw [List.length_map]; exact hi)
    rw [List.getD_eq_getElem (dims.map PermuteDim.index) _ (by rw [List.length_map]; exact hi), List.getElem_map,
      hindex] at hinverse
    rw [h.perm_eq]
    exact hinverse
  rw [hperm, List.getElem?_eq_getElem hi]
  refine ⟨hi, congrArg some ?_⟩
  obtain ⟨k, -, hdim⟩ := List.mem_map.mp (h.dims_perm.subset (List.getElem_mem hi))
  rw [← hdim] at hindex ⊢
  obtain rfl : k = j := hindex
  rfl

/-- The axis of the transposed tensor. -/
theorem getD_sizes (h : InfersPermute desc perm sizes dims) {j : ℕ} (hj : j < desc.sizes.length) :
    sizes.getD (perm.getD j 0) 0 = desc.sizes.getD j 0 := by
  rw [h.sizes_eq, List.getD_eq_getElem?_getD, List.getElem?_map, (h.dims_getD hj).2]
  rfl

theorem perm_length (h : InfersPermute desc perm sizes dims) : perm.length = desc.sizes.length := by
  rw [h.perm_perm.length_eq, List.length_range]

theorem sizes_length (h : InfersPermute desc perm sizes dims) : sizes.length = desc.sizes.length := by
  rw [h.sizes_eq, List.length_map, h.length_eq]

theorem transposed_sizes (h : InfersPermute desc perm sizes dims) :
    (permuteToContiguous perm sizes).sizes = desc.sizes := by
  unfold permuteToContiguous View.transpose
  refine List.ext_getElem (by rw [List.length_map, h.perm_length]) fun j hj hj' => ?_
  have hget := h.getD_sizes hj'
  rw [List.getD_eq_getElem perm 0 (h.perm_length ▸ hj'), List.getD_eq_getElem desc.sizes 0 hj'] at hget
  rw [List.getElem_map]
  exact hget

/-- The transposed tensor reads each element of the base once. -/
theorem transposed_nodup (h : InfersPermute desc perm sizes dims) :
    (permuteToContiguous perm sizes).elements.Nodup := by
  have hzip (perm : List ℕ) (strides : List ℕ) : (perm.map fun i => sizes.getD i 0).zip
      (perm.map fun i => strides.getD i 0) = perm.map fun i => (sizes.getD i 0, strides.getD i 0) := by
    rw [List.zip_map', List.map_inj_left]
    exact fun _ _ => rfl
  unfold permuteToContiguous View.transpose View.elements
  rw [positions_eq_places (by rw [List.length_map, List.length_map]), hzip]
  have hperm := h.perm_perm.map fun i => (sizes.getD i 0, (contiguousStrides sizes).getD i 0)
  rw [(places_perm hperm 0).nodup_iff]
  have hrange : (List.range desc.sizes.length).map (fun i => (sizes.getD i 0, (contiguousStrides sizes).getD i 0)) =
      sizes.zip (contiguousStrides sizes) := by
    refine List.ext_getElem (by simp [h.sizes_length, length_contiguousStrides]) fun k hk hk' => ?_
    rw [List.length_zip, length_contiguousStrides, min_self] at hk'
    have hk'' : k < (contiguousStrides sizes).length := by rw [length_contiguousStrides]; exact hk'
    rw [List.getElem_map, List.getElem_range, List.getElem_zip, List.getD_eq_getElem _ _ hk',
      List.getD_eq_getElem _ _ hk'']
  rw [hrange, ← positions_eq_places (length_contiguousStrides _), positions_contiguousStrides]
  exact List.nodup_range'

theorem axes_perm (h : InfersPermute desc perm sizes dims) (hvalid : desc.Valid) :
    (axes dims).Perm (desc.sizes.zip desc.strides) := by
  have hzip (dims : List PermuteDim) : axes dims = dims.map fun dim => (dim.size, dim.stride) := by
    rw [axes, List.zip_map']
  rw [← map_size_viewAxes desc, ← map_stride_viewAxes hvalid.lengths, ← axes, hzip, hzip]
  exact h.dims_perm.map _

/-- If no element is read twice, the reordered view is the base. -/
theorem agree (h : InfersPermute desc perm sizes dims) (hvalid : desc.Valid) (hsizes : desc.sizes.prod ≠ 0)
    (hnodup : desc.view.elements.Nodup) : Agree (axes dims) (sizes.zip (contiguousStrides sizes)) := by
  obtain ⟨stride, haccepted⟩ := h.strides_accepted
  rw [h.sizes_eq]
  apply agree_of_nodup haccepted
  · rw [← h.sizes_eq, h.prod_eq]
    exact hsizes
  · rw [(places_perm (h.axes_perm hvalid) 0).nodup_iff]
    rw [View.elements, ContiguousTensorDesc.view, positions_eq_places hvalid.lengths, ← Nat.add_zero desc.offset,
      places_add] at hnodup
    exact hnodup.of_map _

theorem offset_eq_zero (h : InfersPermute desc perm sizes dims) (hvalid : desc.Valid) (hsizes : desc.sizes.prod ≠ 0)
    (hnodup : desc.view.elements.Nodup) : desc.offset = 0 := by
  have hlast : desc.offset + (sizes.prod - 1) ∈ desc.view.elements := by
    rw [View.elements, ContiguousTensorDesc.view, positions_eq_places hvalid.lengths]
    rw [← (places_perm (h.axes_perm hvalid) desc.offset).mem_iff, (h.agree hvalid hsizes hnodup).places_eq,
      ← positions_eq_places (length_contiguousStrides _), positions_contiguousStrides, List.mem_range'_1, h.prod_eq]
    omega
  have hlt := hvalid.within _ hlast
  rw [← h.count_eq, h.prod_eq] at hlt
  omega

theorem transposed_agree (h : InfersPermute desc perm sizes dims) (hvalid : desc.Valid) (hsizes : desc.sizes.prod ≠ 0)
    (hnodup : desc.view.elements.Nodup) :
    Agree (desc.sizes.zip desc.strides) (desc.sizes.zip (permuteToContiguous perm sizes).strides) := by
  have hagree := h.agree hvalid hsizes hnodup
  rw [axes, ← h.sizes_eq, agree_zip_iff (by rw [List.length_map, h.length_eq, h.sizes_length])
    (length_contiguousStrides _)] at hagree
  have hlength : (permuteToContiguous perm sizes).strides.length = desc.sizes.length := by
    show (perm.map _).length = _
    rw [List.length_map, h.perm_length]
  rw [agree_zip_iff hvalid.lengths hlength]
  intro j hj hone
  obtain ⟨hlt, hdim⟩ := h.dims_getD hj
  have hstride := hagree (perm.getD j 0) (by rw [h.sizes_length, ← h.length_eq]; exact hlt)
    (by rw [h.getD_sizes hj]; exact hone)
  rw [List.getD_eq_getElem?_getD, List.getElem?_map, hdim] at hstride
  refine Eq.trans hstride ?_
  show _ = (perm.map fun i => (contiguousStrides sizes).getD i 0).getD j 0
  have hj' : j < perm.length := h.perm_length ▸ hj
  rw [List.getD_eq_getElem (perm.map _) _ (by rw [List.length_map]; exact hj'), List.getElem_map,
    List.getD_eq_getElem perm _ hj']

end InfersPermute

/-- A transpose of the base makes a recognised view exactly if the view reads no element twice. -/
theorem permute_sound_iff (hvalid : desc.Valid) (h : canUsePermute desc = some (perm, sizes)) :
    (perm.Perm (List.range desc.sizes.length) ∧ sizes.prod = desc.baseSizes.prod ∧
        (permuteToContiguous perm sizes).sizes = desc.sizes ∧
        (permuteToContiguous perm sizes).elements = desc.view.elements) ↔
      desc.view.elements.Nodup := by
  obtain ⟨dims, hinfers⟩ := infersPermute_of_canUsePermute h
  constructor
  · rintro ⟨-, -, -, helements⟩
    rw [← helements]
    exact hinfers.transposed_nodup
  · intro hnodup
    refine ⟨hinfers.perm_perm, hinfers.prod_eq.trans hinfers.count_eq, hinfers.transposed_sizes, ?_⟩
    have hlength : (permuteToContiguous perm sizes).strides.length = desc.sizes.length := by
      show (perm.map _).length = _
      rw [List.length_map, hinfers.perm_length]
    unfold View.elements
    rw [hinfers.transposed_sizes]
    show positions desc.sizes _ _ = positions desc.sizes desc.strides desc.offset
    by_cases hsizes : desc.sizes.prod = 0
    · apply (List.length_eq_zero_iff.mp ((length_positions hlength _).trans hsizes)).trans
      exact (List.length_eq_zero_iff.mp ((length_positions hvalid.lengths _).trans hsizes)).symm
    · rw [positions_eq_places hlength, positions_eq_places hvalid.lengths,
        (hinfers.transposed_agree hvalid hsizes hnodup).places_eq, hinfers.offset_eq_zero hvalid hsizes hnodup]
      rfl

/-- A transposed matrix. -/
theorem permute_sound_iff_transposed :
    let desc : ContiguousTensorDesc :=
      { sizes := [3, 2], strides := [1, 3], offset := 0, baseSizes := [2, 3], baseStrides := [3, 1] }
    ([1, 0].Perm (List.range 2) ∧ [2, 3].prod = [2, 3].prod ∧ (permuteToContiguous [1, 0] [2, 3]).sizes = [3, 2] ∧
        (permuteToContiguous [1, 0] [2, 3]).elements = desc.view.elements) ↔
      desc.view.elements.Nodup :=
  have hvalid : ContiguousTensorDesc.Valid
      { sizes := [3, 2], strides := [1, 3], offset := 0, baseSizes := [2, 3], baseStrides := [3, 1] } :=
    ⟨rfl, .inr rfl, by decide⟩
  permute_sound_iff hvalid (by decide)

/-- `x.as_strided((2, 2 ** 32 + 2), (2, 1))` of a base of `2 ** 33 + 4` elements: the expected stride of the second
dimension, `2 ** 32 + 2`, is 2 in an `int`. -/
theorem not_permute_sound :
    ¬∀ (desc : ContiguousTensorDesc) (perm sizes : List ℕ), desc.Valid → canUsePermute desc = some (perm, sizes) →
      perm.Perm (List.range desc.sizes.length) ∧ sizes.prod = desc.baseSizes.prod ∧
        (permuteToContiguous perm sizes).sizes = desc.sizes ∧
        (permuteToContiguous perm sizes).elements = desc.view.elements := by
  intro hsound
  obtain ⟨-, -, -, helements⟩ := hsound
    { sizes := [2, 2 ^ 32 + 2], strides := [2, 1], offset := 0, baseSizes := [2 ^ 33 + 4], baseStrides := [1] }
    [0, 1] [2, 2 ^ 32 + 2]
    (by
      refine ⟨rfl, .inr rfl, fun place hplace => ?_⟩
      have hle : place ≤ 0 + reach [(2, 2), (2 ^ 32 + 2, 1)] := le_reach_of_mem_places hplace
      simp only [reach, List.map_cons, List.map_nil, List.sum_cons, List.sum_nil] at hle
      show place < [2 ^ 33 + 4].prod
      rw [List.prod_singleton]
      omega)
    (by decide +kernel)
  have helements : places [(2, 2 ^ 32 + 2), (2 ^ 32 + 2, 1)] 0 = places [(2, 2), (2 ^ 32 + 2, 1)] 0 := helements
  obtain ⟨-, hagree⟩ := agree_of_places_eq (.cons (.cons .nil)) (by decide) helements
  cases hagree with
  | cons hstride => exact absurd (hstride (by decide)) (by decide)

end

end TorchNpu.Contiguous
