/-
  Does the operator for expanded tensors make the views it is used for?

  Wherever a recognised view has a stride of zero, the base has size one or no dimension at all, so that the inferred
  source is the base with some dimensions of size one in front of it.
-/
import TorchNpu.Contiguous.Spec.Slicing

namespace TorchNpu.Contiguous

open Strided

/-! ### Contiguous tensors -/

theorem isDenseIn_append (dims dims' : List (ℕ × ℕ)) (expected : ℕ) :
    Distributed.Tensor.isDenseIn (dims ++ dims') expected =
      (Distributed.Tensor.isDenseIn dims expected &&
        Distributed.Tensor.isDenseIn dims' (expected * (dims.map Prod.fst).prod)) := by
  induction dims generalizing expected with
  | nil => rw [List.nil_append, List.map_nil, List.prod_nil, Nat.mul_one, Distributed.Tensor.isDenseIn, Bool.true_and]
  | cons dim dims ih =>
    obtain ⟨n, stride⟩ := dim
    rw [List.cons_append, Distributed.Tensor.isDenseIn, Distributed.Tensor.isDenseIn, List.map_cons, List.prod_cons]
    split_ifs with hn
    · rw [ih, hn, Nat.one_mul]
    · rw [ih, Bool.and_assoc, Nat.mul_assoc]

/-- The strides of a contiguous tensor are accepted, whatever they are where a size is one, and no others. -/
theorem isDenseIn_iff_agree {sizes strides : List ℕ} (hlength : strides.length = sizes.length) :
    Distributed.Tensor.isDenseIn (sizes.zip strides).reverse 1 = true ↔
      Agree (sizes.zip strides) (sizes.zip (contiguousStrides sizes)) := by
  induction sizes generalizing strides with
  | nil => exact iff_of_true rfl .nil
  | cons n sizes ih =>
    obtain ⟨stride, strides, rfl⟩ := List.exists_cons_of_length_eq_add_one hlength
    have hlength := Nat.succ_inj.mp hlength
    have hfirst : Distributed.Tensor.isDenseIn [(n, stride)] sizes.prod = true ↔ (n ≠ 1 → stride = sizes.prod) := by
      rw [Distributed.Tensor.isDenseIn]
      split_ifs with hn
      · exact iff_of_true rfl fun hne => absurd hn hne
      · rw [Distributed.Tensor.isDenseIn, Bool.and_true, decide_eq_true_eq]
        exact ⟨fun h _ => h, fun h => h hn⟩
    rw [contiguousStrides, List.zip_cons_cons, List.zip_cons_cons, List.reverse_cons, isDenseIn_append,
      List.map_reverse, List.prod_reverse, List.map_fst_zip hlength.ge, Nat.one_mul, Bool.and_eq_true, ih hlength,
      hfirst]
    constructor
    · rintro ⟨hrest, hstride⟩
      exact .cons hstride hrest
    · intro h
      cases h with
      | cons hstride hrest => exact ⟨hrest, hstride⟩

/-- The elements of a contiguous view are consecutive. -/
theorem elements_of_isContiguous {v : View} (hlength : v.strides.length = v.sizes.length) (h : v.isContiguous = true) :
    v.elements = List.range' v.offset v.sizes.prod := by
  unfold View.isContiguous at h
  unfold View.elements
  rcases (Bool.or_eq_true _ _).mp h with hempty | hdense
  · have hempty : v.sizes.prod = 0 := of_decide_eq_true hempty
    rw [List.eq_nil_of_length_eq_zero ((length_positions hlength _).trans hempty), hempty, List.range'_zero]
  · rw [positions_eq_places hlength, ((isDenseIn_iff_agree hlength).mp hdense).places_eq,
      ← positions_eq_places (length_contiguousStrides _), positions_contiguousStrides]

/-! ### The inferred source -/

/-- What `can_use_broadcast` has checked; `expandDims` dimensions are new. -/
structure InfersBroadcast (desc : ContiguousTensorDesc) (expandDims : ℕ) : Prop where
  length : desc.sizes.length = expandDims + desc.baseSizes.length
  base : ∀ i < desc.baseSizes.length,
    desc.strides.getD (i + expandDims) 0 = 0 ∧ desc.baseSizes.getD i 0 = 1 ∨
      desc.strides.getD (i + expandDims) 0 ≠ 0 ∧ desc.sizes.getD (i + expandDims) 0 = desc.baseSizes.getD i 0 ∧
        desc.strides.getD (i + expandDims) 0 = desc.baseStrides.getD i 0
  expand : ∀ i < expandDims, desc.sizes.getD i 0 = 1 ∨ desc.strides.getD i 0 = 0

theorem infersBroadcast_of_canUseBroadcast {desc : ContiguousTensorDesc} (h : canUseBroadcast desc = true) :
    ∃ expandDims, InfersBroadcast desc expandDims := by
  unfold canUseBroadcast at h
  simp only [Bool.if_false_left, Bool.and_eq_true, Bool.not_eq_true', decide_eq_false_iff_not, not_lt] at h
  obtain ⟨hlength, hbase, hexpand, -⟩ := h
  refine ⟨desc.sizes.length - desc.baseSizes.length, by omega, fun i hi => ?_, fun i hi => ?_⟩
  · rw [Bool.not_eq_true, List.any_eq_false] at hbase
    have haccepted := hbase i (List.mem_range.mpr hi)
    by_cases hstride : desc.strides.getD (i + (desc.sizes.length - desc.baseSizes.length)) 0 = 0
    · simp only [hstride, if_true, Bool.or_eq_true, decide_eq_true_eq, not_or, not_not] at haccepted
      exact .inl ⟨hstride, haccepted.1⟩
    · simp only [hstride, if_false, Bool.or_eq_true, decide_eq_true_eq, not_or, not_not] at haccepted
      exact .inr ⟨hstride, haccepted⟩
  · rw [Bool.not_eq_true, List.any_eq_false] at hexpand
    have haccepted := hexpand i (List.mem_range.mpr hi)
    simp only [Bool.and_eq_true, decide_eq_true_eq, not_and, not_not] at haccepted
    exact (em _).imp_right haccepted
theorem getD_srcSize {desc : ContiguousTensorDesc} (hlength : desc.strides.length = desc.sizes.length) {i : ℕ}
    (hi : i < desc.sizes.length) :
    (srcSize desc).getD i 0 = if desc.strides.getD i 0 = 0 then 1 else desc.sizes.getD i 0 := by
  have hi' : i < desc.strides.length := hlength ▸ hi
  have hsrc : i < (srcSize desc).length := by
    rw [srcSize, List.length_zipWith]
    omega
  rw [List.getD_eq_getElem _ _ hsrc, List.getD_eq_getElem _ _ hi, List.getD_eq_getElem _ _ hi']
  exact List.getElem_zipWith

theorem length_srcSize {desc : ContiguousTensorDesc} (hlength : desc.strides.length = desc.sizes.length) :
    (srcSize desc).length = desc.sizes.length := by
  rw [srcSize, List.length_zipWith, hlength, min_self]

/-- A stride of zero does not count. -/
theorem reach_srcSize {desc : ContiguousTensorDesc} :
    reach ((srcSize desc).zip desc.strides) = reach (desc.sizes.zip desc.strides) := by
  unfold srcSize
  generalize desc.sizes = sizes
  generalize desc.strides = strides
  induction sizes generalizing strides with
  | nil => rfl
  | cons n sizes ih =>
    cases strides with
    | nil => rfl
    | cons stride strides =>
      have hrest := ih strides
      unfold reach at hrest ⊢
      rw [List.zipWith_cons_cons, List.zip_cons_cons, List.zip_cons_cons, List.map_cons, List.map_cons, List.sum_cons,
        List.sum_cons, hrest]
      dsimp only
      split_ifs with hstride
      · rw [hstride, Nat.mul_zero, Nat.mul_zero]
      · rfl

namespace InfersBroadcast

variable {desc : ContiguousTensorDesc} {expandDims : ℕ}

/-- The source is the base with dimensions of size one in front of it. -/
theorem srcSize_eq (h : InfersBroadcast desc expandDims) (hvalid : desc.Valid) :
    srcSize desc = List.replicate expandDims 1 ++ desc.baseSizes := by
  have hlength := length_srcSize hvalid.lengths
  apply List.ext_getElem
  · rw [hlength, h.length, List.length_append, List.length_replicate]
  intro i hi hi'
  have hsize := getD_srcSize hvalid.lengths (hlength ▸ hi)
  rw [List.getD_eq_getElem _ _ hi] at hsize
  rw [hsize]
  by_cases hnew : i < expandDims
  · rw [List.getElem_append_left (by rw [List.length_replicate]; exact hnew), List.getElem_replicate]
    split_ifs with hstride
    · rfl
    · exact (h.expand i hnew).resolve_right hstride
  · obtain ⟨k, rfl⟩ := Nat.exists_eq_add_of_le' (not_lt.mp hnew)
    have hk : k < desc.baseSizes.length := by
      rw [hlength, h.length] at hi
      omega
    rw [List.getElem_append_right (by rw [List.length_replicate]; omega)]
    simp only [List.length_replicate, Nat.add_sub_cancel]
    rw [← List.getD_eq_getElem _ 0 hk]
    rcases h.base k hk with ⟨hstride, hone⟩ | ⟨hstride, hsame, -⟩
    · rw [if_pos hstride, hone]
    · rw [if_neg hstride, hsame]

theorem prod_srcSize (h : InfersBroadcast desc expandDims) (hvalid : desc.Valid) :
    (srcSize desc).prod = desc.baseSizes.prod := by
  rw [h.srcSize_eq hvalid, List.prod_append, List.prod_replicate, one_pow, one_mul]

/-- The strides of the view are those of a contiguous source. -/
theorem agree (h : InfersBroadcast desc expandDims) (hvalid : desc.Valid) (hbase : desc.baseSizes.prod ≠ 0) :
    Agree ((srcSize desc).zip desc.strides) ((srcSize desc).zip (contiguousStrides (srcSize desc))) := by
  have hlength := length_srcSize hvalid.lengths
  rw [agree_zip_iff (hvalid.lengths.trans hlength.symm) (length_contiguousStrides _)]
  intro i hi hone
  rw [hlength] at hi
  rw [h.srcSize_eq hvalid, contiguousStrides_replicate_append]
  rw [getD_srcSize hvalid.lengths hi] at hone
  obtain ⟨hstride, hsize⟩ : desc.strides.getD i 0 ≠ 0 ∧ desc.sizes.getD i 0 ≠ 1 := by
    split_ifs at hone with hstride
    · exact absurd rfl hone
    · exact ⟨hstride, hone⟩
  have hold : ¬i < expandDims := fun hnew => (h.expand i hnew).elim hsize hstride
  obtain ⟨k, rfl⟩ := Nat.exists_eq_add_of_le' (not_lt.mp hold)
  have hk : k < desc.baseSizes.length := by
    rw [h.length] at hi
    omega
  rcases h.base k hk with ⟨hzero, -⟩ | ⟨-, -, hsame⟩
  · exact absurd hzero hstride
  · rw [hsame, hvalid.baseStrides_eq hbase, List.getD_append_right _ _ _ _ (by rw [List.length_replicate]; omega),
      List.length_replicate, Nat.add_sub_cancel]

theorem isContiguous_tempSrc (h : InfersBroadcast desc expandDims) (hvalid : desc.Valid) :
    (tempSrc desc).isContiguous = true := by
  unfold View.isContiguous tempSrc
  by_cases hbase : desc.baseSizes.prod = 0
  · rw [h.prod_srcSize hvalid, hbase]
    rfl
  · rw [Bool.or_eq_true]
    right
    exact (isDenseIn_iff_agree (hvalid.lengths.trans (length_srcSize hvalid.lengths).symm)).mpr (h.agree hvalid hbase)

/-- A view that takes the whole base starts with it. -/
theorem offset_eq_zero (h : InfersBroadcast desc expandDims) (hvalid : desc.Valid) (hsizes : desc.sizes.prod ≠ 0) :
    desc.offset = 0 := by
  have hbase : desc.baseSizes.prod ≠ 0 := (Nat.zero_le _).trans_lt (hvalid.offset_lt hsizes) |>.ne'
  have hlast : desc.offset + reach (desc.sizes.zip desc.strides) < desc.baseSizes.prod := by
    apply hvalid.within
    rw [View.elements, ContiguousTensorDesc.view, positions_eq_places hvalid.lengths]
    exact reach_mem_places (fun dim hdim => prod_ne_zero_iff.mp hsizes dim.1 (List.of_mem_zip hdim).1) _
  have hreach : reach (desc.sizes.zip desc.strides) + 1 = desc.baseSizes.prod := by
    have hsrc : (srcSize desc).prod ≠ 0 := (h.prod_srcSize hvalid).symm ▸ hbase
    rw [← reach_srcSize, (h.agree hvalid hbase).reach_eq, reach_contiguous (prod_ne_zero_iff.mp hsrc),
      h.prod_srcSize hvalid]
  omega

/-- The source is all of the base. -/
theorem elements_tempSrc (h : InfersBroadcast desc expandDims) (hvalid : desc.Valid) (hsizes : desc.sizes.prod ≠ 0) :
    (tempSrc desc).elements = desc.base.elements := by
  have hbase : desc.baseSizes.prod ≠ 0 := (Nat.zero_le _).trans_lt (hvalid.offset_lt hsizes) |>.ne'
  calc (tempSrc desc).elements
      = places ((srcSize desc).zip (contiguousStrides (srcSize desc))) desc.offset := by
        rw [View.elements, tempSrc, positions_eq_places (hvalid.lengths.trans (length_srcSize hvalid.lengths).symm),
          (h.agree hvalid hbase).places_eq]
    _ = List.range' 0 desc.baseSizes.prod := by
        rw [← positions_eq_places (length_contiguousStrides _), positions_contiguousStrides, h.prod_srcSize hvalid,
          h.offset_eq_zero hvalid hsizes]
    _ = desc.base.elements := by
        rw [View.elements, ContiguousTensorDesc.base, hvalid.baseStrides_eq hbase, positions_contiguousStrides]

/-- `BroadcastToD` accepts the source. -/
theorem exists_broadcast (hlength : desc.strides.length = desc.sizes.length) :
    ∃ result, (tempSrc desc).broadcast desc.sizes = some result ∧ result.sizes = desc.sizes ∧
      result.strides = List.zipWith (fun n stride => if n = 1 then 0 else stride) (srcSize desc)
        (contiguousStrides (srcSize desc)) ∧ result.offset = desc.offset := by
  refine ⟨_, if_pos ⟨length_srcSize hlength, ?_⟩, rfl, rfl, rfl⟩
  rw [List.all_eq_true]
  intro pair hpair
  obtain ⟨i, hi, rfl⟩ := List.getElem_of_mem hpair
  have hi' : i < desc.sizes.length := (List.length_zip ▸ hi).trans_le (min_le_right _ _)
  have hsrc : i < (srcSize desc).length := (length_srcSize hlength).symm ▸ hi'
  have hsize := getD_srcSize hlength hi'
  rw [List.getD_eq_getElem _ _ hsrc, List.getD_eq_getElem _ _ hi'] at hsize
  rw [List.getElem_zip]
  show (decide ((srcSize desc)[i] = 1) || decide ((srcSize desc)[i] = desc.sizes[i])) = true
  rw [hsize]
  split_ifs with hstride
  · rfl
  · rw [decide_eq_true rfl, Bool.or_true]

end InfersBroadcast

/-- The operator makes a recognised view, from a source that is all of the base. -/
theorem broadcast_sound {desc : ContiguousTensorDesc} (hvalid : desc.Valid) (h : canUseBroadcast desc = true) :
    ∃ result, broadcastToContiguous desc = some result ∧ result.sizes = desc.sizes ∧
      result.elements = desc.view.elements ∧
        (desc.sizes.prod ≠ 0 → (tempSrc desc).elements = desc.base.elements) := by
  obtain ⟨expandDims, hinfers⟩ := infersBroadcast_of_canUseBroadcast h
  obtain ⟨result, hresult, hsizes, hstrides, hoffset⟩ := InfersBroadcast.exists_broadcast hvalid.lengths
  refine ⟨result, ?_, hsizes, ?_, hinfers.elements_tempSrc hvalid⟩
  · rw [broadcastToContiguous, if_pos (hinfers.isContiguous_tempSrc hvalid), hresult]
  have hsrc := length_srcSize hvalid.lengths
  have hlength : result.strides.length = desc.sizes.length := by
    rw [hstrides, List.length_zipWith, length_contiguousStrides, min_self, hsrc]
  rw [View.elements, View.elements, ContiguousTensorDesc.view, hsizes, hoffset]
  by_cases hempty : desc.sizes.prod = 0
  · rw [List.eq_nil_of_length_eq_zero ((length_positions hlength _).trans hempty),
      List.eq_nil_of_length_eq_zero ((length_positions hvalid.lengths _).trans hempty)]
  have hbase : desc.baseSizes.prod ≠ 0 := (Nat.zero_le _).trans_lt (hvalid.offset_lt hempty) |>.ne'
  have hagree := hinfers.agree hvalid hbase
  rw [agree_zip_iff (hvalid.lengths.trans hsrc.symm) (length_contiguousStrides _)] at hagree
  rw [positions_eq_places hlength, positions_eq_places hvalid.lengths]
  apply Agree.places_eq
  rw [agree_zip_iff hlength hvalid.lengths]
  intro i hi hone
  have hi' : i < (srcSize desc).length := hsrc.symm ▸ hi
  have hstride : result.strides.getD i 0 =
      if (srcSize desc).getD i 0 = 1 then 0 else (contiguousStrides (srcSize desc)).getD i 0 := by
    have hi'' : i < (contiguousStrides (srcSize desc)).length := by
      rw [length_contiguousStrides]
      exact hi'
    rw [List.getD_eq_getElem _ _ (hlength.symm ▸ hi), List.getD_eq_getElem _ _ hi', List.getD_eq_getElem _ _ hi'']
    simp only [hstrides, List.getElem_zipWith]
  rw [hstride]
  have hsize := getD_srcSize hvalid.lengths hi
  by_cases hzero : desc.strides.getD i 0 = 0
  · rw [if_pos hzero] at hsize
    rw [if_pos hsize, hzero]
  · rw [if_neg hzero] at hsize
    have hsrcOne : (srcSize desc).getD i 0 ≠ 1 := hsize ▸ hone
    rw [if_neg hsrcOne, hagree i hi' hsrcOne]

/-- `expand` of a column, with a new dimension. -/
theorem broadcast_sound_column :
    let desc : ContiguousTensorDesc :=
      { sizes := [2, 3, 4], strides := [0, 1, 0], offset := 0, baseSizes := [3, 1], baseStrides := [1, 1] }
    ∃ result, broadcastToContiguous desc = some result ∧ result.sizes = desc.sizes ∧
      result.elements = desc.view.elements ∧
        (desc.sizes.prod ≠ 0 → (tempSrc desc).elements = desc.base.elements) :=
  have hvalid : ContiguousTensorDesc.Valid
      { sizes := [2, 3, 4], strides := [0, 1, 0], offset := 0, baseSizes := [3, 1], baseStrides := [1, 1] } :=
    ⟨rfl, .inr rfl, by decide⟩
  broadcast_sound hvalid (by decide)

end TorchNpu.Contiguous
