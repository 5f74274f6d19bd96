/-
  The layouts that the checks admit: the elements of a dense tensor fill the places from its data pointer on,
  each place once.
-/
import TorchNpu.Distributed.Layout
import TorchNpu.Lib.Checked
import Mathlib.Tactic.Ring

namespace TorchNpu.Distributed

open Assign

/-! ### Dense dimensions -/

theorem flatMap_range_perm (n k e : ℕ) :
    ((List.range n).flatMap fun i => ((List.range k).map (· * (e * n))).map (i * e + ·)).Perm
      ((List.range (n * k)).map (· * e)) := by
  have hrange : List.range (n * k) = (List.range k).flatMap fun j => List.range' (j * n) n := by
    have h := Strided.flatMap_range' k n 0
    simp only [Nat.zero_add] at h
    rw [h, List.range_eq_range', Nat.mul_comm]
  rw [hrange, List.map_flatMap]
  have hcomm := Strided.flatMap_comm_perm (List.range n) (List.range k) fun i j => [i * e + j * (e * n)]
  simp only [← List.map_eq_flatMap] at hcomm
  simp only [List.map_map]
  refine hcomm.trans (List.Perm.flatMap_left _ fun j _ => List.Perm.of_eq ?_)
  rw [List.range'_eq_map_range, List.map_map]
  refine List.map_congr_left fun i _ => ?_
  simp only [Function.comp_apply]
  ring

theorem places_perm_of_isDenseIn {dims : List (ℕ × ℕ)} {e : ℕ} (hdims : ∀ dim ∈ dims, dim.1 ≠ 0)
    (h : Tensor.isDenseIn dims e = true) :
    (Strided.places dims 0).Perm ((List.range (dims.map Prod.fst).prod).map (· * e)) := by
  induction dims generalizing e with
  | nil =>
    rw [List.map_nil, List.prod_nil, List.range_one, List.map_singleton, Nat.zero_mul]
    exact List.Perm.refl _
  | cons dim dims ih =>
    obtain ⟨n, stride⟩ := dim
    rw [List.forall_mem_cons] at hdims
    rw [Tensor.isDenseIn] at h
    rw [List.map_cons, List.prod_cons, Strided.places]
    split_ifs at h with hn
    · have hn : n = 1 := hn
      subst hn
      rw [List.range_one, List.flatMap_singleton, Nat.zero_mul, Nat.one_mul]
      exact ih hdims.2 h
    · rw [Bool.and_eq_true, decide_eq_true_eq] at h
      obtain ⟨rfl, h⟩ := h
      refine List.Perm.trans (List.Perm.flatMap_left _ fun i _ => ?_) (flatMap_range_perm n _ stride)
      rw [Nat.zero_add, ← Nat.add_zero (i * stride), Strided.places_add, Nat.add_zero]
      exact (ih hdims.2 h).map _

namespace Tensor

variable {t : Tensor}

theorem ne_zero_of_mem_dims (hnumel : t.numel ≠ 0) : ∀ dim ∈ t.dims, dim.1 ≠ 0 := by
  intro dim hdim hzero
  have hmem : dim.1 ∈ t.sizes := (List.of_mem_zip (a := dim.1) (b := dim.2) hdim).1
  exact hnumel (List.prod_eq_zero_iff_exists_zero_nat.mpr ⟨dim.1, hmem, hzero⟩)

/-- The elements of a tensor fill the places from its offset on, each place once. -/
def Fills (t : Tensor) : Prop :=
  (Strided.positions t.sizes t.strides t.storageOffset).Perm (List.range' t.storageOffset t.numel)

theorem fills_of_numel_eq_zero (h : t.numel = 0) : t.Fills := by
  have hnil : Strided.positions t.sizes t.strides t.storageOffset = [] :=
    List.length_eq_zero_iff.mp ((Strided.length_positions t.length_strides _).trans h)
  unfold Fills
  rw [hnil, h]
  exact List.Perm.refl _

/-- Dense dimensions in some order. -/
theorem fills_of_isDenseIn {dims : List (ℕ × ℕ)}
    (hperm : (Strided.places dims 0).Perm (Strided.places t.dims 0)) (hdims : ∀ dim ∈ dims, dim.1 ≠ 0)
    (h : isDenseIn dims 1 = true) : t.Fills := by
  have hrange := hperm.symm.trans (places_perm_of_isDenseIn hdims h)
  simp only [Nat.mul_one, List.map_id'] at hrange
  have hlength : (dims.map Prod.fst).prod = t.numel := by
    rw [← List.length_range (n := (dims.map Prod.fst).prod), ← hrange.length_eq]
    refine Eq.trans ?_ (Strided.length_positions t.length_strides 0)
    rw [Strided.positions_eq_places t.length_strides]
    rfl
  unfold Fills
  rw [Strided.positions_eq_places t.length_strides, ← Nat.add_zero t.storageOffset, Strided.places_add,
    List.range'_eq_map_range, Nat.add_zero]
  rw [hlength] at hrange
  exact hrange.map _

theorem fills_of_isNonOverlappingAndDense (h : t.isNonOverlappingAndDense = true) : t.Fills := by
  by_cases hnumel : t.numel = 0
  · exact fills_of_numel_eq_zero hnumel
  · have hsort := List.perm_insertionSort (fun d e : ℕ × ℕ => d.2 ≤ e.2)
      (t.dims.filter fun dim => 2 ≤ dim.1)
    have hne := ne_zero_of_mem_dims hnumel
    refine fills_of_isDenseIn ?_
      (fun dim hdim => hne dim (List.mem_of_mem_filter (hsort.mem_iff.mp hdim))) h
    rw [← Strided.places_filter hne]
    exact Strided.places_perm hsort 0

theorem fills_of_isContiguous (h : t.isContiguous = true) : t.Fills := by
  by_cases hnumel : t.numel = 0
  · exact fills_of_numel_eq_zero hnumel
  · rw [isContiguous, Bool.or_eq_true, decide_eq_true_eq] at h
    have hne := ne_zero_of_mem_dims hnumel
    exact fills_of_isDenseIn (Strided.places_perm (List.reverse_perm _) 0)
      (fun dim hdim => hne dim (List.mem_reverse.mp hdim)) (h.resolve_left hnumel)

theorem channelsLastDims_perm {dims : List (ℕ × ℕ)} (h : t.channelsLastDims = some dims) :
    dims.Perm t.dims := by
  unfold channelsLastDims at h
  split at h
  · rename_i heq
    cases h
    rw [heq, List.perm_iff_count]
    intro dim
    simp only [List.count_cons]
    omega
  · rename_i heq
    cases h
    rw [heq, List.perm_iff_count]
    intro dim
    simp only [List.count_cons]
    omega
  · cases h

theorem fills_of_isContiguousAsSuggested (h : t.isContiguousAsSuggested = true) : t.Fills := by
  unfold isContiguousAsSuggested at h
  split at h
  · rename_i size stride dims heq
    split_ifs at h
    · by_cases hnumel : t.numel = 0
      · exact fills_of_numel_eq_zero hnumel
      · have hperm := channelsLastDims_perm heq
        exact fills_of_isDenseIn (Strided.places_perm hperm 0)
          (fun dim hdim => ne_zero_of_mem_dims hnumel dim (hperm.mem_iff.mp hdim)) h
    · exact fills_of_isContiguous h
  · exact fills_of_isContiguous h

end Tensor

/-! ### Tensors that are admitted -/

namespace PlacedTensor

variable {t u : PlacedTensor} {p : ℕ}

/-- What the checks say about the layout of a tensor. -/
structure Admitted (t : PlacedTensor) : Prop where
  fills : t.Fills
  offset : t.isBaseFormatType = false → t.storageOffset = 0

theorem offset_of_checkInternalFormat (h : checkInternalFormat t.toTensor = .ok ()) :
    t.isBaseFormatType = false → t.storageOffset = 0 := by
  intro hbase
  by_contra hoffset
  unfold checkInternalFormat at h
  rw [hbase, if_pos (by simpa using hoffset)] at h
  cases h

theorem admitted_of_checkNpuSingleTensor (h : checkNpuSingleTensor t.toTensor = .ok ()) : t.Admitted := by
  unfold checkNpuSingleTensor at h
  split_ifs at h with hcontiguous
  exact ⟨Tensor.fills_of_isContiguousAsSuggested hcontiguous, offset_of_checkInternalFormat h⟩

theorem admitted_of_checkNpuTensorsSameDevice {ts : List PlacedTensor}
    (h : checkNpuTensorsSameDevice (ts.map toTensor) = .ok ()) (ht : t ∈ ts) : t.Admitted := by
  have hmem : t.toTensor ∈ ts.map toTensor := List.mem_map_of_mem ht
  generalize ts.map toTensor = tensors at h hmem
  unfold checkNpuTensorsSameDevice at h
  split at h
  · exact absurd hmem List.not_mem_nil
  · have hcheck := Checked.forM_eq_ok.mp h t.toTensor hmem
    split_ifs at hcheck with htype hdense
    exact ⟨Tensor.fills_of_isNonOverlappingAndDense hdense, offset_of_checkInternalFormat hcheck⟩

theorem length_places (t : PlacedTensor) : t.places.length = t.numel := by
  rw [places, List.length_map, Strided.length_positions t.length_strides]
  rfl

theorem nodup_places (h : t.Admitted) : t.places.Nodup :=
  (h.fills.symm.nodup List.nodup_range').map t.place_injective

theorem length_extent (t : PlacedTensor) : t.extent.length = t.count :=
  List.length_range'

theorem mem_extent_of_mem_places (h : t.Admitted) (hp : p ∈ t.places) : p ∈ t.extent := by
  obtain ⟨i, hi, rfl⟩ := List.mem_map.mp hp
  unfold extent count
  cases hbase : t.isBaseFormatType with
  | true =>
    rw [t.place_base hbase, if_pos rfl]
    exact h.fills.mem_iff.mp hi
  | false =>
    have hlt := t.place_lt hbase i hi
    rw [if_neg Bool.false_ne_true, h.offset hbase, List.mem_range'_1]
    omega

/-- The order in which the elements are in the data that HCCL deals with. -/
def order (t : PlacedTensor) : List ℕ :=
  t.places.map (· - t.storageOffset)

theorem lt_count_of_mem_order (h : t.Admitted) (hp : p ∈ t.order) : p < t.count := by
  obtain ⟨q, hq, rfl⟩ := List.mem_map.mp hp
  have hmem := mem_extent_of_mem_places h hq
  rw [extent, List.mem_range'_1] at hmem
  omega

theorem apart_symm (h : t.Apart u) : u.Apart t :=
  fun hs => (h hs.symm).symm

end PlacedTensor

/-! ### The memory -/

namespace Memory

variable {m : Memory} {t u : PlacedTensor} {vs : List ℚ}

theorem length_elements (m : Memory) (t : PlacedTensor) : (m.elements t).length = t.numel := by
  rw [elements, List.length_map, t.length_places]

theorem length_data (m : Memory) (t : PlacedTensor) : (m.data t).length = t.count := by
  rw [data, List.length_map, t.length_extent]

/-- The elements are in the data, in the order of the tensor. -/
theorem elements_eq_data_of_mem (h : ∀ p ∈ t.places, p ∈ t.extent) :
    m.elements t = t.order.map fun i => (m.data t).getD i 0 := by
  unfold elements PlacedTensor.order
  rw [List.map_map]
  refine List.map_congr_left fun p hp => ?_
  have hmem := h p hp
  rw [PlacedTensor.extent, List.mem_range'_1] at hmem
  rw [Function.comp_apply, data, PlacedTensor.extent, List.getD_eq_getElem?_getD, List.getElem?_map,
    List.getElem?_range' (by omega), Option.map_some, Option.getD_some, Nat.one_mul,
    Nat.add_sub_cancel' hmem.1]

theorem elements_eq_data (h : t.Admitted) :
    m.elements t = t.order.map fun i => (m.data t).getD i 0 :=
  elements_eq_data_of_mem fun _ hp => PlacedTensor.mem_extent_of_mem_places h hp

theorem elements_copy (h : t.Admitted) (hlength : vs.length = t.numel) :
    (m.copy t vs).elements t = vs := by
  unfold elements copy
  simp only [if_pos]
  exact map_assign (PlacedTensor.nodup_places h) (hlength.trans t.length_places.symm)

theorem data_fill (hlength : vs.length = t.count) : (m.fill t vs).data t = vs := by
  unfold data fill
  simp only [if_pos]
  exact map_assign List.nodup_range' (hlength.trans t.length_extent.symm)

theorem copy_of_apart (ht : t.Admitted) (h : t.Apart u) {p : ℕ} (hp : p ∈ u.extent) :
    m.copy t vs u.storage p = m u.storage p := by
  unfold copy
  split_ifs with hs
  · exact assign_of_not_mem fun hmem => h hs.symm (PlacedTensor.mem_extent_of_mem_places ht hmem) hp
  · rfl

theorem fill_of_apart (h : t.Apart u) {p : ℕ} (hp : p ∈ u.extent) :
    m.fill t vs u.storage p = m u.storage p := by
  unfold fill
  split_ifs with hs
  · exact assign_of_not_mem fun hmem => h hs.symm hmem hp
  · rfl

/-- Data that no elements agree with. -/
theorem exists_wrong (h : t.Admitted) (hnumel : t.numel ≠ 0) (vs : List ℚ)
    (hvs : vs.length = t.numel) :
    ∃ wrong : List ℚ, wrong.length = t.count ∧
      ∀ m' : Memory, m'.data t = wrong → m'.elements t ≠ vs := by
  obtain ⟨v, hv⟩ := List.exists_mem_of_length_pos (l := vs) (by omega)
  refine ⟨List.replicate t.count (v + 1), List.length_replicate, fun m' hdata helements => ?_⟩
  rw [← helements, elements_eq_data h, hdata] at hv
  obtain ⟨i, hi, hvi⟩ := List.mem_map.mp hv
  rw [List.getD_eq_getElem?_getD, List.getElem?_replicate,
    if_pos (PlacedTensor.lt_count_of_mem_order h hi), Option.getD_some] at hvi
  exact absurd hvi (by simp)

end Memory

end TorchNpu.Distributed
