/-
  What `alltoall` and `scatter` give to the processes of a group.

  The default implementation of `alltoall` moves elements, so that it is right for all layouts.  The compatible
  implementations move storage: they are right exactly where a tensor that is sent and the one it is received
  in have the same count and the same order.  The default implementation of `scatter` moves rows that are laid
  out as the first input, which has to be the layout of every output.
-/
import TorchNpu.Distributed.Exchange
import TorchNpu.Distributed.Spec.Gather
import Mathlib.Data.Nat.Pairing

namespace TorchNpu.Distributed

open Spmd Assign

/-! ### The processes of a group -/

/-- A call of `alltoall` that is admitted, with one element type and tensors that do not share memory. -/
structure Alltoall where
  size : ℕ
  scalarType : ScalarType
  inputs : Fin size → Fin size → PlacedTensor
  outputs : Fin size → Fin size → PlacedTensor
  supported : (getHcclDataType scalarType).isOk = true
  scalarType_inputs : ∀ r j, (inputs r j).scalarType = scalarType
  scalarType_outputs : ∀ r j, (outputs r j).scalarType = scalarType
  check_inputs : ∀ r j, checkNpuSingleTensor (inputs r j).toTensor = .ok ()
  check_outputs : ∀ r j, checkNpuSingleTensor (outputs r j).toTensor = .ok ()
  numel_eq : ∀ r j, (outputs r j).numel = (inputs j r).numel
  apart_outputs : ∀ r i j, i ≠ j → (outputs r i).Apart (outputs r j)
  apart_inputs : ∀ r i j, (outputs r i).Apart (inputs r j)

/-- A call of `scatter` that is admitted, with one element type and outputs that do not share memory with the
inputs. -/
structure Scatter where
  size : ℕ
  root : Fin size
  scalarType : ScalarType
  inputs : Fin size → PlacedTensor
  outputs : Fin size → PlacedTensor
  supported : (getHcclDataType scalarType).isOk = true
  scalarType_inputs : ∀ j, (inputs j).scalarType = scalarType
  scalarType_outputs : ∀ r, (outputs r).scalarType = scalarType
  check_outputs : ∀ r, checkNpuTensorsDifferentDevices [(outputs r).toTensor] = .ok ()
  sizes_inputs : ∀ j, (inputs j).sizes = (outputs root).sizes
  numel_eq : ∀ r, (outputs r).numel = (inputs r).numel
  apart_inputs : ∀ j, (outputs root).Apart (inputs j)

/-- What is sent as it is in its storage arrives. -/
def Fits (output input : PlacedTensor) : Prop :=
  output.numel ≠ 0 → output.count = input.count ∧ output.order = input.order

namespace Alltoall

variable (w : Alltoall)

def program (compatible : Bool) (m : Memory) (r : Fin w.size) : Process :=
  alltoall compatible w.size (List.ofFn (w.outputs r)) (List.ofFn (w.inputs r)) m

/-- Both implementations end, and then each output has the elements of its input. -/
def Correct : Prop :=
  ∀ (compatible : Bool) (m : Fin w.size → Memory),
    (∃ results, Runs Meaning (fun r => w.program compatible (m r) r) results) ∧
      ∀ results, Runs Meaning (fun r => w.program compatible (m r) r) results →
        ∀ r j, (results r).elements (w.outputs r j) = (m j).elements (w.inputs j r)

/-- The condition. -/
def Agrees : Prop :=
  ∀ r j, Fits (w.outputs r j) (w.inputs j r)

end Alltoall

namespace Scatter

variable (w : Scatter)

def program (compatible : Bool) (m : Memory) (uninit : ℕ → ℚ) (r : Fin w.size) : Process :=
  scatter compatible w.size r w.root (w.outputs r) (if r = w.root then List.ofFn w.inputs else []) m uninit

/-- Both implementations end, and then the output of each process has the elements of its input. -/
def Correct : Prop :=
  ∀ (compatible : Bool) (m : Fin w.size → Memory) (uninit : ℕ → ℚ),
    (∃ results, Runs Meaning (fun r => w.program compatible (m r) uninit r) results) ∧
      ∀ results, Runs Meaning (fun r => w.program compatible (m r) uninit r) results →
        ∀ r, (results r).elements (w.outputs r) = (m w.root).elements (w.inputs r)

/-- The first input, which gives its layout to the rows. -/
def first : PlacedTensor :=
  w.inputs ⟨0, w.root.pos⟩

/-- The places of the elements in a row. -/
def rowOrder : List ℕ :=
  Strided.positions w.first.sizes w.first.strides 0

/-- The condition of the default implementation: the rows can be written and are apart, and HCCL writes them
where the elements of the outputs are. -/
structure RowsFit : Prop where
  written : (assertNoInternalOverlap w.first.toTensor).isOk = true
  apart : ∀ r r' : Fin w.size, ∀ p ∈ w.rowOrder, ∀ q ∈ w.rowOrder,
    r * w.first.numel + p = r' * w.first.numel + q → r = r'
  counts : ∀ r r', (w.outputs r).count = (w.outputs r').count
  order : ∀ r, (w.outputs r).order.map (r * (w.outputs r).count + ·) =
    w.rowOrder.map (r * w.first.numel + ·)

/-- The condition. -/
def Agrees : Prop :=
  (∀ r, r ≠ w.root → (w.outputs r).numel ≠ 0 → (w.inputs r).toTensor.getNumelForHCCL.isOk = true) ∧
    (∀ r, r ≠ w.root → Fits (w.outputs r) (w.inputs r)) ∧ ((w.outputs w.root).numel ≠ 0 → w.RowsFit)

/-- No two elements of the inputs are in one place. -/
def Distinct : Prop :=
  ∀ r r' (k k' p : ℕ), (w.inputs r).storage = (w.inputs r').storage → (w.inputs r).places[k]? = some p →
    (w.inputs r').places[k']? = some p → r = r' ∧ k = k'

end Scatter

/-- A call of `alltoall` or `scatter`. -/
inductive Exchange
  | alltoall (w : Alltoall)
  | scatter (w : Scatter)

namespace Exchange

def Correct : Exchange → Prop
  | .alltoall w => w.Correct
  | .scatter w => w.Correct

def Agrees : Exchange → Prop
  | .alltoall w => w.Agrees
  | .scatter w => w.Agrees

def Distinct : Exchange → Prop
  | .alltoall _ => True
  | .scatter w => w.Distinct

end Exchange

/-! ### Sends and receives -/

section SendRecv

variable {m : Memory} {l outputs : List (PlacedTensor × ℕ)} {t u : PlacedTensor}

theorem dataFor_cons {dst : ℕ} {x : ℕ × List ℚ} {sends : List (ℕ × List ℚ)} :
    dataFor dst (x :: sends) = if x.1 = dst then x.2 :: dataFor dst sends else dataFor dst sends := by
  unfold dataFor
  rw [List.filter_cons]
  split_ifs with h h' h'
  · rfl
  · exact absurd (of_decide_eq_true h) h'
  · exact absurd (decide_eq_true h') h
  · rfl

theorem sendsOf_cons {x : PlacedTensor × ℕ} : sendsOf m (x :: l) =
    if x.1.numel ≠ 0 then (x.2, m.data x.1) :: sendsOf m l else sendsOf m l := by
  unfold sendsOf
  rw [List.filter_cons]
  split_ifs with h h' h'
  · rfl
  · exact absurd (of_decide_eq_true h) h'
  · exact absurd (decide_eq_true h') h
  · rfl

/-- Nothing is sent to a process that is not in the list. -/
theorem dataFor_sendsOf_of_not_mem {dst : ℕ} (h : ∀ x ∈ l, x.2 ≠ dst) : dataFor dst (sendsOf m l) = [] := by
  induction l with
  | nil => rfl
  | cons x l ih =>
    rw [List.forall_mem_cons] at h
    rw [sendsOf_cons]
    split_ifs
    · rw [dataFor_cons, if_neg h.1, ih h.2]
    · exact ih h.2

/-- A process is sent the one tensor that the list has for it. -/
theorem dataFor_sendsOf {dst : ℕ} (hnodup : (l.map Prod.snd).Nodup) (ht : (t, dst) ∈ l) :
    dataFor dst (sendsOf m l) = if t.numel ≠ 0 then [m.data t] else [] := by
  induction l with
  | nil => cases ht
  | cons x l ih =>
    rw [List.map_cons, List.nodup_cons] at hnodup
    rw [sendsOf_cons]
    rcases List.mem_cons.mp ht with rfl | ht
    · have hrest : dataFor dst (sendsOf m l) = [] :=
        dataFor_sendsOf_of_not_mem fun y hy (h : y.2 = dst) =>
          hnodup.1 (List.mem_map.mpr ⟨y, hy, h⟩)
      split_ifs with hnumel
      · rw [dataFor_cons, if_pos rfl, hrest]
      · exact hrest
    · have hne : x.2 ≠ dst := fun h => hnodup.1 (List.mem_map.mpr ⟨(t, dst), ht, h.symm⟩)
      rw [← ih hnodup.2 ht]
      by_cases hnumel : x.1.numel ≠ 0
      · rw [if_pos hnumel, dataFor_cons, if_neg hne]
      · rw [if_neg hnumel]

theorem mem_zipIdx_ofFn {n : ℕ} (f : Fin n → PlacedTensor) (j : Fin n) :
    (f j, (j : ℕ)) ∈ (List.ofFn f).zipIdx := by
  rw [List.mem_zipIdx_iff_getElem?, List.getElem?_ofFn, dif_pos j.isLt]

theorem nodup_zipIdx_ofFn {n : ℕ} (f : Fin n → PlacedTensor) :
    ((List.ofFn f).zipIdx.map Prod.snd).Nodup := by
  rw [List.zipIdx_map_snd]
  exact List.nodup_range'

/-- The tensors that are not received keep their data. -/
theorem fillAll_of_apart {reply : Reply} (hapart : ∀ x ∈ l, x.1.Apart u) {p : ℕ} (hp : p ∈ u.extent) :
    (l.zip reply).foldl (fun m x => m.fill x.1.1 x.2) m u.storage p = m u.storage p := by
  induction l generalizing reply m with
  | nil => rfl
  | cons x l ih =>
    rw [List.forall_mem_cons] at hapart
    cases reply with
    | nil => rfl
    | cons vs reply =>
      rw [List.zip_cons_cons, List.foldl_cons, ih hapart.2]
      exact Memory.fill_of_apart hapart.1 hp

/-- A tensor has the data that it received. -/
theorem data_fillAll {reply : Reply} (hapart : l.Pairwise fun x y => x.1.Apart y.1) {k : ℕ}
    {x : PlacedTensor × ℕ} (hx : l[k]? = some x) {vs : List ℚ} (hvs : reply[k]? = some vs)
    (hlength : vs.length = x.1.count) :
    ((l.zip reply).foldl (fun m x => m.fill x.1.1 x.2) m).data x.1 = vs := by
  induction l generalizing reply m k with
  | nil => cases hx
  | cons y l ih =>
    rw [List.pairwise_cons] at hapart
    cases reply with
    | nil => cases hvs
    | cons ws reply =>
      rw [List.zip_cons_cons, List.foldl_cons]
      cases k with
      | zero =>
        obtain rfl : y = x := Option.some.inj hx
        obtain rfl : ws = vs := Option.some.inj hvs
        refine Eq.trans (List.map_congr_left fun p hp => ?_) (Memory.data_fill (m := m) hlength)
        exact fillAll_of_apart (fun z hz => PlacedTensor.apart_symm (hapart.1 z hz)) hp
      | succ k => exact ih hapart.2 hx hvs

end SendRecv

/-! ### Layouts that fit -/

section Fits

variable {output input : PlacedTensor} {m m' : Memory}

theorem storageOffset_le_of_mem_places (hinput : input.toTensor.getNumelForHCCL.isOk = true) {p : ℕ}
    (hp : p ∈ input.places) : input.storageOffset ≤ p := by
  obtain ⟨i, hi, rfl⟩ := List.mem_map.mp hp
  cases hbase : input.isBaseFormatType with
  | true =>
    rw [input.place_base hbase]
    rw [Strided.positions_eq_places input.length_strides, ← Nat.add_zero input.storageOffset,
      Strided.places_add] at hi
    obtain ⟨j, -, rfl⟩ := List.mem_map.mp hi
    exact Nat.le_add_right _ _
  | false =>
    unfold Tensor.getNumelForHCCL at hinput
    rw [hbase, if_neg Bool.false_ne_true] at hinput
    split_ifs at hinput with h
    · cases hinput
    · omega

/-- Data in the same order is the same elements. -/
theorem elements_eq_of_data (houtput : output.Admitted)
    (hinput : input.toTensor.getNumelForHCCL.isOk = true) (hcount : output.count = input.count)
    (horder : output.order = input.order) (hdata : m'.data output = m.data input) :
    m'.elements output = m.elements input := by
  have hextent : ∀ p ∈ input.places, p ∈ input.extent := by
    intro p hp
    have hle := storageOffset_le_of_mem_places hinput hp
    have hmem : p - input.storageOffset ∈ output.order := horder ▸ List.mem_map_of_mem hp
    have hlt := PlacedTensor.lt_count_of_mem_order houtput hmem
    rw [PlacedTensor.extent, List.mem_range'_1]
    omega
  rw [Memory.elements_eq_data houtput, Memory.elements_eq_data_of_mem hextent, hdata, horder]

/-- Data that is the same elements, wherever these are, is in the same order. -/
theorem order_eq_of_data (houtput : output.Admitted) (hcount : output.count = input.count)
    (hdata : m'.data output = Memory.data (fun _ p => (p : ℚ)) input)
    (helements : m'.elements output = Memory.elements (fun _ p => (p : ℚ)) input) :
    output.order = input.order := by
  have hmap : output.order.map (fun i => ((input.storageOffset + i : ℕ) : ℚ)) =
      input.places.map fun p : ℕ => (p : ℚ) := by
    refine Eq.trans (List.map_congr_left fun i hi => ?_)
      ((Memory.elements_eq_data houtput).symm.trans helements)
    have hlt : i < input.count := hcount ▸ PlacedTensor.lt_count_of_mem_order houtput hi
    rw [hdata, Memory.data, PlacedTensor.extent, List.getD_eq_getElem?_getD, List.getElem?_map,
      List.getElem?_range' hlt, Option.map_some, Option.getD_some, Nat.one_mul]
  have hplaces : output.order.map (input.storageOffset + ·) = input.places := by
    refine List.map_injective_iff.mpr (Nat.cast_injective (R := ℚ)) ?_
    rw [List.map_map]
    exact hmap
  change output.order = input.places.map (· - input.storageOffset)
  rw [← hplaces, List.map_map]
  exact (List.map_id'' (fun i => Nat.add_sub_cancel_left _ i) _).symm

theorem elements_of_numel_eq_zero (h : output.numel = 0) : m.elements output = [] :=
  List.length_eq_zero_iff.mp ((Memory.length_elements m output).trans h)

end Fits

/-! ### `alltoall` -/

theorem check_catTensor (tensors : List PlacedTensor) :
    checkNpuTensorsDifferentDevices [catTensor tensors] = .ok () := by
  have hdense : ∀ n : ℕ, Tensor.isDenseIn [(1, 1), (n, 1)] 1 = true := by
    intro n
    simp only [Tensor.isDenseIn, Bool.and_true, decide_true, ite_self]
  simp only [catTensor, newTensor, checkNpuTensorsDifferentDevices, checkNpuSingleTensor,
    Tensor.isContiguousAsSuggested, Tensor.channelsLastDims, Tensor.dims, Tensor.isContiguous,
    Strided.contiguousStrides, List.prod_cons, List.prod_nil, Nat.mul_one, List.zip_cons_cons,
    List.zip_nil_left, List.reverse_cons, List.reverse_nil, List.nil_append, List.cons_append, hdense,
    Bool.or_true, if_true]
  rfl

theorem isOk_viewAsByte {scalarType : ScalarType} (h : (getHcclDataType scalarType).isOk = true) :
    (getHcclDataType (viewAsByte scalarType)).isOk = true := by
  unfold viewAsByte
  split_ifs
  · rfl
  · exact h

theorem checkTransfer_eq_ok {t : PlacedTensor} (hnumel : t.numel ≠ 0 → t.getNumelForHCCL.isOk = true)
    (htype : (getHcclDataType t.scalarType).isOk = true) : checkTransfer t = .ok () := by
  unfold checkTransfer
  split_ifs with h
  · obtain ⟨count, hcount⟩ := exists_eq_ok_of_isOk (hnumel h)
    obtain ⟨dataType, htype⟩ := exists_eq_ok_of_isOk htype
    rw [hcount, htype]
    rfl
  · rfl

theorem isOk_getNumelForHCCL {t : PlacedTensor} (h : t.Admitted) :
    t.toTensor.getNumelForHCCL.isOk = true := by
  rw [Allgather.getNumelForHCCL_eq_ok h]
  rfl

/-- The part of a tensor among flattened ones. -/
theorem slice_elements {n : ℕ} (f : Fin n → PlacedTensor) (vs : Fin n → List ℚ)
    (hvs : ∀ j, (vs j).length = (f j).numel) (j : Fin n) :
    slice (List.ofFn vs).flatten ((displacements 0 ((List.ofFn f).map fun t => t.numel)).getD j 0)
      (((List.ofFn f).map fun t => t.numel).getD j 0) = vs j := by
  have hcounts : (List.ofFn f).map (fun t => t.numel) = (List.ofFn vs).map List.length := by
    rw [List.map_ofFn, List.map_ofFn]
    exact congrArg List.ofFn (funext fun i => (hvs i).symm)
  have hpart : (List.ofFn vs)[(j : ℕ)]? = some (vs j) := by
    rw [List.getElem?_ofFn, dif_pos j.isLt]
  have hcount : ((List.ofFn vs).map List.length).getD j 0 = (vs j).length := by
    rw [List.getD_eq_getElem?_getD, List.getElem?_map, hpart]
    rfl
  rw [hcounts, hcount]
  exact slice_flatten hpart

namespace Alltoall

variable {w : Alltoall} {m results : Fin w.size → Memory}

theorem admitted_input (r j : Fin w.size) : (w.inputs r j).Admitted :=
  PlacedTensor.admitted_of_checkNpuSingleTensor (w.check_inputs r j)

theorem admitted_output (r j : Fin w.size) : (w.outputs r j).Admitted :=
  PlacedTensor.admitted_of_checkNpuSingleTensor (w.check_outputs r j)

theorem checks (r : Fin w.size) :
    ((List.ofFn (w.outputs r)).zip (List.ofFn (w.inputs r))).forM (fun x => do
      checkNpuSingleTensor x.1.toTensor
      checkNpuSingleTensor x.2.toTensor) = .ok () := by
  rw [Checked.forM_eq_ok]
  intro x hx
  obtain ⟨hout, hin⟩ := List.of_mem_zip (a := x.1) (b := x.2) hx
  obtain ⟨i, hi⟩ := (List.mem_ofFn' _ _).mp hout
  obtain ⟨j, hj⟩ := (List.mem_ofFn' _ _).mp hin
  rw [← hi, ← hj, w.check_outputs, w.check_inputs]
  rfl

theorem program_eq (compatible : Bool) (m : Memory) (r : Fin w.size) : w.program compatible m r =
    if compatible then alltoallSendRecv (List.ofFn (w.outputs r)) (List.ofFn (w.inputs r)) m
    else alltoallFlattened (List.ofFn (w.outputs r)) (List.ofFn (w.inputs r)) m := by
  unfold program alltoall
  rw [List.length_ofFn, List.length_ofFn, if_neg (not_not.mpr rfl), if_neg (not_not.mpr rfl), checks]
  rfl

theorem program_sendRecv (m : Memory) (r : Fin w.size) : w.program true m r =
    .call (.sendRecv (sendsOf m (List.ofFn (w.inputs r)).zipIdx) (recvsOf (List.ofFn (w.outputs r)).zipIdx))
      fun reply => .ret (fillReceived (List.ofFn (w.outputs r)).zipIdx reply m) := by
  have hinputs : (List.ofFn (w.inputs r)).forM checkTransfer = .ok () := by
    refine Checked.forM_eq_ok.mpr fun t ht => ?_
    obtain ⟨j, rfl⟩ := (List.mem_ofFn' _ _).mp ht
    refine checkTransfer_eq_ok (fun _ => isOk_getNumelForHCCL (admitted_input r j)) ?_
    rw [w.scalarType_inputs]
    exact w.supported
  have houtputs : (List.ofFn (w.outputs r)).forM checkTransfer = .ok () := by
    refine Checked.forM_eq_ok.mpr fun t ht => ?_
    obtain ⟨j, rfl⟩ := (List.mem_ofFn' _ _).mp ht
    refine checkTransfer_eq_ok (fun _ => isOk_getNumelForHCCL (admitted_output r j)) ?_
    rw [w.scalarType_outputs]
    exact w.supported
  rw [program_eq, if_pos rfl, alltoallSendRecv, hinputs, houtputs]
  rfl

theorem scalarType_catTensor {f : Fin w.size → PlacedTensor} (r : Fin w.size)
    (hf : ∀ j, (f j).scalarType = w.scalarType) :
    (catTensor (List.ofFn f)).scalarType = viewAsByte w.scalarType := by
  have hhead : ((List.ofFn f).map fun t => t.scalarType).headD .float = w.scalarType := by
    rw [List.map_ofFn]
    obtain ⟨n, hn⟩ := Nat.exists_eq_succ_of_ne_zero r.pos.ne'
    have hcons : (List.ofFn ((fun t : PlacedTensor => t.scalarType) ∘ f)) =
        List.replicate w.size w.scalarType := by
      rw [← List.ofFn_const]
      exact congrArg List.ofFn (funext hf)
    rw [hcons, hn]
    rfl
  unfold catTensor newTensor
  rw [hhead]

theorem program_flattened (m : Memory) (r : Fin w.size) : w.program false m r =
    .call (.alltoAllV ((List.ofFn (w.inputs r)).flatMap m.elements)
      ((List.ofFn (w.inputs r)).map fun t => t.numel)
      (displacements 0 ((List.ofFn (w.inputs r)).map fun t => t.numel))
      ((List.ofFn (w.outputs r)).map fun t => t.numel)
      (displacements 0 ((List.ofFn (w.outputs r)).map fun t => t.numel)))
      fun reply => .ret (copySlots (reply.headD [])
        (displacements 0 ((List.ofFn (w.outputs r)).map fun t => t.numel)) (List.ofFn (w.outputs r)) m) := by
  obtain ⟨dataType, htype⟩ := exists_eq_ok_of_isOk (isOk_viewAsByte w.supported)
  rw [program_eq, if_neg Bool.false_ne_true, alltoallFlattened]
  rw [check_catTensor, check_catTensor, scalarType_catTensor r (w.scalarType_inputs r),
    scalarType_catTensor r (w.scalarType_outputs r), htype]
  rfl

/-! ### The default implementation -/

theorem slice_inputs (m : Memory) (r j : Fin w.size) :
    slice ((List.ofFn (w.inputs j)).flatMap m.elements)
      ((displacements 0 ((List.ofFn (w.inputs j)).map fun t => t.numel)).getD r 0)
      (((List.ofFn (w.inputs j)).map fun t => t.numel).getD r 0) = m.elements (w.inputs j r) := by
  have hflat : (List.ofFn (w.inputs j)).flatMap m.elements =
      (List.ofFn fun i => m.elements (w.inputs j i)).flatten := by
    rw [List.flatMap_def, List.map_ofFn]
    rfl
  rw [hflat]
  exact slice_elements _ _ (fun i => Memory.length_elements _ _) r

theorem getD_counts {f : Fin w.size → PlacedTensor} (j : Fin w.size) :
    ((List.ofFn f).map fun t => t.numel).getD j 0 = (f j).numel := by
  rw [List.getD_eq_getElem?_getD, List.getElem?_map, List.getElem?_ofFn, dif_pos j.isLt]
  rfl

theorem elements_flattened (hruns : Runs Meaning (fun r => w.program false (m r) r) results)
    (r j : Fin w.size) : (results r).elements (w.outputs r j) = (m j).elements (w.inputs j r) := by
  have : Nonempty (Fin w.size) := ⟨r⟩
  rw [funext fun r => program_flattened (m r) r, runs_call_iff] at hruns
  obtain ⟨rep, hrep, hruns⟩ := hruns
  rw [runs_ret_iff] at hruns
  obtain ⟨buffer, hbuffer, hslice⟩ := hrep.alltoAllV _ _ _ _ _ rfl
    (fun r j => by rw [getD_counts, getD_counts, w.numel_eq]) r
  rw [hruns]
  beta_reduce
  rw [hbuffer]
  refine elements_copySlots (m r) (fun t ht => ?_) ?_ ?_ (k := j) ?_ ?_ ?_
  · obtain ⟨i, rfl⟩ := (List.mem_ofFn' _ _).mp ht
    exact admitted_output r i
  · rw [List.pairwise_ofFn]
    exact fun i j hij => w.apart_outputs r i j hij.ne
  · rw [length_displacements, List.length_map]
  · rw [List.getElem?_ofFn, dif_pos j.isLt]
  · rw [Memory.length_elements, w.numel_eq]
  · have hslice := hslice j
    rwa [slice_inputs, getD_counts] at hslice

theorem exists_runs_flattened (m : Fin w.size → Memory) :
    ∃ results, Runs Meaning (fun r => w.program false (m r) r) results := by
  rw [funext fun r => program_flattened (m r) r]
  refine ⟨_, .call (Meaning.of_alltoAllV _ _ _ _ _
    (fun r => [(List.ofFn fun j => (m j).elements (w.inputs j r)).flatten]) fun r => ⟨_, rfl, fun j => ?_⟩)
    (.ret _)⟩
  rw [slice_inputs]
  exact slice_elements _ _ (fun i => (Memory.length_elements _ _).trans (w.numel_eq r i).symm) j

/-! ### The compatible implementation -/

/-- The tensors that a process receives, with the processes that send them. -/
def received (w : Alltoall) (r : Fin w.size) : List (PlacedTensor × ℕ) :=
  (List.ofFn (w.outputs r)).zipIdx.filter fun x => x.1.numel ≠ 0

theorem mem_received {r j : Fin w.size} (hnumel : (w.outputs r j).numel ≠ 0) :
    (w.outputs r j, (j : ℕ)) ∈ w.received r :=
  List.mem_filter.mpr ⟨mem_zipIdx_ofFn _ j, decide_eq_true hnumel⟩

theorem eq_of_mem_received {r : Fin w.size} {x : PlacedTensor × ℕ} (hx : x ∈ w.received r) :
    ∃ j : Fin w.size, x = (w.outputs r j, (j : ℕ)) ∧ (w.outputs r j).numel ≠ 0 := by
  obtain ⟨hmem, hnumel⟩ := List.mem_filter.mp hx
  rw [List.mem_zipIdx_iff_getElem?, List.getElem?_ofFn] at hmem
  split_ifs at hmem with hlt
  have hx : x = (w.outputs r ⟨x.2, hlt⟩, x.2) := Prod.ext (Option.some.inj hmem).symm rfl
  refine ⟨⟨x.2, hlt⟩, hx, ?_⟩
  rw [hx] at hnumel
  exact of_decide_eq_true hnumel

theorem pairwise_received (r : Fin w.size) : (w.received r).Pairwise fun x y => x.1.Apart y.1 := by
  refine List.Pairwise.filter _ (List.pairwise_iff_getElem.mpr fun i j hi hj hij => ?_)
  rw [List.length_zipIdx, List.length_ofFn] at hi hj
  rw [List.getElem_zipIdx, List.getElem_zipIdx, List.getElem_ofFn, List.getElem_ofFn]
  exact w.apart_outputs r ⟨i, hi⟩ ⟨j, hj⟩ fun h => hij.ne (congrArg Fin.val h)

theorem dataFor_sends (m : Memory) {r j : Fin w.size} (hnumel : (w.outputs r j).numel ≠ 0) :
    dataFor r (sendsOf m (List.ofFn (w.inputs j)).zipIdx) = [m.data (w.inputs j r)] := by
  rw [dataFor_sendsOf (nodup_zipIdx_ofFn _) (mem_zipIdx_ofFn _ r), if_pos]
  rwa [← w.numel_eq r j]

/-- What the processes receive where the counts fit. -/
theorem data_sendRecv (hruns : Runs Meaning (fun r => w.program true (m r) r) results) {r j : Fin w.size}
    (hnumel : (w.outputs r j).numel ≠ 0) (hcount : (w.outputs r j).count = (w.inputs j r).count) :
    (results r).data (w.outputs r j) = (m j).data (w.inputs j r) := by
  have : Nonempty (Fin w.size) := ⟨r⟩
  rw [funext fun r => program_sendRecv (m r) r, runs_call_iff] at hruns
  obtain ⟨rep, hrep, hruns⟩ := hruns
  rw [runs_ret_iff] at hruns
  obtain ⟨k, hk⟩ := List.mem_iff_getElem?.mp (mem_received hnumel)
  have hrecv : (recvsOf (List.ofFn (w.outputs r)).zipIdx)[k]? =
      some ((j : ℕ), (w.outputs r j).count) := by
    rw [recvsOf, List.getElem?_map]
    exact congrArg (Option.map _) hk
  have hreply := hrep.sendRecv _ _ rfl r k j _ _ hrecv (dataFor_sends (m j) hnumel)
    (by rw [Memory.length_data, hcount])
  rw [hruns]
  exact data_fillAll (pairwise_received r) hk hreply (by rw [Memory.length_data, hcount])

/-- The replies may be chosen where the counts do not fit. -/
theorem exists_runs_sendRecv (m : Fin w.size → Memory) (choice : Fin w.size → Fin w.size → List ℚ)
    (hchoice : ∀ r j, (w.outputs r j).count = (w.inputs j r).count →
      choice r j = (m j).data (w.inputs j r)) :
    ∃ results, Runs Meaning (fun r => w.program true (m r) r) results ∧
      ∀ r j, (w.outputs r j).numel ≠ 0 → (choice r j).length = (w.outputs r j).count →
        (results r).data (w.outputs r j) = choice r j := by
  let rep : Fin w.size → Reply := fun r => (w.received r).map fun x =>
    if h : x.2 < w.size then choice r ⟨x.2, h⟩ else []
  rw [funext fun r => program_sendRecv (m r) r]
  refine ⟨_, .call (Meaning.of_sendRecv _ _ rep fun r k src count data hrecv hdata hlength => ?_) (.ret _),
    fun r j hnumel hlength => ?_⟩
  · rw [recvsOf, List.getElem?_map, Option.map_eq_some_iff] at hrecv
    obtain ⟨x, hk, hx⟩ := hrecv
    obtain ⟨j, rfl, hnumel⟩ := eq_of_mem_received (List.mem_of_getElem? hk)
    obtain ⟨hj, rfl⟩ := Prod.ext_iff.mp hx
    obtain rfl : j = src := Fin.ext hj
    rw [dataFor_sends (m j) hnumel] at hdata
    obtain rfl : (m j).data (w.inputs j r) = data := (List.cons.inj hdata).1
    rw [Memory.length_data] at hlength
    rw [List.getElem?_map, show (w.received r)[k]? = _ from hk, Option.map_some, dif_pos j.isLt,
      hchoice r j hlength.symm]
  · obtain ⟨k, hk⟩ := List.mem_iff_getElem?.mp (mem_received hnumel)
    refine data_fillAll (pairwise_received r) hk ?_ hlength
    rw [List.getElem?_map, hk, Option.map_some, dif_pos j.isLt]

theorem elements_sendRecv (h : w.Agrees) (hruns : Runs Meaning (fun r => w.program true (m r) r) results)
    (r j : Fin w.size) : (results r).elements (w.outputs r j) = (m j).elements (w.inputs j r) := by
  by_cases hnumel : (w.outputs r j).numel = 0
  · rw [elements_of_numel_eq_zero hnumel, elements_of_numel_eq_zero (w.numel_eq r j ▸ hnumel)]
  · obtain ⟨hcount, horder⟩ := h r j hnumel
    exact elements_eq_of_data (admitted_output r j) (isOk_getNumelForHCCL (admitted_input j r)) hcount horder
      (data_sendRecv hruns hnumel hcount)

theorem agrees_of_correct (h : w.Correct) : w.Agrees := by
  intro r j hnumel
  have hcount : (w.outputs r j).count = (w.inputs j r).count := by
    by_contra hcount
    let m : Fin w.size → Memory := fun _ _ _ => 0
    obtain ⟨wrong, hlength, hwrong⟩ := Memory.exists_wrong (admitted_output r j) hnumel
      ((m j).elements (w.inputs j r)) ((Memory.length_elements _ _).trans (w.numel_eq r j).symm)
    obtain ⟨results, hruns, hdata⟩ := exists_runs_sendRecv m
      (fun r' j' => if r' = r ∧ j' = j then wrong else (m j').data (w.inputs j' r'))
      (fun r' j' hcount' => if_neg fun hrj : r' = r ∧ j' = j => hcount (hrj.1 ▸ hrj.2 ▸ hcount'))
    have hdata := hdata r j hnumel
    rw [if_pos ⟨rfl, rfl⟩] at hdata
    exact hwrong (results r) (hdata hlength) ((h true m).2 results hruns r j)
  refine ⟨hcount, ?_⟩
  let m : Fin w.size → Memory := fun _ _ p => (p : ℚ)
  obtain ⟨results, hruns⟩ := (h true m).1
  exact order_eq_of_data (admitted_output r j) hcount (data_sendRecv hruns hnumel hcount)
    ((h true m).2 results hruns r j)

theorem correct_of_agrees (h : w.Agrees) : w.Correct := by
  intro compatible m
  cases compatible with
  | false => exact ⟨exists_runs_flattened m, fun results hruns => elements_flattened hruns⟩
  | true =>
    refine ⟨?_, fun results hruns => elements_sendRecv h hruns⟩
    obtain ⟨results, hruns, -⟩ := exists_runs_sendRecv m (fun r j => (m j).data (w.inputs j r))
      fun _ _ _ => rfl
    exact ⟨results, hruns⟩

end Alltoall

/-! ### `scatter` -/

theorem expandable_self (sizes : List ℕ) : expandable sizes sizes = true := by
  rw [expandable, Nat.sub_self, List.drop_zero, Bool.and_eq_true, decide_eq_true_eq, List.all_eq_true]
  refine ⟨le_rfl, fun x hx => ?_⟩
  have heq : x.1 = x.2 := by
    rw [List.mem_iff_getElem] at hx
    obtain ⟨i, hi, rfl⟩ := hx
    rw [List.getElem_zip]
  simp only [heq, decide_true, Bool.true_or]

theorem assertNoInternalOverlap_congr {t u : Tensor} (hsizes : t.sizes = u.sizes)
    (hstrides : t.strides = u.strides) : assertNoInternalOverlap t = assertNoInternalOverlap u := by
  unfold assertNoInternalOverlap Tensor.isNonOverlappingAndDense Tensor.dims
  rw [hsizes, hstrides]

namespace Scatter

variable {w : Scatter} {m results : Fin w.size → Memory} {uninit : ℕ → ℚ} {r : Fin w.size}

theorem admitted_output (r : Fin w.size) : (w.outputs r).Admitted :=
  PlacedTensor.admitted_of_checkNpuSingleTensor (w.check_outputs r)

theorem assertTypeAndSizesMatch_eq_ok :
    assertTypeAndSizesMatch (w.outputs w.root) (List.ofFn w.inputs) = .ok () := by
  refine Checked.forM_eq_ok.mpr fun t ht => ?_
  obtain ⟨j, rfl⟩ := (List.mem_ofFn' _ _).mp ht
  rw [if_neg (not_not.mpr ((w.scalarType_inputs j).trans (w.scalarType_outputs w.root).symm)),
    if_neg (not_not.mpr (w.sizes_inputs j))]

theorem program_root (compatible : Bool) (m : Memory) : w.program compatible m uninit w.root =
    if compatible then scatterSend w.root (w.outputs w.root) (List.ofFn w.inputs) m
    else scatterFlattened w.size w.root w.root (w.outputs w.root) (List.ofFn w.inputs) m uninit := by
  unfold program scatter
  simp only [if_true]
  rw [if_neg (not_le.mpr w.root.isLt), w.check_outputs, List.length_ofFn, if_neg (not_not.mpr rfl),
    assertTypeAndSizesMatch_eq_ok]
  rfl

theorem program_other (compatible : Bool) (m : Memory) (hr : r ≠ w.root) :
    w.program compatible m uninit r =
      if compatible then scatterRecv w.root (w.outputs r) m
      else scatterFlattened w.size r w.root (w.outputs r) [] m uninit := by
  have hne : (r : ℕ) ≠ w.root := fun h => hr (Fin.ext h)
  unfold program scatter
  rw [if_neg (not_le.mpr w.root.isLt), w.check_outputs, if_neg hr, if_neg hne,
    if_neg (not_not.mpr rfl), if_neg hne]
  rfl

/-! ### The compatible implementation of `scatter` -/

/-- The tensors that the root sends. -/
def sent (w : Scatter) : List (PlacedTensor × ℕ) :=
  (List.ofFn w.inputs).zipIdx.filter fun x => x.2 ≠ w.root

/-- The root can send them. -/
def Sendable (w : Scatter) : Prop :=
  ∀ r, r ≠ w.root → (w.outputs r).numel ≠ 0 → (w.inputs r).toTensor.getNumelForHCCL.isOk = true

theorem mem_sent (hr : r ≠ w.root) : (w.inputs r, (r : ℕ)) ∈ w.sent :=
  List.mem_filter.mpr ⟨mem_zipIdx_ofFn _ r, decide_eq_true fun h => hr (Fin.ext h)⟩

theorem eq_of_mem_sent {x : PlacedTensor × ℕ} (hx : x ∈ w.sent) :
    ∃ r, r ≠ w.root ∧ x = (w.inputs r, (r : ℕ)) := by
  obtain ⟨hmem, hroot⟩ := List.mem_filter.mp hx
  rw [List.mem_zipIdx_iff_getElem?, List.getElem?_ofFn] at hmem
  split_ifs at hmem with hlt
  refine ⟨⟨x.2, hlt⟩, fun h => of_decide_eq_true hroot (congrArg Fin.val h), ?_⟩
  exact Prod.ext (Option.some.inj hmem).symm rfl

/-- The sends of a process. -/
def sends (w : Scatter) (m : Memory) (r : Fin w.size) : List (ℕ × List ℚ) :=
  if r = w.root then sendsOf m w.sent else []

/-- The receives of a process. -/
def recvs (w : Scatter) (r : Fin w.size) : List (ℕ × ℕ) :=
  if r = w.root then [] else recvsOf [(w.outputs r, (w.root : ℕ))]

/-- The memory of a process at the end. -/
def afterRecv (w : Scatter) (m : Memory) (reply : Reply) (r : Fin w.size) : Memory :=
  if r = w.root then m.copy (w.outputs r) (m.elements (w.inputs r))
  else fillReceived [(w.outputs r, (w.root : ℕ))] reply m

theorem program_sendRecv (h : w.Sendable) (m : Memory) (r : Fin w.size) :
    w.program true m uninit r =
      .call (.sendRecv (w.sends m r) (w.recvs r)) fun reply => .ret (w.afterRecv m reply r) := by
  by_cases hr : r = w.root
  · have hchecks : w.sent.forM (fun x => checkTransfer x.1) = .ok () := by
      refine Checked.forM_eq_ok.mpr fun x hx => ?_
      obtain ⟨j, hj, rfl⟩ := eq_of_mem_sent hx
      refine checkTransfer_eq_ok (fun hnumel => h j hj ?_) (by rw [w.scalarType_inputs]; exact w.supported)
      rw [w.numel_eq]
      exact hnumel
    have hcopy : copyTensor m (w.outputs w.root) (w.inputs w.root) =
        .ok (m.copy (w.outputs w.root) (m.elements (w.inputs w.root))) := by
      refine copyTensor_eq_ok (w.numel_eq w.root).symm (.inr ?_)
      rw [w.sizes_inputs]
      exact expandable_self _
    subst hr
    rw [program_root, if_pos rfl]
    unfold scatterSend sends recvs afterRecv
    simp only [if_true]
    rw [List.getElem?_ofFn, dif_pos w.root.isLt, Option.elim_some]
    change Program.check (w.sent.forM fun x => checkTransfer x.1) _ = _
    rw [hchecks, hcopy]
    rfl
  · have hcheck : checkTransfer (w.outputs r) = .ok () :=
      checkTransfer_eq_ok (fun _ => isOk_getNumelForHCCL (admitted_output r))
        (by rw [w.scalarType_outputs]; exact w.supported)
    rw [program_other true m hr, if_pos rfl]
    unfold scatterRecv sends recvs afterRecv
    rw [if_neg hr, if_neg hr, hcheck]
    simp only [if_neg hr]
    rfl

theorem sendable_of_runs (hruns : Runs Meaning (fun r => w.program true (m r) uninit r) results) :
    w.Sendable := by
  intro r hr hnumel
  by_contra hfail
  refine not_fails_of_runs hruns w.root ?_
  rw [program_root, if_pos rfl]
  refine Program.fails_check fun _ hchecks => absurd ?_ hfail
  have hcheck := Checked.forM_eq_ok.mp hchecks _ (mem_sent hr)
  unfold checkTransfer at hcheck
  rw [if_pos (w.numel_eq r ▸ hnumel)] at hcheck
  obtain ⟨count, hcount, -⟩ := Checked.bind_eq_ok.mp hcheck
  rw [hcount]
  rfl

theorem dataFor_sends (m : Memory) (hr : r ≠ w.root) (hnumel : (w.outputs r).numel ≠ 0) :
    dataFor r (w.sends m w.root) = [m.data (w.inputs r)] := by
  rw [sends, if_pos rfl, dataFor_sendsOf ?_ (mem_sent hr), if_pos (w.numel_eq r ▸ hnumel)]
  exact (nodup_zipIdx_ofFn w.inputs).sublist (List.filter_sublist.map _)

theorem filter_received {t : PlacedTensor} (i : ℕ) (h : t.numel ≠ 0) :
    ([(t, i)].filter fun x => x.1.numel ≠ 0) = [(t, i)] := by
  rw [List.filter_cons_of_pos (by simpa using h)]
  rfl

theorem recvs_eq (hr : r ≠ w.root) (hnumel : (w.outputs r).numel ≠ 0) :
    w.recvs r = [((w.root : ℕ), (w.outputs r).count)] := by
  rw [recvs, if_neg hr, recvsOf, filter_received _ hnumel]
  rfl

theorem data_afterRecv (m : Memory) (hr : r ≠ w.root) (hnumel : (w.outputs r).numel ≠ 0) {reply : Reply}
    {vs : List ℚ} (hreply : reply[0]? = some vs) (hlength : vs.length = (w.outputs r).count) :
    (w.afterRecv m reply r).data (w.outputs r) = vs := by
  rw [afterRecv, if_neg hr, fillReceived, filter_received _ hnumel]
  exact data_fillAll (x := (w.outputs r, (w.root : ℕ))) (List.pairwise_singleton _ _) (k := 0) rfl hreply
    hlength

theorem data_sendRecv (hruns : Runs Meaning (fun r => w.program true (m r) uninit r) results)
    (hr : r ≠ w.root) (hnumel : (w.outputs r).numel ≠ 0)
    (hcount : (w.outputs r).count = (w.inputs r).count) :
    (results r).data (w.outputs r) = (m w.root).data (w.inputs r) := by
  have : Nonempty (Fin w.size) := ⟨r⟩
  have hsendable := sendable_of_runs hruns
  rw [funext fun r => program_sendRecv hsendable (m r) r, runs_call_iff] at hruns
  obtain ⟨rep, hrep, hruns⟩ := hruns
  rw [runs_ret_iff] at hruns
  have hreply := hrep.sendRecv _ _ rfl r 0 w.root _ _ (by rw [recvs_eq hr hnumel]; rfl)
    (dataFor_sends (m w.root) hr hnumel) (by rw [Memory.length_data, hcount])
  rw [hruns]
  exact data_afterRecv (m r) hr hnumel hreply (by rw [Memory.length_data, hcount])

theorem elements_sendRecv_root (hruns : Runs Meaning (fun r => w.program true (m r) uninit r) results) :
    (results w.root).elements (w.outputs w.root) = (m w.root).elements (w.inputs w.root) := by
  have : Nonempty (Fin w.size) := ⟨w.root⟩
  have hsendable := sendable_of_runs hruns
  rw [funext fun r => program_sendRecv hsendable (m r) r, runs_call_iff] at hruns
  obtain ⟨rep, -, hruns⟩ := hruns
  rw [runs_ret_iff] at hruns
  rw [hruns]
  beta_reduce
  rw [afterRecv, if_pos rfl]
  exact Memory.elements_copy (admitted_output w.root)
    ((Memory.length_elements _ _).trans (w.numel_eq w.root).symm)

/-- The replies may be chosen where the counts do not fit. -/
theorem exists_runs_sendRecv (uninit : ℕ → ℚ) (h : w.Sendable) (m : Fin w.size → Memory) (choice : Fin w.size → List ℚ)
    (hchoice : ∀ r, (w.outputs r).count = (w.inputs r).count → choice r = (m w.root).data (w.inputs r)) :
    ∃ results, Runs Meaning (fun r => w.program true (m r) uninit r) results ∧
      ∀ r, r ≠ w.root → (w.outputs r).numel ≠ 0 → (choice r).length = (w.outputs r).count →
        (results r).data (w.outputs r) = choice r := by
  rw [funext fun r => program_sendRecv h (m r) r]
  refine ⟨_, .call (Meaning.of_sendRecv _ _ (fun r => [choice r]) fun r k src count data hrecv hdata
    hlength => ?_) (.ret _), fun r hr hnumel hlength => data_afterRecv (m r) hr hnumel rfl hlength⟩
  by_cases hr : r = w.root
  · rw [recvs, if_pos hr] at hrecv
    cases hrecv
  · by_cases hnumel : (w.outputs r).numel ≠ 0
    · rw [recvs_eq hr hnumel] at hrecv
      cases k with
      | zero =>
        obtain ⟨hsrc, rfl⟩ := Prod.ext_iff.mp (Option.some.inj hrecv)
        obtain rfl : w.root = src := Fin.ext hsrc
        rw [dataFor_sends (m w.root) hr hnumel] at hdata
        obtain rfl := (List.cons.inj hdata).1
        rw [Memory.length_data] at hlength
        rw [hchoice r hlength.symm]
        rfl
      | succ k => cases hrecv
    · rw [recvs, if_neg hr, recvsOf, List.filter_cons_of_neg (by simpa using hnumel)] at hrecv
      cases hrecv

/-! ### The default implementation of `scatter` -/

/-- The rows can be written. -/
def Writable (w : Scatter) : Prop :=
  (w.outputs w.root).numel ≠ 0 → (assertNoInternalOverlap w.first.toTensor).isOk = true

/-- The memory of the rows. -/
def rows (w : Scatter) (m : Memory) (uninit : ℕ → ℚ) : ℕ → ℚ :=
  flattenedRows m uninit w.first.toTensor (List.ofFn w.inputs)

/-- What a process gives to HCCL. -/
def rowData (w : Scatter) (m : Memory) (uninit : ℕ → ℚ) (r : Fin w.size) : List ℚ :=
  if r = w.root then (List.range (w.size * (w.outputs r).count)).map (w.rows m uninit) else []

theorem exists_inputs_eq_cons (w : Scatter) :
    ∃ ts, (List.ofFn w.inputs).map PlacedTensor.toTensor = w.first.toTensor :: ts := by
  have hget : ((List.ofFn w.inputs).map PlacedTensor.toTensor)[0]? = some w.first.toTensor := by
    rw [List.getElem?_map, List.getElem?_ofFn, dif_pos w.root.pos]
    rfl
  cases hlist : (List.ofFn w.inputs).map PlacedTensor.toTensor with
  | nil =>
    rw [hlist] at hget
    cases hget
  | cons t ts =>
    rw [hlist] at hget
    obtain rfl : t = w.first.toTensor := Option.some.inj hget
    exact ⟨ts, rfl⟩

theorem check_flattened : ∃ flattened,
    flattenForScatterGather ((List.ofFn w.inputs).map PlacedTensor.toTensor) (w.outputs w.root).toTensor
      w.size 0 = .ok flattened ∧
    assertNoInternalOverlap (flattened.select 0) = assertNoInternalOverlap w.first.toTensor := by
  obtain ⟨ts, hts⟩ := exists_inputs_eq_cons w
  have hne : (List.ofFn w.inputs).map PlacedTensor.toTensor ≠ [] := by
    rw [hts]
    exact nofun
  have hlength : ((List.ofFn w.inputs).map PlacedTensor.toTensor).length = w.size := by
    rw [List.length_map, List.length_ofFn]
  obtain ⟨flattened, hflat, hnew⟩ := flattenForScatterGather_eq_ok (w.outputs w.root).toTensor hne hlength
    fun t ht => by
      obtain ⟨u, hu, rfl⟩ := List.mem_map.mp ht
      obtain ⟨j, rfl⟩ := (List.mem_ofFn' _ _).mp hu
      exact congrArg List.prod (w.sizes_inputs j)
  refine ⟨flattened, hflat, ?_⟩
  rw [hts] at hnew
  cases hnew
  exact assertNoInternalOverlap_congr rfl rfl

theorem program_flattened (h : w.Writable) (m : Memory) (r : Fin w.size) :
    w.program false m uninit r =
      .call (.scatter w.root (w.rowData m uninit r) (w.outputs r).count) fun reply =>
        .ret (m.fill (w.outputs r) (reply.headD [])) := by
  obtain ⟨dataType, htype⟩ := exists_eq_ok_of_isOk w.supported
  by_cases hr : r = w.root
  · subst hr
    obtain ⟨flattened, hflat, hassert⟩ := check_flattened (w := w)
    obtain ⟨ts, hts⟩ := exists_inputs_eq_cons w
    have hcheck : (do
        let flattened ← flattenForScatterGather ((List.ofFn w.inputs).map PlacedTensor.toTensor)
          (w.outputs w.root).toTensor w.size 0
        if (w.outputs w.root).numel ≠ 0 then assertNoInternalOverlap (flattened.select 0)) =
          (.ok () : Except String Unit) := by
      rw [hflat]
      change (if (w.outputs w.root).numel ≠ 0 then assertNoInternalOverlap (flattened.select 0)
        else .ok ()) = .ok ()
      split_ifs with hnumel
      · obtain ⟨_, hok⟩ := exists_eq_ok_of_isOk (h hnumel)
        rw [hassert, hok]
      · rfl
    rw [program_root, if_neg Bool.false_ne_true]
    unfold scatterFlattened rowData
    simp only [if_true]
    rw [hcheck, Allgather.getNumelForHCCL_eq_ok (admitted_output w.root), w.scalarType_outputs, htype, hts]
    rfl
  · have hne : (r : ℕ) ≠ w.root := fun h => hr (Fin.ext h)
    rw [program_other false m hr, if_neg Bool.false_ne_true]
    unfold scatterFlattened rowData
    simp only [if_neg hne, if_neg hr]
    rw [Allgather.getNumelForHCCL_eq_ok (admitted_output r), w.scalarType_outputs, htype]
    rfl

theorem writable_of_runs (hruns : Runs Meaning (fun r => w.program false (m r) uninit r) results) :
    w.Writable := by
  intro hnumel
  by_contra hfail
  refine not_fails_of_runs hruns w.root ?_
  rw [program_root, if_neg Bool.false_ne_true]
  obtain ⟨flattened, hflat, hassert⟩ := check_flattened (w := w)
  refine Program.fails_check fun u hcheck => absurd ?_ hfail
  rw [if_pos rfl, hflat] at hcheck
  change (if (w.outputs w.root).numel ≠ 0 then assertNoInternalOverlap (flattened.select 0)
    else .ok ()) = .ok u at hcheck
  rw [if_pos hnumel, hassert] at hcheck
  rw [hcheck]
  rfl

/-- The memory of the rows after some of the copies. -/
def copyRows (w : Scatter) (m : Memory) (l : List (PlacedTensor × ℕ)) (f : ℕ → ℚ) : ℕ → ℚ :=
  l.foldl (fun f x => assign f (w.rowOrder.map (x.2 * w.first.numel + ·)) (m.elements x.1)) f

theorem length_rowOrder (r : Fin w.size) : w.rowOrder.length = (w.inputs r).numel := by
  rw [rowOrder, Strided.length_positions w.first.length_strides, first, w.sizes_inputs]
  exact congrArg List.prod (w.sizes_inputs r).symm

/-- A place of no row keeps its value. -/
theorem copyRows_of_not_mem {m : Memory} {l : List (PlacedTensor × ℕ)} {f : ℕ → ℚ} {p : ℕ}
    (h : ∀ x ∈ l, p ∉ w.rowOrder.map (x.2 * w.first.numel + ·)) : w.copyRows m l f p = f p := by
  induction l generalizing f with
  | nil => rfl
  | cons x l ih =>
    rw [List.forall_mem_cons] at h
    change w.copyRows m l _ p = f p
    rw [ih h.2]
    exact assign_of_not_mem h.1

/-- A row has the elements of its input. -/
theorem map_copyRows {m : Memory} {l : List (PlacedTensor × ℕ)} {f : ℕ → ℚ} (hnodup : w.rowOrder.Nodup)
    (hlength : ∀ x ∈ l, (m.elements x.1).length = w.rowOrder.length)
    (hapart : l.Pairwise fun x y => (w.rowOrder.map (x.2 * w.first.numel + ·)).Disjoint
      (w.rowOrder.map (y.2 * w.first.numel + ·))) {x : PlacedTensor × ℕ} (hx : x ∈ l) :
    (w.rowOrder.map (x.2 * w.first.numel + ·)).map (w.copyRows m l f) = m.elements x.1 := by
  induction l generalizing f with
  | nil => cases hx
  | cons y l ih =>
    rw [List.forall_mem_cons] at hlength
    rw [List.pairwise_cons] at hapart
    rcases List.mem_cons.mp hx with rfl | hx
    · refine Eq.trans (List.map_congr_left fun p hp => ?_) (map_assign (f := f)
        (hnodup.map (add_right_injective _)) (hlength.1.trans (List.length_map _).symm))
      exact copyRows_of_not_mem fun y hy hp' => hapart.1 y hy hp hp'
    · exact ih hlength.2 hapart.2 hx

/-- A value in the rows is an old one or was put there for an element of an input. -/
theorem copyRows_eq_or {m : Memory} {l : List (PlacedTensor × ℕ)} {f : ℕ → ℚ}
    (hlength : ∀ x ∈ l, (m.elements x.1).length = w.rowOrder.length) (p : ℕ) :
    w.copyRows m l f p = f p ∨ ∃ x ∈ l, ∃ k q : ℕ, w.rowOrder[k]? = some q ∧
      p = x.2 * w.first.numel + q ∧ (m.elements x.1)[k]? = some (w.copyRows m l f p) := by
  induction l generalizing f with
  | nil => exact .inl rfl
  | cons x l ih =>
    rw [List.forall_mem_cons] at hlength
    change w.copyRows m l (assign f (w.rowOrder.map (x.2 * w.first.numel + ·)) (m.elements x.1)) p = f p ∨ _
    rcases ih (f := assign f (w.rowOrder.map (x.2 * w.first.numel + ·)) (m.elements x.1)) hlength.2 with
      heq | ⟨y, hy, hrow⟩
    · rcases assign_eq_or f (hlength.1.trans (List.length_map _).symm) p with ⟨-, hold⟩ | ⟨k, hk, hv⟩
      · exact .inl (heq.trans hold)
      · rw [List.getElem?_map, Option.map_eq_some_iff] at hk
        obtain ⟨q, hq, rfl⟩ := hk
        refine .inr ⟨x, List.mem_cons_self .., k, q, hq, rfl, ?_⟩
        rw [hv]
        exact congrArg some heq.symm
    · exact .inr ⟨y, List.mem_cons_of_mem _ hy, hrow⟩

theorem eq_of_mem_zipIdx {x : PlacedTensor × ℕ} (hx : x ∈ (List.ofFn w.inputs).zipIdx) :
    ∃ r : Fin w.size, x = (w.inputs r, (r : ℕ)) := by
  rw [List.mem_zipIdx_iff_getElem?, List.getElem?_ofFn] at hx
  split_ifs at hx with hlt
  exact ⟨⟨x.2, hlt⟩, Prod.ext (Option.some.inj hx).symm rfl⟩

theorem length_elements_of_mem {m : Memory} : ∀ x ∈ (List.ofFn w.inputs).zipIdx,
    (m.elements x.1).length = w.rowOrder.length := by
  intro x hx
  obtain ⟨r, rfl⟩ := eq_of_mem_zipIdx hx
  rw [Memory.length_elements, length_rowOrder r]

/-- What a process receives where all counts are the same. -/
theorem elements_flattened (hruns : Runs Meaning (fun r => w.program false (m r) uninit r) results)
    (hcounts : ∀ r r', (w.outputs r).count = (w.outputs r').count) (r : Fin w.size) :
    (results r).elements (w.outputs r) =
      ((w.outputs r).order.map (r * (w.outputs r).count + ·)).map (w.rows (m w.root) uninit) := by
  have : Nonempty (Fin w.size) := ⟨r⟩
  have hwritable := writable_of_runs hruns
  rw [funext fun r => program_flattened hwritable (m r) r, runs_call_iff] at hruns
  obtain ⟨rep, hrep, hruns⟩ := hruns
  rw [runs_ret_iff] at hruns
  have hreply := hrep.scatter w.root _ _ rfl hcounts r
  rw [rowData, if_pos rfl, hcounts w.root r] at hreply
  have hle : r * (w.outputs r).count + (w.outputs r).count ≤ w.size * (w.outputs r).count := by
    rw [← Nat.succ_mul]
    exact Nat.mul_le_mul_right _ r.isLt
  have hlength : (slice ((List.range (w.size * (w.outputs r).count)).map (w.rows (m w.root) uninit))
      (r * (w.outputs r).count) (w.outputs r).count).length = (w.outputs r).count := by
    rw [slice, List.length_take, List.length_drop, List.length_map, List.length_range]
    omega
  rw [hruns]
  beta_reduce
  rw [hreply, List.headD_cons, Memory.elements_eq_data (admitted_output r), Memory.data_fill hlength,
    List.map_map]
  refine List.map_congr_left fun i hi => ?_
  have hlt := PlacedTensor.lt_count_of_mem_order (admitted_output r) hi
  rw [slice, List.getD_eq_getElem?_getD, List.getElem?_take_of_lt hlt, List.getElem?_drop,
    List.getElem?_map, List.getElem?_range (by omega), Option.map_some, Option.getD_some,
    Function.comp_apply]

theorem nodup_order {t : PlacedTensor} (h : t.Admitted) : t.order.Nodup := by
  refine (List.nodup_map_iff_inj_on (PlacedTensor.nodup_places h)).mpr fun p hp q hq hpq => ?_
  have hp := PlacedTensor.mem_extent_of_mem_places h hp
  have hq := PlacedTensor.mem_extent_of_mem_places h hq
  rw [PlacedTensor.extent, List.mem_range'_1] at hp hq
  omega

theorem map_rows (h : w.RowsFit) (m : Memory) (uninit : ℕ → ℚ) (r : Fin w.size) :
    (w.rowOrder.map (r * w.first.numel + ·)).map (w.rows m uninit) = m.elements (w.inputs r) := by
  have hnodup : w.rowOrder.Nodup := by
    refine List.Nodup.of_map (r * w.first.numel + ·) ?_
    rw [← h.order r]
    exact (nodup_order (admitted_output r)).map (add_right_injective _)
  refine map_copyRows hnodup length_elements_of_mem ?_ (mem_zipIdx_ofFn w.inputs r)
  refine List.pairwise_iff_getElem.mpr fun i j hi hj hij p hp hq => ?_
  rw [List.length_zipIdx, List.length_ofFn] at hi hj
  rw [List.getElem_zipIdx, List.mem_map] at hp hq
  obtain ⟨a, ha, rfl⟩ := hp
  obtain ⟨b, hb, hab⟩ := hq
  have heq := h.apart ⟨i, hi⟩ ⟨j, hj⟩ a ha b hb (by simpa using hab.symm)
  exact hij.ne (congrArg Fin.val heq)

theorem numel_root (r : Fin w.size) : (w.outputs r).numel = (w.outputs w.root).numel := by
  rw [w.numel_eq]
  exact congrArg List.prod (w.sizes_inputs r)

/-- The replies may be chosen where the counts are not all the same. -/
theorem exists_runs_flattened (uninit : ℕ → ℚ) (h : w.Writable) (m : Fin w.size → Memory) (choice : Fin w.size → List ℚ)
    (hchoice : (∀ r r', (w.outputs r).count = (w.outputs r').count) → ∀ r, choice r =
      slice (w.rowData (m w.root) uninit w.root) (r * (w.outputs r).count) (w.outputs r).count) :
    ∃ results, Runs Meaning (fun r => w.program false (m r) uninit r) results ∧
      ∀ r, (choice r).length = (w.outputs r).count → (results r).data (w.outputs r) = choice r := by
  rw [funext fun r => program_flattened h (m r) r]
  refine ⟨_, .call (Meaning.of_scatter w.root _ _ (fun r => [choice r]) fun hcounts r => ?_) (.ret _),
    fun r hlength => Memory.data_fill hlength⟩
  rw [hchoice hcounts r]

theorem correct_of_agrees (h : w.Agrees) : w.Correct := by
  obtain ⟨hsendable, hfits, hrows⟩ := h
  intro compatible m uninit
  cases compatible with
  | true =>
    refine ⟨?_, fun results hruns r => ?_⟩
    · obtain ⟨results, hruns, -⟩ := exists_runs_sendRecv uninit hsendable m
        (fun r => (m w.root).data (w.inputs r)) fun _ _ => rfl
      exact ⟨results, hruns⟩
    · by_cases hr : r = w.root
      · rw [hr]
        exact elements_sendRecv_root hruns
      · by_cases hnumel : (w.outputs r).numel = 0
        · rw [elements_of_numel_eq_zero hnumel, elements_of_numel_eq_zero (w.numel_eq r ▸ hnumel)]
        · obtain ⟨hcount, horder⟩ := hfits r hr hnumel
          exact elements_eq_of_data (admitted_output r) (hsendable r hr hnumel) hcount horder
            (data_sendRecv hruns hr hnumel hcount)
  | false =>
    refine ⟨?_, fun results hruns r => ?_⟩
    · obtain ⟨results, hruns, -⟩ := exists_runs_flattened uninit
        (fun hnumel => (hrows hnumel).written) m
        (fun r => slice (w.rowData (m w.root) uninit w.root) (r * (w.outputs r).count) (w.outputs r).count)
        fun _ _ => rfl
      exact ⟨results, hruns⟩
    · by_cases hnumel : (w.outputs r).numel = 0
      · rw [elements_of_numel_eq_zero hnumel, elements_of_numel_eq_zero (w.numel_eq r ▸ hnumel)]
      · have hrows := hrows (numel_root r ▸ hnumel)
        rw [elements_flattened hruns hrows.counts r, hrows.order r]
        exact map_rows hrows _ _ r

/-! ### The condition of the default implementation is needed -/

/-- Memory that has a value of its own in each place. -/
def marks : Memory :=
  fun s p => ((Nat.pair s p + 1 : ℕ) : ℚ)

theorem getElem?_elements_marks {t : PlacedTensor} {k : ℕ} {v : ℚ} :
    (marks.elements t)[k]? = some v ↔ ∃ p, t.places[k]? = some p ∧ v = marks t.storage p := by
  rw [Memory.elements, List.getElem?_map, Option.map_eq_some_iff]
  simp only [eq_comm]

theorem marks_injective {s s' p p' : ℕ} (h : marks s p = marks s' p') : s = s' ∧ p = p' := by
  have hpair : Nat.pair s p = Nat.pair s' p' := Nat.succ_injective (Nat.cast_injective h)
  exact Nat.pair_eq_pair.mp hpair

/-- A marked element that is read was put there for itself. -/
theorem place_of_rows (hdistinct : w.Distinct) {p k : ℕ} (r : Fin w.size)
    (h : (marks.elements (w.inputs r))[k]? = some (w.rows marks (fun _ => 0) p)) :
    ∃ q, w.rowOrder[k]? = some q ∧ p = r * w.first.numel + q := by
  obtain ⟨place, hplace, hmark⟩ := getElem?_elements_marks.mp h
  rcases copyRows_eq_or (w := w) (m := marks) (f := fun _ => 0) length_elements_of_mem p with
    hold | ⟨x, hx, k', q, hq, hp, hv⟩
  · have hzero : marks (w.inputs r).storage place = 0 := hmark.symm.trans hold
    exact absurd hzero (Nat.cast_ne_zero.mpr (Nat.succ_ne_zero _))
  · obtain ⟨r', rfl⟩ := eq_of_mem_zipIdx hx
    obtain ⟨place', hplace', hmark'⟩ := getElem?_elements_marks.mp hv
    obtain ⟨hs, rfl⟩ := marks_injective (hmark.symm.trans hmark')
    obtain ⟨rfl, rfl⟩ := hdistinct r r' k k' place hs hplace hplace'
    exact ⟨q, hq, hp⟩

theorem rowsFit_of_correct (hdistinct : w.Distinct) (h : w.Correct)
    (hnumel : (w.outputs w.root).numel ≠ 0) : w.RowsFit := by
  have hnumel' : ∀ r, (w.outputs r).numel ≠ 0 := fun r => numel_root r ▸ hnumel
  obtain ⟨results, hruns⟩ := (h false (fun _ => marks) fun _ => 0).1
  have hwritable := writable_of_runs hruns
  have hcounts : ∀ r r', (w.outputs r).count = (w.outputs r').count := by
    by_contra hcounts
    obtain ⟨wrong, hlength, hwrong⟩ := Memory.exists_wrong (admitted_output w.root) hnumel
      (marks.elements (w.inputs w.root)) ((Memory.length_elements _ _).trans (w.numel_eq w.root).symm)
    obtain ⟨results, hruns, hdata⟩ := exists_runs_flattened (fun _ => 0) hwritable
      (fun _ => marks) (fun _ => wrong) fun hall => absurd hall hcounts
    exact hwrong _ (hdata w.root hlength) ((h false (fun _ => marks) fun _ => 0).2 results hruns w.root)
  have helements : ∀ r, ((w.outputs r).order.map (r * (w.outputs r).count + ·)).map
      (w.rows marks fun _ => 0) = marks.elements (w.inputs r) := by
    intro r
    rw [← elements_flattened hruns hcounts r]
    exact (h false (fun _ => marks) fun _ => 0).2 results hruns r
  -- Element `k` of output `r` is read where element `k` of row `r` is.
  have hread : ∀ (r : Fin w.size) (k : ℕ) i, (w.outputs r).order[k]? = some i →
      ∃ q, w.rowOrder[k]? = some q ∧ r * (w.outputs r).count + i = r * w.first.numel + q := by
    intro r k i hi
    refine place_of_rows hdistinct r ?_
    rw [← helements r, List.getElem?_map, List.getElem?_map, hi]
    rfl
  have hlength : ∀ r, (w.outputs r).order.length = w.rowOrder.length := by
    intro r
    rw [PlacedTensor.order, List.length_map, PlacedTensor.length_places, length_rowOrder r, w.numel_eq]
  have horder : ∀ r, (w.outputs r).order.map (r * (w.outputs r).count + ·) =
      w.rowOrder.map (r * w.first.numel + ·) := by
    intro r
    refine List.ext_getElem (by rw [List.length_map, List.length_map, hlength]) fun k hk hk' => ?_
    rw [List.length_map] at hk hk'
    obtain ⟨q, hq, heq⟩ := hread r k _ (List.getElem?_eq_getElem hk)
    rw [List.getElem_map, List.getElem_map, heq]
    rw [List.getElem?_eq_getElem hk'] at hq
    rw [Option.some.inj hq]
  refine ⟨hwritable hnumel, fun r r' p hp q hq hpq => ?_, hcounts, horder⟩
  obtain ⟨k, hk⟩ := List.mem_iff_getElem?.mp hp
  obtain ⟨k', hk'⟩ := List.mem_iff_getElem?.mp hq
  have hvalue : ∀ (r : Fin w.size) (k : ℕ) p, w.rowOrder[k]? = some p →
      (marks.elements (w.inputs r))[k]? = some (w.rows marks (fun _ => 0) (r * w.first.numel + p)) := by
    intro r k p hk
    rw [← helements r, horder r, List.getElem?_map, List.getElem?_map, hk]
    rfl
  obtain ⟨place, hplace, hmark⟩ := getElem?_elements_marks.mp (hvalue r k p hk)
  obtain ⟨place', hplace', hmark'⟩ := getElem?_elements_marks.mp (hvalue r' k' q hk')
  rw [hpq] at hmark
  obtain ⟨hs, rfl⟩ := marks_injective (hmark.symm.trans hmark')
  exact (hdistinct r r' k k' place hs hplace hplace').1

theorem agrees_of_correct (hdistinct : w.Distinct) (h : w.Correct) : w.Agrees := by
  have hsendable : w.Sendable := by
    obtain ⟨results, hruns⟩ := (h true (fun _ => marks) fun _ => 0).1
    exact sendable_of_runs hruns
  refine ⟨hsendable, fun r hr hnumel => ?_, rowsFit_of_correct hdistinct h⟩
  have hcount : (w.outputs r).count = (w.inputs r).count := by
    by_contra hcount
    let m : Fin w.size → Memory := fun _ _ _ => 0
    obtain ⟨wrong, hlength, hwrong⟩ := Memory.exists_wrong (admitted_output r) hnumel
      ((m w.root).elements (w.inputs r)) ((Memory.length_elements _ _).trans (w.numel_eq r).symm)
    obtain ⟨results, hruns, hdata⟩ := exists_runs_sendRecv (fun _ => 0) hsendable m
      (fun r' => if r' = r then wrong else (m w.root).data (w.inputs r'))
      (fun r' hcount' => if_neg fun hrr : r' = r => hcount (hrr ▸ hcount'))
    have hdata := hdata r hr hnumel
    rw [if_pos rfl] at hdata
    exact hwrong (results r) (hdata hlength) ((h true m fun _ => 0).2 results hruns r)
  refine ⟨hcount, ?_⟩
  obtain ⟨results, hruns⟩ := (h true (fun _ _ p => (p : ℚ)) fun _ => 0).1
  exact order_eq_of_data (admitted_output r) hcount (data_sendRecv hruns hr hnumel hcount)
    ((h true (fun _ _ p => (p : ℚ)) fun _ => 0).2 results hruns r)

end Scatter

namespace Exchange

/-- Both implementations give the outputs the elements they are for where the layouts agree, and, for inputs
that have each element in a place of its own, only there. -/
theorem correct_iff_agrees (call : Exchange) :
    (call.Agrees → call.Correct) ∧ (call.Distinct → call.Correct → call.Agrees) := by
  cases call with
  | alltoall w => exact ⟨Alltoall.correct_of_agrees, fun _ => Alltoall.agrees_of_correct⟩
  | scatter w => exact ⟨Scatter.correct_of_agrees, Scatter.agrees_of_correct⟩

/-- Four floats of sizes `1, 2, 1, 2` with the given strides. -/
def image (storage : ℕ) (strides : List ℕ) (h : strides.length = 4) : PlacedTensor :=
  .ofBase { storage, sizes := [1, 2, 1, 2], strides, length_strides := h } rfl

/-- Two processes that send `channels_last` tensors and receive them in contiguous ones. -/
def channelsLast : Alltoall where
  size := 2
  scalarType := .float
  inputs _ j := image (2 + j) [4, 1, 4, 2] rfl
  outputs _ j := image j [4, 2, 2, 1] rfl
  supported := rfl
  scalarType_inputs _ _ := rfl
  scalarType_outputs _ _ := rfl
  check_inputs _ _ := rfl
  check_outputs _ _ := rfl
  numel_eq _ _ := rfl
  apart_outputs _ i j hij hs := absurd (Fin.ext hs) hij
  apart_inputs _ i j hs := absurd hs (by change (i : ℕ) ≠ 2 + j; omega)

theorem not_correct_channelsLast : ¬∀ call : Exchange, call.Correct := by
  intro hall
  have hagrees : channelsLast.Agrees := Alltoall.agrees_of_correct (hall (.alltoall channelsLast))
  have horder := (hagrees (0 : Fin 2) (0 : Fin 2) (by decide)).2
  revert horder
  decide

end Exchange

end TorchNpu.Distributed
