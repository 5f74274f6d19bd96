/-
  What `allgather` gives to the processes of a group.

  Where no process gets an error and the data is in the order that HCCL assumes, each slot has the elements of
  the input of its rank, on all paths.  An input whose count is not that of the slot of its rank is seen by the
  check of its path only in part: the padded counts may agree, `HcclAllGatherV` is given both counts unchecked,
  and `copy_` expands.
-/
import TorchNpu.Distributed.Gather
import TorchNpu.Distributed.Spec.Layout
import Mathlib.Data.Fintype.Basic
import Mathlib.Tactic.FinCases

/-!
  The promises of HCCL can be kept: a reply for each kind of call.
-/

namespace TorchNpu.Distributed

/-! ### Parts of a buffer -/

theorem length_displacements (displ : ℕ) (counts : List ℕ) :
    (displacements displ counts).length = counts.length := by
  induction counts generalizing displ with
  | nil => rfl
  | cons count counts ih => rw [displacements, List.length_cons, List.length_cons, ih]

/-- The parts of a buffer, after what comes before them. -/
theorem slice_displacements (before : List ℚ) (parts : List (List ℚ)) (j : ℕ) (part : List ℚ)
    (hpart : parts[j]? = some part) :
    slice (before ++ parts.flatten) ((displacements before.length (parts.map List.length)).getD j 0)
      part.length = part := by
  induction parts generalizing before j with
  | nil => cases hpart
  | cons head parts ih =>
    rw [List.flatten_cons]
    cases j with
    | zero =>
      obtain rfl : head = part := Option.some.inj hpart
      rw [List.map_cons, displacements, List.getD_cons_zero, slice, List.drop_left, List.take_left]
    | succ j =>
      rw [List.map_cons, displacements, List.getD_cons_succ, ← List.length_append, ← List.append_assoc]
      exact ih (before ++ head) j hpart

theorem slice_flatten {parts : List (List ℚ)} {j : ℕ} {part : List ℚ} (hpart : parts[j]? = some part) :
    slice parts.flatten ((displacements 0 (parts.map List.length)).getD j 0) part.length = part :=
  slice_displacements [] parts j part hpart

/-- Parts of one length. -/
theorem drop_flatten {parts : List (List ℚ)} {k : ℕ} (hlength : ∀ part ∈ parts, part.length = k) (j : ℕ) :
    parts.flatten.drop (j * k) = (parts.drop j).flatten := by
  induction j generalizing parts with
  | zero => rw [Nat.zero_mul, List.drop_zero, List.drop_zero]
  | succ j ih =>
    cases parts with
    | nil => rw [List.flatten_nil, List.drop_nil, List.drop_nil, List.flatten_nil]
    | cons head parts =>
      rw [List.forall_mem_cons] at hlength
      rw [List.flatten_cons, List.drop_succ_cons, ← ih hlength.2, Nat.succ_mul, Nat.add_comm,
        ← hlength.1, List.drop_length_add_append]

theorem slice_flatten_of_length {parts : List (List ℚ)} {k j count : ℕ} {part : List ℚ}
    (hlength : ∀ part ∈ parts, part.length = k) (hpart : parts[j]? = some part) (hcount : count ≤ k) :
    slice parts.flatten (j * k) count = part.take count := by
  obtain ⟨hj, rfl⟩ := List.getElem?_eq_some_iff.mp hpart
  rw [slice, drop_flatten hlength, List.drop_eq_getElem_cons hj, List.flatten_cons,
    List.take_append_of_le_length]
  rw [hlength _ (List.getElem_mem hj)]
  exact hcount

/-! ### Replies -/

variable {n : ℕ}

/-- The replies of a call of one kind. -/
theorem Meaning.of_allGatherV (send : Fin n → List ℚ) (counts displs : Fin n → List ℕ)
    (rep : Fin n → Reply) (hrep : ∀ r, ∃ buffer, rep r = [buffer] ∧
      ∀ j : Fin n, slice buffer ((displs r).getD j 0) ((counts r).getD j 0) = send j) :
    Meaning (fun r => .allGatherV (send r) (counts r) (displs r)) rep where
  allGather _ h _ r := nomatch congrFun h r
  allGatherV := by
    intro send' counts' displs' h _ r
    obtain rfl : send = send' := funext fun i => (Request.allGatherV.inj (congrFun h i)).1
    obtain rfl : counts = counts' := funext fun i => (Request.allGatherV.inj (congrFun h i)).2.1
    obtain rfl : displs = displs' := funext fun i => (Request.allGatherV.inj (congrFun h i)).2.2
    exact hrep r
  broadcast _ _ h r := nomatch congrFun h r
  sendRecv _ _ h r := nomatch congrFun h r
  alltoAllV _ _ _ _ _ h _ r := nomatch congrFun h r
  scatter _ _ _ h _ r := nomatch congrFun h r

theorem Meaning.of_broadcast (root : Fin n) (buffer : Fin n → List ℚ) (rep : Fin n → Reply)
    (hrep : ∀ r, (buffer r).length = (buffer root).length → rep r = [buffer root]) :
    Meaning (fun r => .broadcast root (buffer r)) rep where
  allGather _ h _ r := nomatch congrFun h r
  allGatherV _ _ _ h _ r := nomatch congrFun h r
  broadcast := by
    intro root' buffer' h r
    obtain rfl : buffer = buffer' := funext fun i => (Request.broadcast.inj (congrFun h i)).2
    obtain rfl : root = root' := Fin.ext (Request.broadcast.inj (congrFun h r)).1
    exact hrep r
  sendRecv _ _ h r := nomatch congrFun h r
  alltoAllV _ _ _ _ _ h _ r := nomatch congrFun h r
  scatter _ _ _ h _ r := nomatch congrFun h r

theorem Meaning.of_sendRecv (sends : Fin n → List (ℕ × List ℚ)) (recvs : Fin n → List (ℕ × ℕ))
    (rep : Fin n → Reply) (hrep : ∀ r (k : ℕ) (src : Fin n) count data, (recvs r)[k]? = some (↑src, count) →
      dataFor r (sends src) = [data] → data.length = count → (rep r)[k]? = some data) :
    Meaning (fun r => .sendRecv (sends r) (recvs r)) rep where
  allGather _ h _ r := nomatch congrFun h r
  allGatherV _ _ _ h _ r := nomatch congrFun h r
  broadcast _ _ h r := nomatch congrFun h r
  sendRecv := by
    intro sends' recvs' h
    obtain rfl : sends = sends' := funext fun i => (Request.sendRecv.inj (congrFun h i)).1
    obtain rfl : recvs = recvs' := funext fun i => (Request.sendRecv.inj (congrFun h i)).2
    exact hrep
  alltoAllV _ _ _ _ _ h _ r := nomatch congrFun h r
  scatter _ _ _ h _ r := nomatch congrFun h r

theorem Meaning.of_alltoAllV (send : Fin n → List ℚ)
    (sendCounts sendDispls recvCounts recvDispls : Fin n → List ℕ) (rep : Fin n → Reply)
    (hrep : ∀ r, ∃ buffer, rep r = [buffer] ∧
      ∀ j : Fin n, slice buffer ((recvDispls r).getD j 0) ((recvCounts r).getD j 0) =
        slice (send j) ((sendDispls j).getD r 0) ((sendCounts j).getD r 0)) :
    Meaning (fun r => .alltoAllV (send r) (sendCounts r) (sendDispls r) (recvCounts r) (recvDispls r))
      rep where
  allGather _ h _ r := nomatch congrFun h r
  allGatherV _ _ _ h _ r := nomatch congrFun h r
  broadcast _ _ h r := nomatch congrFun h r
  sendRecv _ _ h r := nomatch congrFun h r
  alltoAllV := by
    intro send' sendCounts' sendDispls' recvCounts' recvDispls' h _ r
    have hinj := fun i => Request.alltoAllV.inj (congrFun h i)
    obtain rfl : send = send' := funext fun i => (hinj i).1
    obtain rfl : sendCounts = sendCounts' := funext fun i => (hinj i).2.1
    obtain rfl : sendDispls = sendDispls' := funext fun i => (hinj i).2.2.1
    obtain rfl : recvCounts = recvCounts' := funext fun i => (hinj i).2.2.2.1
    obtain rfl : recvDispls = recvDispls' := funext fun i => (hinj i).2.2.2.2
    exact hrep r
  scatter _ _ _ h _ r := nomatch congrFun h r

theorem Meaning.of_scatter (root : Fin n) (send : Fin n → List ℚ) (counts : Fin n → ℕ) (rep : Fin n → Reply)
    (hrep : (∀ r r', counts r = counts r') → ∀ r, rep r = [slice (send root) (r * counts r) (counts r)]) :
    Meaning (fun r => .scatter root (send r) (counts r)) rep where
  allGather _ h _ r := nomatch congrFun h r
  allGatherV _ _ _ h _ r := nomatch congrFun h r
  broadcast _ _ h r := nomatch congrFun h r
  sendRecv _ _ h r := nomatch congrFun h r
  alltoAllV _ _ _ _ _ h _ r := nomatch congrFun h r
  scatter := by
    intro root' send' counts' h hcounts r
    obtain rfl : send = send' := funext fun i => (Request.scatter.inj (congrFun h i)).2.1
    obtain rfl : counts = counts' := funext fun i => (Request.scatter.inj (congrFun h i)).2.2
    obtain rfl : root = root' := Fin.ext (Request.scatter.inj (congrFun h r)).1
    exact hrep hcounts r

end TorchNpu.Distributed

namespace TorchNpu.Distributed

open Spmd Assign

/-! ### The processes of a group -/

/-- A call of `allgather` by the processes of a group, with the sizes of the slots of each rank, one element
type, and tensors that do not share memory; the input may be the slot of its rank. -/
structure Allgather where
  size : ℕ
  platform : Platform
  scalarType : ScalarType
  shapes : List (List ℕ)
  inputs : Fin size → PlacedTensor
  outputs : Fin size → List PlacedTensor
  length_shapes : shapes.length = size
  sizes_outputs : ∀ r, (outputs r).map (fun t => t.sizes) = shapes
  scalarType_inputs : ∀ r, (inputs r).scalarType = scalarType
  scalarType_outputs : ∀ r, ∀ t ∈ outputs r, t.scalarType = scalarType
  apart_outputs : ∀ r, (outputs r).Pairwise PlacedTensor.Apart
  apart_inputs : ∀ (r j : Fin size) t, (outputs r)[(j : ℕ)]? = some t →
    t.Apart (inputs r) ∨ j = r ∧ t = inputs r

namespace Allgather

variable (w : Allgather)

def program (m : Memory) (r : Fin w.size) : Process :=
  allgather w.platform w.size r (w.outputs r) (w.inputs r) m

/-- The path of the group. -/
def path (r : Fin w.size) : GatherPath :=
  gatherPath w.platform (w.outputs r)

/-- The count of the input is not that of the slot of its rank. -/
def Mismatched (r : Fin w.size) : Prop :=
  ∃ t, (w.outputs r)[(r : ℕ)]? = some t ∧ (w.inputs r).numel ≠ t.numel

/-- All processes take the same path; a process whose input has the wrong count gets an error; and where all
calls are complete, each slot has the elements of the input of its rank. -/
def Correct : Prop :=
  (∀ r r', w.path r = w.path r') ∧
    (∀ m r, w.Mismatched r → (w.program m r).Fails) ∧
      ∀ (m : Fin w.size → Memory) results, Runs Meaning (fun r => w.program (m r) r) results →
        ∀ (r j : Fin w.size) t, (w.outputs r)[(j : ℕ)]? = some t →
          (results r).elements t = (m j).elements (w.inputs j)

/-- No check of the process fails. -/
def Accepts (r : Fin w.size) : Prop :=
  checkNpuTensorsSameDevice ((w.outputs r).map PlacedTensor.toTensor) = .ok () ∧
    checkNpuTensorsDifferentDevices [(w.inputs r).toTensor] = .ok () ∧
      (getHcclDataType w.scalarType).isOk = true ∧
        match w.path r with
        | .flattened => ∀ t ∈ w.outputs r,
          t.numel + numAdd w.platform t.toTensor =
            (w.inputs r).numel + numAdd w.platform (w.inputs r).toTensor
        | .allGatherV => w.platform.hcclAllGatherVChecks = true → ¬w.Mismatched r
        | .broadcast => ∀ t, (w.outputs r)[(r : ℕ)]? = some t →
          t.numel = 0 ∨ expandable (w.inputs r).sizes t.sizes = true

/-- HCCL is given the elements in the order of the indices, or in an order all processes agree on. -/
def InOrder : Prop :=
  ∀ r, match w.path r with
    | .flattened => True
    | .allGatherV => (w.inputs r).isContiguous = true →
      (w.inputs r).places = List.range' (w.inputs r).storageOffset (w.inputs r).numel
    | .broadcast => ∀ (j : Fin w.size) t u, (w.outputs r)[(j : ℕ)]? = some t →
      (w.outputs j)[(j : ℕ)]? = some u → t.numel ≠ 0 → t.count = u.count ∧ t.order = u.order

/-- The condition: the checks see every wrong count, and where they find nothing the data is in order. -/
def Guarded : Prop :=
  (∀ r, w.Mismatched r → ¬w.Accepts r) ∧ ((∀ r, w.Accepts r) → w.InOrder)

end Allgather

/-! ### Padding -/

theorem numel_byteAlignment (platform : Platform) (t : Tensor) :
    (byteAlignment platform t).numel = t.numel + numAdd platform t := by
  simp only [byteAlignment, newTensor, Tensor.numel, List.prod_cons, List.prod_nil, Nat.one_mul,
    Nat.mul_one]

theorem length_padded {platform : Platform} {t : PlacedTensor} (m : Memory) :
    (padded platform t.toTensor (m.elements t)).length = t.numel + numAdd platform t.toTensor := by
  rw [padded, List.length_append, List.length_replicate, Memory.length_elements]

theorem take_padded {platform : Platform} {t : PlacedTensor} (m : Memory) :
    (padded platform t.toTensor (m.elements t)).take t.numel = m.elements t := by
  rw [padded, ← Memory.length_elements m t, List.take_left]

/-- Tensors of one type and one count are padded alike. -/
theorem numAdd_congr {platform : Platform} {t u : Tensor} (hnumel : t.numel = u.numel)
    (htype : t.scalarType = u.scalarType) : numAdd platform t = numAdd platform u := by
  unfold numAdd
  rw [hnumel, htype]

theorem isDenseIn_newLikeFlat (n k : ℕ) :
    Tensor.isDenseIn [(k, 1), (1, k), (n, k)] 1 = true := by
  simp only [Tensor.isDenseIn, if_true, Nat.one_mul]
  by_cases hk : k = 1
  · simp [hk]
  · simp [hk]

/-- The gathered tensor passes its check. -/
theorem check_newLikeFlat (platform : Platform) (ts : List Tensor) {flattened : Tensor}
    (h : newLikeFlat 0 (ts.map (byteAlignment platform)) = .ok flattened) :
    checkNpuTensorsDifferentDevices [flattened] = .ok () := by
  cases ts with
  | nil => cases h
  | cons t ts =>
    cases h
    have hdense := isDenseIn_newLikeFlat (ts.length + 1) (t.numel + numAdd platform t)
    simp only [byteAlignment, newTensor, checkNpuTensorsDifferentDevices, checkNpuSingleTensor,
      Tensor.isContiguousAsSuggested, Tensor.channelsLastDims, Tensor.dims, Tensor.isContiguous,
      Strided.contiguousStrides, Tensor.numel, List.prod_cons, List.prod_nil, Nat.mul_one, Nat.one_mul,
      List.zip_cons_cons, List.zip_nil_left, List.reverse_cons, List.reverse_nil, List.nil_append,
      List.cons_append, List.length_cons, List.length_map] at hdense ⊢
    rw [hdense, Bool.or_true, if_pos rfl]
    rfl

/-- The check of the flattened path. -/
theorem flattenForScatterGather_eq_ok {ts : List Tensor} (other : Tensor) {size : ℕ}
    (hne : ts ≠ []) (hlength : ts.length = size) (hnumel : ∀ t ∈ ts, t.numel = other.numel) :
    ∃ flattened, flattenForScatterGather ts other size 0 = .ok flattened ∧
      newLikeFlat 0 ts = .ok flattened := by
  have hany : (ts.any fun t => decide (t.numel ≠ other.numel)) = false := by
    rw [List.any_eq_false]
    intro t ht
    rw [hnumel t ht]
    simp
  cases ts with
  | nil => exact absurd rfl hne
  | cons t ts =>
    refine ⟨_, ?_, rfl⟩
    unfold flattenForScatterGather
    rw [if_neg (not_not.mpr hlength), hany]
    rfl

theorem numel_of_flattenForScatterGather {ts : List Tensor} {other flattened : Tensor} {size : ℕ}
    (h : flattenForScatterGather ts other size 0 = .ok flattened) : ∀ t ∈ ts, t.numel = other.numel := by
  intro t ht
  by_contra hne
  unfold flattenForScatterGather at h
  have hany : (ts.any fun t => decide (t.numel ≠ other.numel)) = true :=
    List.any_eq_true.mpr ⟨t, ht, by simpa using hne⟩
  rw [hany] at h
  split_ifs at h with hlength hnumel
  exact hnumel rfl

/-! ### Copies to the slots -/

section Slots

variable {outputs : List PlacedTensor} {displs : List ℕ} {flat : List ℚ} {t u : PlacedTensor}

theorem elements_congr {m m' : Memory} (ht : t.Admitted)
    (h : ∀ p ∈ t.extent, m' t.storage p = m t.storage p) : m'.elements t = m.elements t :=
  List.map_congr_left fun p hp => h p (PlacedTensor.mem_extent_of_mem_places ht hp)

theorem copySlots_of_apart (m : Memory) (houtputs : ∀ t ∈ outputs, t.Admitted)
    (hapart : ∀ t ∈ outputs, t.Apart u) {p : ℕ} (hp : p ∈ u.extent) :
    copySlots flat displs outputs m u.storage p = m u.storage p := by
  unfold copySlots
  induction outputs generalizing displs m with
  | nil => rfl
  | cons t outputs ih =>
    rw [List.forall_mem_cons] at houtputs hapart
    cases displs with
    | nil => rfl
    | cons displ displs =>
      rw [List.zip_cons_cons, List.foldl_cons, ih _ houtputs.2 hapart.2]
      exact Memory.copy_of_apart houtputs.1 hapart.1 hp

/-- A slot has the part of the gathered tensor that it was given. -/
theorem elements_copySlots (m : Memory) (houtputs : ∀ t ∈ outputs, t.Admitted)
    (hapart : outputs.Pairwise PlacedTensor.Apart) (hlength : displs.length = outputs.length) {k : ℕ}
    (ht : outputs[k]? = some t) {vs : List ℚ} (hvs : vs.length = t.numel)
    (hslice : slice flat (displs.getD k 0) t.numel = vs) :
    (copySlots flat displs outputs m).elements t = vs := by
  induction outputs generalizing displs m k with
  | nil => cases ht
  | cons u outputs ih =>
    obtain ⟨displ, displs, rfl⟩ := List.exists_cons_of_length_eq_add_one hlength
    rw [List.forall_mem_cons] at houtputs
    rw [List.pairwise_cons] at hapart
    change (copySlots flat displs outputs (m.copy u (slice flat displ u.numel))).elements t = vs
    cases k with
    | zero =>
      obtain rfl : u = t := Option.some.inj ht
      rw [List.getD_cons_zero] at hslice
      rw [elements_congr houtputs.1 fun p hp => copySlots_of_apart _ houtputs.2
        (fun t ht => PlacedTensor.apart_symm (hapart.1 t ht)) hp, hslice]
      exact Memory.elements_copy houtputs.1 hvs
    | succ k =>
      rw [List.getD_cons_succ] at hslice
      exact ih _ houtputs.2 hapart.2 (Nat.succ_inj.mp hlength) ht hslice

end Slots

/-! ### The programs of the processes -/

theorem exists_eq_ok_of_isOk {α : Type} {x : Except String α} (h : x.isOk = true) : ∃ a, x = .ok a := by
  cases x with
  | error e => cases h
  | ok a => exact ⟨a, rfl⟩

theorem checkSameSize_congr {ts us : List Tensor} (h : ts.map Tensor.sizes = us.map Tensor.sizes) :
    checkSameSize ts = checkSameSize us := by
  have hall : ∀ (sizes : List ℕ) (ts : List Tensor), (ts.all fun t => decide (t.sizes = sizes)) =
      (ts.map Tensor.sizes).all fun x => decide (x = sizes) := fun sizes ts => by
    rw [List.all_map]
    rfl
  cases ts with
  | nil =>
    rw [List.map_nil, eq_comm, List.map_eq_nil_iff] at h
    rw [h]
  | cons t ts =>
    cases us with
    | nil => cases h
    | cons u us =>
      have hsizes : t.sizes = u.sizes := (List.cons.inj h).1
      rw [checkSameSize, checkSameSize, hall, hall, h, hsizes]

theorem hasEmptyTensor_congr {ts us : List PlacedTensor}
    (h : ts.map (fun t => t.sizes) = us.map fun t => t.sizes) : hasEmptyTensor ts = hasEmptyTensor us := by
  have hany : ∀ ts : List PlacedTensor, hasEmptyTensor ts =
      (ts.map fun t => t.sizes).any fun x => decide (x.prod = 0) := fun ts => by
    rw [List.any_map]
    rfl
  rw [hany, hany, h]

theorem gatherPath_congr {platform : Platform} {ts us : List PlacedTensor}
    (h : ts.map (fun t => t.sizes) = us.map fun t => t.sizes) :
    gatherPath platform ts = gatherPath platform us := by
  unfold gatherPath
  rw [hasEmptyTensor_congr h, checkSameSize_congr]
  rw [List.map_map, List.map_map]
  exact h

namespace Allgather

variable {w : Allgather} {r j : Fin w.size} {t u : PlacedTensor}

theorem path_eq (r r' : Fin w.size) : w.path r = w.path r' :=
  gatherPath_congr ((w.sizes_outputs r).trans (w.sizes_outputs r').symm)

theorem length_outputs (r : Fin w.size) : (w.outputs r).length = w.size := by
  rw [← List.length_map (fun t : PlacedTensor => t.sizes), w.sizes_outputs, w.length_shapes]

theorem exists_slot (r j : Fin w.size) : ∃ t, (w.outputs r)[(j : ℕ)]? = some t :=
  ⟨_, List.getElem?_eq_getElem (j.isLt.trans_eq (length_outputs r).symm)⟩

theorem numel_slot {r r' : Fin w.size} {k : ℕ} (ht : (w.outputs r)[k]? = some t)
    (hu : (w.outputs r')[k]? = some u) : t.numel = u.numel := by
  have h : ∀ (r : Fin w.size) t, (w.outputs r)[k]? = some t → w.shapes[k]? = some t.sizes := by
    intro r t ht
    rw [← w.sizes_outputs r, List.getElem?_map, ht]
    rfl
  have hsizes : t.sizes = u.sizes := Option.some.inj ((h r t ht).symm.trans (h r' u hu))
  exact congrArg List.prod hsizes

theorem admitted_output (h : w.Accepts r) (ht : t ∈ w.outputs r) : t.Admitted :=
  PlacedTensor.admitted_of_checkNpuTensorsSameDevice h.1 ht

theorem admitted_input (h : w.Accepts r) : (w.inputs r).Admitted :=
  PlacedTensor.admitted_of_checkNpuSingleTensor h.2.1

theorem numel_eq_of_not_mismatched (h : ¬w.Mismatched r) (ht : (w.outputs r)[(r : ℕ)]? = some t) :
    (w.inputs r).numel = t.numel := by
  by_contra hne
  exact h ⟨t, ht, hne⟩

/-- The program of a process whose first checks have passed. -/
theorem program_eq {m : Memory}
    (houtputs : checkNpuTensorsSameDevice ((w.outputs r).map PlacedTensor.toTensor) = .ok ())
    (hinput : checkNpuTensorsDifferentDevices [(w.inputs r).toTensor] = .ok ()) :
    w.program m r =
      match w.path r with
      | .flattened => gatherFlattened w.platform w.size (w.outputs r) (w.inputs r) m
      | .allGatherV => gatherV w.platform r (w.outputs r) (w.inputs r) m
      | .broadcast => gatherBroadcast r (w.inputs r) (w.outputs r).zipIdx m := by
  unfold program allgather
  rw [houtputs, hinput]
  rfl

theorem program_flattened (m : Memory) (h : w.Accepts r) (hpath : w.path r = .flattened) :
    w.program m r =
      .call (.allGather (padded w.platform (w.inputs r).toTensor (m.elements (w.inputs r)))) fun reply =>
      .ret (copySlots (reply.headD []) ((List.range (w.outputs r).length).map
        (· * ((w.inputs r).numel + numAdd w.platform (w.inputs r).toTensor))) (w.outputs r) m) := by
  obtain ⟨houtputs, hinput, htype, hcounts⟩ := h
  rw [hpath] at hcounts
  rw [program_eq houtputs hinput, hpath]
  obtain ⟨dataType, htype⟩ := exists_eq_ok_of_isOk htype
  have hne : (w.outputs r).map (fun t => byteAlignment w.platform t.toTensor) ≠ [] := by
    rw [← List.length_pos_iff, List.length_map, length_outputs]
    exact r.pos
  obtain ⟨flattened, hflat, hnew⟩ := flattenForScatterGather_eq_ok
    (byteAlignment w.platform (w.inputs r).toTensor) hne
    (by rw [List.length_map, length_outputs]) (fun t ht => by
      obtain ⟨u, hu, rfl⟩ := List.mem_map.mp ht
      rw [numel_byteAlignment, numel_byteAlignment]
      exact hcounts u hu)
  have hcheck : checkNpuTensorsDifferentDevices [flattened] = .ok () :=
    check_newLikeFlat w.platform ((w.outputs r).map PlacedTensor.toTensor)
      (by rw [List.map_map]; exact hnew)
  simp only [gatherFlattened]
  rw [hflat, w.scalarType_inputs, htype, numel_byteAlignment]
  simp only [Program.check]
  rw [hcheck]

theorem program_allGatherV (m : Memory) (h : w.Accepts r) (hpath : w.path r = .allGatherV) :
    w.program m r =
      .call (.allGatherV (flattenedData m (w.inputs r)) ((w.outputs r).map fun t => t.numel)
        (displacements 0 ((w.outputs r).map fun t => t.numel))) fun reply =>
      .ret (copySlots (reply.headD []) (displacements 0 ((w.outputs r).map fun t => t.numel))
        (w.outputs r) m) := by
  obtain ⟨houtputs, hinput, htype, hcounts⟩ := h
  rw [hpath] at hcounts
  rw [program_eq houtputs hinput, hpath]
  obtain ⟨dataType, htype⟩ := exists_eq_ok_of_isOk htype
  simp only [gatherV]
  rw [w.scalarType_inputs, htype]
  refine if_neg fun hfail => ?_
  rw [Bool.and_eq_true, decide_eq_true_eq] at hfail
  obtain ⟨t, ht⟩ := exists_slot r r
  refine hcounts hfail.1 ⟨t, ht, fun heq => hfail.2 ?_⟩
  rw [List.getD_eq_getElem?_getD, List.getElem?_map, ht]
  exact heq

/-! ### The path with byte alignment -/

/-- Each slot has the elements of the input of its rank. -/
def Gathers (w : Allgather) (m results : Fin w.size → Memory) : Prop :=
  ∀ (r j : Fin w.size) t, (w.outputs r)[(j : ℕ)]? = some t →
    (results r).elements t = (m j).elements (w.inputs j)

/-- The padded count of the group. -/
theorem exists_aligned (haccepts : ∀ r, w.Accepts r) (hpath : ∀ r, w.path r = .flattened) :
    ∃ k, ∀ r, (w.inputs r).numel + numAdd w.platform (w.inputs r).toTensor = k ∧
      ∀ t ∈ w.outputs r, t.numel ≤ k := by
  rcases Nat.eq_zero_or_pos w.size with hsize | hsize
  · exact ⟨0, fun r => absurd r.pos (by omega)⟩
  · have hcounts : ∀ r, ∀ t ∈ w.outputs r, t.numel + numAdd w.platform t.toTensor =
        (w.inputs r).numel + numAdd w.platform (w.inputs r).toTensor := by
      intro r
      have h := (haccepts r).2.2.2
      rwa [hpath r] at h
    let first : Fin w.size := ⟨0, hsize⟩
    refine ⟨(w.inputs first).numel + numAdd w.platform (w.inputs first).toTensor, fun r => ?_⟩
    obtain ⟨t, ht⟩ := exists_slot r first
    obtain ⟨u, hu⟩ := exists_slot first first
    have hmem := List.mem_of_getElem? ht
    have hmem' := List.mem_of_getElem? hu
    have hnumel := numel_slot ht hu
    have hadd : numAdd w.platform t.toTensor = numAdd w.platform u.toTensor :=
      numAdd_congr hnumel ((w.scalarType_outputs r t hmem).trans (w.scalarType_outputs first u hmem').symm)
    have heq : (w.inputs r).numel + numAdd w.platform (w.inputs r).toTensor =
        (w.inputs first).numel + numAdd w.platform (w.inputs first).toTensor := by
      rw [← hcounts r t hmem, ← hcounts first u hmem', hnumel, hadd]
    refine ⟨heq, fun t ht => ?_⟩
    rw [← heq, ← hcounts r t ht]
    exact Nat.le_add_right _ _

theorem gathers_flattened {m results : Fin w.size → Memory} (haccepts : ∀ r, w.Accepts r)
    (hpath : ∀ r, w.path r = .flattened) (hmatched : ∀ r, ¬w.Mismatched r)
    (hruns : Runs Meaning (fun r => w.program (m r) r) results) : w.Gathers m results := by
  intro r j t ht
  have : Nonempty (Fin w.size) := ⟨r⟩
  obtain ⟨k, hk⟩ := exists_aligned haccepts hpath
  rw [funext fun r => program_flattened (m r) (haccepts r) (hpath r), runs_call_iff] at hruns
  obtain ⟨rep, hrep, hruns⟩ := hruns
  rw [runs_ret_iff] at hruns
  have hlength : ∀ r, (padded w.platform (w.inputs r).toTensor ((m r).elements (w.inputs r))).length = k :=
    fun r => (length_padded (m r)).trans (hk r).1
  have hflat := hrep.allGather _ rfl (fun r r' => (hlength r).trans (hlength r').symm) r
  obtain ⟨u, hu⟩ := exists_slot j j
  have hnumel : (w.inputs j).numel = t.numel :=
    (numel_eq_of_not_mismatched (hmatched j) hu).trans (numel_slot hu ht)
  rw [hruns]
  beta_reduce
  rw [hflat]
  refine elements_copySlots (m r) (fun t ht => admitted_output (haccepts r) ht) (w.apart_outputs r)
    (by rw [List.length_map, List.length_range]) ht ((Memory.length_elements _ _).trans hnumel) ?_
  have hlt : (j : ℕ) < (w.outputs r).length := j.isLt.trans_eq (length_outputs r).symm
  have hdispl : ((List.range (w.outputs r).length).map
      (· * ((w.inputs r).numel + numAdd w.platform (w.inputs r).toTensor))).getD j 0 = j * k := by
    rw [(hk r).1, List.getD_eq_getElem?_getD, List.getElem?_map, List.getElem?_range hlt]
    rfl
  rw [hdispl, List.headD_cons, ← hnumel]
  have hpart : (List.ofFn fun r => padded w.platform (w.inputs r).toTensor
      ((m r).elements (w.inputs r)))[(j : ℕ)]? =
        some (padded w.platform (w.inputs j).toTensor ((m j).elements (w.inputs j))) := by
    rw [List.getElem?_ofFn, dif_pos j.isLt]
  rw [slice_flatten_of_length ?_ hpart, take_padded]
  · rw [hnumel]
    exact (hk r).2 t (List.mem_of_getElem? ht)
  · intro part hmem
    obtain ⟨i, rfl⟩ := (List.mem_ofFn' _ _).mp hmem
    exact hlength i

/-! ### The path with `HcclAllGatherV` -/

theorem length_flattenedData (m : Memory) (t : PlacedTensor) : (flattenedData m t).length = t.numel := by
  unfold flattenedData
  split_ifs
  · rw [List.length_map, List.length_range']
  · exact Memory.length_elements m t

/-- The counts that HCCL is given are those of the inputs. -/
theorem counts_eq (hmatched : ∀ r, ¬w.Mismatched r) (r j : Fin w.size) :
    ((w.outputs r).map fun t => t.numel).getD j 0 = (w.inputs j).numel := by
  obtain ⟨t, ht⟩ := exists_slot r j
  obtain ⟨u, hu⟩ := exists_slot j j
  rw [List.getD_eq_getElem?_getD, List.getElem?_map, ht, Option.map_some, Option.getD_some,
    numel_eq_of_not_mismatched (hmatched j) hu]
  exact numel_slot ht hu

theorem elements_allGatherV {m results : Fin w.size → Memory} (haccepts : ∀ r, w.Accepts r)
    (hpath : ∀ r, w.path r = .allGatherV) (hmatched : ∀ r, ¬w.Mismatched r)
    (hruns : Runs Meaning (fun r => w.program (m r) r) results) (ht : (w.outputs r)[(j : ℕ)]? = some t) :
    (results r).elements t = flattenedData (m j) (w.inputs j) := by
  have : Nonempty (Fin w.size) := ⟨r⟩
  rw [funext fun r => program_allGatherV (m r) (haccepts r) (hpath r), runs_call_iff] at hruns
  obtain ⟨rep, hrep, hruns⟩ := hruns
  rw [runs_ret_iff] at hruns
  obtain ⟨buffer, hbuffer, hslice⟩ := hrep.allGatherV _ _ _ rfl
    (fun r j => (counts_eq hmatched r j).trans (length_flattenedData _ _).symm) r
  have hnumel : (w.inputs j).numel = t.numel := by
    rw [← counts_eq hmatched r j, List.getD_eq_getElem?_getD, List.getElem?_map, ht]
    rfl
  rw [hruns]
  beta_reduce
  rw [hbuffer]
  refine elements_copySlots (m r) (fun t ht => admitted_output (haccepts r) ht) (w.apart_outputs r)
    (by rw [length_displacements, List.length_map]) ht ((length_flattenedData _ _).trans hnumel) ?_
  have hslice := hslice j
  rwa [counts_eq hmatched r j, hnumel] at hslice

theorem exists_runs_allGatherV (m : Fin w.size → Memory) (haccepts : ∀ r, w.Accepts r)
    (hpath : ∀ r, w.path r = .allGatherV) (hmatched : ∀ r, ¬w.Mismatched r) :
    ∃ results, Runs Meaning (fun r => w.program (m r) r) results := by
  rw [funext fun r => program_allGatherV (m r) (haccepts r) (hpath r)]
  let parts := List.ofFn fun j => flattenedData (m j) (w.inputs j)
  refine ⟨_, .call (Meaning.of_allGatherV _ _ _ (fun _ => [parts.flatten]) fun r => ?_) (.ret _)⟩
  refine ⟨_, rfl, fun j => ?_⟩
  have hcounts : (w.outputs r).map (fun t => t.numel) = parts.map List.length := by
    refine List.ext_getElem? fun k => ?_
    rw [List.getElem?_map, List.getElem?_map, List.getElem?_ofFn]
    split_ifs with hk
    · obtain ⟨t, ht⟩ := exists_slot r ⟨k, hk⟩
      have hcount := counts_eq hmatched r ⟨k, hk⟩
      rw [List.getD_eq_getElem?_getD, List.getElem?_map, ht] at hcount
      rw [ht, Option.map_some, Option.map_some, length_flattenedData]
      exact congrArg some hcount
    · rw [List.getElem?_eq_none (by rw [length_outputs]; omega)]
      rfl
  have hpart : parts[(j : ℕ)]? = some (flattenedData (m j) (w.inputs j)) := by
    rw [List.getElem?_ofFn, dif_pos j.isLt]
  have hcount : ((w.outputs r).map fun t => t.numel).getD j 0 =
      (flattenedData (m j) (w.inputs j)).length :=
    (counts_eq hmatched r j).trans (length_flattenedData _ _).symm
  rw [hcount, hcounts]
  exact slice_flatten hpart

/-- HCCL is given the elements of the input, whatever they are, exactly where they are in order. -/
theorem flattenedData_eq_iff (t : PlacedTensor) :
    (∀ m, flattenedData m t = m.elements t) ↔
      (t.isContiguous = true → t.places = List.range' t.storageOffset t.numel) := by
  constructor
  · intro h hcontiguous
    have heq := h fun _ p => (p : ℚ)
    rw [flattenedData, if_pos hcontiguous] at heq
    exact (List.map_injective_iff.mpr Nat.cast_injective heq).symm
  · intro h m
    unfold flattenedData
    split_ifs with hcontiguous
    · rw [Memory.elements, h hcontiguous]
    · rfl

end Allgather

/-! ### `copy_` -/

theorem positions_expand (src : List ℕ) (offset : ℕ) :
    Strided.positions src ((src.zip (Strided.contiguousStrides src)).map
      fun (s, stride) => if s = 1 then 0 else stride) offset = List.range' offset src.prod := by
  rw [← Strided.positions_contiguousStrides]
  induction src generalizing offset with
  | nil => rfl
  | cons n src ih =>
    rw [Strided.contiguousStrides, List.zip_cons_cons, List.map_cons, Strided.positions, Strided.positions]
    refine List.flatMap_congr fun i hi => ?_
    rw [ih]
    congr 2
    change i * (if n = 1 then 0 else src.prod) = i * src.prod
    split_ifs with hn
    · have hi : i = 0 := by
        rw [List.mem_range] at hi
        omega
      rw [hi, Nat.zero_mul, Nat.zero_mul]
    · rfl

theorem positions_replicate (k : ℕ) (sizes strides : List ℕ) (offset : ℕ) :
    Strided.positions (List.replicate k 1 ++ sizes) (List.replicate k 0 ++ strides) offset =
      Strided.positions sizes strides offset := by
  induction k with
  | zero => rfl
  | succ k ih =>
    rw [List.replicate_succ, List.replicate_succ, List.cons_append, List.cons_append, Strided.positions,
      List.range_one, List.flatMap_singleton, Nat.zero_mul, Nat.add_zero, ih]

/-- Sizes that are expanded to the same sizes or larger ones. -/
theorem prod_le_prod_of_expandable (src dst : List ℕ) (hlength : src.length = dst.length)
    (hdst : dst.prod ≠ 0) (h : ∀ x ∈ src.zip dst, x.1 = x.2 ∨ x.1 = 1) :
    src.prod ≤ dst.prod ∧ (src.prod = dst.prod → src = dst) := by
  induction src generalizing dst with
  | nil =>
    obtain rfl := List.length_eq_zero_iff.mp hlength.symm
    exact ⟨le_rfl, fun _ => rfl⟩
  | cons s src ih =>
    obtain ⟨d, dst, rfl⟩ := List.exists_cons_of_length_eq_add_one hlength.symm
    rw [List.zip_cons_cons, List.forall_mem_cons] at h
    rw [List.prod_cons] at hdst
    have hd : d ≠ 0 := fun hd => hdst (by rw [hd, Nat.zero_mul])
    have hdst' : dst.prod ≠ 0 := fun hdst' => hdst (by rw [hdst', Nat.mul_zero])
    obtain ⟨hle, heq⟩ := ih dst (Nat.succ_inj.mp hlength) hdst' h.2
    rw [List.prod_cons, List.prod_cons]
    have hsd : s ≤ d := by
      rcases h.1 with hs | hs
      · exact hs.le
      · exact hs.le.trans (Nat.one_le_iff_ne_zero.mpr hd)
    refine ⟨Nat.mul_le_mul hsd hle, fun hprod => ?_⟩
    have hs : s = d := by
      by_contra hne
      have hlt : s * src.prod < d * dst.prod :=
        calc s * src.prod ≤ s * dst.prod := Nat.mul_le_mul_left s hle
          _ < d * dst.prod := Nat.mul_lt_mul_of_pos_right (lt_of_le_of_ne hsd hne)
            (Nat.pos_of_ne_zero hdst')
      exact hlt.ne hprod
    rw [hs] at hprod ⊢
    rw [heq (Nat.eq_of_mul_eq_mul_left (Nat.pos_of_ne_zero hd) hprod)]

/-- Sizes that are expanded to as many elements only get leading ones. -/
theorem eq_of_expandable {src dst : List ℕ} (h : expandable src dst = true) (hdst : dst.prod ≠ 0)
    (hprod : src.prod = dst.prod) : dst = List.replicate (dst.length - src.length) 1 ++ src := by
  rw [expandable, Bool.and_eq_true, decide_eq_true_eq, List.all_eq_true] at h
  obtain ⟨hlength, hall⟩ := h
  generalize hk : dst.length - src.length = k at hall ⊢
  have hsplit : (dst.take k).prod * (dst.drop k).prod = dst.prod := by
    rw [← List.prod_append, List.take_append_drop]
  have htake : (dst.take k).prod ≠ 0 := fun hzero => hdst (by rw [← hsplit, hzero, Nat.zero_mul])
  have hdrop : (dst.drop k).prod ≠ 0 := fun hzero => hdst (by rw [← hsplit, hzero, Nat.mul_zero])
  obtain ⟨hle, heq⟩ := prod_le_prod_of_expandable src (dst.drop k)
    (by rw [List.length_drop]; omega) hdrop (fun x hx => by simpa using hall x hx)
  have hone : (dst.take k).prod = 1 := by
    refine le_antisymm ?_ (Nat.one_le_iff_ne_zero.mpr htake)
    refine Nat.le_of_mul_le_mul_right ?_ (Nat.pos_of_ne_zero hdrop)
    rw [hsplit, ← hprod, Nat.one_mul]
    exact hle
  have hones : dst.take k = List.replicate k 1 := by
    rw [List.eq_replicate_iff]
    refine ⟨by rw [List.length_take]; omega, fun d hd => ?_⟩
    exact Nat.eq_one_of_dvd_one (hone ▸ List.dvd_prod hd)
  have hsrc : src = dst.drop k := heq (by rw [hprod, ← hsplit, hone, Nat.one_mul])
  rw [← hones, hsrc, List.take_append_drop]

/-- A tensor that is expanded to as many elements has the same elements. -/
theorem expand_eq_self {src dst : List ℕ} {vs : List ℚ} (h : expandable src dst = true)
    (hdst : dst.prod ≠ 0) (hprod : src.prod = dst.prod) (hvs : vs.length = src.prod) :
    expand src dst vs = vs := by
  have hpositions : Strided.positions dst (expandStrides src dst) 0 = List.range src.prod := by
    have hreplicate := positions_replicate (dst.length - src.length) src ((src.zip
      (Strided.contiguousStrides src)).map fun (s, stride) => if s = 1 then 0 else stride) 0
    rw [← eq_of_expandable h hdst hprod, positions_expand, ← List.range_eq_range'] at hreplicate
    exact hreplicate
  rw [expand, hpositions, ← hvs]
  refine List.ext_getElem (by rw [List.length_map, List.length_range]) fun i hi hi' => ?_
  rw [List.getElem_map, List.getElem_range, List.getD_eq_getElem?_getD, List.getElem?_eq_getElem hi',
    Option.getD_some]

theorem Memory.copy_nil (m : Memory) (t : PlacedTensor) : m.copy t [] = m := by
  funext s p
  unfold Memory.copy
  split_ifs
  · rw [assign, List.zip_nil_right]
    rfl
  · rfl

/-- A copy of as many elements. -/
theorem copyTensor_eq_ok {m : Memory} {self src : PlacedTensor} (hnumel : src.numel = self.numel)
    (h : self.numel = 0 ∨ expandable src.sizes self.sizes = true) :
    copyTensor m self src = .ok (m.copy self (m.elements src)) := by
  unfold copyTensor
  by_cases hzero : self.numel = 0
  · have hnil : m.elements src = [] :=
      List.length_eq_zero_iff.mp ((Memory.length_elements m src).trans (hnumel.trans hzero))
    rw [if_pos hzero, hnil, Memory.copy_nil]
  · have hexpandable := h.resolve_left hzero
    rw [if_neg hzero, if_pos hexpandable, expand_eq_self hexpandable hzero hnumel (Memory.length_elements m src)]

/-! ### The path with broadcasts -/

namespace Allgather

variable {w : Allgather} {r j : Fin w.size} {t u : PlacedTensor} {m results : Fin w.size → Memory}

/-- The slot of a process for a rank. -/
def slot (w : Allgather) (r j : Fin w.size) : PlacedTensor :=
  (w.outputs r).get ⟨j, j.isLt.trans_eq (length_outputs r).symm⟩

theorem getElem?_outputs (r j : Fin w.size) : (w.outputs r)[(j : ℕ)]? = some (w.slot r j) :=
  List.getElem?_eq_getElem _

theorem slot_mem (r j : Fin w.size) : w.slot r j ∈ w.outputs r :=
  List.mem_of_getElem? (getElem?_outputs r j)

theorem eq_slot (h : (w.outputs r)[(j : ℕ)]? = some t) : t = w.slot r j :=
  Option.some.inj (h.symm.trans (getElem?_outputs r j))

theorem apart_slot (r : Fin w.size) {i j : Fin w.size} (hij : i ≠ j) :
    (w.slot r i).Apart (w.slot r j) := by
  have hpairwise := List.pairwise_iff_get.mp (w.apart_outputs r)
  rcases lt_or_gt_of_ne hij with hlt | hlt
  · exact hpairwise ⟨i, _⟩ ⟨j, _⟩ hlt
  · exact PlacedTensor.apart_symm (hpairwise ⟨j, _⟩ ⟨i, _⟩ hlt)

theorem apart_slot_input {i : Fin w.size} (h : i ≠ r) : (w.slot r i).Apart (w.inputs r) :=
  (w.apart_inputs r i _ (getElem?_outputs r i)).resolve_right fun hi => h hi.1

/-- The programs that remain when the ranks before `i` have been broadcast. -/
def remaining (w : Allgather) (i : ℕ) (m : Fin w.size → Memory) (r : Fin w.size) : Process :=
  gatherBroadcast r (w.inputs r) ((w.outputs r).zipIdx.drop i) (m r)

/-- The memory of a process when it calls the broadcast of rank `i`. -/
def staged (w : Allgather) (i : Fin w.size) (m : Fin w.size → Memory) (r : Fin w.size) : Memory :=
  if i = r then (m r).copy (w.slot r i) ((m r).elements (w.inputs r)) else m r

/-- The memory of a process after that broadcast. -/
def received (w : Allgather) (i : Fin w.size) (m : Fin w.size → Memory) (rep : Fin w.size → Reply)
    (r : Fin w.size) : Memory :=
  (w.staged i m r).fill (w.slot r i) ((rep r).headD [])

theorem getNumelForHCCL_eq_ok (h : t.Admitted) : t.getNumelForHCCL = .ok t.count := by
  unfold Tensor.getNumelForHCCL PlacedTensor.count
  cases hbase : t.isBaseFormatType with
  | true => rfl
  | false => simp only [h.offset hbase, Bool.false_eq_true, if_false, ne_eq, not_true_eq_false]

theorem remaining_eq_call (haccepts : ∀ r, w.Accepts r) (hpath : ∀ r, w.path r = .broadcast)
    (hmatched : ∀ r, ¬w.Mismatched r) (i r : Fin w.size) :
    w.remaining i m r = .call (.broadcast i ((w.staged i m r).data (w.slot r i))) fun reply =>
      gatherBroadcast r (w.inputs r) ((w.outputs r).zipIdx.drop (i + 1))
        ((w.staged i m r).fill (w.slot r i) (reply.headD [])) := by
  have hlt : (i : ℕ) < (w.outputs r).zipIdx.length := by
    rw [List.length_zipIdx, length_outputs]
    exact i.isLt
  have haccept := haccepts r
  have hadmitted := admitted_output haccept (slot_mem r i)
  obtain ⟨dataType, htype⟩ := exists_eq_ok_of_isOk haccept.2.2.1
  have hcopy : (if (i : ℕ) = r then copyTensor (m r) (w.slot r i) (w.inputs r) else .ok (m r)) =
      .ok (w.staged i m r) := by
    unfold staged
    by_cases hi : i = r
    · have hexpandable := haccept.2.2.2
      rw [hpath r] at hexpandable
      subst hi
      rw [if_pos rfl, if_pos rfl]
      exact copyTensor_eq_ok (numel_eq_of_not_mismatched (hmatched i) (getElem?_outputs i i))
        (hexpandable _ (getElem?_outputs i i))
    · rw [if_neg hi, if_neg fun h => hi (Fin.ext h)]
  have hdrop : (w.outputs r).zipIdx.drop i =
      (w.slot r i, (i : ℕ)) :: (w.outputs r).zipIdx.drop (i + 1) := by
    rw [List.drop_eq_getElem_cons hlt, List.getElem_zipIdx, Nat.zero_add]
    rfl
  unfold remaining
  rw [hdrop, gatherBroadcast, hcopy]
  simp only [Program.check]
  rw [getNumelForHCCL_eq_ok hadmitted, w.scalarType_outputs r _ (slot_mem r i), htype]

theorem runs_remaining_iff (haccepts : ∀ r, w.Accepts r) (hpath : ∀ r, w.path r = .broadcast)
    (hmatched : ∀ r, ¬w.Mismatched r) (i : Fin w.size) :
    Runs Meaning (w.remaining i m) results ↔
      ∃ rep, Meaning (fun r => .broadcast i ((w.staged i m r).data (w.slot r i))) rep ∧
        Runs Meaning (w.remaining (i + 1) (w.received i m rep)) results := by
  have : Nonempty (Fin w.size) := ⟨i⟩
  have hcall := funext fun r => remaining_eq_call (m := m) haccepts hpath hmatched i r
  rw [hcall, runs_call_iff]
  rfl

theorem runs_remaining_end [Nonempty (Fin w.size)] :
    Runs Meaning (w.remaining w.size m) results ↔ results = m := by
  have hnil : w.remaining w.size m = fun r => .ret (m r) := by
    funext r
    unfold remaining
    rw [List.drop_eq_nil_of_le (by rw [List.length_zipIdx, length_outputs])]
    rfl
  rw [hnil, runs_ret_iff]

section Broadcast

variable (haccepts : ∀ r, w.Accepts r) (hpath : ∀ r, w.path r = .broadcast)
  (hmatched : ∀ r, ¬w.Mismatched r)

include haccepts

theorem staged_of_apart {i : Fin w.size} (hapart : (w.slot r i).Apart u) {p : ℕ} (hp : p ∈ u.extent) :
    w.staged i m r u.storage p = m r u.storage p := by
  unfold staged
  split_ifs
  · exact Memory.copy_of_apart (admitted_output (haccepts r) (slot_mem r i)) hapart hp
  · rfl

theorem received_of_apart {i : Fin w.size} {rep : Fin w.size → Reply} (hapart : (w.slot r i).Apart u)
    {p : ℕ} (hp : p ∈ u.extent) : w.received i m rep r u.storage p = m r u.storage p := by
  rw [received, Memory.fill_of_apart hapart hp]
  exact staged_of_apart haccepts hapart hp

theorem elements_received {i : Fin w.size} {rep : Fin w.size → Reply} (hu : u.Admitted)
    (hapart : (w.slot r i).Apart u) : (w.received i m rep r).elements u = (m r).elements u :=
  elements_congr hu fun _ hp => received_of_apart haccepts hapart hp

include hmatched

/-- The elements that the slots of a rank get where the processes agree on the order. -/
theorem elements_received_slot {i : Fin w.size} {rep : Fin w.size → Reply} (r : Fin w.size)
    (hrep : Meaning (fun r => .broadcast i ((w.staged i m r).data (w.slot r i))) rep)
    (horder : (w.slot r i).numel ≠ 0 →
      (w.slot r i).count = (w.slot i i).count ∧ (w.slot r i).order = (w.slot i i).order) :
    (w.received i m rep r).elements (w.slot r i) = (m i).elements (w.inputs i) := by
  have hr := admitted_output (haccepts r) (slot_mem r i)
  have hi := admitted_output (haccepts i) (slot_mem i i)
  have hnumel := numel_eq_of_not_mismatched (hmatched i) (getElem?_outputs i i)
  have hstaged : (w.staged i m i).elements (w.slot i i) = (m i).elements (w.inputs i) := by
    rw [staged, if_pos rfl]
    exact Memory.elements_copy hi ((Memory.length_elements _ _).trans hnumel)
  by_cases hzero : (w.slot r i).numel = 0
  · have hzero' : (w.inputs i).numel = 0 :=
      (hnumel.trans (numel_slot (getElem?_outputs i i) (getElem?_outputs r i))).trans hzero
    rw [List.length_eq_zero_iff.mp ((Memory.length_elements _ _).trans hzero),
      List.length_eq_zero_iff.mp ((Memory.length_elements _ _).trans hzero')]
  · obtain ⟨hcount, horder⟩ := horder hzero
    have hreply := hrep.broadcast i _ rfl r (by rw [Memory.length_data, Memory.length_data, hcount])
    rw [Memory.elements_eq_data hr, received, hreply, List.headD_cons,
      Memory.data_fill (by rw [Memory.length_data, hcount]), horder, ← Memory.elements_eq_data hi, hstaged]

include hpath

/-- The broadcasts that remain leave other memory alone. -/
theorem remaining_of_apart {k i : ℕ} (hi : i + k = w.size)
    (hruns : Runs Meaning (w.remaining i m) results)
    (hapart : ∀ j : Fin w.size, i ≤ j → (w.slot r j).Apart u) {p : ℕ} (hp : p ∈ u.extent) :
    results r u.storage p = m r u.storage p := by
  have : Nonempty (Fin w.size) := ⟨r⟩
  induction k generalizing i m with
  | zero =>
    obtain rfl : i = w.size := hi
    rw [runs_remaining_end.mp hruns]
  | succ k ih =>
    obtain ⟨rep, -, hruns⟩ := (runs_remaining_iff haccepts hpath hmatched ⟨i, by omega⟩).mp hruns
    rw [ih (i := i + 1) (by omega) hruns fun j hj => hapart j (by omega)]
    exact received_of_apart haccepts (hapart ⟨i, by omega⟩ le_rfl) hp

/-- A slot keeps its elements once its rank has been broadcast. -/
theorem elements_slot {i : Fin w.size} {rep : Fin w.size → Reply}
    (hruns : Runs Meaning (w.remaining (i + 1) (w.received i m rep)) results) (r : Fin w.size) :
    (results r).elements (w.slot r i) = (w.received i m rep r).elements (w.slot r i) := by
  refine elements_congr (admitted_output (haccepts r) (slot_mem r i)) fun p hp => ?_
  refine remaining_of_apart haccepts hpath hmatched (k := w.size - (i + 1)) (by omega) hruns
    (fun j hj => apart_slot r ?_) hp
  exact fun hij => absurd hj (by rw [hij]; omega)

theorem gathers_remaining {k i : ℕ} (hi : i + k = w.size) (hruns : Runs Meaning (w.remaining i m) results)
    (horder : ∀ r j : Fin w.size, (w.slot r j).numel ≠ 0 →
      (w.slot r j).count = (w.slot j j).count ∧ (w.slot r j).order = (w.slot j j).order)
    (r j : Fin w.size) (hj : i ≤ j) :
    (results r).elements (w.slot r j) = (m j).elements (w.inputs j) := by
  induction k generalizing i m with
  | zero => exact absurd hj (by omega)
  | succ k ih =>
    let root : Fin w.size := ⟨i, by omega⟩
    obtain ⟨rep, hrep, hruns⟩ := (runs_remaining_iff haccepts hpath hmatched root).mp hruns
    rcases hj.eq_or_lt with hij | hlt
    · have hroot : j = root := Fin.ext hij.symm
      rw [hroot, elements_slot haccepts hpath hmatched hruns r]
      exact elements_received_slot haccepts hmatched r hrep (horder r root)
    · rw [ih (i := i + 1) (by omega) hruns hlt]
      exact elements_received haccepts (admitted_input (haccepts j))
        (apart_slot_input fun h => hlt.ne (congrArg Fin.val h))

theorem exists_runs_remaining {k i : ℕ} (hi : i + k = w.size) (m : Fin w.size → Memory) :
    ∃ results, Runs Meaning (w.remaining i m) results := by
  induction k generalizing i m with
  | zero =>
    obtain rfl : i = w.size := hi
    rcases isEmpty_or_nonempty (Fin w.size) with hempty | hnonempty
    · refine ⟨m, ?_⟩
      rw [show w.remaining w.size m = fun r => .ret (m r) from funext fun r => hempty.elim r]
      exact .ret m
    · exact ⟨m, runs_remaining_end.mpr rfl⟩
  | succ k ih =>
    let root : Fin w.size := ⟨i, by omega⟩
    let rep : Fin w.size → Reply := fun _ => [(w.staged root m root).data (w.slot root root)]
    obtain ⟨results, hruns⟩ := ih (i := i + 1) (by omega) (w.received root m rep)
    exact ⟨results, (runs_remaining_iff haccepts hpath hmatched root).mpr
      ⟨rep, Meaning.of_broadcast root _ _ fun _ _ => rfl, hruns⟩⟩

/-! ### Orders that differ -/

/-- The elements of the input of a rank differ from each other and from what its slot holds between its
elements. -/
structure Marked (w : Allgather) (j : Fin w.size) (m : Memory) : Prop where
  nodup : (m.elements (w.inputs j)).Nodup
  old : ∀ p ∈ (w.slot j j).extent, p ∉ (w.slot j j).places →
    m (w.slot j j).storage p ∉ m.elements (w.inputs j)

omit hpath hmatched in
theorem exists_marked (j : Fin w.size) : ∃ m, w.Marked j m := by
  have hinput := admitted_input (haccepts j)
  let m : Memory := fun s p => if s = (w.inputs j).storage ∧ p ∈ (w.inputs j).places then p + 1 else 0
  have helements : m.elements (w.inputs j) = (w.inputs j).places.map fun p : ℕ => (p : ℚ) + 1 :=
    List.map_congr_left fun p hp => if_pos ⟨rfl, hp⟩
  refine ⟨m, ?_, fun p hp hplaces => ?_⟩
  · rw [helements]
    refine (PlacedTensor.nodup_places hinput).map fun p q hpq => ?_
    exact Nat.cast_injective (add_right_cancel hpq)
  · have hzero : m (w.slot j j).storage p = 0 := by
      refine if_neg fun hmem => ?_
      rcases w.apart_inputs j j _ (getElem?_outputs j j) with hapart | ⟨-, heq⟩
      · exact hapart hmem.1 hp (PlacedTensor.mem_extent_of_mem_places hinput hmem.2)
      · exact hplaces (heq ▸ hmem.2)
    rw [hzero, helements, List.mem_map]
    rintro ⟨q, -, hq⟩
    exact (Nat.cast_add_one_pos q).ne' hq

omit hpath hmatched in
theorem marked_received {i : Fin w.size} {rep : Fin w.size → Reply} (hij : i ≠ j)
    (hmarked : w.Marked j (m j)) : w.Marked j (w.received i m rep j) := by
  have helements : (w.received i m rep j).elements (w.inputs j) = (m j).elements (w.inputs j) :=
    elements_received haccepts (admitted_input (haccepts j)) (apart_slot_input hij)
  refine ⟨helements ▸ hmarked.nodup, fun p hp hplaces => ?_⟩
  rw [helements, received_of_apart haccepts (apart_slot j hij) hp]
  exact hmarked.old p hp hplaces

omit hpath in
/-- Where the elements arrive for marked memory, the slots have the same order. -/
theorem order_eq_of_elements {vs : List ℚ} (hmarked : w.Marked j (m j)) (hr : t.Admitted)
    (hvs : vs = (w.staged j m j).data (w.slot j j)) (hcount : t.count = (w.slot j j).count)
    (helements : t.order.map (fun i => vs.getD i 0) = (m j).elements (w.inputs j)) :
    t.order = (w.slot j j).order := by
  have hj := admitted_output (haccepts j) (slot_mem j j)
  have hnumel := numel_eq_of_not_mismatched (hmatched j) (getElem?_outputs j j)
  have hlength : ((m j).elements (w.inputs j)).length = (w.slot j j).places.length := by
    rw [Memory.length_elements, PlacedTensor.length_places, hnumel]
  have horder : t.order.length = (w.slot j j).order.length := by
    have h := congrArg List.length helements
    rw [List.length_map] at h
    rw [h, hlength, PlacedTensor.order, List.length_map]
  refine List.ext_getElem horder fun k hk hk' => ?_
  -- The value at the place that `t` reads for its element `k` was put there for the same element.
  have hlt : t.order[k] < (w.slot j j).count := by
    rw [← hcount]
    exact PlacedTensor.lt_count_of_mem_order hr (List.getElem_mem hk)
  have hk'' : k < ((m j).elements (w.inputs j)).length := by
    rw [← helements, List.length_map]
    exact hk
  have hvalue : w.staged j m j (w.slot j j).storage ((w.slot j j).storageOffset + t.order[k]) =
      ((m j).elements (w.inputs j))[k] := by
    have h : (t.order.map fun i => vs.getD i 0)[k]? = some ((m j).elements (w.inputs j))[k] := by
      rw [helements, List.getElem?_eq_getElem hk'']
    rw [List.getElem?_map, List.getElem?_eq_getElem hk, Option.map_some, hvs, Memory.data,
      PlacedTensor.extent, List.getD_eq_getElem?_getD, List.getElem?_map, List.getElem?_range' hlt,
      Option.map_some, Option.getD_some, Nat.one_mul] at h
    exact Option.some.inj h
  have hplace : (w.slot j j).storageOffset + t.order[k] ∈ (w.slot j j).extent := by
    rw [PlacedTensor.extent, List.mem_range'_1]
    omega
  rw [staged, if_pos rfl, Memory.copy, if_pos rfl] at hvalue
  rcases assign_eq_or (m j (w.slot j j).storage) hlength ((w.slot j j).storageOffset + t.order[k]) with
    ⟨hnot, hold⟩ | ⟨l, hl, hv⟩
  · refine absurd ?_ (hmarked.old _ hplace hnot)
    rw [← hold, hvalue]
    exact List.getElem_mem hk''
  · rw [hvalue] at hv
    obtain ⟨hl', hv⟩ := List.getElem?_eq_some_iff.mp hv
    obtain rfl : l = k := (hmarked.nodup.getElem_inj_iff).mp hv
    have hplaces : (w.slot j j).order[l] = (w.slot j j).storageOffset + t.order[l] -
        (w.slot j j).storageOffset := by
      have h : (w.slot j j).order[l]? = some ((w.slot j j).storageOffset + t.order[l] -
          (w.slot j j).storageOffset) := by
        rw [PlacedTensor.order, List.getElem?_map, hl]
        rfl
      rw [List.getElem?_eq_getElem hk'] at h
      exact Option.some.inj h
    rw [hplaces, Nat.add_sub_cancel_left]

omit hpath in
/-- A reply after which the slot of a process does not have the elements of the input. -/
theorem exists_reply (hmarked : w.Marked j (m j)) (r : Fin w.size) (hnumel : (w.slot r j).numel ≠ 0)
    (hne : ¬((w.slot r j).count = (w.slot j j).count ∧ (w.slot r j).order = (w.slot j j).order)) :
    ∃ rep, Meaning (fun r => .broadcast j ((w.staged j m r).data (w.slot r j))) rep ∧
      (w.received j m rep r).elements (w.slot r j) ≠ (m j).elements (w.inputs j) := by
  have hr := admitted_output (haccepts r) (slot_mem r j)
  by_cases hcount : (w.slot r j).count = (w.slot j j).count
  · refine ⟨fun _ => [(w.staged j m j).data (w.slot j j)], Meaning.of_broadcast j _ _ fun _ _ => rfl,
      fun helements => hne ⟨hcount, ?_⟩⟩
    refine order_eq_of_elements haccepts hmatched hmarked hr rfl hcount ?_
    rw [← helements, Memory.elements_eq_data hr, received, List.headD_cons,
      Memory.data_fill (by rw [Memory.length_data, hcount])]
  · -- Counts that do not fit: HCCL may fill the slot with anything.
    have hvs : ((m j).elements (w.inputs j)).length = (w.slot r j).numel := by
      rw [Memory.length_elements, numel_eq_of_not_mismatched (hmatched j) (getElem?_outputs j j),
        numel_slot (getElem?_outputs j j) (getElem?_outputs r j)]
    obtain ⟨wrong, hlength, hwrong⟩ := Memory.exists_wrong hr hnumel _ hvs
    refine ⟨fun r' => if r' = r then [wrong] else [(w.staged j m j).data (w.slot j j)],
      Meaning.of_broadcast j _ _ fun r' hlength => ?_, hwrong _ ?_⟩
    · rw [Memory.length_data, Memory.length_data] at hlength
      refine if_neg fun h : r' = r => hcount ?_
      rwa [h] at hlength
    · rw [received, if_pos rfl, List.headD_cons, Memory.data_fill hlength]

/-- A run that does not give the slot of a process the elements of the input. -/
theorem exists_runs_ne {k i : ℕ} (hi : i + k = w.size) (hj : i ≤ j) (hmarked : w.Marked j (m j))
    (r : Fin w.size) (hnumel : (w.slot r j).numel ≠ 0)
    (hne : ¬((w.slot r j).count = (w.slot j j).count ∧ (w.slot r j).order = (w.slot j j).order)) :
    ∃ results, Runs Meaning (w.remaining i m) results ∧
      (results r).elements (w.slot r j) ≠ (m j).elements (w.inputs j) := by
  induction k generalizing i m with
  | zero => exact absurd hj (by omega)
  | succ k ih =>
    let root : Fin w.size := ⟨i, by omega⟩
    rcases hj.eq_or_lt with hij | hlt
    · have hroot : j = root := Fin.ext hij.symm
      obtain ⟨rep, hrep, hwrong⟩ := exists_reply haccepts hmatched hmarked r hnumel hne
      rw [hroot] at hrep hwrong ⊢
      obtain ⟨results, hruns⟩ := exists_runs_remaining haccepts hpath hmatched (k := k) (i := i + 1)
        (by omega) (w.received root m rep)
      refine ⟨results, (runs_remaining_iff haccepts hpath hmatched root).mpr ⟨rep, hrep, hruns⟩, ?_⟩
      rw [elements_slot haccepts hpath hmatched hruns r]
      exact hwrong
    · have hroot : root ≠ j := fun h => hlt.ne (congrArg Fin.val h)
      let rep : Fin w.size → Reply := fun _ => [(w.staged root m root).data (w.slot root root)]
      obtain ⟨results, hruns, hwrong⟩ := ih (i := i + 1) (by omega) hlt
        (marked_received haccepts hroot hmarked)
      rw [elements_received haccepts (admitted_input (haccepts j)) (apart_slot_input hroot)] at hwrong
      exact ⟨results, (runs_remaining_iff haccepts hpath hmatched root).mpr
        ⟨rep, Meaning.of_broadcast root _ _ fun _ _ => rfl, hruns⟩, hwrong⟩

end Broadcast

/-! ### Errors -/

/-- The broadcasts of a process end with an error where the element type is not one of HCCL or its own slot
cannot be copied. -/
theorem fails_gatherBroadcast {rank : ℕ} {input : PlacedTensor} {outputs : List (PlacedTensor × ℕ)}
    {m : Memory} {x : PlacedTensor × ℕ} (hx : x ∈ outputs)
    (h : (getHcclDataType x.1.scalarType).isOk = false ∨
      x.2 = rank ∧ ¬(x.1.numel = 0 ∨ expandable input.sizes x.1.sizes = true)) :
    (gatherBroadcast rank input outputs m).Fails := by
  induction outputs generalizing m with
  | nil => cases hx
  | cons y outputs ih =>
    obtain ⟨output, i⟩ := y
    rw [gatherBroadcast]
    refine Program.fails_check fun m' hm' => Program.fails_check fun _ _ =>
      Program.fails_check fun dataType htype => .call fun reply => ?_
    rcases List.mem_cons.mp hx with rfl | hx
    · rcases h with h | ⟨hrank, hcopy⟩
      · rw [htype] at h
        cases h
      · rw [if_pos hrank, copyTensor, if_neg fun h => hcopy (.inl h), if_neg fun h => hcopy (.inr h)] at hm'
        cases hm'
    · exact ih hx

/-- The broadcasts of a process that have nothing to find fault with. -/
theorem not_fails_gatherBroadcast {rank : ℕ} {input : PlacedTensor} {outputs : List (PlacedTensor × ℕ)}
    {m : Memory} (h : ∀ x ∈ outputs, x.1.Admitted ∧ (getHcclDataType x.1.scalarType).isOk = true ∧
      (x.2 = rank → x.1.numel = 0 ∨ expandable input.sizes x.1.sizes = true)) :
    ¬(gatherBroadcast rank input outputs m).Fails := by
  induction outputs generalizing m with
  | nil => exact nofun
  | cons y outputs ih =>
    obtain ⟨output, i⟩ := y
    rw [List.forall_mem_cons] at h
    obtain ⟨⟨hadmitted, htype, hcopy⟩, h⟩ := h
    obtain ⟨dataType, htype⟩ := exists_eq_ok_of_isOk htype
    obtain ⟨m', hm'⟩ : ∃ m', (if i = rank then copyTensor m output input else .ok m) = .ok m' := by
      split_ifs with hi
      · unfold copyTensor
        split_ifs with hzero hexpandable
        · exact ⟨m, rfl⟩
        · exact ⟨_, rfl⟩
        · exact absurd (hcopy hi) (not_or.mpr ⟨hzero, hexpandable⟩)
      · exact ⟨m, rfl⟩
    intro hfails
    rw [gatherBroadcast, hm'] at hfails
    simp only [Program.check] at hfails
    rw [getNumelForHCCL_eq_ok hadmitted, htype] at hfails
    cases hfails with
    | call hfails => exact ih h (hfails [])

theorem not_fails_of_accepts (h : w.Accepts r) (m : Memory) : ¬(w.program m r).Fails := by
  intro hfails
  cases hpath : w.path r with
  | flattened =>
    rw [program_flattened m h hpath] at hfails
    cases hfails with
    | call hfails => exact nomatch hfails []
  | allGatherV =>
    rw [program_allGatherV m h hpath] at hfails
    cases hfails with
    | call hfails => exact nomatch hfails []
  | broadcast =>
    rw [program_eq h.1 h.2.1, hpath] at hfails
    refine not_fails_gatherBroadcast (fun x hx => ?_) hfails
    obtain ⟨hadmitted, htype⟩ : x.1.Admitted ∧ x.1.scalarType = w.scalarType :=
      ⟨admitted_output h (List.fst_mem_of_mem_zipIdx hx),
        w.scalarType_outputs r _ (List.fst_mem_of_mem_zipIdx hx)⟩
    refine ⟨hadmitted, by rw [htype]; exact h.2.2.1, fun hrank => ?_⟩
    have hcopy := h.2.2.2
    rw [hpath] at hcopy
    refine hcopy x.1 ?_
    rw [← hrank]
    exact List.mem_zipIdx_iff_getElem?.mp hx

theorem fails_of_not_accepts (h : ¬w.Accepts r) (m : Memory) : (w.program m r).Fails := by
  unfold program allgather
  refine Program.fails_check fun _ houtputs => Program.fails_check fun _ hinput => ?_
  have hrest : ¬((getHcclDataType w.scalarType).isOk = true ∧ _) :=
    fun hrest => h ⟨houtputs, hinput, hrest⟩
  change (match w.path r with
    | .flattened => gatherFlattened w.platform w.size (w.outputs r) (w.inputs r) m
    | .allGatherV => gatherV w.platform r (w.outputs r) (w.inputs r) m
    | .broadcast => gatherBroadcast r (w.inputs r) (w.outputs r).zipIdx m).Fails
  generalize hpath : w.path r = path at hrest ⊢
  cases path with
  | flattened =>
    refine Program.fails_check fun flattened hflat => Program.fails_check fun _ _ =>
      Program.fails_check fun dataType htype => absurd ⟨?_, fun t ht => ?_⟩ hrest
    · rw [w.scalarType_inputs] at htype
      rw [htype]
      rfl
    · have hnumel := numel_of_flattenForScatterGather hflat _ (List.mem_map_of_mem ht)
      rwa [numel_byteAlignment, numel_byteAlignment] at hnumel
  | allGatherV =>
    refine Program.fails_check fun dataType htype => ?_
    rw [w.scalarType_inputs] at htype
    by_cases hchecks : w.platform.hcclAllGatherVChecks = true ∧ w.Mismatched r
    · obtain ⟨hchecks, t, ht, hne⟩ := hchecks
      have hfail : (w.platform.hcclAllGatherVChecks &&
          decide ((w.inputs r).numel ≠ ((w.outputs r).map fun t => t.numel).getD r 0)) = true := by
        rw [hchecks, List.getD_eq_getElem?_getD, List.getElem?_map, ht]
        exact decide_eq_true hne
      rw [if_pos hfail]
      exact .fail _
    · exact absurd ⟨by rw [htype]; rfl, fun hc hm => hchecks ⟨hc, hm⟩⟩ hrest
  | broadcast =>
    by_cases htype : (getHcclDataType w.scalarType).isOk = true
    · have hcopy : ∃ t, (w.outputs r)[(r : ℕ)]? = some t ∧
          ¬(t.numel = 0 ∨ expandable (w.inputs r).sizes t.sizes = true) := by
        by_contra hall
        refine hrest ⟨htype, fun t ht => ?_⟩
        by_contra hcopy
        exact hall ⟨t, ht, hcopy⟩
      obtain ⟨t, ht, hcopy⟩ := hcopy
      exact fails_gatherBroadcast (x := (t, (r : ℕ))) (List.mem_zipIdx_iff_getElem?.mpr ht)
        (.inr ⟨rfl, hcopy⟩)
    · refine fails_gatherBroadcast (x := (w.slot r r, (r : ℕ)))
        (List.mem_zipIdx_iff_getElem?.mpr (getElem?_outputs r r)) (.inl ?_)
      rw [w.scalarType_outputs r _ (slot_mem r r)]
      exact Bool.eq_false_iff.mpr htype

/-! ### All calls -/

theorem accepts_of_runs {m results : Fin w.size → Memory}
    (hruns : Runs Meaning (fun r => w.program (m r) r) results) (r : Fin w.size) : w.Accepts r := by
  by_contra h
  exact not_fails_of_runs hruns r (fails_of_not_accepts h (m r))

theorem remaining_zero {m : Fin w.size → Memory} (haccepts : ∀ r, w.Accepts r)
    (hpath : ∀ r, w.path r = .broadcast) : (fun r => w.program (m r) r) = w.remaining 0 m := by
  funext r
  rw [program_eq (haccepts r).1 (haccepts r).2.1, hpath r]
  rfl

theorem gathers_of_guarded {m results : Fin w.size → Memory} (h : w.Guarded)
    (hruns : Runs Meaning (fun r => w.program (m r) r) results) : w.Gathers m results := by
  have haccepts := accepts_of_runs hruns
  have hmatched : ∀ r, ¬w.Mismatched r := fun r hr => h.1 r hr (haccepts r)
  have horder := h.2 haccepts
  intro r j t ht
  have hpath : ∀ r', w.path r' = w.path r := fun r' => path_eq r' r
  cases hr : w.path r with
  | flattened =>
    rw [hr] at hpath
    exact gathers_flattened haccepts hpath hmatched hruns r j t ht
  | allGatherV =>
    rw [hr] at hpath
    have hj := horder j
    rw [hpath j] at hj
    rw [elements_allGatherV haccepts hpath hmatched hruns ht]
    exact (flattenedData_eq_iff _).mpr hj (m j)
  | broadcast =>
    rw [hr] at hpath
    rw [remaining_zero haccepts hpath] at hruns
    rw [eq_slot ht]
    refine gathers_remaining haccepts hpath hmatched (Nat.zero_add _) hruns (fun r j hnumel => ?_) r j
      (Nat.zero_le _)
    have hr := horder r
    rw [hpath r] at hr
    exact hr j _ _ (getElem?_outputs r j) (getElem?_outputs j j) hnumel

theorem inOrder_of_correct (h : w.Correct) (haccepts : ∀ r, w.Accepts r)
    (hmatched : ∀ r, ¬w.Mismatched r) : w.InOrder := by
  intro r
  have hpath : ∀ r', w.path r' = w.path r := fun r' => path_eq r' r
  cases hr : w.path r with
  | flattened => trivial
  | allGatherV =>
    rw [hr] at hpath
    refine (flattenedData_eq_iff _).mp fun m => ?_
    obtain ⟨results, hruns⟩ := exists_runs_allGatherV (fun _ => m) haccepts hpath hmatched
    rw [← elements_allGatherV haccepts hpath hmatched hruns (getElem?_outputs r r)]
    exact h.2.2 _ _ hruns r r _ (getElem?_outputs r r)
  | broadcast =>
    rw [hr] at hpath
    intro j t u ht hu hnumel
    rw [eq_slot ht] at hnumel ⊢
    rw [eq_slot hu]
    by_contra hne
    obtain ⟨m, hmarked⟩ := exists_marked haccepts j
    obtain ⟨results, hruns, hwrong⟩ := exists_runs_ne (m := fun _ => m) haccepts hpath hmatched
      (Nat.zero_add _) (Nat.zero_le _) hmarked r hnumel hne
    rw [← remaining_zero haccepts hpath] at hruns
    exact hwrong (h.2.2 _ _ hruns r j _ (getElem?_outputs r j))

/-- A contiguous tensor of floats in its own storage. -/
def floats (storage numel : ℕ) : PlacedTensor :=
  .ofBase (newTensor storage .float [numel]) rfl

local instance twoMembers : NeZero 2 := inferInstance

/-- Two processes with slots of five floats; the input of the first one has three. -/
def shortInput : Allgather where
  size := 2
  platform := { noNeedPadding := false, hcclAllGatherVExist := true, hcclAllGatherVChecks := true }
  scalarType := .float
  shapes := [[5], [5]]
  inputs r := if r = 0 then floats 2 3 else floats 2 5
  outputs _ := [floats 0 5, floats 1 5]
  length_shapes := rfl
  sizes_outputs _ := rfl
  scalarType_inputs r := by
    fin_cases r
    · rfl
    · rfl
  scalarType_outputs _ t ht := by
    fin_cases ht
    · rfl
    · rfl
  apart_outputs _ := by
    refine List.pairwise_pair.mpr fun h => ?_
    cases h
  apart_inputs r j t ht := by
    refine .inl fun h => absurd h ?_
    fin_cases j
    · obtain rfl := Option.some.inj ht
      fin_cases r
      · decide
      · decide
    · obtain rfl := Option.some.inj ht
      fin_cases r
      · decide
      · decide

end Allgather

end TorchNpu.Distributed
