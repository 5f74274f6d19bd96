/-
  Which collectives leave their inputs alone.

  `PREMUL_SUM` scales the tensors that `collective` is given in place; these are the tensors of the caller
  unless the path has copied them before.  Where `reduce_scatter` makes one `_reduce_oop` for each rank, `AVG`
  divides the inputs of the other ranks in place as well.
-/
import TorchNpu.Distributed.Layout
import TorchNpu.Distributed.Spec.Protection
import Mathlib.Algebra.Order.Field.Basic

namespace TorchNpu.Distributed

open Checked

/-! ### Calls -/

/-- A call of `reduce_scatter`, `_reduce_scatter_base`, `_reduce_scatter_base_uneven`,
`reduce_scatter_tensor_coalesced` or `_reduce_oop`. -/
inductive OutOfPlace
  | reduceScatter (outputs inputs : List Tensor) (reduceOp : ReduceOp)
  | reduceScatterBase (output input : Tensor) (reduceOp : ReduceOp)
  | reduceScatterBaseUneven (output input : Tensor) (splitSizes : List ℕ) (reduceOp : ReduceOp)
  | reduceScatterTensorCoalesced (outputs inputs : List Tensor) (reduceOp : ReduceOp)
  | reduceOop (output input : Tensor) (reduceOp : ReduceOp) (root : ℕ)

namespace OutOfPlace

def outputs : OutOfPlace → List Tensor
  | .reduceScatter outputs _ _ | .reduceScatterTensorCoalesced outputs _ _ => outputs
  | .reduceScatterBase output _ _ | .reduceScatterBaseUneven output _ _ _ | .reduceOop output _ _ _ =>
    [output]

def inputs : OutOfPlace → List Tensor
  | .reduceScatter _ inputs _ | .reduceScatterTensorCoalesced _ inputs _ => inputs
  | .reduceScatterBase _ input _ | .reduceScatterBaseUneven _ input _ _ | .reduceOop _ input _ _ =>
    [input]

def actions (g : Group) (next : ℕ) : OutOfPlace → Except String (List Action)
  | .reduceScatter outputs inputs reduceOp => Distributed.reduceScatter g outputs inputs reduceOp next
  | .reduceScatterBase output input reduceOp => Distributed.reduceScatterBase g output input reduceOp
  | .reduceScatterBaseUneven output input splitSizes reduceOp =>
    Distributed.reduceScatterBaseUneven g output input splitSizes reduceOp next
  | .reduceScatterTensorCoalesced outputs inputs reduceOp =>
    Distributed.reduceScatterTensorCoalesced g outputs inputs reduceOp
  | .reduceOop output input reduceOp root => Distributed.reduceOop g output input reduceOp root next

/-- The tensor is not a view of the storage of an output. -/
def Apart (call : OutOfPlace) (t : Tensor) : Prop :=
  ∀ output ∈ call.outputs, t.storage ≠ output.storage

/-- The condition that goes wrong: the call scales an input of the caller in place. -/
def ScalesInput (g : Group) (call : OutOfPlace) : Prop :=
  match call with
  | .reduceScatterBase _ input reduceOp =>
    reduceOp = .premulSum ∧ call.Apart input ∧ input.cells ≠ []
  | .reduceScatterBaseUneven _ input _ reduceOp =>
    reduceOp = .premulSum ∧ input.isBaseFormatType = true ∧ call.Apart input ∧ input.cells ≠ []
  | .reduceScatterTensorCoalesced _ inputs reduceOp =>
    reduceOp = .premulSum ∧ ∃ t ∈ inputs, call.Apart t ∧ t.cells ≠ []
  | .reduceOop _ input reduceOp _ =>
    reduceOp = .premulSum ∧ input.isCast = false ∧ call.Apart input ∧ input.cells ≠ []
  | .reduceScatter _ inputs reduceOp =>
    checkSameSize inputs = false ∧ g.hcclReduceScatterVExist = false ∧
      ∃ x ∈ inputs.zipIdx, call.Apart x.1 ∧ x.1.cells ≠ [] ∧
        (reduceOp = .premulSum ∧ x.1.isCast = false ∨
          reduceOp = .avg ∧ x.2 ≠ g.rank ∧ g.size ≠ 1)

/-- Whatever the inputs hold, the factor is and the other processes send: the inputs that are not views of
the storage of an output have their values when the call is complete. -/
def LeavesInputs (g : Group) (call : OutOfPlace) (actions : List Action) : Prop :=
  ∀ factor received m, ∀ t ∈ call.inputs, call.Apart t → ∀ p ∈ t.cells,
    runActions g factor received m actions t.storage p = m t.storage p

end OutOfPlace

/-! ### Storages that are not written -/

variable {g : Group} {factor : ℚ} {received : ℕ → ℕ → ℚ} {m : Memory} {s p : ℕ}
  {actions actions' : List Action} {reduceOp : ReduceOp} {t : Tensor}

/-- The tensors an action writes. -/
def Action.writes (g : Group) : Action → List Tensor
  | .onCurrentStream kernel | .onHcclStream kernel => kernel.writes g
  | .recordStream _ | .stash _ => []

theorem Memory.write_of_ne {vs : List ℚ} (h : s ≠ t.storage) : m.write t vs s p = m s p :=
  if_neg h

theorem Memory.update_of_ne {f : ℚ → ℚ} (h : s ≠ t.storage) : m.update t f s p = m s p :=
  if_neg fun hs => h hs.1

theorem Memory.receive_of_ne {count : ℕ} {f : ℕ → ℚ} (h : s ≠ t.storage) :
    m.receive t count f s p = m s p :=
  if_neg fun hs => h hs.1

theorem Kernel.run_of_not_written {kernel : Kernel} {f : ℕ → ℚ}
    (h : ∀ t ∈ kernel.writes g, s ≠ t.storage) : kernel.run g factor f m s p = m s p := by
  cases kernel with
  | dtypeCast dst src | formatCast dst src | cat dst srcs | copy dst src =>
    exact Memory.write_of_ne (h dst (List.mem_singleton_self dst))
  | mul t | div t =>
    rw [Kernel.run]
    exact Memory.update_of_ne (h t (List.mem_singleton_self t))
  | hcclAllReduce input output count | hcclReduceScatter input output count
  | hcclReduceScatterV input output count =>
    exact Memory.receive_of_ne (h output (List.mem_singleton_self output))
  | hcclReduce input output count root =>
    simp only [Kernel.writes] at h
    simp only [Kernel.run]
    split_ifs at h ⊢ with hroot
    · exact Memory.receive_of_ne (h output (List.mem_singleton_self output))
    · rfl

theorem Action.run_of_not_written {a : Action} {f : ℕ → ℚ} (h : ∀ t ∈ a.writes g, s ≠ t.storage) :
    a.run g factor f m s p = m s p := by
  cases a with
  | onCurrentStream kernel | onHcclStream kernel => exact Kernel.run_of_not_written h
  | recordStream storage | stash storage => rfl

theorem runActions_of_not_written (h : ∀ a ∈ actions, ∀ t ∈ a.writes g, s ≠ t.storage) :
    runActions g factor received m actions s p = m s p := by
  induction actions generalizing m with
  | nil => rfl
  | cons a actions ih =>
    rw [List.forall_mem_cons] at h
    rw [runActions, ih h.2, Action.run_of_not_written h.1]

theorem runActions_append (g : Group) (factor : ℚ) (actions actions' : List Action)
    (received : ℕ → ℕ → ℚ) :
    ∃ received', ∀ m, runActions g factor received m (actions ++ actions') =
      runActions g factor received (runActions g factor received' m actions) actions' := by
  refine ⟨fun k => received (k + actions'.length), fun m => ?_⟩
  induction actions generalizing m with
  | nil => rfl
  | cons a actions ih =>
    rw [List.cons_append, runActions, runActions, List.length_append, ih]

/-- Only the actions in the middle write the storage. -/
theorem runActions_middle {before middle after : List Action}
    (hbefore : ∀ a ∈ before, ∀ t ∈ a.writes g, s ≠ t.storage)
    (hafter : ∀ a ∈ after, ∀ t ∈ a.writes g, s ≠ t.storage) :
    ∃ received' m', (∀ p, m' s p = m s p) ∧ ∀ p,
      runActions g factor received m (before ++ middle ++ after) s p =
        runActions g factor received' m' middle s p := by
  obtain ⟨received₁, h₁⟩ := runActions_append g factor (before ++ middle) after received
  obtain ⟨received₂, h₂⟩ := runActions_append g factor before middle received₁
  refine ⟨received₁, runActions g factor received₂ m before, fun p => ?_, fun p => ?_⟩
  · exact runActions_of_not_written hbefore
  · rw [h₁, runActions_of_not_written hafter, h₂]

theorem Memory.update_apply {f : ℚ → ℚ} :
    m.update t f s p = if s = t.storage ∧ p ∈ t.cells then f (m s p) else m s p :=
  rfl

theorem runActions_premul : runActions g factor received m (premul reduceOp [t]) s p =
    if reduceOp = .premulSum ∧ s = t.storage ∧ p ∈ t.cells then m s p * factor else m s p := by
  unfold premul
  by_cases h : reduceOp = .premulSum
  · rw [if_pos h]
    simp only [List.map_cons, List.map_nil, runActions, Action.run, Kernel.run, Memory.update_apply, h,
      true_and]
  · rw [if_neg h, if_neg fun hs => h hs.1]
    rfl

theorem runActions_average : runActions g factor received m (average reduceOp [t]) s p =
    if reduceOp = .avg ∧ s = t.storage ∧ p ∈ t.cells then m s p / g.size else m s p := by
  unfold average
  by_cases h : reduceOp = .avg
  · rw [if_pos h]
    simp only [List.map_cons, List.map_nil, runActions, Action.run, Kernel.run, Memory.update_apply, h,
      true_and]
  · rw [if_neg h, if_neg fun hs => h hs.1]
    rfl

/-! ### The calls of `_reduce_oop` -/

section ReduceOop

variable {output input : Tensor} {root next : ℕ}

theorem storage_castTensor_ne (hs : s < next) (h : t.isCast = true ∨ s ≠ t.storage) {i : ℕ} :
    s ≠ (castTensor (next + i) t).storage := by
  cases hcast : t.isCast with
  | false =>
    rw [castTensor_of_not_isCast hcast]
    exact h.resolve_left (by rw [hcast]; exact Bool.false_ne_true)
  | true =>
    rw [storage_castTensor hcast]
    omega

theorem not_written_castActions (hs : s < next) {i : ℕ} :
    ∀ a ∈ castActions (next + i) t, ∀ u ∈ a.writes g, s ≠ u.storage := by
  intro a ha u hu
  obtain ⟨hcast, rfl⟩ := mem_castActions.mp ha
  rw [List.mem_singleton.mp hu]
  exact storage_castTensor_ne hs (.inl hcast)

theorem not_written_average {tensors : List Tensor} (h : ∀ t ∈ tensors, s ≠ t.storage) :
    ∀ a ∈ average reduceOp tensors, ∀ u ∈ a.writes g, s ≠ u.storage := by
  intro a ha u hu
  obtain ⟨-, c, hc, rfl⟩ := mem_average.mp ha
  rw [List.mem_singleton.mp hu]
  exact h c hc

theorem not_written_premul (h : s ≠ t.storage) :
    ∀ a ∈ premul reduceOp [t], ∀ u ∈ a.writes g, s ≠ u.storage := by
  intro a ha u hu
  obtain ⟨-, c, hc, rfl⟩ := mem_premul.mp ha
  rw [List.mem_singleton.mp hu, List.mem_singleton.mp hc]
  exact h

theorem not_written_of_protects {a : Action} (h : a.protects = some p) :
    ∀ u ∈ a.writes g, s ≠ u.storage := by
  cases a with
  | onCurrentStream kernel | onHcclStream kernel => cases h
  | recordStream storage | stash storage => exact nofun

/-- What comes between the scaling of `pre` and `post`. -/
def middleActions (g : Group) (input output : Tensor) (count root : ℕ) : List Action :=
  [protect g input] ++ (.onHcclStream (.hcclReduce input output count root) :: protectOutput g output)

theorem not_written_middleActions {count : ℕ} (h : g.rank = root → s ≠ output.storage) :
    ∀ a ∈ middleActions g input output count root, ∀ t ∈ a.writes g, s ≠ t.storage := by
  intro a ha t ht
  rcases List.mem_append.mp ha with ha | ha
  · rw [List.mem_singleton.mp ha] at ht
    exact not_written_of_protects (protects_protect input) t ht
  · rcases List.mem_cons.mp ha with rfl | ha
    · simp only [Action.writes, Kernel.writes] at ht
      split_ifs at ht with hroot
      · rw [List.mem_singleton.mp ht]
        exact h hroot
      · exact absurd ht List.not_mem_nil
    · exact not_written_of_protects (protects_protectOutput ha).2 t ht

/-- What `_reduce_oop` does to a storage that is not that of its output. -/
theorem runActions_reduceOop (hok : reduceOop g output input reduceOp root next = .ok actions)
    (hs : s < next) (hne : s ≠ output.storage) :
    runActions g factor received m actions s p =
      if (reduceOp = .premulSum ∧ input.isCast = false) ∧ s = input.storage ∧ p ∈ input.cells then
        m s p * factor
      else m s p := by
  obtain ⟨count, rfl⟩ := eq_of_reduceOop hok
  have houtput : s ≠ (castTensor (next + 1) output).storage := storage_castTensor_ne hs (.inr hne)
  have hbefore : ∀ a ∈ castActions next input ++ castActions (next + 1) output,
      ∀ t ∈ a.writes g, s ≠ t.storage :=
    List.forall_mem_append.mpr ⟨not_written_castActions (i := 0) hs, not_written_castActions hs⟩
  have hafter : ∀ a ∈ middleActions g (castTensor next input) (castTensor (next + 1) output) count root ++
      (average reduceOp [castTensor (next + 1) output] ++
        writeBack output (castTensor (next + 1) output)), ∀ t ∈ a.writes g, s ≠ t.storage := by
    refine List.forall_mem_append.mpr ⟨not_written_middleActions fun _ => houtput,
      List.forall_mem_append.mpr ⟨not_written_average (List.forall_mem_singleton.mpr houtput), fun a ha => ?_⟩⟩
    obtain ⟨-, rfl | rfl⟩ := mem_writeBack.mp ha
    · exact nofun
    · exact fun t ht => List.mem_singleton.mp ht ▸ hne
  obtain ⟨received', m', hm', hrun⟩ := runActions_middle hbefore hafter
  rw [List.append_assoc _ [_], List.append_assoc]
  refine (hrun p).trans ?_
  rw [runActions_premul, hm']
  cases hcast : input.isCast with
  | false => simp only [castTensor_of_not_isCast hcast, and_true]
  | true =>
    have hinput : s ≠ (castTensor (next + 0) input).storage := storage_castTensor_ne hs (.inl hcast)
    rw [if_neg fun h => hinput h.2.1, if_neg]
    exact fun h => Bool.noConfusion h.1.2

/-! ### Copies of an input -/

theorem Memory.values_congr {m' : Memory} (h : ∀ p, m' t.storage p = m t.storage p) :
    m'.values t = m.values t :=
  List.map_congr_left fun p _ => h p

theorem values_runActions_average :
    (runActions g factor received m (average reduceOp [t])).values t =
      (m.values t).map fun v : ℚ => if reduceOp = .avg then v / g.size else v := by
  unfold Memory.values
  rw [List.map_map]
  refine List.map_congr_left fun p hp => ?_
  rw [runActions_average, Function.comp_apply]
  simp only [hp, and_true]

theorem map_lookup_zip {l : List ℕ} {vs : List ℚ} (hnodup : l.Nodup) (hlength : vs.length = l.length)
    (d : ℕ → ℚ) : l.map (fun p => ((l.zip vs).lookup p).getD (d p)) = vs := by
  induction l generalizing vs with
  | nil => exact (List.length_eq_zero_iff.mp hlength).symm
  | cons p l ih =>
    obtain ⟨v, vs, rfl⟩ := List.exists_cons_of_length_eq_add_one hlength
    rw [List.nodup_cons] at hnodup
    rw [List.map_cons, List.zip_cons_cons, List.lookup_cons_self, Option.getD_some]
    congr 1
    refine Eq.trans (List.map_congr_left fun q hq => ?_) (ih hnodup.2 (Nat.succ_inj.mp hlength))
    have hne : (q == p) = false := beq_false_of_ne fun h => hnodup.1 (h ▸ hq)
    rw [List.lookup_cons, hne]

theorem lookup_zip_map {l : List ℕ} {f : ℕ → ℚ} :
    (l.zip (l.map f)).lookup p = if p ∈ l then some (f p) else none := by
  induction l with
  | nil => rfl
  | cons q l ih =>
    rw [List.map_cons, List.zip_cons_cons, List.lookup_cons, ih]
    by_cases h : p = q
    · rw [h, beq_self_eq_true, if_pos (List.mem_cons_self ..)]
    · rw [beq_false_of_ne h]
      simp only [List.mem_cons, h, false_or]

theorem Memory.values_write {vs : List ℚ} (hnodup : t.cells.Nodup)
    (hlength : vs.length = t.cells.length) : (m.write t vs).values t = vs := by
  refine Eq.trans (List.map_congr_left fun p _ => ?_)
    (map_lookup_zip hnodup hlength fun p => m t.storage p)
  exact if_pos rfl

/-- The values that are written are a function of the places. -/
theorem Memory.write_map {f : ℕ → ℚ} : m.write t (t.cells.map f) s p =
    if s = t.storage ∧ p ∈ t.cells then f p else m s p := by
  unfold write
  rw [lookup_zip_map]
  by_cases hs : s = t.storage
  · by_cases hp : p ∈ t.cells
    · rw [if_pos hs, if_pos hp, if_pos ⟨hs, hp⟩, Option.getD_some]
    · rw [if_pos hs, if_neg hp, if_neg fun h => hp h.2, Option.getD_none]
  · rw [if_neg hs, if_neg fun h => hs h.1]

theorem nodup_cells_castTensor (h : t.isCast = true) {i : ℕ} : (castTensor i t).cells.Nodup := by
  unfold castTensor
  rw [h]
  simp only [if_true, Tensor.cells, Tensor.isBaseFormatType]
  split_ifs
  · rw [Strided.positions_contiguousStrides]
    exact List.nodup_range'
  · exact List.nodup_range

theorem length_cells (t : Tensor) :
    t.cells.length = if t.isBaseFormatType = true then t.numel else t.physicalNumel := by
  unfold Tensor.cells
  split_ifs
  · exact Strided.length_positions t.length_strides _
  · exact List.length_range

theorem length_cells_castTensor {i : ℕ} : (castTensor i t).cells.length = t.cells.length := by
  have hbase : (castTensor i t).isBaseFormatType = t.isBaseFormatType := by
    unfold castTensor
    split_ifs <;> rfl
  have hnumel : (castTensor i t).numel = t.numel := by
    unfold castTensor
    split_ifs <;> rfl
  have hphysical : (castTensor i t).physicalNumel = t.physicalNumel := by
    unfold castTensor
    split_ifs <;> rfl
  rw [length_cells, length_cells, hbase, hnumel, hphysical]

/-- The input is copied to a new storage, which is scaled and copied back. -/
theorem runActions_copied {count : ℕ} (hcast : input.isCast = true) (hinput : input.storage < next)
    (hs : s < next) (hroot : g.rank ≠ root) :
    runActions g factor received m
      (castActions next input ++ castActions (next + 1) input ++ premul reduceOp [castTensor next input] ++
        (middleActions g (castTensor next input) (castTensor (next + 1) input) count root ++
          (average reduceOp [castTensor (next + 1) input] ++
            writeBack input (castTensor (next + 1) input)))) s p =
      if s = input.storage ∧ p ∈ input.cells then
        if reduceOp = .avg then m s p / g.size else m s p
      else m s p := by
  have hu : (castTensor next input).storage = next := storage_castTensor hcast
  have hw : (castTensor (next + 1) input).storage = next + 1 := storage_castTensor hcast
  have hnodup : (castTensor (next + 1) input).cells.Nodup := nodup_cells_castTensor hcast
  have hlength : (castTensor (next + 1) input).cells.length = input.cells.length :=
    length_cells_castTensor
  have hcastActions : ∀ i, castActions i input =
      [.onHcclStream (.dtypeCast (castTensor i input) input)] := fun i => if_pos hcast
  have hwrite : writeBack input (castTensor (next + 1) input) =
      [.recordStream (castTensor (next + 1) input).storage,
        .onHcclStream (.copy input (castTensor (next + 1) input))] :=
    if_pos (scalarType_castTensor_ne.mpr hcast)
  set u := castTensor next input
  set w := castTensor (next + 1) input
  rw [hcastActions, hcastActions, hwrite]
  set scaling := premul reduceOp [u] ++ middleActions g u w count root
  have hscaling : ∀ s, s ≠ next → ∀ a ∈ scaling, ∀ t ∈ a.writes g, s ≠ t.storage := by
    intro s hs
    refine List.forall_mem_append.mpr ⟨not_written_premul (hu ▸ hs), ?_⟩
    exact not_written_middleActions fun h => absurd h hroot
  obtain ⟨received₁, h₁⟩ := runActions_append g factor scaling
    (average reduceOp [w] ++ [Action.recordStream w.storage, .onHcclStream (.copy input w)]) received
  obtain ⟨received₂, h₂⟩ := runActions_append g factor (average reduceOp [w])
    [.recordStream w.storage, .onHcclStream (.copy input w)] received
  have hlist : [Action.onHcclStream (.dtypeCast u input)] ++ [Action.onHcclStream (.dtypeCast w input)] ++
      premul reduceOp [u] ++ (middleActions g u w count root ++
        (average reduceOp [w] ++ [Action.recordStream w.storage, .onHcclStream (.copy input w)])) =
      Action.onHcclStream (.dtypeCast u input) :: Action.onHcclStream (.dtypeCast w input) :: (scaling ++
        (average reduceOp [w] ++ [Action.recordStream w.storage, .onHcclStream (.copy input w)])) := by
    rw [List.append_assoc (premul reduceOp [u])]
    rfl
  rw [hlist, runActions, runActions, h₁, h₂]
  set m₁ := Action.run g factor (received _) m (.onHcclStream (.dtypeCast u input)) with hm₁
  set m₂ := Action.run g factor (received _) m₁ (.onHcclStream (.dtypeCast w input)) with hm₂
  set m₃ := runActions g factor received₁ m₂ scaling with hm₃
  set m₄ := runActions g factor received₂ m₃ (average reduceOp [w]) with hm₄
  have hbelow₁ : ∀ s < next, ∀ p, m₁ s p = m s p := fun s hs p =>
    Memory.write_of_ne (by omega)
  have hbelow : ∀ s < next, ∀ p, m₄ s p = m s p := by
    intro s hs p
    rw [hm₄, runActions_of_not_written (not_written_average (List.forall_mem_singleton.mpr (by omega))), hm₃,
      runActions_of_not_written (hscaling s hs.ne), ← hbelow₁ s hs p]
    exact Memory.write_of_ne (by omega)
  have hvalues₂ : m₂.values w = m.values input := by
    refine (Memory.values_write hnodup ?_).trans (Memory.values_congr fun p => hbelow₁ _ hinput p)
    rw [Memory.values, List.length_map, hlength]
  have hvalues : m₄.values w = input.cells.map fun p =>
      if reduceOp = .avg then m input.storage p / g.size else m input.storage p := by
    have hvalues₃ : m₃.values w = m₂.values w := Memory.values_congr fun p =>
      runActions_of_not_written (hscaling w.storage (by omega))
    rw [hm₄, values_runActions_average, hvalues₃, hvalues₂, Memory.values, List.map_map]
    rfl
  change m₄.write input (m₄.values w) s p = _
  rw [hvalues, Memory.write_map, hbelow s hs]
  by_cases hsp : s = input.storage ∧ p ∈ input.cells
  · rw [if_pos hsp, if_pos hsp, hsp.1]
  · rw [if_neg hsp, if_neg hsp]

/-- What `_reduce_oop` does to the input that is also its output, where the rank is not the root. -/
theorem runActions_reduceOop_self (hok : reduceOop g input input reduceOp root next = .ok actions)
    (hinput : input.storage < next) (hs : s < next) (hroot : g.rank ≠ root) :
    runActions g factor received m actions s p =
      if s = input.storage ∧ p ∈ input.cells then
        if reduceOp = .premulSum ∧ input.isCast = false then m s p * factor
        else if reduceOp = .avg then m s p / g.size else m s p
      else m s p := by
  obtain ⟨count, rfl⟩ := eq_of_reduceOop hok
  rw [List.append_assoc _ [_], List.append_assoc]
  cases hcast : input.isCast with
  | false =>
    simp only [castTensor_of_not_isCast hcast, castActions_of_not_isCast hcast, List.nil_append]
    have hwrite : writeBack input input = [] := if_neg fun h => h rfl
    rw [hwrite, List.append_nil]
    -- `pre` and `post` scale the same tensor, and nothing between them writes it.
    obtain ⟨received₁, h₁⟩ := runActions_append g factor (premul reduceOp [input])
      (middleActions g input input count root ++ average reduceOp [input]) received
    obtain ⟨received₂, h₂⟩ := runActions_append g factor (middleActions g input input count root)
      (average reduceOp [input]) received
    refine (congrFun₂ (h₁ m) s p).trans ?_
    rw [h₂, runActions_average, runActions_of_not_written
      (not_written_middleActions fun h => absurd h hroot), runActions_premul]
    by_cases hsp : s = input.storage ∧ p ∈ input.cells
    · by_cases hop : reduceOp = .premulSum
      · simp [hsp, hop]
      · simp [hsp, hop]
    · rw [if_neg fun h => hsp h.2, if_neg fun h => hsp h.2, if_neg hsp]
  | true =>
    have hop : ¬(reduceOp = .premulSum ∧ true = false) := fun h => Bool.noConfusion h.2
    rw [if_neg hop]
    exact runActions_copied hcast hinput hs hroot

end ReduceOop

/-! ### Scalings -/

/-- A place of the memory goes through the scalings of the tensors that cover it. -/
def scaled (s p : ℕ) (l : List (Tensor × (ℚ → ℚ))) (v : ℚ) : ℚ :=
  l.foldl (fun v x => if s = x.1.storage ∧ p ∈ x.1.cells then x.2 v else v) v

theorem scaled_cons {x : Tensor × (ℚ → ℚ)} {l : List (Tensor × (ℚ → ℚ))} {v : ℚ} :
    scaled s p (x :: l) v =
      scaled s p l (if s = x.1.storage ∧ p ∈ x.1.cells then x.2 v else v) :=
  rfl

theorem scaled_eq_self {l : List (Tensor × (ℚ → ℚ))} {v : ℚ}
    (h : ∀ x ∈ l, s = x.1.storage → p ∈ x.1.cells → x.2 v = v) : scaled s p l v = v := by
  induction l with
  | nil => rfl
  | cons x l ih =>
    rw [List.forall_mem_cons] at h
    rw [scaled_cons]
    split_ifs with hx
    · rw [h.1 hx.1 hx.2, ih h.2]
    · exact ih h.2

/-- A scaling that enlarges nothing. -/
def Shrinking (f : ℚ → ℚ) : Prop :=
  ∀ v, 0 ≤ v → 0 ≤ f v ∧ f v ≤ v

theorem scaled_le {l : List (Tensor × (ℚ → ℚ))} (h : ∀ x ∈ l, Shrinking x.2) :
    Shrinking (scaled s p l) := by
  induction l with
  | nil => exact fun v hv => ⟨hv, le_rfl⟩
  | cons x l ih =>
    rw [List.forall_mem_cons] at h
    intro v hv
    rw [scaled_cons]
    split_ifs
    · obtain ⟨hnonneg, hle⟩ := h.1 v hv
      obtain ⟨hnonneg', hle'⟩ := ih h.2 _ hnonneg
      exact ⟨hnonneg', hle'.trans hle⟩
    · exact ih h.2 v hv

/-- Where one of them makes all values smaller, the place changes. -/
theorem scaled_lt {l : List (Tensor × (ℚ → ℚ))} (h : ∀ x ∈ l, Shrinking x.2)
    {x : Tensor × (ℚ → ℚ)} (hx : x ∈ l) (hs : s = x.1.storage) (hp : p ∈ x.1.cells)
    (hlt : ∀ v, 0 < v → x.2 v < v) {v : ℚ} (hv : 0 < v) : scaled s p l v < v := by
  induction l generalizing v with
  | nil => exact absurd hx List.not_mem_nil
  | cons y l ih =>
    rw [List.forall_mem_cons] at h
    rw [scaled_cons]
    rcases List.mem_cons.mp hx with rfl | hx
    · rw [if_pos ⟨hs, hp⟩]
      exact ((scaled_le h.2 _ (h.1 v hv.le).1).2).trans_lt (hlt v hv)
    · split_ifs
      · rcases (h.1 v hv.le).1.eq_or_lt with hzero | hpos
        · rw [← hzero]
          exact ((scaled_le h.2 0 le_rfl).2).trans_lt hv
        · exact (ih h.2 hx hpos).trans_le (h.1 v hv.le).2
      · exact ih h.2 hx hv

/-- Several scalings of `PREMUL_SUM`. -/
theorem runActions_premul_scaled {tensors : List Tensor} (h : reduceOp = .premulSum) :
    runActions g factor received m (premul reduceOp tensors) s p =
      scaled s p (tensors.map fun t => (t, fun v => v * factor)) (m s p) := by
  unfold premul
  rw [if_pos h]
  induction tensors generalizing m with
  | nil => rfl
  | cons t tensors ih =>
    rw [List.map_cons, runActions, ih, List.map_cons, scaled_cons]
    rfl

/-- What the `i`th `_reduce_oop` of `reduce_scatter` does to its input. -/
def scaleOf (g : Group) (factor : ℚ) (reduceOp : ReduceOp) (x : Tensor × ℕ) (v : ℚ) : ℚ :=
  if reduceOp = .premulSum ∧ x.1.isCast = false then v * factor
  else if reduceOp = .avg ∧ x.2 ≠ g.rank then v / g.size else v

/-- The scalings of inputs of the caller in place. -/
def OutOfPlace.scalings (g : Group) (factor : ℚ) : OutOfPlace → List (Tensor × (ℚ → ℚ))
  | .reduceScatterBase _ input reduceOp =>
    if reduceOp = .premulSum then [(input, fun v => v * factor)] else []
  | .reduceScatterBaseUneven _ input _ reduceOp =>
    if reduceOp = .premulSum ∧ input.isBaseFormatType = true then [(input, fun v => v * factor)] else []
  | .reduceScatterTensorCoalesced _ inputs reduceOp =>
    if reduceOp = .premulSum then inputs.map fun t => (t, fun v => v * factor) else []
  | .reduceOop _ input reduceOp _ =>
    if reduceOp = .premulSum ∧ input.isCast = false then [(input, fun v => v * factor)] else []
  | .reduceScatter _ inputs reduceOp =>
    if checkSameSize inputs = true ∨ g.hcclReduceScatterVExist = true then []
    else inputs.zipIdx.map fun x => (x.1, scaleOf g factor reduceOp x)

/-! ### What the calls do to their inputs -/

section Calls

variable {inputs outputs : List Tensor} {pre post : List Action} {next : ℕ}
  {fn : Tensor → Tensor → Except String (List Action)} {functionName : String}

/-- Only `pre` writes a storage that is not that of an output. -/
theorem runActions_collective (hok : collective g inputs outputs fn pre post = .ok actions)
    (hfn : ∀ input, ∀ output ∈ outputs, ∀ acts, fn input output = .ok acts →
      ∀ a ∈ acts, ∀ t ∈ a.writes g, s ≠ t.storage)
    (hpost : ∀ a ∈ post, ∀ t ∈ a.writes g, s ≠ t.storage) :
    ∃ received', ∀ p, runActions g factor received m actions s p =
      runActions g factor received' m pre s p := by
  obtain ⟨calls, hcalls, hok⟩ := bind_eq_ok.mp hok
  cases hok
  have hrest : ∀ a ∈ inputs.map (protect g) ++ calls.flatten ++ post, ∀ t ∈ a.writes g,
      s ≠ t.storage := by
    refine List.forall_mem_append.mpr ⟨List.forall_mem_append.mpr ⟨fun a ha => ?_, fun a ha => ?_⟩,
      hpost⟩
    · obtain ⟨t, -, rfl⟩ := List.mem_map.mp ha
      exact not_written_of_protects (protects_protect t)
    · obtain ⟨l, hl, ha⟩ := List.mem_flatten.mp ha
      obtain ⟨⟨input, output⟩, hcall, heq⟩ := exists_mem_of_mapM hcalls hl
      obtain ⟨acts, hacts, heq⟩ := bind_eq_ok.mp heq
      cases heq
      rcases List.mem_append.mp ha with ha | ha
      · exact hfn input output (List.of_mem_zip hcall).2 acts hacts a ha
      · exact not_written_of_protects (protects_protectOutput ha).2
  obtain ⟨received', h⟩ := runActions_append g factor pre
    (inputs.map (protect g) ++ calls.flatten ++ post) received
  refine ⟨received', fun p => ?_⟩
  rw [List.append_assoc pre, List.append_assoc pre, h, runActions_of_not_written hrest]

/-- What `fn` does where it calls `HcclReduceScatter`. -/
theorem not_written_hcclReduceScatter {input output : Tensor} {acts : List Action}
    (hacts : (do
      checkCall functionName reduceOp input
      let numel ← output.getNumelForHCCL
      return recordOutput g output ++ [Action.onHcclStream (.hcclReduceScatter input output numel)]) =
        Except.ok acts) (hne : s ≠ output.storage) :
    ∀ a ∈ acts, ∀ t ∈ a.writes g, s ≠ t.storage := by
  intro a ha t ht
  obtain ⟨_, -, hacts⟩ := bind_eq_ok.mp hacts
  obtain ⟨numel, -, hacts⟩ := bind_eq_ok.mp hacts
  cases hacts
  rcases List.mem_append.mp ha with ha | ha
  · unfold recordOutput at ha
    split_ifs at ha
    · rw [List.mem_singleton.mp ha] at ht
      exact absurd ht List.not_mem_nil
    · exact absurd ha List.not_mem_nil
  · rw [List.mem_singleton.mp ha] at ht
    rwa [List.mem_singleton.mp ht]

/-- What `fn` does where it calls `HcclReduceScatterV`. -/
theorem not_written_hcclReduceScatterV {input output : Tensor} {acts : List Action}
    (hacts : (do
      let _ ← getHcclReduceOp reduceOp input
      let _ ← getHcclDataType input.scalarType
      return [.onHcclStream (.hcclReduceScatterV input output output.numel)]) = Except.ok acts)
    (hne : s ≠ output.storage) : ∀ a ∈ acts, ∀ t ∈ a.writes g, s ≠ t.storage := by
  intro a ha t ht
  obtain ⟨_, -, hacts⟩ := bind_eq_ok.mp hacts
  obtain ⟨_, -, hacts⟩ := bind_eq_ok.mp hacts
  cases hacts
  rw [List.mem_singleton.mp ha] at ht
  rwa [List.mem_singleton.mp ht]

theorem runActions_reduceScatterTensors
    (hok : reduceScatterTensors g functionName outputs inputs reduceOp = .ok actions)
    (hne : ∀ output ∈ outputs, s ≠ output.storage) :
    runActions g factor received m actions s p =
      scaled s p (if reduceOp = .premulSum then inputs.map fun t => (t, fun v => v * factor) else [])
        (m s p) := by
  obtain ⟨received', h⟩ := runActions_collective hok
    (fun _ output houtput _ hacts => not_written_hcclReduceScatter hacts (hne output houtput))
    (not_written_average hne)
  rw [h]
  by_cases hop : reduceOp = .premulSum
  · rw [if_pos hop, runActions_premul_scaled hop]
  · rw [if_neg hop, premul, if_neg hop]
    rfl

theorem storage_originFormatTensor_ne (hs : s < next)
    (h : t.isBaseFormatType = true → s ≠ t.storage) {i : ℕ} :
    s ≠ (originFormatTensor (next + i) t).storage := by
  unfold originFormatTensor
  split_ifs with hbase
  · exact h hbase
  · change s ≠ next + i
    omega

theorem not_written_originFormatActions (hs : s < next) {i : ℕ} :
    ∀ a ∈ originFormatActions (next + i) t, ∀ u ∈ a.writes g, s ≠ u.storage := by
  intro a ha u hu
  unfold originFormatActions at ha
  split_ifs at ha with hbase
  · exact absurd ha List.not_mem_nil
  · rw [List.mem_singleton.mp ha] at hu
    rw [List.mem_singleton.mp hu]
    exact storage_originFormatTensor_ne hs fun h => absurd h hbase

theorem runActions_reduceScatterBaseUneven {output input : Tensor} {splitSizes : List ℕ}
    (hok : reduceScatterBaseUneven g output input splitSizes reduceOp next = .ok actions)
    (hs : s < next) (hne : s ≠ output.storage) :
    runActions g factor received m actions s p =
      scaled s p (if reduceOp = .premulSum ∧ input.isBaseFormatType = true then
        [(input, fun v => v * factor)] else []) (m s p) := by
  obtain ⟨_, -, hok⟩ := bind_eq_ok.mp hok
  obtain ⟨_, -, hok⟩ := bind_eq_ok.mp hok
  split_ifs at hok with htype
  · cases hok
  · obtain ⟨_, -, hok⟩ := bind_eq_ok.mp hok
    obtain ⟨acts, hacts, hok⟩ := bind_eq_ok.mp hok
    cases hok
    have houtput : s ≠ (originFormatTensor (next + 1) output).storage :=
      storage_originFormatTensor_ne hs fun _ => hne
    obtain ⟨received₁, h₁⟩ := runActions_append g factor
      (originFormatActions next input ++ originFormatActions (next + 1) output) acts received
    rw [h₁]
    have hbefore : ∀ a ∈ originFormatActions next input ++ originFormatActions (next + 1) output,
        ∀ t ∈ a.writes g, s ≠ t.storage :=
      List.forall_mem_append.mpr ⟨not_written_originFormatActions (i := 0) hs,
        not_written_originFormatActions hs⟩
    obtain ⟨received₂, h₂⟩ := runActions_collective hacts
      (fun _ u hu _ h => not_written_hcclReduceScatterV h (List.mem_singleton.mp hu ▸ houtput))
      (not_written_average (List.forall_mem_singleton.mpr houtput))
    rw [h₂, runActions_premul, runActions_of_not_written hbefore]
    cases hbase : input.isBaseFormatType with
    | true =>
      have hinput : originFormatTensor next input = input := if_pos hbase
      rw [hinput]
      by_cases hop : reduceOp = .premulSum
      · simp only [hop, true_and, and_self, if_true]
        rfl
      · simp only [hop, false_and, if_false]
        rfl
    | false =>
      have hinput : s ≠ (originFormatTensor (next + 0) input).storage :=
        storage_originFormatTensor_ne hs fun h => absurd (hbase.symm.trans h) Bool.false_ne_true
      rw [if_neg fun h => hinput h.2.1, if_neg fun h => Bool.false_ne_true h.2]
      rfl

theorem runActions_reduceScatterSameSize {output : Tensor}
    (hok : reduceScatterSameSize g output inputs reduceOp next = .ok actions) (hs : s < next)
    (hne : s ≠ output.storage) : runActions g factor received m actions s p = m s p := by
  obtain ⟨flattened, hflattened, hok⟩ := bind_eq_ok.mp hok
  obtain ⟨_, -, hok⟩ := bind_eq_ok.mp hok
  have hstorage : flattened.storage = next := by
    unfold flattenForScatterGather at hflattened
    split_ifs at hflattened
    unfold newLikeFlat at hflattened
    split at hflattened
    · cases hflattened
    · cases hflattened
      rfl
  obtain ⟨received', h⟩ := runActions_collective hok
    (fun _ u hu _ h => not_written_hcclReduceScatter h (List.mem_singleton.mp hu ▸ hne))
    (not_written_average (List.forall_mem_singleton.mpr hne))
  rw [h]
  refine runActions_of_not_written fun a ha => ?_
  obtain ⟨⟨t, j⟩, -, ha⟩ := List.mem_flatMap.mp ha
  -- The parts of the flattened tensor are in its storage.
  have hselect : s ≠ (flattened.select j).storage := by
    change s ≠ flattened.storage
    omega
  rcases List.mem_append.mp ha with ha | ha
  · rcases List.mem_cons.mp ha with rfl | ha
    · exact not_written_of_protects (protects_protect t)
    · rw [List.mem_singleton.mp ha]
      exact fun u hu => List.mem_singleton.mp hu ▸ hselect
  · exact not_written_premul hselect a ha

theorem storage_flatten_ne (hs : s < next) (h : s ≠ t.storage) {i : ℕ} :
    s ≠ (flatten (next + i) t).storage := by
  unfold flatten
  split_ifs
  · exact h
  · change s ≠ next + i
    omega

theorem runActions_reduceScatterV {output : Tensor}
    (hok : reduceScatterV g output inputs reduceOp next = .ok actions) (hs : s < next)
    (hne : s ≠ output.storage) : runActions g factor received m actions s p = m s p := by
  obtain ⟨acts, hacts, hok⟩ := bind_eq_ok.mp hok
  cases hok
  have houtput : s ≠ (flatten (next + 1) output).storage := storage_flatten_ne hs hne
  obtain ⟨received₁, h₁⟩ := runActions_append g factor
    (.onCurrentStream (.cat (newTensor next ((inputs.map Tensor.scalarType).headD .float)
      [(inputs.map Tensor.numel).sum]) inputs) :: flattenActions (next + 1) output) acts received
  rw [h₁]
  have hinput : s ≠ (newTensor next ((inputs.map Tensor.scalarType).headD .float)
      [(inputs.map Tensor.numel).sum]).storage := hs.ne
  have hpost : ∀ a ∈ [protect g output, .onHcclStream (.copy output (flatten (next + 1) output))] ++
      average reduceOp [output], ∀ t ∈ a.writes g, s ≠ t.storage := by
    refine List.forall_mem_append.mpr ⟨List.forall_mem_cons.mpr ⟨?_, fun a ha => ?_⟩,
      not_written_average (List.forall_mem_singleton.mpr hne)⟩
    · exact not_written_of_protects (protects_protect output)
    · rw [List.mem_singleton.mp ha]
      exact fun u hu => List.mem_singleton.mp hu ▸ hne
  obtain ⟨received₂, h₂⟩ := runActions_collective hacts
    (fun _ u hu _ h => not_written_hcclReduceScatterV h (List.mem_singleton.mp hu ▸ houtput)) hpost
  rw [h₂, runActions_of_not_written (not_written_premul hinput)]
  refine runActions_of_not_written (List.forall_mem_cons.mpr ⟨?_, fun a ha => ?_⟩)
  · exact fun u hu => List.mem_singleton.mp hu ▸ hinput
  · unfold flattenActions at ha
    split_ifs at ha
    · exact absurd ha List.not_mem_nil
    · rw [List.mem_singleton.mp ha]
      exact fun u hu => List.mem_singleton.mp hu ▸ houtput

/-- One `_reduce_oop` after the other. -/
theorem runActions_works {output : Tensor} {l : List (Tensor × ℕ)} {works : List (List Action)}
    (hworks : l.mapM (fun (input, i) =>
      reduceOop g (if i = g.rank then output else input) input reduceOp i (next + 2 * i)) = .ok works)
    (hfresh : ∀ x ∈ l, x.1.storage < next) (hs : s < next) (hne : s ≠ output.storage) :
    runActions g factor received m works.flatten s p =
      scaled s p (l.map fun x => (x.1, scaleOf g factor reduceOp x)) (m s p) := by
  induction l generalizing works m received with
  | nil =>
    cases hworks
    rfl
  | cons x l ih =>
    obtain ⟨input, i⟩ := x
    obtain ⟨work, works, hwork, hrest, rfl⟩ :=
      List.forall₂_cons_left_iff.mp (mapM_eq_ok.mp hworks)
    rw [List.forall_mem_cons] at hfresh
    obtain ⟨received', h⟩ := runActions_append g factor work works.flatten received
    rw [List.flatten_cons, h, ih (mapM_eq_ok.mpr hrest) hfresh.2, List.map_cons, scaled_cons]
    congr 1
    have hwork : reduceOop g (if i = g.rank then output else input) input reduceOp i (next + 2 * i) =
        .ok work := hwork
    by_cases hi : i = g.rank
    · rw [if_pos hi] at hwork
      rw [runActions_reduceOop hwork (by omega) hne]
      by_cases hsp : s = input.storage ∧ p ∈ input.cells
      · simp only [hsp, and_true, if_true, scaleOf, hi, ne_eq, not_true_eq_false, and_false, if_false,
          and_self]
      · rw [if_neg fun h => hsp h.2, if_neg hsp]
    · rw [if_neg hi] at hwork
      rw [runActions_reduceOop_self hwork (Nat.lt_add_right _ hfresh.1) (by omega) (Ne.symm hi)]
      simp only [scaleOf, hi, ne_eq, not_false_eq_true, and_true]

/-- A call scales the places of its inputs as `scalings` says. -/
theorem runActions_call {call : OutOfPlace} (hok : call.actions g next = .ok actions)
    (hfresh : ∀ t ∈ call.inputs, t.storage < next) (hs : s < next)
    (hne : ∀ output ∈ call.outputs, s ≠ output.storage) :
    runActions g factor received m actions s p = scaled s p (call.scalings g factor) (m s p) := by
  cases call with
  | reduceScatter outputs inputs reduceOp =>
    obtain ⟨_, hcheck, hok⟩ := bind_eq_ok.mp hok
    obtain ⟨_, -, hok⟩ := bind_eq_ok.mp hok
    obtain ⟨output, rfl⟩ := eq_singleton_of_checkNpuTensorsDifferentDevices hcheck
    have hne := hne output (List.mem_singleton_self output)
    rw [OutOfPlace.scalings]
    simp only at hok
    split_ifs at hok with hsame hexist
    · rw [if_pos (.inl hsame), runActions_reduceScatterSameSize hok hs hne]
      rfl
    · rw [if_pos (.inr hexist), runActions_reduceScatterV hok hs hne]
      rfl
    · obtain ⟨works, hworks, hok⟩ := bind_eq_ok.mp hok
      cases hok
      rw [if_neg (not_or.mpr ⟨hsame, hexist⟩)]
      exact runActions_works hworks
        (fun x hx => hfresh x.1 (List.fst_mem_of_mem_zipIdx hx)) hs hne
  | reduceScatterBase output input reduceOp =>
    obtain ⟨_, -, hok⟩ := bind_eq_ok.mp hok
    split_ifs at hok
    all_goals first
      | exact runActions_reduceScatterTensors hok hne
      | cases hok
  | reduceScatterBaseUneven output input splitSizes reduceOp =>
    exact runActions_reduceScatterBaseUneven hok hs (hne output (List.mem_singleton_self output))
  | reduceScatterTensorCoalesced outputs inputs reduceOp =>
    obtain ⟨_, -, hok⟩ := bind_eq_ok.mp hok
    obtain ⟨_, -, hok⟩ := bind_eq_ok.mp hok
    exact runActions_reduceScatterTensors hok hne
  | reduceOop output input reduceOp root =>
    rw [runActions_reduceOop hok hs (hne output (List.mem_singleton_self output))]
    rw [OutOfPlace.scalings]
    by_cases hop : reduceOp = .premulSum ∧ input.isCast = false
    · simp only [hop, and_self, true_and, if_true]
      rfl
    · rw [if_neg fun h => hop h.1, if_neg hop]
      rfl

end Calls

/-! ### The condition -/

theorem shrinking_mul_zero : Shrinking fun v => v * 0 := by
  intro v hv
  simp only [mul_zero]
  exact ⟨le_rfl, hv⟩

theorem shrinking_div (n : ℕ) : Shrinking fun v => v / n := by
  intro v hv
  refine ⟨div_nonneg hv (Nat.cast_nonneg n), ?_⟩
  rcases Nat.eq_zero_or_pos n with rfl | hn
  · simp only [Nat.cast_zero, div_zero]
    exact hv
  · exact div_le_self hv (Nat.one_le_cast.mpr hn)

theorem div_lt_of_ne_one {n : ℕ} (hn : n ≠ 1) {v : ℚ} (hv : 0 < v) : v / n < v := by
  rcases Nat.eq_zero_or_pos n with rfl | hpos
  · rw [Nat.cast_zero, div_zero]
    exact hv
  · exact div_lt_self hv (Nat.one_lt_cast.mpr (by omega))

theorem shrinking_scaleOf (x : Tensor × ℕ) : Shrinking (scaleOf g 0 reduceOp x) := by
  intro v hv
  unfold scaleOf
  split_ifs
  · exact shrinking_mul_zero v hv
  · exact shrinking_div g.size v hv
  · exact ⟨hv, le_rfl⟩

theorem shrinking_scalings (call : OutOfPlace) : ∀ x ∈ call.scalings g 0, Shrinking x.2 := by
  intro x hx
  cases call with
  | reduceScatter outputs inputs reduceOp =>
    rw [OutOfPlace.scalings] at hx
    split_ifs at hx
    · exact absurd hx List.not_mem_nil
    · obtain ⟨y, -, rfl⟩ := List.mem_map.mp hx
      exact shrinking_scaleOf y
  | reduceScatterTensorCoalesced outputs inputs reduceOp =>
    rw [OutOfPlace.scalings] at hx
    split_ifs at hx
    · obtain ⟨t, -, rfl⟩ := List.mem_map.mp hx
      exact shrinking_mul_zero
    · exact absurd hx List.not_mem_nil
  | reduceScatterBase output input reduceOp | reduceScatterBaseUneven output input splitSizes reduceOp
  | reduceOop output input reduceOp root =>
    rw [OutOfPlace.scalings] at hx
    split_ifs at hx
    · rw [List.mem_singleton.mp hx]
      exact shrinking_mul_zero
    · exact absurd hx List.not_mem_nil

theorem scalings_eq_self {call : OutOfPlace} (h : ¬call.ScalesInput g) :
    ∀ x ∈ call.scalings g factor, call.Apart x.1 → x.1.cells ≠ [] → ∀ v, x.2 v = v := by
  intro x hx hapart hcells v
  cases call with
  | reduceScatter outputs inputs reduceOp =>
    rw [OutOfPlace.scalings] at hx
    split_ifs at hx with hpath
    · exact absurd hx List.not_mem_nil
    · obtain ⟨y, hy, rfl⟩ := List.mem_map.mp hx
      rw [not_or, Bool.not_eq_true, Bool.not_eq_true] at hpath
      have hscales : ¬(reduceOp = .premulSum ∧ y.1.isCast = false ∨
          reduceOp = .avg ∧ y.2 ≠ g.rank ∧ g.size ≠ 1) :=
        fun hscales => h ⟨hpath.1, hpath.2, y, hy, hapart, hcells, hscales⟩
      rw [not_or] at hscales
      change scaleOf g factor reduceOp y v = v
      unfold scaleOf
      rw [if_neg hscales.1]
      split_ifs with havg
      · have hsize : g.size = 1 := by
          by_contra hsize
          exact hscales.2 ⟨havg.1, havg.2, hsize⟩
        rw [hsize, Nat.cast_one, div_one]
      · rfl
  | reduceScatterTensorCoalesced outputs inputs reduceOp =>
    rw [OutOfPlace.scalings] at hx
    split_ifs at hx with hop
    · obtain ⟨t, ht, rfl⟩ := List.mem_map.mp hx
      exact absurd ⟨hop, t, ht, hapart, hcells⟩ h
    · exact absurd hx List.not_mem_nil
  | reduceScatterBase output input reduceOp =>
    rw [OutOfPlace.scalings] at hx
    split_ifs at hx with hop
    · rw [List.mem_singleton.mp hx] at hapart hcells
      exact absurd ⟨hop, hapart, hcells⟩ h
    · exact absurd hx List.not_mem_nil
  | reduceScatterBaseUneven output input splitSizes reduceOp | reduceOop output input reduceOp root =>
    rw [OutOfPlace.scalings] at hx
    split_ifs at hx with hop
    · rw [List.mem_singleton.mp hx] at hapart hcells
      exact absurd ⟨hop.1, hop.2, hapart, hcells⟩ h
    · exact absurd hx List.not_mem_nil

theorem exists_scaling {call : OutOfPlace} (h : call.ScalesInput g) :
    ∃ x ∈ call.scalings g 0, x.1 ∈ call.inputs ∧ call.Apart x.1 ∧ x.1.cells ≠ [] ∧
      ∀ v, 0 < v → x.2 v < v := by
  have hmul : ∀ v : ℚ, 0 < v → v * 0 < v := fun v hv => by rwa [mul_zero]
  cases call with
  | reduceScatter outputs inputs reduceOp =>
    obtain ⟨hsame, hexist, x, hx, hapart, hcells, hscales⟩ := h
    have hpath : ¬(checkSameSize inputs = true ∨ g.hcclReduceScatterVExist = true) := by
      rw [hsame, hexist]
      decide
    refine ⟨(x.1, scaleOf g 0 reduceOp x), ?_, List.fst_mem_of_mem_zipIdx hx, hapart, hcells, fun v hv => ?_⟩
    · rw [OutOfPlace.scalings, if_neg hpath]
      exact List.mem_map_of_mem hx
    · change scaleOf g 0 reduceOp x v < v
      unfold scaleOf
      rcases hscales with hpremul | ⟨havg, hrank, hsize⟩
      · rw [if_pos hpremul]
        exact hmul v hv
      · have hpremul : ¬(reduceOp = .premulSum ∧ x.1.isCast = false) := by
          rw [havg]
          exact fun hpremul => nomatch hpremul.1
        rw [if_neg hpremul, if_pos ⟨havg, hrank⟩]
        exact div_lt_of_ne_one hsize hv
  | reduceScatterTensorCoalesced outputs inputs reduceOp =>
    obtain ⟨hop, t, ht, hapart, hcells⟩ := h
    refine ⟨(t, fun v => v * 0), ?_, ht, hapart, hcells, hmul⟩
    rw [OutOfPlace.scalings, if_pos hop]
    exact List.mem_map_of_mem ht
  | reduceScatterBase output input reduceOp =>
    obtain ⟨hop, hapart, hcells⟩ := h
    refine ⟨(input, fun v => v * 0), ?_, List.mem_singleton_self _, hapart, hcells, hmul⟩
    rw [OutOfPlace.scalings, if_pos hop]
    exact List.mem_singleton_self _
  | reduceScatterBaseUneven output input splitSizes reduceOp | reduceOop output input reduceOp root =>
    obtain ⟨hop, hpath, hapart, hcells⟩ := h
    refine ⟨(input, fun v => v * 0), ?_, List.mem_singleton_self _, hapart, hcells, hmul⟩
    rw [OutOfPlace.scalings, if_pos ⟨hop, hpath⟩]
    exact List.mem_singleton_self _

/-- A call that is complete has left its inputs alone, whatever they held, exactly when it does not scale
one of them in place. -/
theorem leavesInputs_iff (g : Group) (call : OutOfPlace) (next : ℕ) (actions : List Action)
    (hfresh : ∀ t ∈ call.outputs ++ call.inputs, t.storage < next)
    (hok : call.actions g next = .ok actions) :
    call.LeavesInputs g actions ↔ ¬call.ScalesInput g := by
  rw [List.forall_mem_append] at hfresh
  constructor
  · intro hleaves hscales
    obtain ⟨x, hx, hinput, hapart, hcells, hlt⟩ := exists_scaling hscales
    obtain ⟨p, hp⟩ := List.exists_mem_of_ne_nil _ hcells
    have heq := hleaves 0 (fun _ _ => 0) (fun _ _ => 1) x.1 hinput hapart p hp
    rw [runActions_call hok hfresh.2 (hfresh.2 _ hinput) hapart] at heq
    exact absurd heq (scaled_lt (shrinking_scalings call) hx rfl hp hlt one_pos).ne
  · intro hscales factor received m t ht hapart p hp
    rw [runActions_call hok hfresh.2 (hfresh.2 t ht) hapart]
    refine scaled_eq_self fun x hx hs hp' => ?_
    refine scalings_eq_self hscales x hx (fun output houtput => ?_) (List.ne_nil_of_mem hp') _
    rw [← hs]
    exact hapart output houtput

theorem leavesInputs_reduceScatterBase_sum : ∃ actions,
    OutOfPlace.actions ⟨0, 1, .eraseRecordStream, true⟩ 2
      (.reduceScatterBase (fourElements 0 .float) (fourElements 1 .float) .sum) = .ok actions ∧
    OutOfPlace.LeavesInputs ⟨0, 1, .eraseRecordStream, true⟩
      (.reduceScatterBase (fourElements 0 .float) (fourElements 1 .float) .sum) actions := by
  refine ⟨_, rfl, (leavesInputs_iff _ _ 2 _ ?_ rfl).mpr ?_⟩
  · intro t ht
    rcases List.mem_cons.mp ht with rfl | ht
    · decide
    · rw [List.mem_singleton.mp ht]
      decide
  · exact fun h => nomatch h.1

theorem not_leavesInputs_reduceScatterBase_premulSum :
    ¬∀ (g : Group) (call : OutOfPlace) (next : ℕ) (actions : List Action),
      (∀ t ∈ call.outputs ++ call.inputs, t.storage < next) → call.actions g next = .ok actions →
        call.LeavesInputs g actions := by
  intro hall
  have heq : (1 : ℚ) * 0 = 1 := hall ⟨0, 1, .eraseRecordStream, true⟩
    (.reduceScatterBase (fourElements 0 .float) (fourElements 1 .float) .premulSum) 2 _ (by decide) rfl
    0 (fun _ _ => 0) (fun _ _ => 1) (fourElements 1 .float) (List.mem_singleton_self _)
    (by unfold OutOfPlace.Apart; decide) 0 (by decide)
  rw [mul_zero] at heq
  exact zero_ne_one heq

end TorchNpu.Distributed
