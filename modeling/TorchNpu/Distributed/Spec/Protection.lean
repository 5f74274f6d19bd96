/-
  Which storages a reducing call protects until its HCCL stream is done with them.

  `collective` protects its inputs as `pre` has left them.  A tensor that `pre` replaces by a copy is read
  and written back on the HCCL stream and is itself not protected, and the output of `_reduce_oop` is
  protected in the mode `AVOID_RECORD_STREAM` only.
-/
import TorchNpu.Distributed.Collective
import TorchNpu.Lib.Checked

namespace TorchNpu.Distributed

open Checked

/-! ### Calls -/

/-- A call of `allreduce`, `allreduce_coalesced`, `reduce` or `_reduce_oop`. -/
inductive Reduction
  | allreduce (tensors : List Tensor) (reduceOp : ReduceOp)
  | allreduceCoalesced (tensors : List Tensor) (reduceOp : ReduceOp)
  | reduce (tensors : List Tensor) (reduceOp : ReduceOp) (root : ℕ)
  | reduceOop (output input : Tensor) (reduceOp : ReduceOp) (root : ℕ)

/-- The tensors of the caller. -/
def Reduction.tensors : Reduction → List Tensor
  | .allreduce tensors _ | .allreduceCoalesced tensors _ | .reduce tensors _ _ => tensors
  | .reduceOop output input _ _ => [output, input]

def Reduction.actions (g : Group) (next : ℕ) : Reduction → Except String (List Action)
  | .allreduce tensors reduceOp => Distributed.allreduce g tensors reduceOp next
  | .allreduceCoalesced tensors reduceOp => Distributed.allreduceCoalesced g tensors reduceOp next
  | .reduce tensors reduceOp root => Distributed.reduce g tensors reduceOp root next
  | .reduceOop output input reduceOp root => Distributed.reduceOop g output input reduceOp root next

variable {g : Group} {inputs outputs tensors : List Tensor} {pre post actions : List Action}
  {fn : Tensor → Tensor → Except String (List Action)} {a : Action} {next storage root : ℕ}
  {reduceOp : ReduceOp} {functionName : String} {kernel : Tensor → Tensor → ℕ → Kernel}

/-! ### Touched and protected storages -/

/-- A kernel on the HCCL stream reads or writes the storage. -/
def Touched (g : Group) (actions : List Action) (storage : ℕ) : Prop :=
  ∃ kernel, .onHcclStream kernel ∈ actions ∧ ∃ t ∈ kernel.reads ++ kernel.writes g, t.storage = storage

/-- The storage that an action records on the HCCL stream or puts into the stash of the work. -/
def Action.protects : Action → Option ℕ
  | .recordStream storage | .stash storage => some storage
  | .onCurrentStream _ | .onHcclStream _ => none

/-- The storage is recorded on the HCCL stream or held by the stash of the work. -/
def Protected (actions : List Action) (storage : ℕ) : Prop :=
  ∃ a ∈ actions, a.protects = some storage

/-- Everything the call touches on the HCCL stream is protected. -/
def AllProtected (g : Group) (actions : List Action) : Prop :=
  ∀ storage, Touched g actions storage → Protected actions storage

/-! ### The actions of `collective` -/

theorem mem_collective (h : collective g inputs outputs fn pre post = .ok actions) :
    a ∈ actions ↔ a ∈ pre ∨ (∃ input ∈ inputs, a = protect g input) ∨
      (∃ call ∈ inputs.zip outputs, ∃ acts, fn call.1 call.2 = .ok acts ∧
        a ∈ acts ++ protectOutput g call.2) ∨ a ∈ post := by
  obtain ⟨calls, hcalls, h⟩ := bind_eq_ok.mp h
  cases h
  have hmem : a ∈ calls.flatten ↔ ∃ call ∈ inputs.zip outputs, ∃ acts,
      fn call.1 call.2 = .ok acts ∧ a ∈ acts ++ protectOutput g call.2 := by
    rw [List.mem_flatten]
    constructor
    · rintro ⟨l, hl, ha⟩
      obtain ⟨call, hcall, heq⟩ := exists_mem_of_mapM hcalls hl
      obtain ⟨acts, hacts, heq⟩ := bind_eq_ok.mp heq
      cases heq
      exact ⟨call, hcall, acts, hacts, ha⟩
    · rintro ⟨call, hcall, acts, hacts, ha⟩
      obtain ⟨l, hl, heq⟩ := exists_of_mapM hcalls hcall
      obtain ⟨acts', hacts', heq⟩ := bind_eq_ok.mp heq
      cases heq
      obtain rfl : acts = acts' := Except.ok.inj (hacts.symm.trans hacts')
      exact ⟨_, hl, ha⟩
  rw [List.mem_append, List.mem_append, List.mem_append, hmem, List.mem_map, or_assoc, or_assoc]
  simp only [eq_comm]

theorem protects_protect (t : Tensor) : (protect g t).protects = some t.storage := by
  unfold protect
  split_ifs
  · rfl
  · rfl

theorem protects_protectOutput {t : Tensor} (h : a ∈ protectOutput g t) :
    g.multiStreamMemoryReuse = .avoidRecordStream ∧ a.protects = some t.storage := by
  unfold protectOutput at h
  split_ifs at h with hmode
  · rw [List.mem_singleton.mp h]
    exact ⟨hmode, rfl⟩
  · exact absurd h List.not_mem_nil

theorem mem_premul : a ∈ premul reduceOp tensors ↔
    reduceOp = .premulSum ∧ ∃ t ∈ tensors, a = .onHcclStream (.mul t) := by
  unfold premul
  split_ifs with h
  · simp [h, eq_comm]
  · simp [h]

theorem mem_average : a ∈ average reduceOp tensors ↔
    reduceOp = .avg ∧ ∃ t ∈ tensors, a = .onHcclStream (.div t) := by
  unfold average
  split_ifs with h
  · simp [h, eq_comm]
  · simp [h]

/-! ### Copies -/

theorem castTensor_of_not_isCast {t : Tensor} (h : t.isCast = false) : castTensor storage t = t := by
  unfold castTensor
  rw [h]
  rfl

theorem castActions_of_not_isCast {t : Tensor} (h : t.isCast = false) : castActions storage t = [] := by
  unfold castActions
  rw [h]
  rfl

theorem storage_castTensor {t : Tensor} (h : t.isCast = true) :
    (castTensor storage t).storage = storage := by
  unfold castTensor
  rw [h]
  rfl

theorem scalarType_castTensor_ne {t : Tensor} :
    (castTensor storage t).scalarType ≠ t.scalarType ↔ t.isCast = true := by
  cases h : t.isCast with
  | false => simp [castTensor_of_not_isCast h]
  | true =>
    refine iff_of_true (fun heq => ?_) rfl
    have hint : t.scalarType = .int := by
      rw [← heq, castTensor, h]
      rfl
    rw [Tensor.isCast, hint] at h
    cases h

theorem mem_castActions {t : Tensor} : a ∈ castActions storage t ↔
    t.isCast = true ∧ a = .onHcclStream (.dtypeCast (castTensor storage t) t) := by
  unfold castActions
  split_ifs with h
  · simp [h]
  · simp [h]

theorem mem_writeBack {t : Tensor} : a ∈ writeBack t (castTensor storage t) ↔
    t.isCast = true ∧ (a = .recordStream (castTensor storage t).storage ∨
      a = .onHcclStream (.copy t (castTensor storage t))) := by
  unfold writeBack
  rw [← @scalarType_castTensor_ne storage t]
  split_ifs with h
  · simp [h]
  · simp [h]

/-- A tensor that is replaced by a copy is read on the HCCL stream. -/
theorem touched_of_castActions {t : Tensor} (h : t.isCast = true)
    (hmem : ∀ a ∈ castActions storage t, a ∈ actions) : Touched g actions t.storage := by
  refine ⟨.dtypeCast (castTensor storage t) t, hmem _ (mem_castActions.mpr ⟨h, rfl⟩), t, ?_, rfl⟩
  exact List.mem_append_left _ (List.mem_singleton_self t)

/-! ### Collectives in place -/

/-- The tensors of `reduceInPlace` after `pre`. -/
def copies (next : ℕ) (tensors : List Tensor) : List Tensor :=
  tensors.zipIdx.map fun (t, i) => castTensor (next + i) t

theorem next_le_of_mem_copies (h : ∀ t ∈ tensors, t.isCast = true) {t : Tensor}
    (ht : t ∈ copies next tensors) : next ≤ t.storage := by
  obtain ⟨⟨u, i⟩, hu, rfl⟩ := List.mem_map.mp ht
  rw [storage_castTensor (h u (List.fst_mem_of_mem_zipIdx hu))]
  exact Nat.le_add_right next i

/-- The kernel touches the two tensors that it is given. -/
def TouchesOnly (g : Group) (kernel : Tensor → Tensor → ℕ → Kernel) : Prop :=
  ∀ input output count, ∀ t ∈ (kernel input output count).reads ++ (kernel input output count).writes g,
    t = input ∨ t = output

theorem mem_zip_copies {t c : Tensor} (h : (t, c) ∈ tensors.zip (copies next tensors)) :
    ∃ i, t ∈ tensors ∧ c = castTensor (next + i) t := by
  obtain ⟨i, hi, heq⟩ := List.mem_iff_getElem.mp h
  rw [List.getElem_zip, Prod.mk.injEq] at heq
  refine ⟨i, heq.1 ▸ List.getElem_mem _, ?_⟩
  rw [← heq.2, ← heq.1]
  simp [copies]

/-- What `reduceInPlace` does. -/
theorem cases_inPlace (hok : reduceInPlace g functionName kernel reduceOp tensors next = .ok actions)
    (ha : a ∈ actions) :
    (∃ t ∈ tensors, ∃ i, a ∈ castActions (next + i) t ∨ a ∈ writeBack t (castTensor (next + i) t)) ∨
      ∃ c ∈ copies next tensors, a = .onHcclStream (.mul c) ∨ a = .onHcclStream (.div c) ∨
        a.protects = some c.storage ∨
        ∃ c' ∈ copies next tensors, ∃ count, a = .onHcclStream (kernel c c' count) := by
  unfold reduceInPlace at hok
  rcases (mem_collective hok).mp ha with h | ⟨c, hc, rfl⟩ | ⟨call, hcall, acts, hacts, h⟩ | h
  · rcases List.mem_append.mp h with h | h
    · obtain ⟨⟨t, i⟩, ht, h⟩ := List.mem_flatMap.mp h
      exact .inl ⟨t, List.fst_mem_of_mem_zipIdx ht, i, .inl h⟩
    · obtain ⟨-, c, hc, rfl⟩ := mem_premul.mp h
      exact .inr ⟨c, hc, .inl rfl⟩
  · exact .inr ⟨c, hc, .inr (.inr (.inl (protects_protect c)))⟩
  · obtain ⟨hc, hc'⟩ := List.of_mem_zip hcall
    rcases List.mem_append.mp h with h | h
    · obtain ⟨_, -, hacts⟩ := bind_eq_ok.mp hacts
      obtain ⟨count, -, hacts⟩ := bind_eq_ok.mp hacts
      cases hacts
      exact .inr ⟨call.1, hc, .inr (.inr (.inr ⟨call.2, hc', count, List.mem_singleton.mp h⟩))⟩
    · exact .inr ⟨call.2, hc', .inr (.inr (.inl (protects_protectOutput h).2))⟩
  · rcases List.mem_append.mp h with h | h
    · obtain ⟨-, c, hc, rfl⟩ := mem_average.mp h
      exact .inr ⟨c, hc, .inr (.inl rfl)⟩
    · obtain ⟨⟨t, c⟩, htc, h⟩ := List.mem_flatMap.mp h
      obtain ⟨i, ht, rfl⟩ := mem_zip_copies htc
      exact .inl ⟨t, ht, i, .inr h⟩

theorem allProtected_inPlace (hkernel : TouchesOnly g kernel)
    (hok : reduceInPlace g functionName kernel reduceOp tensors next = .ok actions)
    (h : ∀ t ∈ tensors, t.isCast = false) : AllProtected g actions := by
  have hprotected : ∀ c ∈ copies next tensors, Protected actions c.storage := by
    intro c hc
    unfold reduceInPlace at hok
    exact ⟨protect g c, (mem_collective hok).mpr (.inr (.inl ⟨c, hc, rfl⟩)), protects_protect c⟩
  rintro storage ⟨k, hk, t, ht, rfl⟩
  rcases cases_inPlace hok hk with ⟨u, hu, i, hcast | hwrite⟩ | ⟨c, hc, hmul | hdiv | hprotects | hcall⟩
  · rw [castActions_of_not_isCast (h u hu)] at hcast
    exact absurd hcast List.not_mem_nil
  · rw [mem_writeBack, h u hu] at hwrite
    cases hwrite.1
  · cases hmul
    rcases List.mem_append.mp ht with ht | ht
    · rw [List.mem_singleton.mp ht]
      exact hprotected c hc
    · rw [List.mem_singleton.mp ht]
      exact hprotected c hc
  · cases hdiv
    rcases List.mem_append.mp ht with ht | ht
    · rw [List.mem_singleton.mp ht]
      exact hprotected c hc
    · rw [List.mem_singleton.mp ht]
      exact hprotected c hc
  · cases hprotects
  · obtain ⟨c', hc', count, hcall⟩ := hcall
    cases hcall
    rcases hkernel c c' count t ht with rfl | rfl
    · exact hprotected t hc
    · exact hprotected t hc'

theorem not_allProtected_inPlace
    (hok : reduceInPlace g functionName kernel reduceOp tensors next = .ok actions)
    (hfresh : ∀ t ∈ tensors, t.storage < next) (h : ∀ t ∈ tensors, t.isCast = true)
    (hne : tensors ≠ []) : ¬AllProtected g actions := by
  obtain ⟨t, ht⟩ := List.exists_mem_of_ne_nil tensors hne
  -- Only the storages of the copies are protected.
  have hnext : ∀ storage, Protected actions storage → next ≤ storage := by
    rintro storage ⟨a, ha, hprotects⟩
    rcases cases_inPlace hok ha with ⟨u, hu, i, hcast | hwrite⟩ | ⟨c, hc, rfl | rfl | heq | hcall⟩
    · obtain ⟨-, rfl⟩ := mem_castActions.mp hcast
      cases hprotects
    · obtain ⟨hcast, rfl | rfl⟩ := mem_writeBack.mp hwrite
      · rw [← Option.some_inj.mp hprotects, storage_castTensor hcast]
        exact Nat.le_add_right next i
      · cases hprotects
    · cases hprotects
    · cases hprotects
    · rw [heq, Option.some_inj] at hprotects
      rw [← hprotects]
      exact next_le_of_mem_copies h hc
    · obtain ⟨c', -, count, rfl⟩ := hcall
      cases hprotects
  have htouched : Touched g actions t.storage := by
    obtain ⟨i, hi, rfl⟩ := List.mem_iff_getElem.mp ht
    have hmem : ∀ a ∈ castActions (next + i) tensors[i], a ∈ actions := by
      intro a ha
      unfold reduceInPlace at hok
      refine (mem_collective hok).mpr (.inl (List.mem_append_left _ (List.mem_flatMap.mpr ?_)))
      exact ⟨(tensors[i], i), List.mk_mem_zipIdx_iff_getElem?.mpr (List.getElem?_eq_getElem hi), ha⟩
    exact touched_of_castActions (h _ ht) hmem
  intro hall
  exact absurd (hnext _ (hall _ htouched)) (Nat.not_le.mpr (hfresh t ht))

/-! ### `_reduce_oop` -/

section ReduceOop

variable {output input : Tensor}

/-- What `_reduce_oop` does. -/
theorem eq_of_reduceOop (hok : reduceOop g output input reduceOp root next = .ok actions) :
    ∃ count, actions =
      (castActions next input ++ castActions (next + 1) output ++
        premul reduceOp [castTensor next input]) ++ [protect g (castTensor next input)] ++
      (.onHcclStream (.hcclReduce (castTensor next input) (castTensor (next + 1) output) count root) ::
        protectOutput g (castTensor (next + 1) output)) ++
      (average reduceOp [castTensor (next + 1) output] ++
        writeBack output (castTensor (next + 1) output)) := by
  obtain ⟨_, -, hok⟩ := bind_eq_ok.mp hok
  split_ifs at hok with hnumel
  · cases hok
  · obtain ⟨calls, hcalls, hok⟩ := bind_eq_ok.mp hok
    cases hok
    obtain ⟨l, ls, hcall, hnil, rfl⟩ := List.forall₂_cons_left_iff.mp (mapM_eq_ok.mp hcalls)
    obtain rfl := List.forall₂_nil_left_iff.mp hnil
    obtain ⟨acts, hacts, hcall⟩ := bind_eq_ok.mp hcall
    cases hcall
    obtain ⟨_, -, hacts⟩ := bind_eq_ok.mp hacts
    obtain ⟨count, -, hacts⟩ := bind_eq_ok.mp hacts
    cases hacts
    refine ⟨count, ?_⟩
    rw [List.flatten_singleton]
    rfl

theorem mem_reduceOop (hok : reduceOop g output input reduceOp root next = .ok actions) :
    ∃ count, ∀ a, a ∈ actions ↔
      (a ∈ castActions next input ∨ a ∈ castActions (next + 1) output ∨
        a ∈ premul reduceOp [castTensor next input]) ∨
      a = protect g (castTensor next input) ∨
      (a = .onHcclStream (.hcclReduce (castTensor next input) (castTensor (next + 1) output) count root) ∨
        a ∈ protectOutput g (castTensor (next + 1) output)) ∨
      a ∈ average reduceOp [castTensor (next + 1) output] ∨
      a ∈ writeBack output (castTensor (next + 1) output) := by
  obtain ⟨count, rfl⟩ := eq_of_reduceOop hok
  refine ⟨count, fun a => ?_⟩
  simp only [List.mem_append, List.mem_cons, List.not_mem_nil, or_assoc, false_or]

/-- `_reduce_oop` protects what it touches exactly when: the input is not replaced by a copy, or shares the
storage of an output that is stashed; the output is not replaced by a copy, or shares the storage of an
input that is not either; and the output is stashed or shares the storage of such an input, if it is
written at all. -/
def SafeOop (g : Group) (output input : Tensor) (reduceOp : ReduceOp) (root : ℕ) : Prop :=
  (input.isCast = true → g.multiStreamMemoryReuse = .avoidRecordStream ∧ output.isCast = false ∧
    output.storage = input.storage) ∧
  (output.isCast = true → input.isCast = false ∧ output.storage = input.storage) ∧
  (output.isCast = false → g.rank = root ∨ reduceOp = .avg →
    g.multiStreamMemoryReuse = .avoidRecordStream ∨
      input.isCast = false ∧ output.storage = input.storage)

/-- The storages that `_reduce_oop` protects. -/
theorem protected_reduceOop (hok : reduceOop g output input reduceOp root next = .ok actions) :
    Protected actions storage ↔ (castTensor next input).storage = storage ∨
      (g.multiStreamMemoryReuse = .avoidRecordStream ∨ output.isCast = true) ∧
        (castTensor (next + 1) output).storage = storage := by
  obtain ⟨count, hmem⟩ := mem_reduceOop hok
  constructor
  · rintro ⟨a, ha, hprotects⟩
    rcases (hmem a).mp ha with (h | h | h) | rfl | (rfl | h) | h | h
    · obtain ⟨-, rfl⟩ := mem_castActions.mp h
      cases hprotects
    · obtain ⟨-, rfl⟩ := mem_castActions.mp h
      cases hprotects
    · obtain ⟨-, t, -, rfl⟩ := mem_premul.mp h
      cases hprotects
    · rw [protects_protect, Option.some_inj] at hprotects
      exact .inl hprotects
    · cases hprotects
    · obtain ⟨hmode, heq⟩ := protects_protectOutput h
      rw [heq, Option.some_inj] at hprotects
      exact .inr ⟨.inl hmode, hprotects⟩
    · obtain ⟨-, t, -, rfl⟩ := mem_average.mp h
      cases hprotects
    · obtain ⟨hcast, rfl | rfl⟩ := mem_writeBack.mp h
      · exact .inr ⟨.inr hcast, Option.some_inj.mp hprotects⟩
      · cases hprotects
  · rintro (rfl | ⟨hmode | hcast, rfl⟩)
    · exact ⟨protect g (castTensor next input), (hmem _).mpr (.inr (.inl rfl)), protects_protect _⟩
    · refine ⟨.stash (castTensor (next + 1) output).storage,
        (hmem _).mpr (.inr (.inr (.inl (.inr ?_)))), rfl⟩
      rw [protectOutput, if_pos hmode]
      exact List.mem_singleton_self _
    · refine ⟨.recordStream (castTensor (next + 1) output).storage,
        (hmem _).mpr (.inr (.inr (.inr (.inr ?_)))), rfl⟩
      exact mem_writeBack.mpr ⟨hcast, .inl rfl⟩

/-- The storages that `_reduce_oop` touches on the HCCL stream. -/
theorem touched_reduceOop (hok : reduceOop g output input reduceOp root next = .ok actions) :
    Touched g actions storage ↔ (castTensor next input).storage = storage ∨
      (input.isCast = true ∧ input.storage = storage) ∨
      (output.isCast = true ∧ output.storage = storage) ∨
      (output.isCast = true ∨ g.rank = root ∨ reduceOp = .avg) ∧
        (castTensor (next + 1) output).storage = storage := by
  obtain ⟨count, hmem⟩ := mem_reduceOop hok
  constructor
  · rintro ⟨k, hk, t, ht, rfl⟩
    rcases (hmem _).mp hk with (h | h | h) | h | (h | h) | h | h
    · obtain ⟨hcast, heq⟩ := mem_castActions.mp h
      cases heq
      rcases List.mem_append.mp ht with ht | ht
      · rw [List.mem_singleton.mp ht]
        exact .inr (.inl ⟨hcast, rfl⟩)
      · rw [List.mem_singleton.mp ht]
        exact .inl rfl
    · obtain ⟨hcast, heq⟩ := mem_castActions.mp h
      cases heq
      rcases List.mem_append.mp ht with ht | ht
      · rw [List.mem_singleton.mp ht]
        exact .inr (.inr (.inl ⟨hcast, rfl⟩))
      · rw [List.mem_singleton.mp ht]
        exact .inr (.inr (.inr ⟨.inl hcast, rfl⟩))
    · obtain ⟨-, u, hu, heq⟩ := mem_premul.mp h
      cases heq
      rw [List.mem_singleton.mp hu] at ht
      rw [or_self_iff.mp (List.mem_append.mp ht |>.imp List.mem_singleton.mp List.mem_singleton.mp)]
      exact .inl rfl
    · have hprotects := protects_protect (g := g) (castTensor next input)
      rw [← h] at hprotects
      cases hprotects
    · cases h
      rcases List.mem_append.mp ht with ht | ht
      · rw [List.mem_singleton.mp ht]
        exact .inl rfl
      · simp only [Kernel.writes] at ht
        split_ifs at ht with hroot
        · rw [List.mem_singleton.mp ht]
          exact .inr (.inr (.inr ⟨.inr (.inl hroot), rfl⟩))
        · exact absurd ht List.not_mem_nil
    · cases (protects_protectOutput h).2
    · obtain ⟨havg, u, hu, heq⟩ := mem_average.mp h
      cases heq
      rw [List.mem_singleton.mp hu] at ht
      rw [or_self_iff.mp (List.mem_append.mp ht |>.imp List.mem_singleton.mp List.mem_singleton.mp)]
      exact .inr (.inr (.inr ⟨.inr (.inr havg), rfl⟩))
    · obtain ⟨hcast, heq | heq⟩ := mem_writeBack.mp h
      · cases heq
      · cases heq
        rcases List.mem_append.mp ht with ht | ht
        · rw [List.mem_singleton.mp ht]
          exact .inr (.inr (.inr ⟨.inl hcast, rfl⟩))
        · rw [List.mem_singleton.mp ht]
          exact .inr (.inr (.inl ⟨hcast, rfl⟩))
  · rintro (rfl | ⟨hcast, rfl⟩ | ⟨hcast, rfl⟩ | ⟨hcast | hroot | havg, rfl⟩)
    · exact ⟨_, (hmem _).mpr (.inr (.inr (.inl (.inl rfl)))), _,
        List.mem_append_left _ (List.mem_singleton_self _), rfl⟩
    · exact touched_of_castActions hcast fun a ha => (hmem a).mpr (.inl (.inl ha))
    · exact touched_of_castActions hcast fun a ha => (hmem a).mpr (.inl (.inr (.inl ha)))
    · exact ⟨.copy output (castTensor (next + 1) output),
        (hmem _).mpr (.inr (.inr (.inr (.inr (mem_writeBack.mpr ⟨hcast, .inr rfl⟩))))), _,
        List.mem_append_left _ (List.mem_singleton_self _), rfl⟩
    · refine ⟨_, (hmem _).mpr (.inr (.inr (.inl (.inl rfl)))), castTensor (next + 1) output,
        List.mem_append_right _ ?_, rfl⟩
      rw [Kernel.writes, if_pos hroot]
      exact List.mem_singleton_self _
    · exact ⟨.div (castTensor (next + 1) output), (hmem _).mpr (.inr (.inr (.inr (.inl
        (mem_average.mpr ⟨havg, _, List.mem_singleton_self _, rfl⟩))))), _,
        List.mem_append_left _ (List.mem_singleton_self _), rfl⟩

theorem allProtected_reduceOop (hok : reduceOop g output input reduceOp root next = .ok actions)
    (hinput : input.storage < next) (houtput : output.storage < next) :
    AllProtected g actions ↔ SafeOop g output input reduceOp root := by
  unfold AllProtected SafeOop
  simp only [touched_reduceOop hok, protected_reduceOop hok]
  have hne : next ≠ input.storage ∧ next ≠ output.storage := by omega
  have hne' : next + 1 ≠ input.storage ∧ next + 1 ≠ output.storage := by omega
  cases hin : input.isCast with
  | false =>
    rw [castTensor_of_not_isCast hin]
    cases hout : output.isCast with
    | false =>
      rw [castTensor_of_not_isCast hout]
      constructor
      · intro h
        have houtput' := h output.storage
        grind
      · grind
    | true =>
      rw [storage_castTensor hout]
      constructor
      · intro h
        have houtput' := h output.storage
        grind
      · grind
  | true =>
    rw [storage_castTensor hin]
    cases hout : output.isCast with
    | false =>
      rw [castTensor_of_not_isCast hout]
      constructor
      · intro h
        have hinput' := h input.storage
        have houtput' := h output.storage
        grind
      · grind
    | true =>
      rw [storage_castTensor hout]
      constructor
      · intro h
        have hinput' := h input.storage
        grind
      · grind

end ReduceOop

/-! ### The reducing calls -/

/-- The condition on a call: no tensor is replaced by a copy, and for `_reduce_oop` what `SafeOop` says. -/
def Reduction.Safe (g : Group) : Reduction → Prop
  | .allreduce tensors _ | .allreduceCoalesced tensors _ | .reduce tensors _ _ =>
    ∀ t ∈ tensors, t.isCast = false
  | .reduceOop output input reduceOp root => SafeOop g output input reduceOp root

theorem eq_singleton_of_checkNpuTensorsDifferentDevices
    (h : checkNpuTensorsDifferentDevices tensors = .ok ()) : ∃ t, tensors = [t] := by
  match tensors with
  | [] => cases h
  | [t] => exact ⟨t, rfl⟩
  | _ :: _ :: _ => cases h

/-- The check of the types makes all tensors copied or none. -/
theorem isCast_of_checkNpuTensorsSameDevice (h : checkNpuTensorsSameDevice tensors = .ok ()) :
    ∃ first ∈ tensors, ∀ t ∈ tensors, t.isCast = first.isCast := by
  match tensors with
  | [] => cases h
  | first :: rest =>
    refine ⟨first, List.mem_cons_self .., fun t ht => ?_⟩
    have hcheck := forM_eq_ok.mp h t ht
    split_ifs at hcheck with htype
    all_goals
      rw [ne_eq, not_not] at htype
      rw [Tensor.isCast, Tensor.isCast, htype]

theorem allProtected_inPlace_iff (hkernel : TouchesOnly g kernel)
    (hok : reduceInPlace g functionName kernel reduceOp tensors next = .ok actions)
    (hfresh : ∀ t ∈ tensors, t.storage < next) {first : Tensor} (hfirst : first ∈ tensors)
    (hsame : ∀ t ∈ tensors, t.isCast = first.isCast) :
    AllProtected g actions ↔ ∀ t ∈ tensors, t.isCast = false := by
  refine ⟨fun hall t ht => ?_, allProtected_inPlace hkernel hok⟩
  rw [hsame t ht, Bool.eq_false_iff]
  intro hcast
  refine not_allProtected_inPlace hok hfresh (fun u hu => ?_) (List.ne_nil_of_mem hfirst) hall
  rw [hsame u hu, hcast]

theorem touchesOnly_hcclAllReduce : TouchesOnly g .hcclAllReduce := by
  intro input output count t ht
  rcases List.mem_append.mp ht with ht | ht
  · exact .inl (List.mem_singleton.mp ht)
  · exact .inr (List.mem_singleton.mp ht)

theorem touchesOnly_hcclReduce :
    TouchesOnly g fun input output count => .hcclReduce input output count root := by
  intro input output count t ht
  rcases List.mem_append.mp ht with ht | ht
  · exact .inl (List.mem_singleton.mp ht)
  · simp only [Kernel.writes] at ht
    split_ifs at ht
    · exact .inr (List.mem_singleton.mp ht)
    · exact absurd ht List.not_mem_nil

/-- A reducing call that returns protects every storage that it touches on the HCCL stream exactly when it
meets the condition. -/
theorem allProtected_iff_safe (g : Group) (call : Reduction) (next : ℕ) (actions : List Action)
    (hfresh : ∀ t ∈ call.tensors, t.storage < next) (hok : call.actions g next = .ok actions) :
    AllProtected g actions ↔ call.Safe g := by
  cases call with
  | allreduce tensors reduceOp =>
    obtain ⟨_, hcheck, hok⟩ := bind_eq_ok.mp hok
    obtain ⟨t, rfl⟩ := eq_singleton_of_checkNpuTensorsDifferentDevices hcheck
    exact allProtected_inPlace_iff touchesOnly_hcclAllReduce hok hfresh (List.mem_singleton_self t)
      fun u hu => by rw [List.mem_singleton.mp hu]
  | allreduceCoalesced tensors reduceOp =>
    obtain ⟨_, hcheck, hok⟩ := bind_eq_ok.mp hok
    obtain ⟨first, hfirst, hsame⟩ := isCast_of_checkNpuTensorsSameDevice hcheck
    exact allProtected_inPlace_iff touchesOnly_hcclAllReduce hok hfresh hfirst hsame
  | reduce tensors reduceOp root =>
    obtain ⟨_, hcheck, hok⟩ := bind_eq_ok.mp hok
    obtain ⟨t, rfl⟩ := eq_singleton_of_checkNpuTensorsDifferentDevices hcheck
    exact allProtected_inPlace_iff touchesOnly_hcclReduce hok hfresh (List.mem_singleton_self t)
      fun u hu => by rw [List.mem_singleton.mp hu]
  | reduceOop output input reduceOp root =>
    exact allProtected_reduceOop hok (hfresh input (List.mem_cons_of_mem _ (List.mem_singleton_self _)))
      (hfresh output (List.mem_cons_self ..))

/-- Four elements of the given type. -/
def fourElements (storage : ℕ) (scalarType : ScalarType) : Tensor :=
  newTensor storage scalarType [4]

theorem allProtected_allreduce_float : ∃ actions,
    Reduction.actions ⟨0, 2, .eraseRecordStream, true⟩ 1
      (.allreduce [fourElements 0 .float] .premulSum) = .ok actions ∧
    AllProtected ⟨0, 2, .eraseRecordStream, true⟩ actions := by
  refine ⟨_, rfl, ?_⟩
  refine (allProtected_iff_safe _ (.allreduce [fourElements 0 .float] .premulSum) 1 _ ?_ rfl).mpr ?_
  · intro t ht
    rw [List.mem_singleton.mp ht]
    decide
  · intro t ht
    rw [List.mem_singleton.mp ht]
    decide

theorem not_allProtected_allreduce_bool :
    ¬∀ (g : Group) (call : Reduction) (next : ℕ) (actions : List Action),
      (∀ t ∈ call.tensors, t.storage < next) → call.actions g next = .ok actions →
        AllProtected g actions := by
  intro hall
  obtain ⟨a, ha, hprotects⟩ := hall ⟨0, 2, .eraseRecordStream, true⟩
    (.allreduce [fourElements 0 .bool] .sum) 1 _ (by decide) rfl 0
    ⟨.dtypeCast (castTensor 1 (fourElements 0 .bool)) (fourElements 0 .bool), by decide,
      fourElements 0 .bool, by decide, rfl⟩
  revert a
  decide

end TorchNpu.Distributed
