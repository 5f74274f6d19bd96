/-
  When the trace and the database link the same forward and backward operators.

  For a sequence number and a mode, the trace keeps the first of the operators that start the latest, and the
  database the last one that is not a mark.
-/
import Mathlib.Data.Int.Order.Basic
import Mathlib.Data.List.Induction
import TorchNpu.Profiler.FwkFileParser

namespace TorchNpu.Profiler.FwkFileParser

/-! ### One entry -/

section entry

variable {ν : Type*} (ts : ν → Option ℤ)

@[simp]
theorem FwdBwd.get_set (node : FwdBwd ν) (mode mode' : Mode) (v : ν) :
    (node.set mode v).get mode' = if mode' = mode then some v else node.get mode' := by
  cases mode <;> cases mode' <;> rfl

/-- What a filter does to the entry of the operator. -/
def filterNode (node : Option (FwdBwd ν)) (x : TorchOpBean × ν) : Option (FwdBwd ν) :=
  if x.1.sequenceNumber < 0 then node
  else if (((node.getD {}).get x.1.mode).bind ts).all fun ts => ts < x.1.ts then
    some ((node.getD {}).set x.1.mode x.2)
  else node

theorem get?_filterFwdBwd (dict : Dict ℤ (FwdBwd ν)) (x : TorchOpBean × ν) (key : ℤ) :
    (filterFwdBwd ts dict x.1 x.2).get? key =
      if key = x.1.sequenceNumber then filterNode ts (dict.get? key) x else dict.get? key := by
  rw [filterFwdBwd, filterNode]
  by_cases hkey : key = x.1.sequenceNumber
  · subst hkey
    rw [if_pos rfl]
    dsimp only
    split_ifs
    · rfl
    · rw [Dict.get?_modify, if_pos rfl]
    · rfl
  · rw [if_neg hkey]
    dsimp only
    split_ifs
    · rfl
    · rw [Dict.get?_modify, if_neg hkey]
    · rfl

/-- What is kept of a mode after an operator of that mode. -/
def keep (kept : Option ν) (x : TorchOpBean × ν) : Option ν :=
  if (kept.bind ts).all fun ts => ts < x.1.ts then some x.2 else kept

theorem get_filterNode {node : Option (FwdBwd ν)} {x : TorchOpBean × ν} (hseq : 0 ≤ x.1.sequenceNumber)
    (mode : Mode) :
    ((filterNode ts node x).getD {}).get mode =
      if mode = x.1.mode then keep ts ((node.getD {}).get mode) x else (node.getD {}).get mode := by
  rw [filterNode, if_neg (not_lt.mpr hseq), keep]
  by_cases hmode : mode = x.1.mode
  · subst hmode
    rw [if_pos rfl]
    split_ifs
    · simp
    · rfl
  · rw [if_neg hmode]
    split_ifs
    · simp [hmode]
    · rfl

/-- The operators of a sequence number and a mode. -/
def opsOf (seq : ℤ) (mode : Mode) (ops : List TorchOpBean) : List TorchOpBean :=
  ops.filter fun op => op.sequenceNumber = seq ∧ op.mode = mode

/-- What is kept under a sequence number and a mode comes from the operators of both. -/
theorem get_foldl {seq : ℤ} (hseq : 0 ≤ seq) (mode : Mode) (l : List (TorchOpBean × ν)) :
    (((l.foldl (fun dict x => filterFwdBwd ts dict x.1 x.2) Dict.empty).get? seq).getD {}).get mode =
      (l.filter fun x => x.1.sequenceNumber = seq ∧ x.1.mode = mode).foldl (keep ts) none := by
  have hnode : ∀ (node : Option (FwdBwd ν)) (l : List (TorchOpBean × ν)),
      (∀ x ∈ l, x.1.sequenceNumber = seq) →
      ((l.foldl (filterNode ts) node).getD {}).get mode =
        (l.filter fun x => x.1.mode = mode).foldl (keep ts) ((node.getD {}).get mode) := by
    intro node l
    induction l generalizing node with
    | nil => exact fun _ => rfl
    | cons x l ih =>
      intro hl
      rw [List.forall_mem_cons] at hl
      rw [List.foldl_cons, ih _ hl.2, get_filterNode ts (by rw [hl.1]; exact hseq), List.filter_cons]
      by_cases hmode : mode = x.1.mode
      · simp [hmode]
      · simp [hmode, Ne.symm hmode]
  rw [Dict.get?_foldl (get?_filterFwdBwd ts), hnode _ _ (by simp), Dict.get?_empty, List.filter_filter]
  cases mode <;> simp only [Bool.and_comm, Bool.decide_and] <;> rfl

/-- No entry is made under a negative number. -/
theorem get?_foldl_of_neg {seq : ℤ} (hseq : seq < 0) (l : List (TorchOpBean × ν)) :
    (l.foldl (fun dict x => filterFwdBwd ts dict x.1 x.2) Dict.empty).get? seq = none := by
  rw [Dict.get?_foldl (get?_filterFwdBwd ts), Dict.get?_empty]
  have hnone : ∀ l : List (TorchOpBean × ν), (∀ x ∈ l, x.1.sequenceNumber = seq) →
      l.foldl (filterNode ts) none = none := by
    intro l
    induction l with
    | nil => exact fun _ => rfl
    | cons x l ih =>
      intro hl
      rw [List.forall_mem_cons] at hl
      rw [List.foldl_cons, filterNode, if_pos (by rw [hl.1]; exact hseq), ih hl.2]
  exact hnone _ (by simp)

end entry

/-! ### What is kept of the operators of a mode -/

/-- The first of the operators that start the latest. -/
def latest : List TorchOpBean → Option TorchOpBean
  | [] => none
  | op :: ops => some (((latest ops).filter fun later => op.ts < later.ts).getD op)

def TorchOpBean.event (op : TorchOpBean) : FwdEvent :=
  ⟨op.tid, op.ts⟩

/-- The rounds of the trace, from an operator that is kept already. -/
theorem foldl_keep_event (kept : TorchOpBean) (ops : List TorchOpBean) :
    (ops.map fun op => (op, op.event)).foldl (keep fun event => some event.ts) (some kept.event) =
      some (((latest ops).filter fun later => kept.ts < later.ts).getD kept).event := by
  induction ops generalizing kept with
  | nil => rfl
  | cons op ops ih =>
    rw [List.map_cons, List.foldl_cons, keep, latest]
    by_cases hlt : kept.ts < op.ts
    · rw [if_pos (by simpa [TorchOpBean.event] using hlt), ih]
      cases latest ops with
      | none => simp [Option.filter, hlt]
      | some later =>
        by_cases hlater : op.ts < later.ts
        · have hlt' : kept.ts < later.ts := by omega
          simp [Option.filter, hlater, hlt']
        · simp [Option.filter, hlater, hlt]
    · rw [if_neg (by simpa [TorchOpBean.event] using hlt), ih]
      cases latest ops with
      | none => simp [Option.filter, hlt]
      | some later =>
        by_cases hlater : op.ts < later.ts
        · simp [Option.filter, hlater]
        · have hnot : ¬ kept.ts < later.ts := by omega
          simp [Option.filter, hlater, hlt, hnot]

theorem foldl_keep_latest (ops : List TorchOpBean) :
    (ops.map fun op => (op, op.event)).foldl (keep fun event => some event.ts) none =
      (latest ops).map TorchOpBean.event := by
  cases ops with
  | nil => rfl
  | cons op ops =>
    rw [List.map_cons, List.foldl_cons]
    exact foldl_keep_event op ops

/-- The rounds of the database. -/
theorem foldl_keep_last {ν : Type*} (l : List (TorchOpBean × ν)) :
    l.foldl (keep fun _ => none) none = l.getLast?.map Prod.snd := by
  induction l using List.reverseRecOn with
  | nil => rfl
  | append_singleton l x ih =>
    rw [List.foldl_concat, List.getLast?_concat, keep, if_pos]
    · rfl
    · cases l.foldl (keep fun _ => none) none <;> rfl

/-! ### The pairs of the trace -/

theorem foldl_filterFwdBwdEvent (ops : List TorchOpBean) (dict : Dict ℤ (FwdBwd FwdEvent)) :
    ops.foldl filterFwdBwdEvent dict =
      (ops.map fun op => (op, op.event)).foldl
        (fun dict x => filterFwdBwd (fun event => some event.ts) dict x.1 x.2) dict := by
  rw [List.foldl_map]
  rfl

theorem get_fwdDict {seq : ℤ} (hseq : 0 ≤ seq) (mode : Mode) (ops : List TorchOpBean) :
    (((ops.foldl filterFwdBwdEvent Dict.empty).get? seq).getD {}).get mode =
      (latest (opsOf seq mode ops)).map TorchOpBean.event := by
  rw [foldl_filterFwdBwdEvent, get_foldl _ hseq, ← foldl_keep_latest, opsOf, List.filter_map]
  rfl

/-- An entry with both of its keys. -/
theorem exists_get?_iff {ν : Type*} {dict : Dict ℤ (FwdBwd ν)} {seq : ℤ} {start «end» : ν} :
    (∃ node, dict.get? seq = some node ∧ node.start = some start ∧ node.end = some «end») ↔
      ((dict.get? seq).getD {}).get .start = some start ∧ ((dict.get? seq).getD {}).get .end = some «end» := by
  cases dict.get? seq <;> simp [FwdBwd.get]

/-- The flows of the trace. -/
theorem mem_fwkTraceFlows {ops : List TorchOpBean} {flow : FwdFlow} :
    flow ∈ fwkTraceFlows ops ↔
      0 ≤ flow.id ∧ flow.start.tid ≠ flow.end.tid ∧
        (latest (opsOf flow.id .start ops)).map TorchOpBean.event = some flow.start ∧
        (latest (opsOf flow.id .end ops)).map TorchOpBean.event = some flow.end := by
  have hmem : flow ∈ fwkTraceFlows ops ↔
      flow.start.tid ≠ flow.end.tid ∧ ∃ node, (ops.foldl filterFwdBwdEvent Dict.empty).get? flow.id = some node ∧
        node.start = some flow.start ∧ node.end = some flow.end := by
    obtain ⟨id, start, «end»⟩ := flow
    rw [fwkTraceFlows, createFwdFlow, List.mem_filterMap]
    constructor
    · rintro ⟨⟨seq, node⟩, hentry, hflow⟩
      rw [Dict.mem_entries_iff] at hentry
      cases hstart : node.start with
      | none => simp [hstart] at hflow
      | some s =>
        cases hend : node.end with
        | none => simp [hstart, hend] at hflow
        | some e =>
          simp only [hstart, hend, Option.ite_none_left_eq_some, Option.some.injEq, FwdFlow.mk.injEq] at hflow
          obtain ⟨hne, rfl, rfl, rfl⟩ := hflow
          exact ⟨hne, node, hentry, hstart, hend⟩
    · rintro ⟨hne, node, hentry, hstart, hend⟩
      dsimp only at hne hentry hstart hend
      refine ⟨(id, node), Dict.mem_entries_iff.mpr hentry, ?_⟩
      simp [hstart, hend, hne]
  rw [hmem, exists_get?_iff]
  rcases lt_or_ge flow.id 0 with hneg | hseq
  · rw [foldl_filterFwdBwdEvent, get?_foldl_of_neg _ hneg]
    simp [FwdBwd.get, not_le.mpr hneg]
  · rw [get_fwdDict hseq, get_fwdDict hseq]
    simp [hseq]

/-! ### The pairs of the database -/

/-- The operators that get a row of `torch_op_apis`. -/
def noMarks (ops : List TorchOpBean) : List TorchOpBean :=
  ops.filter fun op => op.name ≠ "mstx_mark_op"

theorem noMarks_cons (op : TorchOpBean) (ops : List TorchOpBean) :
    noMarks (op :: ops) = if op.name = "mstx_mark_op" then noMarks ops else op :: noMarks ops := by
  rw [noMarks, List.filter_cons]
  by_cases hname : op.name = "mstx_mark_op" <;> simp [hname, noMarks]

theorem foldl_next (ops : List TorchOpBean) (s : FwkApis) :
    (ops.foldl FwkApis.next s).torchOpApis = s.torchOpApis ++ (noMarks ops).map TorchOpBean.api ∧
      (ops.foldl FwkApis.next s).fwdBwdDict =
        ((noMarks ops).zipIdx s.torchOpIdx).foldl (fun dict x => filterFwdBwd (fun _ => none) dict x.1 x.2)
          s.fwdBwdDict := by
  induction ops generalizing s with
  | nil => simp [noMarks]
  | cons op ops ih =>
    rw [List.foldl_cons, (ih _).1, (ih _).2, FwkApis.next, noMarks_cons]
    by_cases hname : op.name = "mstx_mark_op"
    · simp [hname]
    · simp [hname, filterFwdBwdApi]

/-- The operator under a sequence number and a mode, with its index. -/
def lastOf (seq : ℤ) (mode : Mode) (ops : List TorchOpBean) : Option (TorchOpBean × ℕ) :=
  ((noMarks ops).zipIdx.filter fun x => x.1.sequenceNumber = seq ∧ x.1.mode = mode).getLast?

theorem map_fst_lastOf (seq : ℤ) (mode : Mode) (ops : List TorchOpBean) :
    (lastOf seq mode ops).map Prod.fst = (opsOf seq mode (noMarks ops)).getLast? := by
  rw [lastOf, ← List.getLast?_map, opsOf]
  congr 1
  have hzip := List.zipIdx_map_fst 0 (noMarks ops)
  conv_rhs => rw [← hzip, List.filter_map]
  rfl

theorem getElem?_lastOf {seq : ℤ} {mode : Mode} {ops : List TorchOpBean} {x : TorchOpBean × ℕ}
    (h : lastOf seq mode ops = some x) : (noMarks ops)[x.2]? = some x.1 ∧ x.1.sequenceNumber = seq := by
  have hmem := List.mem_of_getLast? h
  rw [List.mem_filter] at hmem
  obtain ⟨hzip, hmode⟩ := hmem
  have hget := List.mem_zipIdx_iff_getElem?.mp hzip
  simp only [decide_eq_true_eq] at hmode
  exact ⟨hget, hmode.1⟩

theorem get_fwdBwdDict {seq : ℤ} (hseq : 0 ≤ seq) (mode : Mode) (ops : List TorchOpBean) :
    (((ops.foldl FwkApis.next {}).fwdBwdDict.get? seq).getD {}).get mode =
      (lastOf seq mode ops).map Prod.snd := by
  rw [(foldl_next ops {}).2, get_foldl _ hseq, foldl_keep_last]
  rfl

/-- The two rows of a connection, as the trace shows a pair. -/
def rowFlow (apis : List TorchOpApi) (connection : ℕ × ℕ × ℕ) : Option FwdFlow := do
  let fwd ← apis[connection.2.1]?
  let bwd ← apis[connection.2.2]?
  return ⟨fwd.sequenceNumber, ⟨fwd.tid, fwd.ts⟩, ⟨bwd.tid, bwd.ts⟩⟩

/-- The pairs of the database. -/
def fwkApiFlows (torchOpData : List TorchOpBean) (startConnectionId : ℕ) : List FwdFlow :=
  let (apis, connections) := fwkApiConnections torchOpData startConnectionId
  connections.filterMap (rowFlow apis)

theorem mem_updateFwdBwdConnectionId {dict : Dict ℤ (FwdBwd ℕ)} {startConnectionId fwd bwd : ℕ} :
    (∃ id, (id, fwd, bwd) ∈ updateFwdBwdConnectionId dict startConnectionId) ↔
      ∃ seq node, dict.get? seq = some node ∧ node.start = some fwd ∧ node.end = some bwd := by
  rw [updateFwdBwdConnectionId]
  simp only [List.mem_map, Prod.mk.injEq, List.mem_zipIdx_iff_getElem?]
  constructor
  · rintro ⟨id, ⟨⟨fwd', bwd'⟩, k⟩, hget, -, rfl, rfl⟩
    obtain ⟨node, hnode, hboth⟩ := List.mem_filterMap.mp (List.mem_of_getElem? hget)
    obtain ⟨⟨seq, node⟩, hentry, rfl⟩ := List.mem_map.mp hnode
    refine ⟨seq, node, Dict.mem_entries_iff.mp hentry, ?_⟩
    cases hstart : node.start <;> cases hend : node.end <;> simp_all
  · rintro ⟨seq, node, hget, hstart, hend⟩
    have hentry := Dict.mem_entries_iff.mpr hget
    have hmem {f : FwdBwd ℕ → Option (ℕ × ℕ)} (hf : f node = some (fwd, bwd)) :
        (fwd, bwd) ∈ dict.values.filterMap f :=
      List.mem_filterMap.mpr ⟨node, List.mem_map.mpr ⟨_, hentry, rfl⟩, hf⟩
    refine (List.mem_iff_getElem?.mp (hmem ?_)).elim fun k hk =>
      ⟨startConnectionId + k, ((fwd, bwd), k), hk, rfl, rfl, rfl⟩
    simp [hstart, hend]

/-- The row of an operator that is kept. -/
theorem getElem?_torchOpApis {seq : ℤ} {mode : Mode} {ops : List TorchOpBean} {x : TorchOpBean × ℕ}
    (h : lastOf seq mode ops = some x) :
    (ops.foldl FwkApis.next {}).torchOpApis[x.2]? = some x.1.api := by
  rw [(foldl_next ops {}).1, List.nil_append, List.getElem?_map, (getElem?_lastOf h).1]
  rfl

theorem exists_lastOf_iff {seq : ℤ} {mode : Mode} {ops : List TorchOpBean} {event : FwdEvent} :
    (opsOf seq mode (noMarks ops)).getLast?.map TorchOpBean.event = some event ↔
      ∃ x, lastOf seq mode ops = some x ∧ x.1.event = event := by
  rw [← map_fst_lastOf, Option.map_map, Option.map_eq_some_iff]
  rfl

/-- The pairs of the database. -/
theorem mem_fwkApiFlows {ops : List TorchOpBean} {startConnectionId : ℕ} {flow : FwdFlow} :
    flow ∈ fwkApiFlows ops startConnectionId ↔
      0 ≤ flow.id ∧
        (opsOf flow.id .start (noMarks ops)).getLast?.map TorchOpBean.event = some flow.start ∧
        (opsOf flow.id .end (noMarks ops)).getLast?.map TorchOpBean.event = some flow.end := by
  rw [fwkApiFlows, fwkApiConnections]
  dsimp only
  rw [List.mem_filterMap, exists_lastOf_iff, exists_lastOf_iff]
  constructor
  · rintro ⟨⟨id, fwd, bwd⟩, hmem, hrow⟩
    obtain ⟨seq, hnode⟩ := mem_updateFwdBwdConnectionId.mp ⟨id, hmem⟩
    have hseq : 0 ≤ seq := by
      refine le_of_not_gt fun hneg => ?_
      obtain ⟨node, hget, -⟩ := hnode
      rw [(foldl_next ops {}).2, get?_foldl_of_neg _ hneg] at hget
      contradiction
    rw [exists_get?_iff, get_fwdBwdDict hseq, get_fwdBwdDict hseq, Option.map_eq_some_iff,
      Option.map_eq_some_iff] at hnode
    obtain ⟨⟨x, hx, rfl⟩, y, hy, rfl⟩ := hnode
    rw [rowFlow] at hrow
    dsimp only at hrow
    rw [getElem?_torchOpApis hx, getElem?_torchOpApis hy] at hrow
    obtain rfl := Option.some.inj hrow
    have hid : x.1.sequenceNumber = seq := (getElem?_lastOf hx).2
    dsimp only [TorchOpBean.api]
    rw [hid]
    exact ⟨hseq, ⟨x, hx, rfl⟩, y, hy, rfl⟩
  · rintro ⟨hseq, ⟨x, hx, hstart⟩, y, hy, hend⟩
    have hnode : ∃ node, (ops.foldl FwkApis.next {}).fwdBwdDict.get? flow.id = some node ∧
        node.start = some x.2 ∧ node.end = some y.2 := by
      rw [exists_get?_iff, get_fwdBwdDict hseq, get_fwdBwdDict hseq, hx, hy]
      exact ⟨rfl, rfl⟩
    obtain ⟨id, hid⟩ := mem_updateFwdBwdConnectionId.mpr ⟨flow.id, hnode⟩
    refine ⟨(id, x.2, y.2), hid, ?_⟩
    rw [rowFlow]
    dsimp only
    rw [getElem?_torchOpApis hx, getElem?_torchOpApis hy]
    obtain ⟨id, start, «end»⟩ := flow
    dsimp only at hx hstart hend
    rw [← hstart, ← hend, ← (getElem?_lastOf hx).2]
    rfl

/-! ### Where they agree -/

/-- What a sequence number has to be like.  Where it has operators of both modes besides the marks, the last one
of each mode is the first of those that start the latest, and the two of them are on different threads. -/
def LinkedAlike (ops : List TorchOpBean) (seq : ℤ) : Prop :=
  let latestOf mode := latest (opsOf seq mode ops)
  match (opsOf seq .start (noMarks ops)).getLast?, (opsOf seq .end (noMarks ops)).getLast? with
  | some fwd, some bwd =>
    fwd.tid ≠ bwd.tid ∧ (latestOf .start).map TorchOpBean.event = some fwd.event ∧
      (latestOf .end).map TorchOpBean.event = some bwd.event
  | _, _ => ∀ fwd ∈ latestOf .start, ∀ bwd ∈ latestOf .end, fwd.tid = bwd.tid

/-- The trace and the database link the same pairs if and only if every sequence number is such. -/
theorem mem_fwkTraceFlows_iff_mem_fwkApiFlows (ops : List TorchOpBean) (startConnectionId : ℕ) :
    (∀ flow, flow ∈ fwkTraceFlows ops ↔ flow ∈ fwkApiFlows ops startConnectionId) ↔
      ∀ seq, 0 ≤ seq → LinkedAlike ops seq := by
  simp only [mem_fwkTraceFlows, mem_fwkApiFlows]
  constructor
  · intro h seq hseq
    rw [LinkedAlike]
    dsimp only
    split
    · rename_i fwd bwd hfwd hbwd
      obtain ⟨-, hne, hstart, hend⟩ := (h ⟨seq, fwd.event, bwd.event⟩).mpr (by simp [hseq, hfwd, hbwd])
      exact ⟨hne, hstart, hend⟩
    · rename_i hnone
      intro fwd hfwd bwd hbwd
      by_contra hne
      have hflow := (h ⟨seq, fwd.event, bwd.event⟩).mp
        ⟨hseq, hne, Option.map_eq_some_iff.mpr ⟨fwd, hfwd, rfl⟩, Option.map_eq_some_iff.mpr ⟨bwd, hbwd, rfl⟩⟩
      obtain ⟨-, hstart, hend⟩ := hflow
      obtain ⟨x, hx, -⟩ := Option.map_eq_some_iff.mp hstart
      obtain ⟨y, hy, -⟩ := Option.map_eq_some_iff.mp hend
      exact hnone x y hx hy
  · intro h flow
    refine and_congr_right fun hseq => ?_
    have hlinked := h flow.id hseq
    rw [LinkedAlike] at hlinked
    dsimp only at hlinked
    generalize (opsOf flow.id .start (noMarks ops)).getLast? = lastFwd at hlinked ⊢
    generalize (opsOf flow.id .end (noMarks ops)).getLast? = lastBwd at hlinked ⊢
    generalize latest (opsOf flow.id .start ops) = fwd at hlinked ⊢
    generalize latest (opsOf flow.id .end ops) = bwd at hlinked ⊢
    constructor
    · rintro ⟨hne, hstart, hend⟩
      obtain ⟨f, rfl, hf⟩ := Option.map_eq_some_iff.mp hstart
      obtain ⟨b, rfl, hb⟩ := Option.map_eq_some_iff.mp hend
      rw [← hf, ← hb] at hne ⊢
      split at hlinked
      · obtain ⟨-, hfwd, hbwd⟩ := hlinked
        exact ⟨hfwd.symm, hbwd.symm⟩
      · exact absurd (hlinked f rfl b rfl) hne
    · rintro ⟨hstart, hend⟩
      obtain ⟨f, rfl, hf⟩ := Option.map_eq_some_iff.mp hstart
      obtain ⟨b, rfl, hb⟩ := Option.map_eq_some_iff.mp hend
      obtain ⟨hne, hfwd, hbwd⟩ := hlinked
      rw [← hf, ← hb]
      exact ⟨hne, hfwd, hbwd⟩

/-- A nested operator is recorded before the one around it: the trace links the inner one, the database the outer
one. -/
def nestedForward : List TorchOpBean :=
  [{ name := "aten::mul", tid := 1, ts := 20, sequenceNumber := 7, fwdThreadId := 0 },
    { name := "aten::mul_", tid := 1, ts := 10, sequenceNumber := 7, fwdThreadId := 0 },
    { name := "MulBackward0", tid := 2, ts := 30, sequenceNumber := 7, fwdThreadId := 1 }]

theorem not_samePairs_nestedForward :
    ¬ ∀ flow, flow ∈ fwkTraceFlows nestedForward ↔ flow ∈ fwkApiFlows nestedForward 0 := by
  intro h
  have htrace : (⟨7, ⟨1, 20⟩, ⟨2, 30⟩⟩ : FwdFlow) ∈ fwkTraceFlows nestedForward := by decide +kernel
  have hapi : (⟨7, ⟨1, 20⟩, ⟨2, 30⟩⟩ : FwdFlow) ∉ fwkApiFlows nestedForward 0 := by decide +kernel
  exact hapi ((h _).mp htrace)

end TorchNpu.Profiler.FwkFileParser
