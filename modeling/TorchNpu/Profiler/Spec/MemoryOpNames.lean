/-
  The operator that a memory record is attributed to.

  The indices only move on.  As the records come by time, those for their own times are always at the last operator, or
  dequeue, that has started; the ones for the times of enqueues are so only while these do not go back.  In a tree the
  operators that contain a time are the last one that has started by then, or parents of it.
-/
import TorchNpu.Profiler.MemoryPrepareParser
import Mathlib.Data.List.Induction
import Mathlib.Data.List.TakeWhile
import Mathlib.Order.Basic

namespace TorchNpu.Profiler.MemoryPrepareParser

variable {α : Type} {l : List α} {time : α → ℤ} {nodes : List OpNode} {node : OpNode} {queue : QueueData}
  {s : State} {before : List MemoryRecord} {record : MemoryRecord} {t t' : ℤ} {d e : OpMark}

/-! ### Trees -/

namespace TorchOp

def Contains (op : TorchOp) (t : ℤ) : Prop :=
  op.startTime ≤ t ∧ t ≤ op.endTime

instance (op : TorchOp) (t : ℤ) : Decidable (op.Contains t) :=
  inferInstanceAs (Decidable (_ ∧ _))

def Inside (op op' : TorchOp) : Prop :=
  op'.startTime ≤ op.startTime ∧ op.endTime ≤ op'.endTime

instance (op op' : TorchOp) : Decidable (op.Inside op') :=
  inferInstanceAs (Decidable (_ ∧ _))

end TorchOp

/-- The name of the innermost operator that contains a time, and no name if there is none. -/
def Innermost (ops : List TorchOp) (t : ℤ) (opName : String) : Prop :=
  (∃ op ∈ ops, op.Contains t ∧ (∀ op' ∈ ops, op'.Contains t → op.Inside op') ∧ opName = op.name) ∨
    (∀ op ∈ ops, ¬op.Contains t) ∧ opName = ""

instance (ops : List TorchOp) (t : ℤ) (opName : String) : Decidable (Innermost ops t opName) :=
  inferInstanceAs (Decidable (_ ∨ _))

/-- The nodes of a thread, by their starts: two of them are disjoint, or the first one is a parent of the other one. -/
structure Tree (nodes : List OpNode) : Prop where
  sorted : nodes.Pairwise fun node node' => node.event.startTime ≤ node'.event.startTime
  nested : nodes.Pairwise fun node node' => node.event.endTime < node'.event.startTime ∨ node.event ∈ node'.parents
  inside : ∀ node ∈ nodes, (node.event :: node.parents).Pairwise TorchOp.Inside
  parents : ∀ node ∈ nodes, ∀ op ∈ node.parents, op ∈ nodes.map OpNode.event

/-- The last one that has started by a time. -/
def lastStarted (time : α → ℤ) (l : List α) (t : ℤ) : Option α :=
  (l.takeWhile fun a => time a ≤ t).getLast?

theorem of_lastStarted {a : α} (hsorted : l.Pairwise fun a b => time a ≤ time b) (h : lastStarted time l t = some a) :
    ∃ left right, l = left ++ a :: right ∧ time a ≤ t ∧ ∀ b ∈ right, t < time b := by
  obtain ⟨left, hleft⟩ := List.getLast?_eq_some_iff.mp h
  have hl : l = left ++ a :: l.dropWhile fun a => time a ≤ t := by
    conv_lhs => rw [← List.takeWhile_append_dropWhile (p := fun a => time a ≤ t) (l := l), hleft]
    rw [List.append_assoc]
    rfl
  refine ⟨left, _, hl, ?_, fun b hb => ?_⟩
  · have hmem : a ∈ l.takeWhile fun a => time a ≤ t := hleft ▸ List.mem_append_right _ List.mem_cons_self
    have := List.mem_takeWhile_imp hmem
    exact decide_eq_true_eq.mp this
  · have hright : (l.dropWhile fun a => time a ≤ t).Pairwise fun a b => time a ≤ time b :=
      hsorted.sublist (List.dropWhile_sublist _)
    rcases hdrop : l.dropWhile fun a => time a ≤ t with _ | ⟨c, right⟩
    · rw [hdrop] at hb
      exact absurd hb List.not_mem_nil
    · have hc : ¬decide (time c ≤ t) = true := by
        have := List.head?_dropWhile_not (fun a => decide (time a ≤ t)) l
        rw [hdrop] at this
        simpa using this
      rw [hdrop] at hb hright
      rw [decide_eq_true_eq, not_le] at hc
      obtain rfl | hb := List.mem_cons.mp hb
      · exact hc
      · exact hc.trans_le ((List.pairwise_cons.mp hright).1 b hb)

theorem lastStarted_eq_none (hsorted : l.Pairwise fun a b => time a ≤ time b) (h : lastStarted time l t = none) :
    ∀ a ∈ l, t < time a := by
  have hnil : (l.takeWhile fun a => time a ≤ t) = [] := List.getLast?_eq_none_iff.mp h
  rcases l with _ | ⟨b, l⟩
  · exact fun a ha => absurd ha List.not_mem_nil
  · rw [List.takeWhile_cons] at hnil
    split_ifs at hnil with hb
    rw [decide_eq_true_eq, not_le] at hb
    intro a ha
    obtain rfl | ha := List.mem_cons.mp ha
    · exact hb
    · exact hb.trans_le ((List.pairwise_cons.mp hsorted).1 a ha)

def startOf (node : OpNode) : ℤ :=
  node.event.startTime

/-- What contains a time is the last node that has started by then, or a parent of it. -/
theorem Tree.mem_chain (htree : Tree nodes) (hlast : lastStarted startOf nodes t = some node) {op : TorchOp}
    (hop : op ∈ nodes.map OpNode.event) (hcontains : op.Contains t) : op ∈ node.event :: node.parents := by
  obtain ⟨left, right, hnodes, hstart, hright⟩ := of_lastStarted htree.sorted hlast
  obtain ⟨node', hnode', rfl⟩ := List.mem_map.mp hop
  have hnested := htree.nested
  rw [hnodes] at hnode' hnested
  rw [List.mem_append, List.mem_cons] at hnode'
  rcases hnode' with hnode' | rfl | hnode'
  · obtain hlt | hparent := (List.pairwise_append.mp hnested).2.2 node' hnode' node List.mem_cons_self
    · have hend := hcontains.2
      have : node.event.startTime ≤ t := hstart
      omega
    · exact List.mem_cons_of_mem _ hparent
  · exact List.mem_cons_self
  · exact absurd hcontains.1 (not_le.mpr (hright node' hnode'))

/-- An operator of the chain of a node is inside those that come after it. -/
theorem Tree.inside_of_find? (htree : Tree nodes) (hnode : node ∈ nodes) {p : TorchOp → Bool} {op op' : TorchOp}
    (hfind : (node.event :: node.parents).find? p = some op) (hop' : op' ∈ node.event :: node.parents)
    (hp : p op' = true) : op.Inside op' := by
  obtain ⟨-, left, right, hsplit, hleft⟩ := List.find?_eq_some_iff_append.mp hfind
  have hinside := htree.inside node hnode
  rw [hsplit] at hop' hinside
  rw [List.mem_append, List.mem_cons] at hop'
  rcases hop' with hop' | rfl | hop'
  · exact absurd hp (by simpa using hleft op' hop')
  · exact ⟨le_rfl, le_rfl⟩
  · exact (List.pairwise_cons.mp (List.pairwise_append.mp hinside).2.1).1 op' hop'

theorem Tree.mem_of_chain (htree : Tree nodes) (hnode : node ∈ nodes) {op : TorchOp}
    (hop : op ∈ node.event :: node.parents) : op ∈ nodes.map OpNode.event := by
  obtain rfl | hop := List.mem_cons.mp hop
  · exact List.mem_map_of_mem hnode
  · exact htree.parents node hnode op hop

theorem mem_of_lastStarted (h : lastStarted startOf nodes t = some node) : node ∈ nodes :=
  List.takeWhile_sublist _ |>.subset (List.mem_of_getLast? h)

theorem Tree.startTime_le (htree : Tree nodes) (hlast : lastStarted startOf nodes t = some node) {op : TorchOp}
    (hop : op ∈ node.event :: node.parents) : op.startTime ≤ t := by
  obtain ⟨left, right, -, hstart, -⟩ := of_lastStarted htree.sorted hlast
  obtain rfl | hop := List.mem_cons.mp hop
  · exact hstart
  · exact ((List.pairwise_cons.mp (htree.inside node (mem_of_lastStarted hlast))).1 op hop).1.trans hstart

/-- `_find_matched_torch_op_name`, of the last node that has started. -/
theorem Tree.innermost_nameAround (htree : Tree nodes) (t : ℤ) :
    Innermost (nodes.map OpNode.event) t (((lastStarted startOf nodes t).map (nameAround t)).getD "") := by
  rcases hlast : lastStarted startOf nodes t with _ | node
  · refine .inr ⟨fun op hop hcontains => ?_, rfl⟩
    obtain ⟨node, hnode, rfl⟩ := List.mem_map.mp hop
    exact absurd hcontains.1 (not_le.mpr (lastStarted_eq_none htree.sorted hlast node hnode))
  · have hnode := mem_of_lastStarted hlast
    rw [Option.map_some, Option.getD_some, nameAround]
    rcases hfind : (node.event :: node.parents).find? fun op : TorchOp => decide (t ≤ op.endTime) with _ | op
    · refine .inr ⟨fun op hop hcontains => ?_, rfl⟩
      have := List.find?_eq_none.mp hfind op (htree.mem_chain hlast hop hcontains)
      exact this (decide_eq_true hcontains.2)
    · have hop := List.mem_of_find?_eq_some hfind
      have hend := List.find?_some hfind
      rw [decide_eq_true_eq] at hend
      refine .inl ⟨op, htree.mem_of_chain hnode hop, ⟨htree.startTime_le hlast hop, hend⟩,
        fun op' hop' hcontains => ?_, rfl⟩
      exact htree.inside_of_find? hnode hfind (htree.mem_chain hlast hop' hcontains) (decide_eq_true hcontains.2)

/-- The operator that `_get_aten_op_name_by_enqueue_record` finds from the last node on has not ended. -/
def StillOpen (nodes : List OpNode) (t : ℤ) : Prop :=
  ∀ node ∈ lastStarted startOf nodes t, ∀ op ∈ (node.event :: node.parents).find? isAtenOp, t ≤ op.endTime

instance (nodes : List OpNode) (t : ℤ) : Decidable (StillOpen nodes t) :=
  inferInstanceAs (Decidable (∀ node ∈ lastStarted startOf nodes t,
    ∀ op ∈ (node.event :: node.parents).find? isAtenOp, t ≤ op.endTime))

theorem Tree.innermost_atenName (htree : Tree nodes) (hopen : StillOpen nodes t) :
    Innermost ((nodes.map OpNode.event).filter isAtenOp) t (((lastStarted startOf nodes t).map atenName).getD "") := by
  rcases hlast : lastStarted startOf nodes t with _ | node
  · refine .inr ⟨fun op hop hcontains => ?_, rfl⟩
    obtain ⟨node, hnode, rfl⟩ := List.mem_map.mp (List.mem_of_mem_filter hop)
    exact absurd hcontains.1 (not_le.mpr (lastStarted_eq_none htree.sorted hlast node hnode))
  · have hnode := mem_of_lastStarted hlast
    rw [Option.map_some, Option.getD_some, atenName]
    rcases hfind : (node.event :: node.parents).find? isAtenOp with _ | op
    · refine .inr ⟨fun op hop hcontains => ?_, rfl⟩
      obtain ⟨hop, haten⟩ := List.mem_filter.mp hop
      exact List.find?_eq_none.mp hfind op (htree.mem_chain hlast hop hcontains) haten
    · have hop := List.mem_of_find?_eq_some hfind
      refine .inl ⟨op, List.mem_filter.mpr ⟨htree.mem_of_chain hnode hop, List.find?_some hfind⟩,
        ⟨htree.startTime_le hlast hop, hopen node hlast op hfind⟩, fun op' hop' hcontains => ?_, rfl⟩
      obtain ⟨hop', haten⟩ := List.mem_filter.mp hop'
      exact htree.inside_of_find? hnode hfind (htree.mem_chain hlast hop' hcontains) haten

/-- The operators that the parser leaves out have none inside them. -/
def HiddenLeaves (nodes : List OpNode) : Prop :=
  ∀ node ∈ nodes, ∀ op ∈ node.parents, isHidden op = false

instance (nodes : List OpNode) : Decidable (HiddenLeaves nodes) :=
  inferInstanceAs (Decidable (∀ node ∈ nodes, ∀ op ∈ node.parents, isHidden op = false))

/-- The nodes that the parser keeps. -/
def keptNodes (nodes : List OpNode) : List OpNode :=
  nodes.filter fun node => !isHidden node.event

theorem Tree.kept {tid : ℕ} (htree : Tree (opsOf nodes tid)) (hleaves : HiddenLeaves nodes) :
    Tree (opsOf (keptNodes nodes) tid) := by
  have hfilter : opsOf (keptNodes nodes) tid = (opsOf nodes tid).filter fun node => !isHidden node.event := by
    unfold opsOf keptNodes
    rw [List.filter_filter, List.filter_filter]
    exact List.filter_congr fun node _ => Bool.and_comm _ _
  rw [hfilter]
  refine ⟨htree.sorted.filter _, htree.nested.filter _, fun node hnode => ?_, fun node hnode op hop => ?_⟩
  · exact htree.inside node (List.mem_of_mem_filter hnode)
  · have hnode' := List.mem_of_mem_filter hnode
    obtain ⟨parent, hparent, rfl⟩ := List.mem_map.mp (htree.parents node hnode' op hop)
    have hhidden := hleaves node (List.mem_of_mem_filter hnode') parent.event hop
    exact List.mem_map_of_mem (List.mem_filter.mpr ⟨hparent, by rw [hhidden]; rfl⟩)

/-! ### The indices -/

theorem advance_advance (times : List ℤ) (index : ℕ) (h : t ≤ t') :
    advance times (advance times index t) t' = advance times index t' := by
  unfold advance
  rw [Nat.add_assoc, ← List.drop_drop]
  congr 1
  have hsplit : (times.drop index).takeWhile (· ≤ t') = (times.drop index).takeWhile (· ≤ t) ++
      ((times.drop index).drop ((times.drop index).takeWhile (· ≤ t)).length).takeWhile (· ≤ t') := by
    generalize times.drop index = l
    induction l with
    | nil => rfl
    | cons a l ih =>
      by_cases ha : a ≤ t
      · rw [List.takeWhile_cons_of_pos (by simpa using ha.trans h), List.takeWhile_cons_of_pos (by simpa using ha), ih]
        simp
      · rw [List.takeWhile_cons_of_neg (by simpa using ha) (p := fun a => decide (a ≤ t))]
        rfl
  rw [hsplit, List.length_append]

/-- From the beginning the index is at the last one that has started. -/
theorem getElem?_advance (time : α → ℤ) (l : List α) (t : ℤ) :
    (if advance (l.map time) 0 t = 0 then none else l[advance (l.map time) 0 t - 1]?) = lastStarted time l t := by
  have hlength : advance (l.map time) 0 t = (l.takeWhile fun a => time a ≤ t).length := by
    unfold advance
    rw [List.drop_zero, Nat.zero_add, List.takeWhile_map, List.length_map]
    rfl
  rw [hlength, lastStarted]
  split_ifs with hzero
  · rw [List.length_eq_zero_iff.mp hzero]
    rfl
  · rw [List.getLast?_eq_getElem?]
    have hlt : (l.takeWhile fun a => time a ≤ t).length - 1 < (l.takeWhile fun a => time a ≤ t).length := by omega
    have hinit : (l.takeWhile fun a => time a ≤ t) <+: l := List.takeWhile_prefix _
    rw [List.getElem?_eq_getElem hlt, List.getElem?_eq_getElem (hlt.trans_le hinit.length_le), hinit.getElem hlt]

/-! ### Runs -/

/-- The dequeue that a record is made in. -/
def dequeueOf (queue : QueueData) (record : MemoryRecord) : Option OpMark :=
  (queue.dequeueRecords record.pid record.tid).find? fun d => d.ts ≤ record.timeNs ∧ record.timeNs < d.ts + d.dur

/-- The enqueue that the dequeue of a record belongs to. -/
def enqueueOf (queue : QueueData) (record : MemoryRecord) : Option OpMark :=
  (dequeueOf queue record).bind queue.findRelatedEnqueueRecord

/-- The name of a record, from the operators and the marks only. -/
def opNameOf (nodes : List OpNode) (queue : QueueData) (record : MemoryRecord) : String :=
  match dequeueOf queue record with
  | none => ((lastStarted startOf (opsOf nodes record.tid) record.timeNs).map (nameAround record.timeNs)).getD ""
  | some d =>
    match queue.findRelatedEnqueueRecord d with
    | none => ""
    | some e => ((lastStarted startOf (opsOf nodes e.tid) e.timeNs).map atenName).getD ""

/-- The dequeues of a thread are listed in order, and one ends before the next one starts. -/
def DequeuesInOrder (queue : QueueData) : Prop :=
  ∀ pid tid, (queue.dequeueRecords pid tid).Pairwise fun d d' => d.ts ≤ d'.ts ∧ d.ts + d.dur ≤ d'.ts

/-- The last dequeue that has started is the one that a record is made in, if there is any. -/
theorem filter_lastStarted (hqueue : DequeuesInOrder queue) (record : MemoryRecord) :
    (lastStarted OpMark.ts (queue.dequeueRecords record.pid record.tid) record.timeNs).filter
      (fun d => d.ts ≤ record.timeNs ∧ record.timeNs < d.ts + d.dur) = dequeueOf queue record := by
  have horder := hqueue record.pid record.tid
  have hsorted := horder.imp And.left
  unfold dequeueOf
  rcases hlast : lastStarted OpMark.ts (queue.dequeueRecords record.pid record.tid) record.timeNs with _ | d
  · rw [Option.filter_none, eq_comm, List.find?_eq_none]
    intro d hd
    have := lastStarted_eq_none hsorted hlast d hd
    rw [decide_eq_true_eq]
    omega
  · obtain ⟨left, right, hl, hstart, hright⟩ := of_lastStarted hsorted hlast
    rw [hl] at horder ⊢
    have hleft : left.find? (fun d => d.ts ≤ record.timeNs ∧ record.timeNs < d.ts + d.dur) = none := by
      rw [List.find?_eq_none]
      intro d' hd'
      have := (List.pairwise_append.mp horder).2.2 d' hd' d List.mem_cons_self
      rw [decide_eq_true_eq]
      omega
    have hnone : right.find? (fun d => d.ts ≤ record.timeNs ∧ record.timeNs < d.ts + d.dur) = none := by
      rw [List.find?_eq_none]
      intro d' hd'
      have := hright d' hd'
      rw [decide_eq_true_eq]
      omega
    rw [List.find?_append, hleft, Option.none_or, List.find?_cons, Option.filter_some]
    split_ifs with hin
    · rw [hin]
    · rw [Bool.not_eq_true] at hin
      rw [hin, hnone]

/-- The indices for the times of records come, for a later time, to the last one that has started by then. -/
def OpsOnTime (nodes : List OpNode) (before : List MemoryRecord) (index : ℕ × Bool → ℕ) : Prop :=
  ∀ tid t, (∀ r ∈ before, r.timeNs ≤ t) →
    advance ((opsOf nodes tid).map startOf) (index (tid, false)) t = advance ((opsOf nodes tid).map startOf) 0 t

def DequeuesOnTime (queue : QueueData) (before : List MemoryRecord) (index : ℕ × ℕ → ℕ) : Prop :=
  ∀ pid tid t, (∀ r ∈ before, r.timeNs ≤ t) →
    advance ((queue.dequeueRecords pid tid).map OpMark.ts) (index (pid, tid)) t =
      advance ((queue.dequeueRecords pid tid).map OpMark.ts) 0 t

/-- The same for a time that is no earlier than the enqueues on the thread. -/
def EnqueuesOnTime (nodes : List OpNode) (queue : QueueData) (before : List MemoryRecord) (index : ℕ × Bool → ℕ) :
    Prop :=
  ∀ tid t, (∀ r ∈ before, ∀ e ∈ enqueueOf queue r, e.tid = tid → e.timeNs ≤ t) →
    advance ((opsOf nodes tid).map startOf) (index (tid, true)) t = advance ((opsOf nodes tid).map startOf) 0 t

/-- Where the indices are after some records. -/
structure OnTime (nodes : List OpNode) (queue : QueueData) (before : List MemoryRecord) (s : State) : Prop where
  torchOps : s.torchOps = nodes
  ops : OpsOnTime nodes before s.torchOpsIndex
  enqueues : EnqueuesOnTime nodes queue before s.torchOpsIndex
  dequeues : DequeuesOnTime queue before s.dequeueRecordIndex
  names : ∀ r, s.recordToName r ≠ none → r ∈ before

/-- The enqueue of a record is no earlier than those of the records before it on the thread. -/
def EnqueueInOrder (queue : QueueData) (before : List MemoryRecord) (record : MemoryRecord) : Prop :=
  ∀ e ∈ enqueueOf queue record, ∀ r ∈ before, ∀ e' ∈ enqueueOf queue r, e'.tid = e.tid → e'.timeNs ≤ e.timeNs

/-- An index that moves to a time is still behind every later time. -/
theorem advance_update {κ : Type} [DecidableEq κ] (times : κ → List ℤ) {index : κ → ℕ} {key key' : κ}
    (hle : key' = key → t ≤ t') (h : advance (times key') (index key') t' = advance (times key') 0 t') :
    advance (times key') (Function.update index key (advance (times key) (index key) t) key') t' =
      advance (times key') 0 t' := by
  by_cases hkey : key' = key
  · subst hkey
    rw [Function.update_self, advance_advance _ _ (hle rfl), h]
  · rw [Function.update_of_ne hkey, h]

theorem findRelatedDequeueRecord_step (hqueue : DequeuesInOrder queue) (h : DequeuesOnTime queue before
    s.dequeueRecordIndex) (hle : ∀ r ∈ before, r.timeNs ≤ record.timeNs) :
    (findRelatedDequeueRecord queue s record).1 = dequeueOf queue record ∧
      ∃ index, (findRelatedDequeueRecord queue s record).2 = { s with dequeueRecordIndex := index } ∧
        DequeuesOnTime queue (before ++ [record]) index := by
  have hbefore {t : ℤ} (ht : ∀ r ∈ before ++ [record], r.timeNs ≤ t) :
      (∀ r ∈ before, r.timeNs ≤ t) ∧ record.timeNs ≤ t := by
    rw [List.forall_mem_append, List.forall_mem_singleton] at ht
    exact ht
  unfold findRelatedDequeueRecord
  split_ifs with hthread
  · refine ⟨?_, _, rfl, fun pid tid t ht => ?_⟩
    · unfold State.findLastDequeueRecordBeforeTimestamp
      dsimp only
      rw [h _ _ _ hle, getElem?_advance, filter_lastStarted hqueue]
    · exact advance_update (fun key : ℕ × ℕ => (queue.dequeueRecords key.1 key.2).map OpMark.ts)
        (fun _ => (hbefore ht).2) (h pid tid t (hbefore ht).1)
  · -- there is no dequeue on the thread
    have hnil : queue.dequeueRecords record.pid record.tid = [] := by
      unfold QueueData.dequeueRecords
      rw [List.filter_eq_nil_iff]
      intro d hd hmatch
      rw [decide_eq_true_eq] at hmatch
      refine hthread ?_
      unfold QueueData.isDequeueThread
      rw [Bool.and_eq_true, List.any_eq_true, List.any_eq_true]
      exact ⟨⟨d, hd, decide_eq_true hmatch.1⟩, ⟨d, hd, decide_eq_true hmatch.2⟩⟩
    refine ⟨?_, _, rfl, fun pid tid t ht => h pid tid t (hbefore ht).1⟩
    unfold dequeueOf
    rw [hnil]
    rfl

/-- The search for the name moves the index of one thread, and finds the name if the index was not too far. -/
theorem findName_step (htorchOps : s.torchOps = nodes) (hops : OpsOnTime nodes before s.torchOpsIndex)
    (henqueues : EnqueuesOnTime nodes queue before s.torchOpsIndex) (hle : ∀ r ∈ before, r.timeNs ≤ record.timeNs) :
    ∃ result, findOpNameOfRecord queue s record (dequeueOf queue record) = result ∧
      (∃ index, result.2 = { s with torchOpsIndex := index } ∧ OpsOnTime nodes (before ++ [record]) index ∧
        EnqueuesOnTime nodes queue (before ++ [record]) index) ∧
      (EnqueueInOrder queue before record → result.1 = opNameOf nodes queue record) := by
  have hops' : OpsOnTime nodes (before ++ [record]) s.torchOpsIndex := fun tid t ht =>
    hops tid t (List.forall_mem_append.mp ht).1
  have henqueues' : EnqueuesOnTime nodes queue (before ++ [record]) s.torchOpsIndex := fun tid t ht =>
    henqueues tid t (List.forall_mem_append.mp ht).1
  unfold opNameOf
  rcases hdequeue : dequeueOf queue record with _ | d
  · refine ⟨_, rfl, ⟨_, rfl, fun tid t ht => ?_, fun tid t ht => ?_⟩, fun _ => ?_⟩
    · rw [List.forall_mem_append, List.forall_mem_singleton] at ht
      rw [htorchOps]
      exact advance_update (fun key : ℕ × Bool => (opsOf nodes key.1).map startOf) (fun _ => ht.2)
        (hops tid t ht.1)
    · rw [Function.update_of_ne (by simp)]
      exact henqueues' tid t ht
    · unfold findOpNameOfRecord findMatchedTorchOpName State.findLastTorchOpBeforeTimestamp
      dsimp only
      rw [htorchOps]
      show Option.getD (Option.map _ (if advance ((opsOf nodes record.tid).map startOf) _ _ = 0 then none else
        (opsOf nodes record.tid)[advance ((opsOf nodes record.tid).map startOf) _ _ - 1]?)) "" = _
      rw [hops _ _ hle, getElem?_advance]
  · dsimp only
    have henqueueOf : enqueueOf queue record = queue.findRelatedEnqueueRecord d := by
      rw [enqueueOf, hdequeue, Option.bind_some]
    refine ⟨findRealOpNameOfRecord queue s d, rfl, ?_⟩
    unfold findRealOpNameOfRecord
    rcases henqueue : queue.findRelatedEnqueueRecord d with _ | e
    · exact ⟨⟨_, rfl, hops', henqueues'⟩, fun _ => rfl⟩
    · rw [henqueue] at henqueueOf
      refine ⟨⟨_, rfl, fun tid t ht => ?_, fun tid t ht => ?_⟩, fun hinorder => ?_⟩
      · rw [Function.update_of_ne (by simp)]
        exact hops' tid t ht
      · rw [List.forall_mem_append, List.forall_mem_singleton] at ht
        rw [htorchOps]
        refine advance_update (fun key : ℕ × Bool => (opsOf nodes key.1).map startOf) (fun hkey => ?_)
          (henqueues tid t ht.1)
        exact ht.2 e henqueueOf (congrArg Prod.fst hkey).symm
      · unfold getAtenOpNameByEnqueueRecord State.findLastTorchOpBeforeTimestamp
        dsimp only
        rw [htorchOps]
        show Option.getD (Option.map _ (if advance ((opsOf nodes e.tid).map startOf) _ _ = 0 then none else
          (opsOf nodes e.tid)[advance ((opsOf nodes e.tid).map startOf) _ _ - 1]?)) "" = _
        rw [henqueues _ _ (hinorder e henqueueOf), getElem?_advance]

/-- The call for the next record keeps the indices on time, and gives its name. -/
theorem getOpNameOfRecord_step (hqueue : DequeuesInOrder queue) (h : OnTime nodes queue before s)
    (hle : ∀ r ∈ before, r.timeNs ≤ record.timeNs) :
    OnTime nodes queue (before ++ [record]) (getOpNameOfRecord queue s record).2 ∧
      (record ∉ before → EnqueueInOrder queue before record →
        (getOpNameOfRecord queue s record).1 = opNameOf nodes queue record) := by
  unfold getOpNameOfRecord
  rcases hname : s.recordToName record with _ | opName
  · obtain ⟨hrelated, index, hstate, hdequeues⟩ := findRelatedDequeueRecord_step hqueue h.dequeues hle
    dsimp only
    rw [hrelated, hstate]
    obtain ⟨result, hresult, ⟨index', hstate', hops, henqueues⟩, hnamed⟩ :=
      findName_step (s := { s with dequeueRecordIndex := index }) h.torchOps h.ops h.enqueues hle
    rw [hresult, hstate']
    refine ⟨⟨h.torchOps, hops, henqueues, hdequeues, fun r hr => ?_⟩, fun _ => hnamed⟩
    rw [List.mem_append, List.mem_singleton]
    by_cases hrecord : r = record
    · exact .inr hrecord
    · refine .inl (h.names r ?_)
      dsimp only at hr
      rwa [Function.update_of_ne hrecord] at hr
  · refine ⟨⟨h.torchOps, fun tid t ht => ?_, fun tid t ht => ?_, fun pid tid t ht => ?_, fun r hr => ?_⟩, fun hnew => ?_⟩
    · exact h.ops tid t (List.forall_mem_append.mp ht).1
    · exact h.enqueues tid t (List.forall_mem_append.mp ht).1
    · exact h.dequeues pid tid t (List.forall_mem_append.mp ht).1
    · exact List.mem_append_left _ (h.names r hr)
    · exact absurd (h.names record (by rw [hname]; exact Option.some_ne_none _)) hnew

/-- The state after the calls for some records. -/
def stateAfter (nodes : List OpNode) (queue : QueueData) (before : List MemoryRecord) : State :=
  before.foldl (fun s record => (getOpNameOfRecord queue s record).2) { torchOps := nodes }

theorem onTime_stateAfter (hqueue : DequeuesInOrder queue)
    (hsorted : before.Pairwise fun record record' => record.timeNs ≤ record'.timeNs) :
    OnTime nodes queue before (stateAfter nodes queue before) := by
  induction before using List.reverseRecOn with
  | nil => exact ⟨rfl, fun _ _ _ => rfl, fun _ _ _ => rfl, fun _ _ _ _ => rfl, fun r hr => absurd rfl hr⟩
  | append_singleton before record ih =>
    obtain ⟨hbefore, -, hle⟩ := List.pairwise_append.mp hsorted
    unfold stateAfter at ih ⊢
    rw [List.foldl_append]
    exact (getOpNameOfRecord_step hqueue (ih hbefore) fun r hr => hle r hr record (List.mem_singleton_self _)).1

/-! ### Attribution -/

/-- The events of a thread. -/
def threadOps (nodes : List OpNode) (tid : ℕ) : List TorchOp :=
  (opsOf nodes tid).map OpNode.event

/-- The name that a record should have: outside the threads of the dequeues, and inside a dequeue. -/
structure Attributed (nodes : List OpNode) (queue : QueueData) (record : MemoryRecord) (opName : String) : Prop where
  outside : queue.dequeueRecords record.pid record.tid = [] →
    Innermost (threadOps nodes record.tid) record.timeNs opName
  inside : ∀ d ∈ queue.dequeueRecords record.pid record.tid, d.ts ≤ record.timeNs → record.timeNs < d.ts + d.dur →
    match queue.findRelatedEnqueueRecord d with
    | none => opName = ""
    | some e => Innermost ((threadOps nodes e.tid).filter isAtenOp) e.timeNs opName

/-- The names of the records are those that they should have, and no record changes the name of another one. -/
def OpNamesAttributed (nodes : List OpNode) (queue : QueueData) (records : List MemoryRecord) : Prop :=
  ∀ before record after, records = before ++ record :: after →
    Attributed nodes queue record (getOpNameOfRecord queue (stateAfter (keptNodes nodes) queue before) record).1 ∧
      (getOpNameOfRecord queue (stateAfter (keptNodes nodes) queue before) record).1 =
        (getOpNameOfRecord queue (stateAfter (keptNodes nodes) queue []) record).1

/-- The name of a record outside the dequeues is that of the innermost operator that is kept; the one of a record in a
    dequeue is that of the innermost `aten` or `npu` operator, where the enqueues do not go back in time and the
    operator that is found has not ended.  The name depends on the operators and the marks only. -/
theorem getOpNameOfRecord_attributed (htree : ∀ tid, Tree (opsOf nodes tid)) (hleaves : HiddenLeaves nodes)
    (hqueue : DequeuesInOrder queue)
    (hsorted : (before ++ [record]).Pairwise fun record record' => record.timeNs ≤ record'.timeNs)
    (hnew : record ∉ before) (hinorder : EnqueueInOrder queue before record)
    (hopen : ∀ e ∈ enqueueOf queue record, StillOpen (opsOf (keptNodes nodes) e.tid) e.timeNs) :
    (getOpNameOfRecord queue (stateAfter (keptNodes nodes) queue before) record).1 =
        opNameOf (keptNodes nodes) queue record ∧
      Attributed (keptNodes nodes) queue record (opNameOf (keptNodes nodes) queue record) := by
  obtain ⟨hbefore, -, hle⟩ := List.pairwise_append.mp hsorted
  have hkept (tid : ℕ) := (htree tid).kept hleaves
  refine ⟨(getOpNameOfRecord_step hqueue (onTime_stateAfter hqueue hbefore) fun r hr =>
    hle r hr record (List.mem_singleton_self _)).2 hnew hinorder, fun hnil => ?_, fun d hd hstart hend => ?_⟩
  · have hnone : dequeueOf queue record = none := by
      rw [dequeueOf, hnil]
      rfl
    unfold opNameOf
    rw [hnone]
    exact (hkept record.tid).innermost_nameAround record.timeNs
  · -- no other dequeue of the thread contains the time
    have hdequeue : dequeueOf queue record = some d := by
      obtain ⟨left, right, hsplit⟩ := List.append_of_mem hd
      have horder := hqueue record.pid record.tid
      rw [hsplit] at horder
      rw [dequeueOf, hsplit, List.find?_append, List.find?_cons, decide_eq_true ⟨hstart, hend⟩]
      have hleft : left.find? (fun d => d.ts ≤ record.timeNs ∧ record.timeNs < d.ts + d.dur) = none := by
        rw [List.find?_eq_none]
        intro d' hd'
        have := (List.pairwise_append.mp horder).2.2 d' hd' d List.mem_cons_self
        rw [decide_eq_true_eq]
        omega
      rw [hleft, Option.none_or]
    have henqueue : enqueueOf queue record = queue.findRelatedEnqueueRecord d := by
      rw [enqueueOf, hdequeue, Option.bind_some]
    unfold opNameOf
    rw [hdequeue]
    dsimp only
    rcases hrelated : queue.findRelatedEnqueueRecord d with _ | e
    · rfl
    · exact (hkept e.tid).innermost_atenName (hopen e (henqueue.trans hrelated))

/-! ### Runs of the parser -/

/-- `aten::add`, with an `aten::empty` and its `empty_tensor` in it. -/
def addNodes : List OpNode :=
  [⟨add, []⟩, ⟨empty, [add]⟩, ⟨⟨"empty_tensor", 1, 1, 20, 30⟩, [empty, add]⟩]
where
  add := ⟨"aten::add", 1, 1, 0, 100⟩
  empty := ⟨"aten::empty", 1, 1, 10, 40⟩

/-- An enqueue at 35, and its dequeue on another thread. -/
def addQueue : QueueData :=
  ⟨[⟨1, 1, 7, 35, 32, 3⟩], [⟨1, 2, 7, 90, 60, 30⟩]⟩

def mallocAt (tid : ℕ) (timeNs : ℤ) : MemoryRecord :=
  ⟨0, 4096, timeNs, 512, 512, 1024, 512, 0, true, 0, 0, .malloc, true, tid, 1⟩

theorem tree_addNodes (tid : ℕ) : Tree (opsOf addNodes tid) := by
  by_cases htid : tid = 1
  · subst htid
    exact ⟨by decide, by decide, by unfold TorchOp.Inside; decide, by decide⟩
  · have hnil : opsOf addNodes tid = [] := by
      simp [opsOf, addNodes, addNodes.add, addNodes.empty, Ne.symm htid]
    rw [hnil]
    exact ⟨List.Pairwise.nil, List.Pairwise.nil, nofun, nofun⟩

theorem dequeuesInOrder_addQueue : DequeuesInOrder addQueue := by
  intro pid tid
  exact List.Pairwise.filter _ (List.pairwise_singleton _ _)

/-- A record in the dequeue has the name of the operator that has made the enqueue. -/
theorem getOpNameOfRecord_attributed_addNodes :
    (getOpNameOfRecord addQueue (stateAfter (keptNodes addNodes) addQueue []) (mallocAt 2 70)).1 =
        opNameOf (keptNodes addNodes) addQueue (mallocAt 2 70) ∧
      Attributed (keptNodes addNodes) addQueue (mallocAt 2 70)
        (opNameOf (keptNodes addNodes) addQueue (mallocAt 2 70)) := by
  exact getOpNameOfRecord_attributed tree_addNodes (by decide) dequeuesInOrder_addQueue (List.pairwise_singleton _ _)
    List.not_mem_nil (fun _ _ r hr => absurd hr List.not_mem_nil) (by decide)

/-- A record in `empty_tensor` has the name of the operator around it. -/
theorem not_opNamesAttributed :
    (∀ tid, Tree (opsOf addNodes tid)) ∧ ¬OpNamesAttributed addNodes addQueue [mallocAt 1 25] := by
  refine ⟨tree_addNodes, fun h => ?_⟩
  exact absurd ((h [] (mallocAt 1 25) [] rfl).1.outside rfl) (by decide)

end TorchNpu.Profiler.MemoryPrepareParser
