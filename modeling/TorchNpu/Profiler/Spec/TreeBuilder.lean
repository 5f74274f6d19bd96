/-
  When the tree of the operators is the tree of their intervals.

  As long as no operator reaches beyond one that has started before it and has not ended, `last_node` and the
  nodes above it are the operators around the current time (`around`), the last one first.
-/
import Mathlib.Data.List.Induction
import TorchNpu.Lib.SortByKey
import TorchNpu.Profiler.TorchOpNode

namespace TorchNpu.Profiler.TreeBuilder

/-! ### Intervals -/

namespace TorchOp

/-- The closed interval holds the time. -/
def Holds (op : TorchOp) (t : ℤ) : Prop :=
  op.ts ≤ t ∧ t ≤ op.endNs

instance (op : TorchOp) (t : ℤ) : Decidable (op.Holds t) :=
  inferInstanceAs (Decidable (op.ts ≤ t ∧ t ≤ op.endNs))

def Contains (x y : TorchOp) : Prop :=
  x.ts ≤ y.ts ∧ y.endNs ≤ x.endNs

instance (x y : TorchOp) : Decidable (x.Contains y) :=
  inferInstanceAs (Decidable (x.ts ≤ y.ts ∧ y.endNs ≤ x.endNs))

/-- The second operator comes after the end of the first one, or lies within it. -/
def Nests (x y : TorchOp) : Prop :=
  y.ts ≤ x.endNs → y.endNs ≤ x.endNs

instance (x y : TorchOp) : Decidable (x.Nests y) :=
  inferInstanceAs (Decidable (y.ts ≤ x.endNs → y.endNs ≤ x.endNs))

end TorchOp

/-! ### The operators around a time -/

/-- The nodes of the operators that hold the time, the last one first, and the root. -/
def around (l : List TorchOp) (t : ℤ) : List ℕ :=
  l.zipIdx.foldl (fun nodes x => if x.1.Holds t then (x.2 + 1) :: nodes else nodes) [0]

/-- The node of the last operator that holds the time, or the root. -/
def lastAround (l : List TorchOp) (t : ℤ) : ℕ :=
  (around l t).headD 0

variable {l : List TorchOp} {x y : TorchOp} {t t' : ℤ}

theorem around_append_singleton :
    around (l ++ [x]) t = if x.Holds t then (l.length + 1) :: around l t else around l t := by
  simp [around, List.zipIdx_append]

theorem around_congr (h : ∀ x ∈ l, x.Holds t ↔ x.Holds t') : around l t = around l t' := by
  induction l using List.reverseRecOn with
  | nil => rfl
  | append_singleton l x ih =>
    rw [List.forall_mem_append] at h
    have hx := h.2 x (by simp)
    rw [around_append_singleton, around_append_singleton, ih h.1]
    simp only [hx]

theorem lastAround_append_singleton :
    lastAround (l ++ [x]) t = if x.Holds t then l.length + 1 else lastAround l t := by
  rw [lastAround, around_append_singleton]
  split_ifs
  · rfl
  · rfl

theorem lastAround_le : lastAround l t ≤ l.length := by
  induction l using List.reverseRecOn with
  | nil => exact le_rfl
  | append_singleton l x ih =>
    rw [lastAround_append_singleton, List.length_append, List.length_singleton]
    split_ifs <;> omega

/-- What `lastAround` is. -/
theorem lastAround_spec (l : List TorchOp) (t : ℤ) :
    (lastAround l t = 0 ∧ ∀ x ∈ l, ¬ x.Holds t) ∨
      ∃ q x, lastAround l t = q + 1 ∧ l[q]? = some x ∧ x.Holds t ∧
        ∀ i y, l[i]? = some y → y.Holds t → i ≤ q := by
  induction l using List.reverseRecOn with
  | nil => exact .inl ⟨rfl, by simp⟩
  | append_singleton l x ih =>
    rw [lastAround_append_singleton]
    by_cases hx : x.Holds t
    · rw [if_pos hx]
      refine .inr ⟨l.length, x, rfl, by simp, hx, fun i y hy _ => ?_⟩
      have hi := (List.getElem?_eq_some_iff.mp hy).1
      rw [List.length_append, List.length_singleton] at hi
      omega
    · rw [if_neg hx]
      rcases ih with ⟨hzero, hnone⟩ | ⟨q, z, hq, hz, hholds, hlast⟩
      · refine .inl ⟨hzero, fun y hy => ?_⟩
        rcases List.mem_append.mp hy with hy | hy
        · exact hnone y hy
        · rw [List.mem_singleton.mp hy]
          exact hx
      · have hlt := (List.getElem?_eq_some_iff.mp hz).1
        refine .inr ⟨q, z, hq, by rw [List.getElem?_append_left hlt, hz], hholds, fun i y hy hyt => ?_⟩
        by_cases hi : i < l.length
        · rw [List.getElem?_append_left hi] at hy
          exact hlast i y hy hyt
        · rw [List.getElem?_append_right (by omega)] at hy
          obtain rfl := List.mem_singleton.mp (List.mem_of_getElem? hy)
          exact absurd hyt hx

/-- The operators around a later time are what is left of those around an earlier one. -/
theorem dropWhile_around {dead : ℕ → Bool} (hroot : dead 0 = false)
    (hdead : ∀ k x, l[k]? = some x → dead (k + 1) = decide (x.endNs < t')) (hnest : l.Pairwise TorchOp.Nests)
    (hts : ∀ x ∈ l, x.ts ≤ t) (hle : t ≤ t') : (around l t).dropWhile dead = around l t' := by
  induction l using List.reverseRecOn with
  | nil => simp [around, hroot]
  | append_singleton l x ih =>
    obtain ⟨hnest, -, hx⟩ := List.pairwise_append.mp hnest
    rw [List.forall_mem_append] at hts
    have hxt := hts.2 x (by simp)
    have ih := ih (fun k y hy => hdead k y (by
      rw [List.getElem?_append_left (List.getElem?_eq_some_iff.mp hy).1, hy])) hnest hts.1
    have hdeadx := hdead l.length x (by simp)
    rw [around_append_singleton, around_append_singleton]
    by_cases hend : x.endNs < t'
    · rw [if_neg (show ¬ x.Holds t' from fun h => absurd h.2 (by omega))]
      split_ifs
      · rw [List.dropWhile_cons_of_pos (by simpa [hdeadx] using hend), ih]
      · exact ih
    · rw [if_pos (show x.Holds t from ⟨hxt, by omega⟩), if_pos (show x.Holds t' from ⟨by omega, by omega⟩),
        List.dropWhile_cons_of_neg (by simpa [hdeadx] using hend)]
      -- The operators around the last one reach as far as it does.
      congr 1
      apply around_congr
      intro y hy
      have hyx : x.ts ≤ y.endNs → x.endNs ≤ y.endNs := hx y hy x (by simp)
      have hyt := hts.1 y hy
      constructor
      · exact fun h => ⟨by omega, by have := h.2; omega⟩
      · exact fun h => ⟨hyt, by have := h.2; omega⟩

/-! ### The nodes after a round -/

/-- What an update of some nodes leaves as it is. -/
theorem map_foldl_modify {γ : Type*} {g : Node → γ} {f : Node → Node} (hg : ∀ node, g (f node) = g node)
    (nodes : List ℕ) (allNodeList : List Node) :
    (nodes.foldl (fun allNodeList node => allNodeList.modify node f) allNodeList).map g = allNodeList.map g := by
  induction nodes generalizing allNodeList with
  | nil => rfl
  | cons node nodes ih =>
    rw [List.foldl_cons, ih]
    apply List.ext_getElem?
    intro i
    rw [List.getElem?_map, List.getElem?_map, List.getElem?_modify]
    split_ifs
    · cases allNodeList[i]? <;> simp [hg]
    · simp

theorem map_modify {γ : Type*} {g : Node → γ} {f : Node → Node} (hg : ∀ node, g (f node) = g node) (node : ℕ)
    (allNodeList : List Node) : (allNodeList.modify node f).map g = allNodeList.map g :=
  map_foldl_modify hg [node] allNodeList

theorem updateCorrIdTotal_parentNode (corrId : ℤ) (node : Node) :
    (node.updateCorrIdTotal corrId).parentNode = node.parentNode := by
  rw [Node.updateCorrIdTotal]
  split_ifs <;> rfl

theorem updateCorrIdTotal_event (corrId : ℤ) (node : Node) :
    (node.updateCorrIdTotal corrId).event = node.event := by
  rw [Node.updateCorrIdTotal]
  split_ifs <;> rfl

theorem updateCorrIdTotal_corrIdSelf (corrId : ℤ) (node : Node) :
    (node.updateCorrIdTotal corrId).corrIdSelf = node.corrIdSelf := by
  rw [Node.updateCorrIdTotal]
  split_ifs <;> rfl

section Next

variable (s : State) (op : TorchOp) (enqueue : Enqueue)

/-- The node that the event of a round belongs to. -/
def State.current (s : State) (t : ℤ) : ℕ :=
  (s.lastNode.dropWhile (ended s.allNodeList t)).headD 0

theorem map_event_next_torchOp :
    (s.next (.torchOp op)).allNodeList.map Node.event = s.allNodeList.map Node.event ++ [some op] := by
  show List.map Node.event (_ ++ [_]) = _
  rw [List.map_append, map_modify (f := Node.addChildNode _) fun _ => rfl]
  rfl

theorem map_event_next_enqueue :
    (s.next (.enqueue enqueue)).allNodeList.map Node.event = s.allNodeList.map Node.event := by
  show List.map Node.event (updateCorrId _ _ _) = _
  rw [updateCorrId, map_foldl_modify (updateCorrIdTotal_event _),
    map_modify (f := Node.updateCorrIdSelf _) fun _ => rfl]

theorem map_parentNode_next_torchOp :
    (s.next (.torchOp op)).allNodeList.map Node.parentNode =
      s.allNodeList.map Node.parentNode ++ [some (s.current op.ts)] := by
  show List.map Node.parentNode (_ ++ [_]) = _
  rw [List.map_append, map_modify (f := Node.addChildNode _) fun _ => rfl]
  rfl

theorem map_parentNode_next_enqueue :
    (s.next (.enqueue enqueue)).allNodeList.map Node.parentNode = s.allNodeList.map Node.parentNode := by
  show List.map Node.parentNode (updateCorrId _ _ _) = _
  rw [updateCorrId, map_foldl_modify (updateCorrIdTotal_parentNode _),
    map_modify (f := Node.updateCorrIdSelf _) fun _ => rfl]

theorem map_corrIdSelf_next_torchOp :
    (s.next (.torchOp op)).allNodeList.map Node.corrIdSelf = s.allNodeList.map Node.corrIdSelf ++ [[]] := by
  show List.map Node.corrIdSelf (_ ++ [_]) = _
  rw [List.map_append, map_modify (f := Node.addChildNode _) fun _ => rfl]
  rfl

theorem map_corrIdSelf_next_enqueue :
    (s.next (.enqueue enqueue)).allNodeList.map Node.corrIdSelf =
      (s.allNodeList.map Node.corrIdSelf).modify (s.current enqueue.ts) (· ++ [enqueue.corrId]) := by
  show List.map Node.corrIdSelf (updateCorrId _ _ _) = _
  rw [updateCorrId, map_foldl_modify (updateCorrIdTotal_corrIdSelf _)]
  apply List.ext_getElem?
  intro i
  rw [List.getElem?_map, List.getElem?_modify, List.getElem?_modify, List.getElem?_map]
  show Option.map _ ((fun node => if s.current enqueue.ts = i then _ else node) <$> s.allNodeList[i]?) = _
  cases s.allNodeList[i]? with
  | none => rfl
  | some node =>
    by_cases hi : s.current enqueue.ts = i
    · simp [hi, Node.updateCorrIdSelf]
    · simp [hi]

end Next

/-! ### The loop -/

/-- The operators among some events. -/
def torchOps (events : List Event) : List TorchOp :=
  events.filterMap Event.torchOp?

def enqueues (events : List Event) : List Enqueue :=
  events.filterMap Event.enqueue?

variable {events : List Event} {s : State}

theorem torchOps_append (events events' : List Event) :
    torchOps (events ++ events') = torchOps events ++ torchOps events' :=
  List.filterMap_append

theorem enqueues_append (events events' : List Event) :
    enqueues (events ++ events') = enqueues events ++ enqueues events' :=
  List.filterMap_append

/-- The nodes are the root and one for each operator. -/
def HasNodes (events : List Event) (s : State) : Prop :=
  s.allNodeList.map Node.event = none :: (torchOps events).map some

theorem hasNodes_foldl (events : List Event) : HasNodes events (events.foldl State.next {}) := by
  induction events using List.reverseRecOn with
  | nil => rfl
  | append_singleton events event ih =>
    rw [HasNodes] at ih ⊢
    rw [List.foldl_append, torchOps_append, List.map_append, ← List.cons_append, ← ih]
    cases event with
    | torchOp op => exact map_event_next_torchOp _ _
    | enqueue enqueue =>
      rw [← List.append_nil (List.map _ _)]
      exact congrArg (· ++ []) (map_event_next_enqueue _ _)

theorem HasNodes.length (h : HasNodes events s) : s.allNodeList.length = (torchOps events).length + 1 := by
  simpa using congrArg List.length h

theorem HasNodes.ended_zero (h : HasNodes events s) (t : ℤ) : ended s.allNodeList t 0 = false := by
  have hroot := congrArg (·[0]?) h
  simp only [List.getElem?_map, List.getElem?_cons_zero] at hroot
  obtain ⟨node, hnode, hevent⟩ := Option.map_eq_some_iff.mp hroot
  rw [ended, hnode, Option.bind_some, hevent]
  rfl

theorem HasNodes.ended_succ (h : HasNodes events s) {k : ℕ} (hk : (torchOps events)[k]? = some x) (t : ℤ) :
    ended s.allNodeList t (k + 1) = decide (x.endNs < t) := by
  have hnode := congrArg (·[k + 1]?) h
  simp only [List.getElem?_map, List.getElem?_cons_succ, hk] at hnode
  obtain ⟨node, hnode, hevent⟩ := Option.map_eq_some_iff.mp hnode
  rw [ended, hnode, Option.bind_some, hevent]
  rfl

/-- The events are in the order of their times, and an operator comes before the enqueues of its start. -/
def InOrder (events : List Event) : Prop :=
  events.Pairwise fun x y => x.ts ≤ y.ts ∧ (y.ts ≤ x.ts → x.torchOp? = none → y.torchOp? = none)

theorem ts_le_of_inOrder {event : Event} (h : InOrder (events ++ [event])) : ∀ x ∈ events, x.ts ≤ event.ts :=
  fun x hx => ((List.pairwise_append.mp h).2.2 x hx event (by simp)).1

theorem mem_torchOps : x ∈ torchOps events ↔ Event.torchOp x ∈ events := by
  constructor
  · intro h
    obtain ⟨event, hevent, hx⟩ := List.mem_filterMap.mp h
    cases event with
    | torchOp op => rwa [← Option.some.inj hx]
    | enqueue enqueue => exact absurd hx (by simp [Event.torchOp?])
  · exact fun h => List.mem_filterMap.mpr ⟨_, h, rfl⟩

theorem mem_enqueues {enqueue : Enqueue} : enqueue ∈ enqueues events ↔ Event.enqueue enqueue ∈ events := by
  constructor
  · intro h
    obtain ⟨event, hevent, hx⟩ := List.mem_filterMap.mp h
    cases event with
    | torchOp op => exact absurd hx (by simp [Event.enqueue?])
    | enqueue enqueue => rwa [← Option.some.inj hx]
  · exact fun h => List.mem_filterMap.mpr ⟨_, h, rfl⟩

/-- What `last_node` and the nodes hold after some events. -/
structure Tracks (events : List Event) (s : State) : Prop where
  lastNode : ∀ t, (∀ event ∈ events, event.ts ≤ t) →
    s.lastNode.dropWhile (ended s.allNodeList t) = around (torchOps events) t
  parentNode : ∀ k y, (torchOps events)[k]? = some y →
    (s.allNodeList.map Node.parentNode)[k + 1]? = some (some (lastAround ((torchOps events).take k) y.ts))
  corrIdSelf : ∀ k < (torchOps events).length,
    (s.allNodeList.map Node.corrIdSelf)[k + 1]? =
      some (((enqueues events).filter fun e => lastAround (torchOps events) e.ts = k + 1).map Enqueue.corrId)

theorem Tracks.current_eq (h : Tracks events s) {t : ℤ} (ht : ∀ event ∈ events, event.ts ≤ t) :
    s.current t = lastAround (torchOps events) t := by
  rw [State.current, h.lastNode t ht]
  rfl

theorem Tracks.next_torchOp {op : TorchOp} (h : Tracks events s) (hnodes : HasNodes events s)
    (hnodes' : HasNodes (events ++ [Event.torchOp op]) (s.next (.torchOp op)))
    (horder : InOrder (events ++ [Event.torchOp op]))
    (hnest : (torchOps (events ++ [Event.torchOp op])).Pairwise TorchOp.Nests) :
    Tracks (events ++ [Event.torchOp op]) (s.next (.torchOp op)) := by
  have hts : ∀ event ∈ events, event.ts ≤ op.ts := ts_le_of_inOrder horder
  have hops : torchOps (events ++ [Event.torchOp op]) = torchOps events ++ [op] := torchOps_append _ _
  have henqueues : enqueues (events ++ [Event.torchOp op]) = enqueues events := by
    rw [enqueues_append]
    exact List.append_nil _
  have hheld : op.Holds op.ts := ⟨le_rfl, op.ts_le_endNs⟩
  have hlength := hnodes.length
  refine ⟨fun t ht => ?_, fun k y hy => ?_, fun k hk => ?_⟩
  · have hpath : (s.next (.torchOp op)).lastNode = around (torchOps (events ++ [Event.torchOp op])) op.ts := by
      rw [hops, around_append_singleton, if_pos hheld, ← h.lastNode op.ts hts, ← hlength]
      rfl
    rw [hpath]
    apply dropWhile_around (hnodes'.ended_zero t) (fun k x hk => hnodes'.ended_succ hk t) hnest
    · intro x hx
      rw [hops] at hx
      rcases List.mem_append.mp hx with hx | hx
      · exact hts _ (mem_torchOps.mp hx)
      · rw [List.mem_singleton.mp hx]
    · exact ht (.torchOp op) (by simp)
  · rw [map_parentNode_next_torchOp, h.current_eq hts]
    rw [hops] at hy ⊢
    by_cases hk : k < (torchOps events).length
    · rw [List.getElem?_append_left hk] at hy
      rw [List.getElem?_append_left (by simpa [hlength] using hk), h.parentNode k y hy,
        List.take_append_of_le_length hk.le]
    · -- The node of the round itself.
      have hk' := (List.getElem?_eq_some_iff.mp hy).1
      rw [List.length_append, List.length_singleton] at hk'
      obtain rfl : k = (torchOps events).length := by omega
      obtain rfl : op = y := by simpa using hy
      rw [List.getElem?_append_right (by simp [hlength])]
      simp [hlength]
  · rw [map_corrIdSelf_next_torchOp, hops, henqueues]
    rw [hops, List.length_append, List.length_singleton] at hk
    have hlater : ∀ e ∈ enqueues events, ¬ op.Holds e.ts := by
      intro e he hholds
      have := ((List.pairwise_append.mp horder).2.2 _ (mem_enqueues.mp he) (.torchOp op) (by simp)).2
      exact absurd (this hholds.1 rfl) (by simp [Event.torchOp?])
    have hsame : (enqueues events).filter (fun e => lastAround (torchOps events ++ [op]) e.ts = k + 1) =
        (enqueues events).filter fun e => lastAround (torchOps events) e.ts = k + 1 := by
      apply List.filter_congr
      intro e he
      rw [lastAround_append_singleton, if_neg (hlater e he)]
    rw [hsame]
    by_cases hk' : k < (torchOps events).length
    · rw [List.getElem?_append_left (by simpa [hlength] using hk'), h.corrIdSelf k hk']
    · obtain rfl : k = (torchOps events).length := by omega
      have hnone : (enqueues events).filter
          (fun e => lastAround (torchOps events) e.ts = (torchOps events).length + 1) = [] := by
        rw [List.filter_eq_nil_iff]
        intro e _
        have := lastAround_le (l := torchOps events) (t := e.ts)
        simp
        omega
      rw [List.getElem?_append_right (by simp [hlength]), hnone]
      simp [hlength]

theorem Tracks.next_enqueue {enqueue : Enqueue} (h : Tracks events s)
    (hnodes' : HasNodes (events ++ [Event.enqueue enqueue]) (s.next (.enqueue enqueue)))
    (horder : InOrder (events ++ [Event.enqueue enqueue]))
    (hnest : (torchOps (events ++ [Event.enqueue enqueue])).Pairwise TorchOp.Nests) :
    Tracks (events ++ [Event.enqueue enqueue]) (s.next (.enqueue enqueue)) := by
  have hts : ∀ event ∈ events, event.ts ≤ enqueue.ts := ts_le_of_inOrder horder
  have hops : torchOps (events ++ [Event.enqueue enqueue]) = torchOps events := by
    rw [torchOps_append]
    exact List.append_nil _
  have henqueues : enqueues (events ++ [Event.enqueue enqueue]) = enqueues events ++ [enqueue] := enqueues_append _ _
  refine ⟨fun t ht => ?_, fun k y hy => ?_, fun k hk => ?_⟩
  · have hpath : (s.next (.enqueue enqueue)).lastNode =
        around (torchOps (events ++ [Event.enqueue enqueue])) enqueue.ts := by
      rw [hops, ← h.lastNode enqueue.ts hts]
      rfl
    rw [hpath]
    apply dropWhile_around (hnodes'.ended_zero t) (fun k x hk => hnodes'.ended_succ hk t) hnest
    · intro x hx
      rw [hops] at hx
      exact hts _ (mem_torchOps.mp hx)
    · exact ht (.enqueue enqueue) (by simp)
  · rw [hops] at hy ⊢
    rw [map_parentNode_next_enqueue, h.parentNode k y hy]
  · rw [hops] at hk ⊢
    rw [map_corrIdSelf_next_enqueue, h.current_eq hts, henqueues, List.getElem?_modify, h.corrIdSelf k hk,
      List.filter_append, List.map_append]
    by_cases hlast : lastAround (torchOps events) enqueue.ts = k + 1
    · simp [hlast]
    · simp [hlast]

/-- As long as the operators are nested. -/
theorem tracks_foldl (horder : InOrder events) (hnest : (torchOps events).Pairwise TorchOp.Nests) :
    Tracks events (events.foldl State.next {}) := by
  induction events using List.reverseRecOn with
  | nil => exact ⟨fun t _ => by simp [ended, around, torchOps], by simp [torchOps], by simp [torchOps]⟩
  | append_singleton events event ih =>
    have hnodes := hasNodes_foldl events
    have hnodes' := hasNodes_foldl (events ++ [event])
    rw [List.foldl_append, List.foldl_cons, List.foldl_nil] at hnodes' ⊢
    have hshorter : (torchOps events).Pairwise TorchOp.Nests := by
      rw [torchOps_append] at hnest
      exact (List.pairwise_append.mp hnest).1
    have ih := ih (List.pairwise_append.mp horder).1 hshorter
    cases event with
    | torchOp op => exact ih.next_torchOp hnodes hnodes' horder hnest
    | enqueue enqueue => exact ih.next_enqueue hnodes' horder hnest

/-- Where every operator lies within its parent, the operators are nested: whatever has not ended is on the way
from `last_node` to the root. -/
theorem pairwise_nests_of_inside (horder : InOrder events)
    (hinside : ∀ (k p : ℕ) (x y : TorchOp), (torchOps events)[k]? = some y → (torchOps events)[p]? = some x →
      ((events.foldl State.next {}).allNodeList.map Node.parentNode)[k + 1]? = some (some (p + 1)) →
      y.endNs ≤ x.endNs) :
    (torchOps events).Pairwise TorchOp.Nests := by
  induction events using List.reverseRecOn with
  | nil => exact List.Pairwise.nil
  | append_singleton events event ih =>
    have hnodes := hasNodes_foldl events
    have hlength := hnodes.length
    rw [List.foldl_append, List.foldl_cons, List.foldl_nil] at hinside
    set s := events.foldl State.next {} with hs
    have horder' := (List.pairwise_append.mp horder).1
    cases event with
    | enqueue enqueue =>
      have hops : torchOps (events ++ [Event.enqueue enqueue]) = torchOps events := by
        rw [torchOps_append]
        exact List.append_nil _
      rw [hops] at hinside ⊢
      rw [map_parentNode_next_enqueue] at hinside
      exact ih horder' hinside
    | torchOp op =>
      have hts : ∀ event ∈ events, event.ts ≤ op.ts := ts_le_of_inOrder horder
      have hops : torchOps (events ++ [Event.torchOp op]) = torchOps events ++ [op] := torchOps_append _ _
      rw [hops] at hinside ⊢
      rw [map_parentNode_next_torchOp] at hinside
      have hnest : (torchOps events).Pairwise TorchOp.Nests := by
        refine ih horder' fun k p x y hy hx hparent => hinside k p x y ?_ ?_ ?_
        · rw [List.getElem?_append_left (List.getElem?_eq_some_iff.mp hy).1, hy]
        · rw [List.getElem?_append_left (List.getElem?_eq_some_iff.mp hx).1, hx]
        · rw [List.getElem?_append_left (List.getElem?_eq_some_iff.mp hparent).1, hparent]
      refine List.pairwise_append.mpr ⟨hnest, List.pairwise_singleton _ _, fun x hx y hy hle => ?_⟩
      rw [List.mem_singleton.mp hy] at hle ⊢
      have hholds : x.Holds op.ts := ⟨hts _ (mem_torchOps.mp hx), hle⟩
      rcases lastAround_spec (torchOps events) op.ts with ⟨-, hnone⟩ | ⟨q, z, hq, hz, hzt, hlast⟩
      · exact absurd hholds (hnone x hx)
      · -- The parent is the last operator around the start, and lies within the others.
        have hqlt := (List.getElem?_eq_some_iff.mp hz).1
        have hparent := hinside (torchOps events).length q z op (by simp)
          (by rw [List.getElem?_append_left hqlt, hz])
          (by
            rw [List.getElem?_append_right (by simp [hlength]),
              (tracks_foldl horder' hnest).current_eq hts, hq]
            simp [hlength])
        obtain ⟨i, hi⟩ := List.getElem?_of_mem hx
        rcases (hlast i x hi hholds).lt_or_eq with hlt | rfl
        · have hxz : x.Nests z := by
            have := List.pairwise_iff_getElem.mp hnest i q (List.getElem?_eq_some_iff.mp hi).1 hqlt hlt
            rwa [(List.getElem?_eq_some_iff.mp hi).2, (List.getElem?_eq_some_iff.mp hz).2] at this
          exact hparent.trans (hxz (hzt.1.trans hle))
        · obtain rfl := Option.some.inj (hi.symm.trans hz)
          exact hparent

/-! ### The tree of the intervals -/

/-- The operator contains the other one; of two with the same interval the first contains the second. -/
def Encloses (x y : TorchOp × ℕ) : Prop :=
  x.1.Contains y.1 ∧ x ≠ y ∧ (y.1.Contains x.1 → x.2 < y.2)

instance (x y : TorchOp × ℕ) : Decidable (Encloses x y) :=
  inferInstanceAs (Decidable (x.1.Contains y.1 ∧ x ≠ y ∧ (y.1.Contains x.1 → x.2 < y.2)))

/-- The innermost of the operators that hold the time. -/
def Innermost (l : List TorchOp) (t : ℤ) (x : TorchOp × ℕ) : Prop :=
  x.1.Holds t ∧ ∀ z ∈ l.zipIdx, z.1.Holds t → z = x ∨ Encloses z x

instance (l : List TorchOp) (t : ℤ) (x : TorchOp × ℕ) : Decidable (Innermost l t x) :=
  inferInstanceAs (Decidable (x.1.Holds t ∧ ∀ z ∈ l.zipIdx, z.1.Holds t → z = x ∨ Encloses z x))

/-- The node is that of the smallest operator around another one, or the root if there is none. -/
def IsParent (l : List TorchOp) (y : TorchOp × ℕ) : Option ℕ → Prop
  | none => False
  | some 0 => ∀ x ∈ l.zipIdx, ¬ Encloses x y
  | some (p + 1) =>
    ∃ x ∈ l.zipIdx, x.2 = p ∧ Encloses x y ∧ ∀ z ∈ l.zipIdx, Encloses z y → z = x ∨ Encloses z x

/-- The operators in the order of their nodes. -/
def nodeOps (eventList : List TorchOp) : List TorchOp :=
  eventList.insertionSort fun x y => x.ts ≤ y.ts

/-- The nodes are those of the operators below the root, each below the smallest operator around it, with the
enqueues in it that are in no smaller one. -/
structure IsOpTree (eventList : List TorchOp) (enqueueList : List Enqueue) (nodes : List Node) : Prop where
  event : nodes.map Node.event = none :: (nodeOps eventList).map some
  parentNode : ∀ y ∈ (nodeOps eventList).zipIdx, ∀ node ∈ nodes[y.2 + 1]?,
    IsParent (nodeOps eventList) y node.parentNode
  corrIdSelf : ∀ x ∈ (nodeOps eventList).zipIdx, ∀ node ∈ nodes[x.2 + 1]?,
    node.corrIdSelf = ((enqueueList.insertionSort fun x y => x.ts ≤ y.ts).filter
      fun e => Innermost (nodeOps eventList) e.ts x).map Enqueue.corrId

section Nested

variable (hsorted : l.Pairwise fun x y => x.ts ≤ y.ts) (hnest : l.Pairwise TorchOp.Nests)
include hsorted hnest

theorem encloses_iff {i j : ℕ} (hi : l[i]? = some x) (hj : l[j]? = some y) :
    Encloses (x, i) (y, j) ↔ i < j ∧ y.ts ≤ x.endNs := by
  obtain ⟨hilt, rfl⟩ := List.getElem?_eq_some_iff.mp hi
  obtain ⟨hjlt, rfl⟩ := List.getElem?_eq_some_iff.mp hj
  constructor
  · intro ⟨hcontains, hne, hsame⟩
    refine ⟨?_, l[j].ts_le_endNs.trans hcontains.2⟩
    by_contra hij
    rcases (not_lt.mp hij).lt_or_eq with hlt | rfl
    · -- A later operator around an earlier one has the same interval.
      have hts := List.pairwise_iff_getElem.mp hsorted j i hjlt hilt hlt
      have hends := List.pairwise_iff_getElem.mp hnest j i hjlt hilt hlt
        (hcontains.1.trans l[j].ts_le_endNs)
      exact hij (hsame ⟨hts, hends⟩)
    · exact hne rfl
  · intro ⟨hlt, hle⟩
    have hts := List.pairwise_iff_getElem.mp hsorted i j hilt hjlt hlt
    have hends := List.pairwise_iff_getElem.mp hnest i j hilt hjlt hlt hle
    exact ⟨⟨hts, hends⟩, fun h => hlt.ne (congrArg Prod.snd h), fun _ => hlt⟩

theorem innermost_iff {i : ℕ} (hi : l[i]? = some x) : Innermost l t (x, i) ↔ lastAround l t = i + 1 := by
  constructor
  · intro ⟨hx, hall⟩
    rcases lastAround_spec l t with ⟨-, hnone⟩ | ⟨q, z, hq, hz, hzt, hlast⟩
    · exact absurd hx (hnone x (List.mem_of_getElem? hi))
    · rcases hall (z, q) (List.mem_zipIdx_iff_getElem?.mpr hz) hzt with heq | hencloses
      · rw [hq, show q = i from congrArg Prod.snd heq]
      · have := ((encloses_iff hsorted hnest hz hi).mp hencloses).1
        exact absurd (hlast i x hi hx) (by omega)
  · intro hlastAround
    rcases lastAround_spec l t with ⟨hzero, -⟩ | ⟨q, z, hq, hz, hzt, hlast⟩
    · omega
    · obtain rfl : q = i := by omega
      obtain rfl := Option.some.inj (hz.symm.trans hi)
      refine ⟨hzt, fun w hw hwt => ?_⟩
      have hw' := List.mem_zipIdx_iff_getElem?.mp hw
      rcases (hlast _ _ hw' hwt).lt_or_eq with hlt | heq
      · exact .inr ((encloses_iff hsorted hnest hw' hz).mpr ⟨hlt, hzt.1.trans hwt.2⟩)
      · rw [heq] at hw'
        exact .inl (Prod.ext (Option.some.inj (hw'.symm.trans hz)) heq)

theorem isParent_lastAround {k : ℕ} (hk : l[k]? = some y) :
    IsParent l (y, k) (some (lastAround (l.take k) y.ts)) := by
  have hklt := (List.getElem?_eq_some_iff.mp hk).1
  -- What encloses the operator comes before it and is around its start.
  have hbefore : ∀ z ∈ l.zipIdx, Encloses z (y, k) → (l.take k)[z.2]? = some z.1 ∧ z.1.Holds y.ts := by
    intro z hz hencloses
    have hz' := List.mem_zipIdx_iff_getElem?.mp hz
    obtain ⟨hlt, hle⟩ := (encloses_iff hsorted hnest hz' hk).mp hencloses
    exact ⟨by rw [List.getElem?_take_of_lt hlt, hz'], hencloses.1.1, hle⟩
  rcases lastAround_spec (l.take k) y.ts with ⟨hzero, hnone⟩ | ⟨q, x, hq, hx, hxt, hlast⟩
  · rw [hzero]
    intro z hz hencloses
    obtain ⟨hz', hholds⟩ := hbefore z hz hencloses
    exact hnone z.1 (List.mem_of_getElem? hz') hholds
  · rw [hq]
    have hqlt : q < k := by
      have := (List.getElem?_eq_some_iff.mp hx).1
      rw [List.length_take] at this
      omega
    rw [List.getElem?_take_of_lt hqlt] at hx
    refine ⟨(x, q), List.mem_zipIdx_iff_getElem?.mpr hx, rfl,
      (encloses_iff hsorted hnest hx hk).mpr ⟨hqlt, hxt.2⟩, fun z hz hencloses => ?_⟩
    obtain ⟨hz', hholds⟩ := hbefore z hz hencloses
    have hz := List.mem_zipIdx_iff_getElem?.mp hz
    rcases (hlast _ _ hz' hholds).lt_or_eq with hlt | heq
    · exact .inr ((encloses_iff hsorted hnest hz hx).mpr ⟨hlt, hxt.1.trans hholds.2⟩)
    · rw [heq] at hz
      exact .inl (Prod.ext (Option.some.inj (hz.symm.trans hx)) heq)

end Nested

/-! ### `build_tree` -/

variable (eventList : List TorchOp) (enqueueList : List Enqueue)

theorem inOrder_sortedEvents : InOrder (sortedEvents eventList enqueueList) := by
  apply SortByKey.pairwise_insertionSort_stable Event.ts
  refine List.pairwise_append.mpr ⟨?_, ?_, ?_⟩
  · exact List.pairwise_map.mpr (List.pairwise_of_forall fun x y h => absurd h (by simp [Event.torchOp?]))
  · exact List.pairwise_map.mpr (List.pairwise_of_forall fun x y _ => rfl)
  · intro x _ y hy _
    obtain ⟨e, -, rfl⟩ := List.mem_map.mp hy
    rfl

theorem torchOps_sortedEvents : torchOps (sortedEvents eventList enqueueList) = nodeOps eventList := by
  have hkey : ∀ (event : Event) (op : TorchOp), event.torchOp? = some op → op.ts = event.ts := by
    intro event op h
    cases event with
    | torchOp op' => rw [← Option.some.inj h]; rfl
    | enqueue e => exact absurd h (by simp [Event.torchOp?])
  rw [torchOps, sortedEvents, SortByKey.filterMap_insertionSort_on Event.ts hkey, List.filterMap_append]
  simp [List.filterMap_map, Function.comp_def, Event.torchOp?, nodeOps]

theorem enqueues_sortedEvents :
    enqueues (sortedEvents eventList enqueueList) = enqueueList.insertionSort fun x y => x.ts ≤ y.ts := by
  have hkey : ∀ (event : Event) (e : Enqueue), event.enqueue? = some e → e.ts = event.ts := by
    intro event e h
    cases event with
    | torchOp op => exact absurd h (by simp [Event.enqueue?])
    | enqueue e' => rw [← Option.some.inj h]; rfl
  rw [enqueues, sortedEvents, SortByKey.filterMap_insertionSort_on Event.ts hkey, List.filterMap_append]
  simp [List.filterMap_map, Function.comp_def, Event.enqueue?]

theorem isOpTree_buildTree (hnest : (nodeOps eventList).Pairwise TorchOp.Nests) :
    IsOpTree eventList enqueueList (buildTree eventList enqueueList) := by
  have hops := torchOps_sortedEvents eventList enqueueList
  have hsorted : (nodeOps eventList).Pairwise fun x y => x.ts ≤ y.ts :=
    SortByKey.pairwise_insertionSort_on TorchOp.ts eventList
  have htracks := tracks_foldl (inOrder_sortedEvents eventList enqueueList) (by rwa [hops])
  refine ⟨?_, fun y hy node hnode => ?_, fun x hx node hnode => ?_⟩
  · rw [← hops]
    exact hasNodes_foldl _
  · have hk := List.mem_zipIdx_iff_getElem?.mp hy
    have hparent := htracks.parentNode y.2 y.1 (by rwa [hops])
    rw [hops, List.getElem?_map] at hparent
    obtain ⟨node', hnode', hparent⟩ := Option.map_eq_some_iff.mp hparent
    obtain rfl := Option.some.inj (hnode'.symm.trans hnode)
    rw [hparent]
    exact isParent_lastAround hsorted hnest hk
  · have hk := List.mem_zipIdx_iff_getElem?.mp hx
    have hself := htracks.corrIdSelf x.2 (by rw [hops]; exact (List.getElem?_eq_some_iff.mp hk).1)
    rw [hops, enqueues_sortedEvents, List.getElem?_map] at hself
    obtain ⟨node', hnode', hself⟩ := Option.map_eq_some_iff.mp hself
    obtain rfl := Option.some.inj (hnode'.symm.trans hnode)
    rw [hself]
    congr 1
    apply List.filter_congr
    intro e _
    rw [decide_eq_decide]
    exact (innermost_iff hsorted hnest hk).symm

theorem nests_of_isOpTree {eventList : List TorchOp} {enqueueList : List Enqueue}
    (h : IsOpTree eventList enqueueList (buildTree eventList enqueueList)) :
    (nodeOps eventList).Pairwise TorchOp.Nests := by
  have hops := torchOps_sortedEvents eventList enqueueList
  rw [← hops]
  apply pairwise_nests_of_inside (inOrder_sortedEvents eventList enqueueList)
  intro k p x y hy hx hparent
  rw [hops] at hx hy
  rw [List.getElem?_map] at hparent
  obtain ⟨node, hnode, hparent⟩ := Option.map_eq_some_iff.mp hparent
  have hisParent := h.parentNode (y, k) (List.mem_zipIdx_iff_getElem?.mpr hy) node hnode
  rw [hparent] at hisParent
  obtain ⟨z, hz, rfl, hencloses, -⟩ := hisParent
  obtain rfl := Option.some.inj ((List.mem_zipIdx_iff_getElem?.mp hz).symm.trans hx)
  exact hencloses.1.2

/-- The tree is that of the intervals exactly when no operator starts before or at the end of one that is
before it in the order of the starts and ends after it. -/
theorem buildTree_isOpTree_iff_nests :
    IsOpTree eventList enqueueList (buildTree eventList enqueueList) ↔
      (nodeOps eventList).Pairwise TorchOp.Nests :=
  ⟨nests_of_isOpTree, isOpTree_buildTree eventList enqueueList⟩

/-- Any two intervals are nested, or have at most an end in common. -/
def Laminar (eventList : List TorchOp) : Prop :=
  eventList.Pairwise fun x y => x.Contains y ∨ y.Contains x ∨ x.endNs ≤ y.ts ∨ y.endNs ≤ x.ts

instance : Decidable (Laminar eventList) :=
  inferInstanceAs (Decidable (eventList.Pairwise _))

/-- The second operator starts when the first one ends, and becomes its child. -/
theorem not_isOpTree_touching :
    ¬ ∀ (eventList : List TorchOp) (enqueueList : List Enqueue),
      Laminar eventList → IsOpTree eventList enqueueList (buildTree eventList enqueueList) := by
  intro h
  have := nests_of_isOpTree (h [⟨0, 5, by decide⟩, ⟨5, 10, by decide⟩] [] (by decide))
  exact absurd this (by decide)

end TorchNpu.Profiler.TreeBuilder
