/-
  The tree of the operators of a thread, and the search in it (`TorchOpNode` of `_torch_op_node.py`,
  `update_tree_node_info` and `match_self_torch_op` of `_tree_builder.py`).

  The root has no event and is never matched, so it stands as the list of its children.
-/
import Mathlib.Data.Int.Notation
import Mathlib.Data.List.Basic
import Mathlib.Data.Int.Order.Basic
import Mathlib.Data.List.Sort

namespace TorchNpu.Profiler

inductive TorchOpNode
  | mk (startTime endTime : ℤ) (childList : List TorchOpNode) (corrIdTotal corrIdSelf : List ℤ)

namespace TorchOpNode

def startTime : TorchOpNode → ℤ
  | .mk startTime _ _ _ _ => startTime

def endTime : TorchOpNode → ℤ
  | .mk _ endTime _ _ _ => endTime

def childList : TorchOpNode → List TorchOpNode
  | .mk _ _ childList _ _ => childList

def corrIdTotal : TorchOpNode → List ℤ
  | .mk _ _ _ corrIdTotal _ => corrIdTotal

def corrIdSelf : TorchOpNode → List ℤ
  | .mk _ _ _ _ corrIdSelf => corrIdSelf

/-! ### `match_child_node` -/

/-- The loop.  Each round brings the bounds nearer to each other, so that `rounds` is never used up. -/
def matchLoop (tsTime : ℤ) (childList : List TorchOpNode) : (rounds left right : ℕ) → ℕ
  | 0, left, _ => left
  | rounds + 1, left, right =>
    if left < right then
      let mid := left + (right - left + 1) / 2
      if (childList[mid]?).any fun child => child.startTime ≤ tsTime then
        matchLoop tsTime childList rounds mid right
      else matchLoop tsTime childList rounds left (mid - 1)
    else left

/-- The place of the child that `match_child_node` returns. -/
def matchChildIndex (tsTime : ℤ) (childList : List TorchOpNode) : Option ℕ :=
  match childList with
  | [] => none
  | _ :: _ =>
    let left := matchLoop tsTime childList childList.length 0 (childList.length - 1)
    if (childList[left]?).any fun child => tsTime < child.endTime then some left else none

def matchChildNode (tsTime : ℤ) (childList : List TorchOpNode) : Option TorchOpNode :=
  (matchChildIndex tsTime childList).bind fun left => childList[left]?

/-! ### `TreeBuilder` -/

mutual

/-- What the loop of `update_tree_node_info` does from a node on. -/
def updateNode (ts : ℤ) : TorchOpNode → TorchOpNode
  | .mk startTime endTime childList corrIdTotal corrIdSelf =>
    match matchChildIndex ts childList with
    | some left => .mk startTime endTime (updateAt ts left childList) (corrIdTotal ++ [ts]) corrIdSelf
    | none => .mk startTime endTime childList (corrIdTotal ++ [ts]) (corrIdSelf ++ [ts])

/-- The child at a place is updated. -/
def updateAt (ts : ℤ) : ℕ → List TorchOpNode → List TorchOpNode
  | _, [] => []
  | 0, child :: childList => updateNode ts child :: childList
  | left + 1, child :: childList => child :: updateAt ts left childList

end

/-- `update_tree_node_info` -/
def updateTreeNodeInfo (aclTs : ℤ) (root : List TorchOpNode) : List TorchOpNode :=
  match matchChildIndex aclTs root with
  | some left => updateAt aclTs left root
  | none => root

mutual

/-- What the loop of `match_self_torch_op` returns from a node on. -/
def selfTorchOp (ts : ℤ) : TorchOpNode → TorchOpNode
  | .mk startTime endTime childList corrIdTotal corrIdSelf =>
    match matchChildIndex ts childList with
    | some left => (selfAt ts left childList).getD (.mk startTime endTime childList corrIdTotal corrIdSelf)
    | none => .mk startTime endTime childList corrIdTotal corrIdSelf

def selfAt (ts : ℤ) : ℕ → List TorchOpNode → Option TorchOpNode
  | _, [] => none
  | 0, child :: _ => some (selfTorchOp ts child)
  | left + 1, _ :: childList => selfAt ts left childList

end

/-- `match_self_torch_op` -/
def matchSelfTorchOp (ts : ℤ) (root : List TorchOpNode) : Option TorchOpNode :=
  (matchChildIndex ts root).bind fun left => selfAt ts left root

end TorchOpNode

end TorchNpu.Profiler

/-!
  Building the tree of the operators of a thread (`build_tree` of `_tree_builder.py`, `TorchOpNode` of
  `_torch_op_node.py`).

  A node is its index in `all_node_list`, so that the root is 0.  `last_node` comes with the nodes above it, from
  itself up to the root.  An event that is no operator is an enqueue.
-/

namespace TorchNpu.Profiler.TreeBuilder

/-- The interval of an operator. -/
structure TorchOp where
  ts : ℤ
  endNs : ℤ
  ts_le_endNs : ts ≤ endNs
  deriving DecidableEq

structure Enqueue where
  ts : ℤ
  corrId : ℤ

inductive Event
  | torchOp (op : TorchOp)
  | enqueue (enqueue : Enqueue)

namespace Event

def ts : Event → ℤ
  | .torchOp op => op.ts
  | .enqueue e => e.ts

def torchOp? : Event → Option TorchOp
  | .torchOp op => some op
  | .enqueue _ => none

def enqueue? : Event → Option Enqueue
  | .torchOp _ => none
  | .enqueue e => some e

end Event

/-- `TorchOpNode` -/
structure Node where
  event : Option TorchOp := none
  parentNode : Option ℕ := none
  childList : List ℕ := []
  corrIdTotal : List ℤ := []
  corrIdSelf : List ℤ := []

namespace Node

def addChildNode (childNode : ℕ) (node : Node) : Node :=
  { node with childList := node.childList ++ [childNode] }

def updateCorrIdSelf (corrId : ℤ) (node : Node) : Node :=
  { node with corrIdSelf := node.corrIdSelf ++ [corrId] }

/-- The root, which has no parent, keeps no total. -/
def updateCorrIdTotal (corrId : ℤ) (node : Node) : Node :=
  if node.parentNode.isSome then { node with corrIdTotal := node.corrIdTotal ++ [corrId] } else node

end Node

/-- `update_corr_id` of the first of some nodes, of which each is the parent of the one before. -/
def updateCorrId (corrId : ℤ) (nodes : List ℕ) (allNodeList : List Node) : List Node :=
  nodes.foldl (fun allNodeList node => allNodeList.modify node (Node.updateCorrIdTotal corrId))
    (allNodeList.modify (nodes.headD 0) (Node.updateCorrIdSelf corrId))

/-- The variables of the loop. -/
structure State where
  allNodeList : List Node := [{}]
  /-- `last_node` and the nodes above it -/
  lastNode : List ℕ := [0]

/-- The operator of a node has ended before the time; the root has none. -/
def ended (allNodeList : List Node) (ts : ℤ) (node : ℕ) : Bool :=
  (allNodeList[node]?.bind Node.event).any fun op => op.endNs < ts

/-- A round of the loop. -/
def State.next (s : State) (event : Event) : State :=
  let lastNode := s.lastNode.dropWhile (ended s.allNodeList event.ts)
  match event with
  | .torchOp op =>
    let index := s.allNodeList.length
    { allNodeList := s.allNodeList.modify (lastNode.headD 0) (Node.addChildNode index) ++
        [{ event := some op, parentNode := some (lastNode.headD 0) }]
      lastNode := index :: lastNode }
  | .enqueue enqueue =>
    { allNodeList := updateCorrId enqueue.corrId lastNode s.allNodeList, lastNode }

/-- The events as the loop goes through them. -/
def sortedEvents (eventList : List TorchOp) (enqueueList : List Enqueue) : List Event :=
  (eventList.map Event.torchOp ++ enqueueList.map Event.enqueue).insertionSort fun x y => x.ts ≤ y.ts

/-- `build_tree` -/
def buildTree (eventList : List TorchOp) (enqueueList : List Enqueue) : List Node :=
  ((sortedEvents eventList enqueueList).foldl State.next {}).allNodeList

end TorchNpu.Profiler.TreeBuilder
