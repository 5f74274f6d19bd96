/-
  Moving what a legacy checkpoint holds to `map_location` (`utils/serialization.py`).

  Objects are places of a heap, so that one object can be part of many, and of itself.  Lists and dicts are changed in
  place, tuples and sets are built anew.  A call that goes deeper than the recursion limit raises an error.
-/
import TorchNpu.Lib.Paths
import TorchNpu.Lib.Wp

namespace TorchNpu.Utils.Serialization

abbrev Ref :=
  ℕ

/-- The objects that `_remap_result` tells apart.

`V` is what it does not look into: the content of a tensor, a class of named tuples, a key, any other value.  The empty
tuple is one object in Python, which `tuple([])` gives back. -/
inductive Obj (V L : Type)
  | tensor (content : V) (location : L)
  | tuple (cls : Option V) (first : Ref) (rest : List Ref)
  | emptyTuple
  | set (elems : List Ref)
  | list (elems : List Ref)
  | dict (items : List (V × Ref))
  | other (value : V)

abbrev Heap (V L : Type) :=
  List (Obj V L)

variable {V L : Type}

namespace Obj

def parts : Obj V L → List Ref
  | tuple _ first rest => first :: rest
  | set elems => elems
  | list elems => elems
  | dict items => items.map Prod.snd
  | _ => []

/-- The assignment to the `i`-th element of a list, or to the `i`-th key of a dict. -/
def assign (i : ℕ) (y : Ref) : Obj V L → Obj V L
  | list elems => list (elems.set i y)
  | dict items => dict (items.modify i fun item => (item.1, y))
  | o => o

/-- `tuple(new_list)` -/
def tupleOf : List Ref → Obj V L
  | [] => emptyTuple
  | first :: rest => tuple none first rest

end Obj

/-- The parts of an object of the heap. -/
def Heap.parts (heap : Heap V L) (x : Ref) : List Ref :=
  (heap[x]?.map Obj.parts).getD []

/-- What may raise `RecursionError`. -/
abbrev Call (V L α : Type) :=
  EStateM Unit (Heap V L) α

def alloc (o : Obj V L) : Call V L Ref := do
  let heap ← get
  set (heap ++ [o])
  pure heap.length

/-- `val.to(map_location)` -/
def toLocation [DecidableEq L] (mapLocation : L) (x : Ref) (content : V) (location : L) : Call V L Ref :=
  if location = mapLocation then pure x else alloc (.tensor content mapLocation)

/-- The loop of `traverse_dict` and `traverse_list` from an index on. -/
def traverseItems (visit : Ref → Call V L Ref) (x : Ref) : List ℕ → Call V L Unit
  | [] => pure ()
  | i :: indices => do
    let heap ← get
    match (heap.parts x)[i]? with
    | none => pure ()
    | some val => do
      let val' ← visit val
      modify fun heap => heap.modify x (Obj.assign i val')
      traverseItems visit x indices

/-- The loop of `traverse_tuple` and `traverse_set`. -/
def newList (visit : Ref → Call V L Ref) : List Ref → Call V L (List Ref)
  | [] => pure []
  | val :: vals => do
    let val' ← visit val
    let vals' ← newList visit vals
    pure (val' :: vals')

def traverseDict (visit : Ref → Call V L Ref) (x : Ref) (items : List (V × Ref)) : Call V L Ref := do
  traverseItems visit x (List.range items.length)
  pure x

def traverseList (visit : Ref → Call V L Ref) (x : Ref) (elems : List Ref) : Call V L Ref := do
  traverseItems visit x (List.range elems.length)
  pure x

def traverseTuple (visit : Ref → Call V L Ref) (first : Ref) (rest : List Ref) : Call V L Ref := do
  let vals ← newList visit (first :: rest)
  alloc (Obj.tupleOf vals)

/-- The values of a set are different, and so are those that they become. -/
def traverseSet (visit : Ref → Call V L Ref) (elems : List Ref) : Call V L Ref := do
  let vals ← newList visit elems
  alloc (.set vals)

/-- `_remap_result`, with a recursion limit. -/
def remapResult [DecidableEq L] (mapLocation : L) : ℕ → Ref → Call V L Ref
  | 0, _ => throw ()
  | limit + 1, x => do
    let heap ← get
    match heap[x]? with
    | some (.tensor content location) => toLocation mapLocation x content location
    | some (.tuple _ first rest) => traverseTuple (remapResult mapLocation limit) first rest
    | some (.set elems) => traverseSet (remapResult mapLocation limit) elems
    | some (.list elems) => traverseList (remapResult mapLocation limit) x elems
    | some (.dict items) => traverseDict (remapResult mapLocation limit) x items
    | _ => pure x

end TorchNpu.Utils.Serialization
