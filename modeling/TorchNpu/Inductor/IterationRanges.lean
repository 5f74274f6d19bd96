/-
  How the iteration ranges of a kernel are split into the sizes of a node (`_split_iteration_ranges` and
  `is_compatible` of `_inductor/codegen/triton.py`).

  The sizes are numbers, for which `simplify` and `size_hint` do nothing, `statically_known_multiple_of` is
  divisibility and `FloorDiv` is the division.
-/
import Mathlib.Algebra.BigOperators.Group.List.Basic

namespace TorchNpu.Inductor

inductive SplitError
  | cantSplit
  | indexError
  /-- The `RuntimeError` for what remains in the end. -/
  | remains
  deriving DecidableEq

/-- The functions that are appended to `return_getters`. -/
inductive Getter
  | zero
  | item (index : ℕ)
  | combined (strides indexList : List ℕ)
  deriving DecidableEq

/-- `flat_vars[index]` -/
def getItem (flatVars : List ℕ) (index : ℕ) : Except SplitError ℕ :=
  match flatVars[index]? with
  | some value => .ok value
  | none => .error .indexError

/-- The loop of the getter of `make_combined`. -/
def combine (flatVars : List ℕ) : (expr : ℕ) → (strides indexList : List ℕ) → Except SplitError ℕ
  | expr, stride :: strides, index :: indexList => do
    let value ← getItem flatVars index
    combine flatVars (stride * value + expr) strides indexList
  | expr, _, _ => .ok expr

def Getter.apply (flatVars : List ℕ) : Getter → Except SplitError ℕ
  | .zero => .ok 0
  | .item index => getItem flatVars index
  | .combined strides indexList => combine flatVars 0 strides indexList

structure SplitState where
  newRanges : List (List ℕ)
  remaining : List ℕ
  /-- The next number of `var_count`. -/
  varCount : ℕ
  currentGroup : ℕ

/-- `remaining[i]` -/
def getRemaining (s : SplitState) (i : ℕ) : Except SplitError ℕ :=
  match s.remaining[i]? with
  | some size => .ok size
  | none => .error .indexError

def addRange (s : SplitState) (i expr : ℕ) : Except SplitError (ℕ × SplitState) := do
  let size ← getRemaining s i
  if expr ∣ size then
    return (s.varCount,
      { s with
        remaining := s.remaining.set i (size / expr)
        newRanges := s.newRanges.modify i (· ++ [expr])
        varCount := s.varCount + 1 })
  else throw .cantSplit

/-- The loop of `add_multiple_range`.  Each round goes on to the next group, so that as many rounds as there
are groups are enough. -/
def multipleLoop : (rounds : ℕ) → SplitState → (group remainedSize : ℕ) → (indexList strideList : List ℕ) →
    Except SplitError (SplitState × ℕ × List ℕ × List ℕ)
  | 0, s, _, remainedSize, indexList, strideList => .ok (s, remainedSize, indexList, strideList)
  | rounds + 1, s, group, remainedSize, indexList, strideList =>
    match s.remaining[group]? with
    | none => .ok (s, remainedSize, indexList, strideList)
    | some groupSize =>
      if 1 < groupSize ∧ 1 < remainedSize then
        if groupSize ∣ remainedSize then do
          let (index, s) ← addRange s group groupSize
          multipleLoop rounds s (group + 1) (remainedSize / groupSize) (indexList ++ [index])
            (strideList ++ [remainedSize / groupSize])
        else .error .cantSplit
      else .ok (s, remainedSize, indexList, strideList)

def addMultipleRange (s : SplitState) (size : ℕ) : Except SplitError (Getter × SplitState) := do
  let (s, remainedSize, indexList, strideList) ←
    multipleLoop (s.remaining.length - s.currentGroup) s s.currentGroup size [] []
  if remainedSize ≠ 1 then throw .cantSplit
  return (.combined strideList indexList, s)

/-- The loop that scrolls to the next group with remaining elements. -/
def scroll (remaining : List ℕ) : (rounds currentGroup : ℕ) → ℕ
  | 0, currentGroup => currentGroup
  | rounds + 1, currentGroup =>
    if remaining[currentGroup]? = some 1 then scroll remaining rounds (currentGroup + 1) else currentGroup

/-- One round of the loop over the sizes. -/
def splitSize (s : SplitState) (size : ℕ) : Except SplitError (Getter × SplitState) :=
  if size = 1 then .ok (.zero, s)
  else do
    let s := { s with currentGroup := scroll s.remaining (s.remaining.length - s.currentGroup) s.currentGroup }
    let group ← getRemaining s s.currentGroup
    if group < size then addMultipleRange s size
    else
      let (index, s) ← addRange s s.currentGroup size
      return (.item index, s)

/-- The getters of a group of sizes. -/
def splitGroup (s : SplitState) : List ℕ → Except SplitError (List Getter × SplitState)
  | [] => .ok ([], s)
  | size :: lengthGroup => do
    let (getter, s) ← splitSize s size
    let (getters, s) ← splitGroup s lengthGroup
    return (getter :: getters, s)

/-- `return_getters_groups` -/
def splitGroups (s : SplitState) : List (List ℕ) → Except SplitError (List (List Getter) × SplitState)
  | [] => .ok ([], s)
  | lengthGroup :: lengths => do
    let (getters, s) ← splitGroup s lengthGroup
    let (rest, s) ← splitGroups s lengths
    return (getters :: rest, s)

def splitIterationRanges (groups : List ℕ) (lengths : List (List ℕ)) :
    Except SplitError (List (List ℕ) × List (List Getter)) := do
  let (getters, s) ← splitGroups
    { newRanges := groups.map fun _ => [], remaining := groups, varCount := 0, currentGroup := 0 } lengths
  if s.remaining.all (· = 1) then return (s.newRanges, getters) else throw .remains

/-- `is_compatible`, where `lengths` has the sizes of the points and those of the reduction. -/
def isCompatible (groups : List ℕ) (lengths : List ℕ × List ℕ) (reductionNumel : ℕ) :
    Except SplitError Bool :=
  let lengths :=
    if lengths.2 = [] ∧ groups.prod = lengths.1.prod * reductionNumel then (lengths.1, [reductionNumel])
    else lengths
  match splitIterationRanges groups [lengths.1, lengths.2] with
  | .ok _ => .ok true
  | .error .cantSplit => .ok false
  | .error error => .error error

end TorchNpu.Inductor
