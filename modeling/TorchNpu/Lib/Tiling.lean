/-
  Pieces cut out of address ranges.

  A heap maps identifiers to pieces; a piece is an address range with links to the pieces before and
  after it, a tag that neighbours share, and a kind.

  The operations are: cutting a piece in two, keeping the front or the back of it under the old
  identifier, and joining a piece with one of its neighbours.
-/
import Mathlib.Data.List.Basic
import Mathlib.Logic.Function.Basic

namespace TorchNpu

/-- The addresses from `lo` up to, but not including, `lo + size`. -/
structure Range where
  lo : ℕ
  size : ℕ

def Range.Disjoint (r q : Range) : Prop :=
  r.lo + r.size ≤ q.lo ∨ q.lo + q.size ≤ r.lo

instance (r q : Range) : Decidable (r.Disjoint q) :=
  inferInstanceAs (Decidable (_ ∨ _))

namespace Tiling

/-! ### Heaps of pieces -/

structure Piece (ι τ κ : Type*) where
  lo : ℕ
  size : ℕ
  prev : Option ι
  next : Option ι
  tag : τ
  kind : Option κ

variable {ι τ κ : Type*}

section Operations

variable [DecidableEq ι]

/-- Cut the piece `p` of `b` after `k` addresses: `b` keeps the front, `c` is the back. -/
def splitBack (h : ι → Option (Piece ι τ κ)) (b : ι) (p : Piece ι τ κ) (k : ℕ) (c : ι)
    (kind : Option κ) (x : ι) : Option (Piece ι τ κ) :=
  if x = c then some { p with lo := p.lo + k, size := p.size - k, prev := some b, kind := kind }
  else if x = b then some { p with size := k, next := some c }
  else match h x with
    | none => none
    | some q => some { q with prev := if p.next = some x then some c else q.prev }

/-- Cut the piece `p` of `b` after `k` addresses: `c` is the front, `b` keeps the back. -/
def splitFront (h : ι → Option (Piece ι τ κ)) (b : ι) (p : Piece ι τ κ) (k : ℕ) (c : ι)
    (kind : Option κ) (x : ι) : Option (Piece ι τ κ) :=
  if x = c then some { p with size := k, next := some b, kind := kind }
  else if x = b then some { p with lo := p.lo + k, size := p.size - k, prev := some c }
  else match h x with
    | none => none
    | some q => some { q with next := if p.prev = some x then some c else q.next }

/-- Join the piece `p` of `b` with the piece `q` of `c` before it. -/
def mergePrev (h : ι → Option (Piece ι τ κ)) (b : ι) (p : Piece ι τ κ) (c : ι) (q : Piece ι τ κ)
    (x : ι) : Option (Piece ι τ κ) :=
  if x = c then none
  else if x = b then some { p with lo := q.lo, size := p.size + q.size, prev := q.prev }
  else match h x with
    | none => none
    | some r => some { r with next := if q.prev = some x then some b else r.next }

/-- Join the piece `p` of `b` with the piece `q` of `c` after it. -/
def mergeNext (h : ι → Option (Piece ι τ κ)) (b : ι) (p : Piece ι τ κ) (c : ι) (q : Piece ι τ κ)
    (x : ι) : Option (Piece ι τ κ) :=
  if x = c then none
  else if x = b then some { p with size := p.size + q.size, next := q.next }
  else match h x with
    | none => none
    | some r => some { r with prev := if q.next = some x then some b else r.prev }

end Operations

end Tiling

end TorchNpu
