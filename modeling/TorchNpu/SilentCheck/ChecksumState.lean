/-
  The rounds in which the ranks agree on their checksum state (`_tcp_comm_checksum_state` in `asd.py`).

  Each rank runs the loop in a thread of its own; one step is a call of the store, which is atomic, or a test
  of a counter that was read.  The loop goes on for ever and the checksum is linked on all ranks.  What sets
  `checksum_state` on a rank is left out: any value may be added in a round.  The checksum itself, the logs
  and the sleeps are left out too.
-/
import TorchNpu.Lib.Machine
import Mathlib.Algebra.BigOperators.Group.Finset.Basic
import Mathlib.Algebra.GroupWithZero.Nat

namespace TorchNpu.SilentCheck

/-- Where a rank is in the loop: the next call of the store. -/
inductive ChecksumPhase
  /-- `add('counter2', world_size)`, on rank 0. -/
  | start
  /-- `add('checksum_state', self.checksum_state)`. -/
  | addState
  /-- `add('counter2', 0 - world_size)`, on rank 0. -/
  | subCounter2
  /-- `add('counter', 1)`. -/
  | addCounter
  /-- `get('counter')`, until it is `world_size`. -/
  | waitCounter
  /-- `get('checksum_state')`. -/
  | getState
  /-- `add('counter2', 1)`. -/
  | addCounter2
  /-- `get('counter2')`, until it is `world_size`. -/
  | waitCounter2
  /-- `add('checksum_state', 0 - global_state)`, on rank 0. -/
  | subState
  /-- `add('counter', 0 - world_size)`, on rank 0. -/
  | subCounter
  deriving DecidableEq

structure ChecksumRank where
  phase : ChecksumPhase
  /-- How many times the loop has been gone through. -/
  round : ℕ := 0
  globalState : ℤ := 0

/-- The store, the ranks, and what they have added and read in their rounds. -/
structure ChecksumRounds (worldSize : ℕ) where
  counter : ℤ := 0
  counter2 : ℤ := 0
  checksumState : ℤ := 0
  ranks : Fin worldSize → ChecksumRank
  added : Fin worldSize → ℕ → ℤ := fun _ _ => 0
  read : Fin worldSize → ℕ → Option ℤ := fun _ _ => none

inductive ChecksumLabel (worldSize : ℕ)
  /-- A round begins, with the value of `checksum_state`. -/
  | addState (rank : Fin worldSize) (value : ℤ)
  /-- Any other step. -/
  | advance (rank : Fin worldSize)

namespace ChecksumRounds

variable {worldSize : ℕ} [NeZero worldSize]

def init : ChecksumRounds worldSize where
  ranks rank := { phase := if rank = 0 then .start else .addState }

variable (s : ChecksumRounds worldSize)

def setRank (rank : Fin worldSize) (r : ChecksumRank) : ChecksumRounds worldSize :=
  { s with ranks := Function.update s.ranks rank r }

/-- A rank goes on to another phase. -/
def goTo (rank : Fin worldSize) (phase : ChecksumPhase) : ChecksumRounds worldSize :=
  s.setRank rank { s.ranks rank with phase := phase }

/-- The next round of a rank. -/
def nextRound (rank : Fin worldSize) : ChecksumRounds worldSize :=
  s.setRank rank { s.ranks rank with phase := .addState, round := (s.ranks rank).round + 1 }

def addState (rank : Fin worldSize) (value : ℤ) : ChecksumRounds worldSize :=
  { s.goTo rank (if rank = 0 then .subCounter2 else .addCounter) with
    checksumState := s.checksumState + value
    added := Function.update s.added rank
      (Function.update (s.added rank) (s.ranks rank).round value) }

def getState (rank : Fin worldSize) : ChecksumRounds worldSize :=
  { s.setRank rank { s.ranks rank with phase := .addCounter2, globalState := s.checksumState } with
    read := Function.update s.read rank
      (Function.update (s.read rank) (s.ranks rank).round (some s.checksumState)) }

/-- A step other than the first of a round. -/
def advance (rank : Fin worldSize) : Option (ChecksumRounds worldSize) :=
  match (s.ranks rank).phase with
  | .start => some { s.goTo rank .addState with counter2 := s.counter2 + worldSize }
  | .addState => none
  | .subCounter2 => some { s.goTo rank .addCounter with counter2 := s.counter2 - worldSize }
  | .addCounter => some { s.goTo rank .waitCounter with counter := s.counter + 1 }
  | .waitCounter => some (if s.counter < worldSize then s else s.goTo rank .getState)
  | .getState => some (s.getState rank)
  | .addCounter2 => some { s.goTo rank .waitCounter2 with counter2 := s.counter2 + 1 }
  | .waitCounter2 =>
    some (if s.counter2 < worldSize then s else if rank = 0 then s.goTo rank .subState else s.nextRound rank)
  | .subState =>
    some { s.goTo rank .subCounter with checksumState := s.checksumState - (s.ranks rank).globalState }
  | .subCounter => some { s.nextRound rank with counter := s.counter - worldSize }

def next : ChecksumLabel worldSize → Option (ChecksumRounds worldSize)
  | .addState rank value => if (s.ranks rank).phase = .addState then some (s.addState rank value) else none
  | .advance rank => s.advance rank

/-- The state after a run from the start. -/
def runFromInit (ls : List (ChecksumLabel worldSize)) : Option (ChecksumRounds worldSize) :=
  Machine.run next init ls

end ChecksumRounds

end TorchNpu.SilentCheck
