/-
  The reports of the ranks to rank 0 (`_generate_event_log`, `_generate_warning_log`, `_generate_silent_log` and
  the poll in `_tcp_comm_checksum_state`, all in `asd.py`).

  The store has two texts for each rank.  A rank appends a report with a `get` and a `set`, from its detection
  thread or from its checksum thread; rank 0 logs a text with a `get` and a `set` to the empty text.  One step
  is one call of the store.  What the reports say is left out.
-/
import TorchNpu.Lib.Machine
import TorchNpu.Lib.Text
import Mathlib.Data.Fintype.Basic

namespace TorchNpu.SilentCheck

/-- A report; it is never empty. -/
abbrev Report := { text : Text // text ≠ [] }

/-- `info_log` and `warn_log`. -/
inductive LogKind
  | warn
  | info
  deriving DecidableEq

/-- The threads of a rank: events and warnings come from the first, the result of the checksum from the second. -/
inductive ReportThread
  | check
  | checksum
  deriving DecidableEq

/-- A key of the store, `rank_{i}_info_log` or `rank_{i}_warn_log`. -/
abbrev LogKey (worldSize : ℕ) := Fin worldSize × LogKind

/-- A thread between the `get` and the `set`. -/
structure Appending where
  kind : LogKind
  currentLog : Text
  report : Report

structure FaultReports (worldSize : ℕ) where
  store : LogKey worldSize → Text := fun _ => []
  appending : Fin worldSize × ReportThread → Option Appending := fun _ => none
  /-- Where rank 0 is in its loop over the ranks. -/
  position : ℕ := 0
  /-- The text that rank 0 has read, ahead of the `set`. -/
  clearing : Option Text := none
  /-- The texts of a rank that rank 0 has logged. -/
  logged : Fin worldSize → List (LogKind × Text) := fun _ => []
  /-- The reports of a rank in the order of their `set`. -/
  reported : Fin worldSize → List (LogKind × Report) := fun _ => []
  /-- How many reports there were for the key when rank 0 polled it. -/
  polled : LogKey worldSize → ℕ := fun _ => 0

inductive ReportLabel (worldSize : ℕ)
  /-- A thread of a rank gets the text for a report. -/
  | get (rank : Fin worldSize) (thread : ReportThread) (kind : LogKind) (report : Report)
  | set (rank : Fin worldSize) (thread : ReportThread)
  /-- A step of the loop of rank 0. -/
  | poll

namespace FaultReports

variable {worldSize : ℕ} (s : FaultReports worldSize)

/-- `current_log + "\n" + report`, or the report alone. -/
def appendReport (currentLog : Text) (report : Report) : Text :=
  if currentLog ≠ [] then currentLog ++ ['\n'] ++ report.val else report.val

/-- The key at a position of the loop: the two of rank 1, then those of rank 2, and so on. -/
def keyAt (worldSize position : ℕ) : Option (LogKey worldSize) :=
  if h : position / 2 + 1 < worldSize then
    some (⟨position / 2 + 1, h⟩, if position % 2 = 0 then .warn else .info)
  else none

/-- The position after this one; after the last one the loop begins again. -/
def nextPosition (worldSize position : ℕ) : ℕ :=
  if (keyAt worldSize (position + 1)).isSome then position + 1 else 0

/-- Only the checksum thread reports warnings alone. -/
def reports (thread : ReportThread) (kind : LogKind) : Bool :=
  match thread, kind with
  | .checksum, .info => false
  | .check, _ | .checksum, .warn => true

def getLog (rank : Fin worldSize) (thread : ReportThread) (kind : LogKind) (report : Report) :
    FaultReports worldSize :=
  { s with appending := Function.update s.appending (rank, thread) (some ⟨kind, s.store (rank, kind), report⟩) }

def setLog (rank : Fin worldSize) (thread : ReportThread) (a : Appending) : FaultReports worldSize :=
  { s with
    store := Function.update s.store (rank, a.kind) (appendReport a.currentLog a.report)
    appending := Function.update s.appending (rank, thread) none
    reported := Function.update s.reported rank (s.reported rank ++ [(a.kind, a.report)]) }

/-- The reports of one kind. -/
def ofKind (kind : LogKind) (reports : List (LogKind × Report)) : List Report :=
  reports.filterMap fun report => if report.1 = kind then some report.2 else none

/-- Rank 0 gets the text of a key, and logs it if it is not empty. -/
def pollGet (key : LogKey worldSize) : FaultReports worldSize :=
  let msg := s.store key
  let s := { s with polled := Function.update s.polled key (ofKind key.2 (s.reported key.1)).length }
  if msg ≠ [] then
    { s with
      logged := Function.update s.logged key.1 (s.logged key.1 ++ [(key.2, msg)])
      clearing := some msg }
  else { s with position := nextPosition worldSize s.position }

/-- Rank 0 sets the text to the empty one. -/
def pollClear (key : LogKey worldSize) : FaultReports worldSize :=
  { s with
    store := Function.update s.store key []
    clearing := none
    position := nextPosition worldSize s.position }

def next : ReportLabel worldSize → Option (FaultReports worldSize)
  | .get rank thread kind report =>
    if rank.val ≠ 0 ∧ reports thread kind ∧ s.appending (rank, thread) = none then
      some (s.getLog rank thread kind report)
    else none
  | .set rank thread => (s.appending (rank, thread)).map (s.setLog rank thread)
  | .poll =>
    (keyAt worldSize s.position).map fun key =>
      if s.clearing.isSome then s.pollClear key else s.pollGet key

/-- The state after a run from the start. -/
def runFromStart (ls : List (ReportLabel worldSize)) : Option (FaultReports worldSize) :=
  Machine.run next {} ls

end FaultReports

end TorchNpu.SilentCheck
