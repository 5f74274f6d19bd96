/-
  The queue of statistics between the training thread and the detection thread (`_detect_grad` and
  `_async_detect` in `asd.py`).

  The training thread enqueues a copy of a statistic to the host and writes the name at once; the device
  finishes the copies in the order of the stream.  The detection thread holds the lock while it looks for
  statistics.  A statistic is not -1: in the list of values -1 is `none`, as the empty text is in the list of
  names.  What `_silent_check` finds out is left out, and so are the tensors that are cloned because they
  were made in inference mode.
-/
import TorchNpu.Lib.Machine
import Mathlib.Logic.Function.Basic
import Mathlib.Algebra.Order.Field.Rat
import Mathlib.Algebra.Order.Group.Unbundled.Abs

namespace TorchNpu.SilentCheck

/-- `queue_len`. -/
def queueLen : ℕ := 1024

/-- Where the training thread is in `_detect_grad`. -/
inductive Producer
  /-- Ahead of the next call. -/
  | idle
  /-- Ahead of the test whether the queue is full. -/
  | testing
  /-- In `synchronize`. -/
  | synchronizing
  deriving DecidableEq

/-- Where the detection thread is; but for `outside` it holds the lock. -/
inductive Detector (V N : Type)
  | outside
  /-- Ahead of the look at the head. -/
  | looking
  /-- With what it has found there. -/
  | examining (val : V) (name : N)

/-- The two threads, the device, and what has been submitted to `_detect_grad` and examined by
`_silent_check`. -/
structure Detection (V N : Type) where
  statisticCpuValue : ℕ → Option V := fun _ => none
  nameList : ℕ → Option N := fun _ => none
  headIndex : ℕ := 0
  tailIndex : ℕ := 0
  /-- The copies that the device has not finished, with their slots. -/
  copies : List (ℕ × V) := []
  producer : Producer := .idle
  detector : Detector V N := .outside
  submitted : List (V × N) := []
  examined : List (V × N) := []

inductive DetectionLabel (V N : Type)
  /-- `_detect_grad`, up to the release of the lock. -/
  | detectGrad (statistic : V) (name : N)
  /-- The next step of the training thread in this call. -/
  | producer
  /-- The device finishes a copy. -/
  | copy
  /-- A step of the detection thread. -/
  | detector

namespace Detection

variable {V N : Type} (s : Detection V N)

def detectGrad (statistic : V) (name : N) : Detection V N :=
  { s with
    copies := s.copies ++ [(s.tailIndex, statistic)]
    nameList := Function.update s.nameList s.tailIndex (some name)
    tailIndex := (s.tailIndex + 1) % queueLen
    producer := .testing
    submitted := s.submitted ++ [(statistic, name)] }

/-- The slot at the head is cleared. -/
def examine (val : V) (name : N) : Detection V N :=
  { s with
    statisticCpuValue := Function.update s.statisticCpuValue s.headIndex none
    nameList := Function.update s.nameList s.headIndex none
    headIndex := (s.headIndex + 1) % queueLen
    detector := .looking
    examined := s.examined ++ [(val, name)] }

def stepProducer : Option (Detection V N) :=
  match s.producer with
  | .idle => none
  | .testing => some { s with producer := if s.tailIndex = s.headIndex then .synchronizing else .idle }
  | .synchronizing => if s.copies.isEmpty then some { s with producer := .idle } else none

def stepCopy : Option (Detection V N) :=
  match s.copies with
  | [] => none
  | (slot, statistic) :: copies =>
    some { s with
      statisticCpuValue := Function.update s.statisticCpuValue slot (some statistic)
      copies := copies }

def stepDetector : Detection V N :=
  match s.detector with
  | .outside => { s with detector := .looking }
  | .looking =>
    match s.statisticCpuValue s.headIndex, s.nameList s.headIndex with
    | some val, some name => { s with detector := .examining val name }
    | none, _ | _, none => { s with detector := .outside }
  | .examining val name => s.examine val name

/-- The lock is free. -/
def lockFree : Bool :=
  match s.detector with
  | .outside => true
  | .looking | .examining _ _ => false

def next : DetectionLabel V N → Option (Detection V N)
  | .detectGrad statistic name =>
    if s.producer = .idle ∧ s.lockFree then some (s.detectGrad statistic name) else none
  | .producer => s.stepProducer
  | .copy => s.stepCopy
  | .detector => some s.stepDetector

/-- The state after a run from the start. -/
def runFromStart (ls : List (DetectionLabel V N)) : Option (Detection V N) :=
  Machine.run next {} ls

end Detection

end TorchNpu.SilentCheck

/-!
  When abnormal gradients are counted and when they make a strike (`_abnormal_process` in `asd.py`).

  Times are rational numbers, in seconds; the cooldown and the window are in minutes.  `id` says which abnormal an
  entry of the history is; what the logs say of it is left out, and so is `checksum_state`, which a warning sets.
-/

namespace TorchNpu.SilentCheck

/-- `new_abnormal`, and an entry of `history_abnormal_list`. -/
structure Abnormal where
  id : ℕ
  time : ℚ
  counted : Bool := true
  striked : Bool := false

/-- The configuration of `_MatmulSilentCheck`. -/
structure StrikeConfig where
  strikesNum : ℕ := 3
  cooldown : ℚ := 5
  strikesWindow : ℚ := 480

/-- What `_abnormal_process` does besides changing the history: whether the abnormal is counted, whether
`_generate_event_log` is called, and which abnormals the warning of `_generate_warning_log` names. -/
structure Verdict where
  counted : Bool
  logged : Bool
  strike : Option (List ℕ)

/-- How the first loop ends. -/
inductive Scan
  /-- At `i = -1`. -/
  | exhausted
  /-- At an entry that makes the abnormal a counted one, with those before it, the latest first. -/
  | counted (old : Abnormal) (older : List Abnormal)
  | uncounted

namespace StrikeConfig

variable (cfg : StrikeConfig)

/-- The first loop; the entries at `i` and before, the latest first. -/
def scan (new : Abnormal) : List Abnormal → Scan
  | [] => .exhausted
  | old :: older =>
    if old.counted ∧ |new.time - old.time| ≥ cfg.cooldown * 60 then .counted old older
    else if ¬old.counted then scan new older
    else .uncounted

/-- The second loop: `counting_abnormal_pos` and `old_abnormal` at its end.  The entry `old` before `older` has as
many entries before it as its position says. -/
def collect : List Abnormal → List ℕ → Abnormal → List ℕ × Abnormal
  | [], pos, last => (pos, last)
  | old :: older, pos, _ =>
    let pos := if old.counted ∧ ¬old.striked then pos ++ [older.length] else pos
    if pos.length + 1 = cfg.strikesNum then (pos, old) else collect older pos old

/-- The removal of expired entries. -/
def expire (currentTime : ℚ) (history : List Abnormal) : List Abnormal :=
  history.dropWhile fun abnormal => ¬|currentTime - abnormal.time| ≤ cfg.strikesWindow * 60

/-- `self.history_abnormal_list[index]['striked'] = True`, for the positions. -/
def setStriked (pos : List ℕ) (history : List Abnormal) : List Abnormal :=
  history.mapIdx fun i abnormal => if i ∈ pos then { abnormal with striked := true } else abnormal

/-- The abnormals that a warning names. -/
def warning (pos : List ℕ) (history : List Abnormal) (new : Abnormal) : List ℕ :=
  pos.reverse.filterMap (fun i => history[i]?.map Abnormal.id) ++ [new.id]

/-- `_abnormal_process`; the new history and the verdict. -/
def abnormalProcess (history : List Abnormal) (new : Abnormal) (currentTime : ℚ) : List Abnormal × Verdict :=
  match history.reverse with
  | [] =>
    if cfg.strikesNum = 1 then
      ([{ new with striked := true }], ⟨new.counted, true, some (warning [] history new)⟩)
    else ([new], ⟨new.counted, true, none⟩)
  | latest :: older =>
    match cfg.scan new (latest :: older) with
    | .exhausted => (cfg.expire currentTime (history ++ [new]), ⟨new.counted, false, none⟩)
    | .uncounted =>
      (cfg.expire currentTime (history ++ [{ new with counted := false }]), ⟨false, false, none⟩)
    | .counted old older =>
      if cfg.strikesNum = 1 then
        (cfg.expire currentTime (history ++ [{ new with striked := true }]),
          ⟨new.counted, true, some (warning [] history new)⟩)
      else
        let (pos, last) := cfg.collect older [older.length] old
        if pos.length + 1 = cfg.strikesNum ∧ |new.time - last.time| ≤ cfg.strikesWindow * 60 then
          (cfg.expire currentTime (setStriked pos history ++ [{ new with striked := true }]),
            ⟨new.counted, true, some (warning pos history new)⟩)
        else (cfg.expire currentTime (history ++ [new]), ⟨new.counted, true, none⟩)

/-- A sequence of abnormals at these times, with the clock at the time of each. -/
def run (times : List ℚ) : List Abnormal × List Verdict :=
  times.foldl (fun s time =>
    let (history, verdict) := cfg.abnormalProcess s.1 { id := s.2.length, time } time
    (history, s.2 ++ [verdict])) ([], [])

end StrikeConfig

end TorchNpu.SilentCheck
