/-
  The queue of parameters to be released (`ReleaseQueue` in `NPUQueue.h`, `NPUQueue.cpp`), from the end of
  `InitReleaseQueue` to the end of `~ReleaseQueue`.

  Three threads take part: the consumer of the task queue, which calls `PushToReleaseQueue`; the release
  thread, which runs `StartRelease`; and the one that runs `~Repository`, which joins the consumer before
  the queue of parameters is destroyed.  One step is one access to the shared object.  Memory is
  sequentially consistent.

  A slot is `none` when it holds nothing to release.  `pushed`, `released` and `overwritten` record what has
  happened so far: what `WriteToReleaseQueue` has returned true for, what `ReleaseParam` has found in the
  slots, and what was still in a slot when `CopyRealseParam` wrote to it.
-/
import TorchNpu.Queue.Repository

namespace TorchNpu.Queue

def kReleaseQueueCapacity : ℕ := 8192

/-- `(idx + 1) & (kReleaseQueueCapacity - 1)`. -/
def nextReleaseIdx (idx : ℕ) : ℕ :=
  (idx + 1) &&& (kReleaseQueueCapacity - 1)

/-- Where the consumer of the task queue is in `PushToReleaseQueue`. -/
inductive PushPc (α : Type*)
  | idle
  /-- Ahead of `IsFullQueue`. -/
  | testFull (curParas : α)
  /-- Ahead of `CopyRealseParam`. -/
  | copy (curParas : α)
  /-- Ahead of the store to `write_idx`. -/
  | publish (curParas : α)

def PushPc.isIdle {α : Type*} : PushPc α → Bool
  | .idle => true
  | .testFull _ | .copy _ | .publish _ => false

/-- Where the release thread is. -/
inductive ReleasePc
  /-- Ahead of the test of the loop of `StartRelease`. -/
  | start
  /-- Ahead of the test of the loop of `PopFromReleaseQueue`. -/
  | pop
  /-- Ahead of `IsEmptyQueue`. -/
  | testEmpty
  /-- Ahead of `ReleaseParam`. -/
  | release
  /-- Ahead of the store to `read_idx`. -/
  | advance
  /-- The queue was empty; ahead of the test for `NEED_EXIT`. -/
  | testExit
  /-- Ahead of `ChangeStatus`. -/
  | change
  | done
  deriving DecidableEq

/-- How far the destruction has got. -/
inductive DestroyPc
  | alive
  /-- `~Repository` has joined the consumer. -/
  | joined
  /-- `~ReleaseQueue` has set the status. -/
  | needExit
  /-- `~ReleaseQueue` has joined the release thread. -/
  | releaserJoined
  /-- After `DeInit`. -/
  | freed
  deriving DecidableEq

structure ReleaseQueue (α : Type*) where
  datas : ℕ → Option α := fun _ => none
  readIdx : ℕ := 0
  writeIdx : ℕ := 0
  repoStatus : RepoStatus := .init
  consumer : PushPc α := .idle
  releaser : ReleasePc := .start
  destroyer : DestroyPc := .alive
  pushed : List α := []
  released : List (Option α) := []
  overwritten : List α := []

inductive ReleaseLabel (α : Type*)
  /-- The consumer calls `PushToReleaseQueue`. -/
  | push (curParas : α)
  /-- The next step of the consumer. -/
  | consumer
  /-- The next step of the release thread. -/
  | releaser
  /-- The next step of the destruction. -/
  | destroy
  deriving DecidableEq

namespace ReleaseQueue

variable {α : Type*} (s : ReleaseQueue α)

def isEmptyQueue : Bool :=
  s.readIdx = s.writeIdx

def isFullQueue : Bool :=
  nextReleaseIdx s.writeIdx = s.readIdx

/-- `ChangeStatus`: a compare and exchange. -/
def changeStatus (expected desired : RepoStatus) : ReleaseQueue α :=
  if s.repoStatus = expected then { s with repoStatus := desired } else s

/-- `PushToReleaseQueue`. -/
def stepConsumer : Option (ReleaseQueue α) :=
  match s.consumer with
  | .idle => none
  | .testFull curParas =>
    if s.isFullQueue then some { s with consumer := .testFull curParas }
    else some { s with consumer := .copy curParas }
  | .copy curParas =>
    some { s with
      datas := Function.update s.datas s.writeIdx (some curParas)
      overwritten := s.overwritten ++ (s.datas s.writeIdx).toList
      consumer := .publish curParas }
  | .publish curParas =>
    some { s with
      writeIdx := nextReleaseIdx s.writeIdx
      pushed := s.pushed ++ [curParas]
      consumer := .idle }

/-- `StartRelease` and `PopFromReleaseQueue`. -/
def stepReleaser : Option (ReleaseQueue α) :=
  match s.releaser with
  | .start => some { s with releaser := if s.repoStatus = .canExit then .done else .pop }
  | .pop => some { s with releaser := if s.repoStatus = .canExit then .start else .testEmpty }
  | .testEmpty => some { s with releaser := if s.isEmptyQueue then .testExit else .release }
  | .release =>
    some { s with
      datas := Function.update s.datas s.readIdx none
      released := s.released ++ [s.datas s.readIdx]
      releaser := .advance }
  | .advance => some { s with readIdx := nextReleaseIdx s.readIdx, releaser := .start }
  -- If the status is another one the thread sleeps, and tries again.
  | .testExit => some { s with releaser := if s.repoStatus = .needExit then .change else .pop }
  | .change => some { s.changeStatus .needExit .canExit with releaser := .start }
  | .done => none

/-- The end of `~Repository`: `consumer.join()` and then `~ReleaseQueue`. -/
def stepDestroy : Option (ReleaseQueue α) :=
  match s.destroyer with
  | .alive => if s.consumer.isIdle then some { s with destroyer := .joined } else none
  | .joined => some { s with repoStatus := .needExit, destroyer := .needExit }
  | .needExit => if s.releaser = .done then some { s with destroyer := .releaserJoined } else none
  | .releaserJoined => some { s with destroyer := .freed }
  | .freed => none

def next : ReleaseLabel α → Option (ReleaseQueue α)
  | .push curParas =>
    if s.consumer.isIdle ∧ s.destroyer = .alive then some { s with consumer := .testFull curParas }
    else none
  | .consumer => s.stepConsumer
  | .releaser => s.stepReleaser
  | .destroy => s.stepDestroy

/-- The run of the labels on a queue that `InitReleaseQueue` has set up. -/
def runFromInit (ls : List (ReleaseLabel α)) : Option (ReleaseQueue α) :=
  Machine.run next {} ls

end ReleaseQueue

end TorchNpu.Queue
