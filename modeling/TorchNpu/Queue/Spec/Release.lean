/-
  The tasks handed to `manager().Release`.

  `ReadQueue` releases a task before it moves the read index past it, both when the task succeeds and
  when it ignores the tasks after one that failed.  `ClearQueue` moves the read index without
  releasing anything.

  * `releasedOnce_of_run`: in a run where `ClearQueue` is only called on an empty ring every task
    that has left the ring has been released exactly once.
  * `not_releasedOnce_of_stop`: a device that is stopped while a task waits.
-/
import TorchNpu.Queue.Spec.Ring

namespace TorchNpu.Queue

variable {n : ℕ}

/-- Every accepted task is released at most once, and exactly once when it is no longer between the
indices. -/
def ReleasedOnce (s : State n) : Prop :=
  ∀ task ∈ s.repo.accepted, s.repo.released.count task ≤ 1
    ∧ (task ∉ s.repo.held → s.repo.released.count task = 1)

/-- `ClearQueue` is about to load the write index. -/
def ConsumerPc.clearing : ConsumerPc → Bool
  | .clearLoad _ => true
  | _ => false

/-- If the step is the load of `ClearQueue` then no task waits. -/
def ClearsEmpty (s : State n) : Label n → Prop
  | .consumer _ => s.consumer.clearing → s.repo.isEmptyQueue
  | _ => True

instance (s : State n) : DecidablePred (ClearsEmpty s) := fun l =>
  match l with
  | .consumer _ => inferInstanceAs (Decidable (s.consumer.clearing → s.repo.isEmptyQueue))
  | .enqueue _ _ | .makeSureQueueEmpty _ _ | .thread _ _ | .setStatus _ | .changeStatus _ _
  | .escapeWait => isTrue trivial

/-- The task at the read index has been handed to `manager().Release`. -/
def ConsumerPc.released : ConsumerPc → Bool
  | .advance | .drainAdvance _ => true
  | _ => false

/-- The tasks released are the accepted ones without those that wait, in the same order. -/
structure Released (s : State n) : Prop where
  accepted : s.repo.released ++ s.repo.rest s.consumer.released = s.repo.accepted
  /-- `ClearQueue` does not move the read index. -/
  clear : ∀ site write, s.consumer = .clearStore site write → write = s.repo.readIdx.idx

theorem ConsumerInv.pos_of_released {s : Repository n} {pc : ConsumerPc} (h : ConsumerInv s pc)
    (hreleased : pc.released) : 0 < s.pending := by
  cases pc <;> first | exact h | cases hreleased

/-- A task is released when it is at the read index, and then taken out. -/
theorem Released.consumerStep {s : State n} {s' : Repository n} {pc' : ConsumerPc}
    (hring : RingInv s) (hs : Released s)
    (hclear : s.consumer.clearing → s.repo.isEmptyQueue)
    (h : ConsumerRing s.repo s.consumer s' pc') :
    Released { s with repo := s', consumer := pc' } := by
  have hinv := hring.consumer
  obtain ⟨haccepted, hstore⟩ := hs
  generalize s.consumer = pc at h hinv haccepted hstore hclear
  -- only the load of `ClearQueue` leads to its store
  cases h with
  | outside hout hout' hsame hmu =>
    have hreleased : pc.released = false := by
      cases pc <;> first | rfl | exact absurd trivial hout
    have hreleased' : pc'.released = false := by
      cases pc' <;> first | rfl | exact absurd trivial hout'
    refine ⟨?_, fun site write hpc => ?_⟩
    · rw [hreleased] at haccepted
      dsimp only
      rw [hreleased', hsame.released, hsame.accepted]
      show _ ++ s'.held = _
      rw [hsame.held]
      exact haccepted
    · cases hpc
      exact absurd trivial hout'
  | found hne | drain hne => exact ⟨haccepted, fun _ _ hpc => by cases hpc⟩
  | call ret =>
    have hreleased : (if ret ≠ 0 then ConsumerPc.drain ret else .release).released = false := by
      split_ifs <;> rfl
    refine ⟨?_, fun site write hpc => ?_⟩
    · dsimp only
      rw [hreleased]
      exact haccepted
    · dsimp only at hpc
      split_ifs at hpc
  | release | drainRelease =>
    refine ⟨?_, fun _ _ hpc => by cases hpc⟩
    have hcons : s.repo.held = s.repo.front :: s.repo.held.tail := held_eq_cons hring.repo hinv
    show (s.repo.released ++ [s.repo.front]) ++ s.repo.held.tail = _
    rw [List.append_assoc, List.singleton_append, ← hcons]
    exact haccepted
  | advance | drainAdvance =>
    refine ⟨?_, fun _ _ hpc => by cases hpc⟩
    show _ ++ (s.repo.setReadIdx (nextIdx s.repo.readIdx.idx)).held = _
    rw [held_advance hring.repo hinv]
    exact haccepted
  | clearLoad =>
    refine ⟨haccepted, fun site write hpc => ?_⟩
    cases hpc
    exact (of_decide_eq_true (hclear rfl)).symm
  | clearStore =>
    refine ⟨?_, fun _ _ hpc => by cases hpc⟩
    rw [hstore _ _ rfl]
    exact haccepted

theorem Released.next {s s' : State n} {l : Label n} (hring : RingInv s) (hs : Released s)
    (hl : ClearsEmpty s l) (h : s.next l = some s') : Released s' := by
  cases move_of_next h with
  | enqueue hidle | makeSureQueueEmpty hidle | setStatus | escapeWait =>
    exact ⟨hs.accepted, hs.clear⟩
  | changeStatus =>
    dsimp only [Repository.changeStatus]
    split_ifs <;> exact ⟨hs.accepted, hs.clear⟩
  | thread hstep =>
    have hthread := threadRing_of_step hstep
    obtain ⟨new, hheld, haccepted, -, hreleased⟩ := hring.appends_of_threadRing hthread
    refine ⟨?_, fun site write hpc => ?_⟩
    · dsimp only
      rw [hreleased, haccepted, rest_append hheld hring.consumer.pos_of_released,
        ← List.append_assoc, hs.accepted]
    · rw [hthread.readIdx]
      exact hs.clear site write hpc
  | consumer hstep => exact hs.consumerStep hring hl (consumerRing_of_step hstep)

theorem Released.releasedOnce {s : State n} (hring : RingInv s) (hs : Released s) :
    ReleasedOnce s := by
  intro task hmem
  have hcount : s.repo.accepted.count task = 1 := List.count_eq_one_of_mem hring.repo.nodup hmem
  rw [← hs.accepted, List.count_append] at hcount
  refine ⟨by omega, fun hnot => ?_⟩
  have hrest : task ∉ s.repo.rest s.consumer.released := fun h => hnot (mem_held_of_mem_rest h)
  rw [List.count_eq_zero_of_not_mem hrest] at hcount
  exact hcount

theorem releasedOnce_of_run {ls : List (Label n)} {s : State n}
    (hguard : Machine.Guarded State.next ClearsEmpty {} ls) (h : runFromInit ls = some s) :
    ReleasedOnce s := by
  have hinv : RingInv s ∧ Released s :=
    Machine.guarded_run_induction (P := fun s => RingInv s ∧ Released s)
      (fun _ _ _ hs hl hnext => ⟨hs.1.next hnext, hs.2.next hs.1 hl hnext⟩)
      ⟨ringInv_init, ⟨rfl, fun _ _ hpc => by cases hpc⟩⟩ hguard h
  exact hinv.2.releasedOnce hinv.1

local instance someReleaser : NeZero 1 := inferInstance

/-- A task fails and the next one is ignored with it; the consumer leaves. -/
def failingTask : List (Label 1) :=
  Label.enqueue 0 {} :: List.replicate 12 (Label.thread 0 false)
    ++ Label.enqueue 0 { paramVal := 1 } :: List.replicate 12 (Label.thread 0 false)
    ++ List.replicate 6 (Label.consumer {}) ++ Label.consumer { ret := 507015 }
    :: List.replicate 18 (Label.consumer {})

theorem releasedOnce_failingTask :
    Machine.Guarded State.next ClearsEmpty {} failingTask ∧ ∃ s, runFromInit failingTask = some s
      ∧ s.repo.held = [] ∧ s.repo.accepted.length = 2 ∧ ReleasedOnce s := by
  have hguard : Machine.Guarded State.next ClearsEmpty {} failingTask := by decide +kernel
  have hrun : (runFromInit failingTask).map (fun s => (s.repo.held, s.repo.accepted.length))
      = some ([], 2) := by
    decide +kernel
  rw [Option.map_eq_some_iff] at hrun
  obtain ⟨s, hs, hring⟩ := hrun
  exact ⟨hguard, s, hs, (Prod.mk.inj hring).1, (Prod.mk.inj hring).2, releasedOnce_of_run hguard hs⟩

/-- A task waits while the device is stopped, and the consumer clears the queue. -/
def stoppedDevice : List (Label 1) :=
  Label.enqueue 0 {} :: List.replicate 12 (Label.thread 0 false)
    ++ Label.setStatus .stopExit :: List.replicate 7 (Label.consumer {})

/-- The task has left the ring and was not released. -/
theorem not_releasedOnce_of_stop :
    ∃ s, runFromInit stoppedDevice = some s ∧ ¬ ReleasedOnce s := by
  have hrun : (runFromInit stoppedDevice).map
      (fun s => (s.repo.accepted, s.repo.held, s.repo.released)) = some ([{}], [], []) := by
    decide +kernel
  rw [Option.map_eq_some_iff] at hrun
  obtain ⟨s, hs, hring⟩ := hrun
  simp only [Prod.mk.injEq] at hring
  obtain ⟨haccepted, hheld, hreleased⟩ := hring
  refine ⟨s, hs, fun honce => ?_⟩
  have hcount := (honce {} (by rw [haccepted]; exact List.mem_singleton_self _)).2
    (by rw [hheld]; exact List.not_mem_nil)
  rw [hreleased] at hcount
  cases hcount

end TorchNpu.Queue
