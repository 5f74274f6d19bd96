/-
  The rendezvous of the workers: `ProcessAddRequest` on the init key and
  `ParallelStoreServer::WaitWorkers` (`ParallelTcpStore.cpp`).

  A process creates server instances one after the other.  Each counts the workers under `initKey_`,
  has a flag `workersReady_` and a condition variable `initWaitCond_`; the flag `notifiedWaitWorkers`
  is a static variable of the handler, so there is one for all instances.

  One step is one critical section of a thread or one access to a shared variable.  The handler is
  modelled from the moment it takes `serverLock_`; `WaitWorkers` may be called by several stores that
  share the instance.  `initWaitMutex_` is taken by `WaitWorkers` alone, and what it does between taking
  the mutex and waiting touches nothing shared, so the two are one step.  A wait ends by a
  notification, by its timeout or spuriously.
-/
import TorchNpu.Store.Handlers
import TorchNpu.Lib.Machine
import Mathlib.Logic.Function.Basic

namespace TorchNpu.Store.Rendezvous

/-- Where a worker thread is in `ProcessAddRequest` for the init key. -/
inductive HandlerPc
  | idle
  /-- `serverLock_` is released; the new value of the counter is `newValue`. -/
  | added (newValue : ℤ)
  /-- At `workersReady_ = true`. -/
  | signalling
  /-- At `initWaitCond_.notify_one()`. -/
  | notifying
  /-- At `notifiedWaitWorkers = true`. -/
  | recording
  deriving DecidableEq

/-- Where a thread is in `WaitWorkers`. -/
inductive WaiterPc
  | idle
  /-- At `while (!workersReady_)`. -/
  | testing
  /-- The flag was not set; about to take the mutex and wait. -/
  | entering
  | waiting
  deriving DecidableEq

/-- A `ParallelStoreServer`. -/
structure Instance where
  numWorkers : Option ℕ
  /-- The number under `initKey_`, if the key is there. -/
  counter : Option ℤ := none
  workersReady : Bool := false
  handlers : ℕ → HandlerPc := fun _ => .idle
  waiters : ℕ → WaiterPc := fun _ => .idle
  /-- The threads that wait on `initWaitCond_`. -/
  waitQueue : List ℕ := []

structure Process where
  notifiedWaitWorkers : Bool := false
  instances : ℕ → Option Instance := fun _ => none

inductive Action
  /-- The critical section of `ProcessAddRequest`. -/
  | add (t : ℕ) (delta : ℤ)
  /-- The test whether to notify. -/
  | check (t : ℕ)
  | signal (t : ℕ)
  /-- `notify_one` wakes a waiting thread, if there is one. -/
  | notify (t : ℕ) (woken : Option ℕ)
  | record (t : ℕ)
  | call (w : ℕ)
  | test (w : ℕ)
  /-- Take the mutex and wait. -/
  | block (w : ℕ)
  /-- The timeout passes, or a spurious wakeup. -/
  | wake (w : ℕ)
  deriving DecidableEq

/-- The number of worker threads the constructor chooses. -/
def threadNum (numWorkers : Option ℕ) : ℕ :=
  match numWorkers with
  | some n => if 1024 ≤ n then 32 else if 512 ≤ n then 16 else if 256 ≤ n then 8 else 4
  | none => 4

/-- `newValue >= *numWorkers_`: the comparison is one of unsigned numbers. -/
def reaches (newValue : ℤ) (numWorkers : Option ℕ) : Bool :=
  match numWorkers with
  | some n => decide ((n : ℤ) ≤ newValue % 2 ^ 64)
  | none => false

namespace Instance

def setHandler (i : Instance) (t : ℕ) (pc : HandlerPc) : Instance :=
  { i with handlers := Function.update i.handlers t pc }

def setWaiter (i : Instance) (w : ℕ) (pc : WaiterPc) : Instance :=
  { i with waiters := Function.update i.waiters w pc }

/-- A thread that stops waiting tests the flag again. -/
def stopWaiting (i : Instance) (w : ℕ) : Instance :=
  { i.setWaiter w .testing with waitQueue := i.waitQueue.erase w }

/-- A step at an instance, and `notifiedWaitWorkers` after it. -/
def exec (notified : Bool) (i : Instance) : Action → Option (Instance × Bool)
  | .add t delta =>
    if t < threadNum i.numWorkers ∧ i.handlers t = .idle then
      let newValue := wrapInt64 (i.counter.getD 0 + delta)
      some ({ i.setHandler t (.added newValue) with counter := some newValue }, notified)
    else none
  | .check t =>
    match i.handlers t with
    | .added newValue =>
      if !notified && reaches newValue i.numWorkers then some (i.setHandler t .signalling, notified)
      else some (i.setHandler t .idle, notified)
    | _ => none
  | .signal t =>
    if i.handlers t = .signalling then
      some ({ i.setHandler t .notifying with workersReady := true }, notified)
    else none
  | .notify t woken =>
    if i.handlers t = .notifying then
      match woken with
      | none => if i.waitQueue = [] then some (i.setHandler t .recording, notified) else none
      | some w =>
        if w ∈ i.waitQueue then some ((i.setHandler t .recording).stopWaiting w, notified) else none
    else none
  | .record t => if i.handlers t = .recording then some (i.setHandler t .idle, true) else none
  | .call w =>
    if i.waiters w = .idle then
      some (if i.numWorkers.isNone then i else i.setWaiter w .testing, notified)
    else none
  | .test w =>
    if i.waiters w = .testing then
      some (i.setWaiter w (if i.workersReady then .idle else .entering), notified)
    else none
  | .block w =>
    if i.waiters w = .entering then
      some ({ i.setWaiter w .waiting with waitQueue := w :: i.waitQueue }, notified)
    else none
  | .wake w => if w ∈ i.waitQueue then some (i.stopWaiting w, notified) else none

end Instance

inductive Label
  /-- Instance `i` is created. -/
  | create (i : ℕ) (numWorkers : Option ℕ)
  | act (i : ℕ) (action : Action)

def Process.next (p : Process) : Label → Option Process
  | .create i numWorkers =>
    match p.instances i with
    | some _ => none
    | none => some { p with instances := Function.update p.instances i (some { numWorkers }) }
  | .act i action =>
    (p.instances i).bind fun inst =>
      (inst.exec p.notifiedWaitWorkers action).map fun (inst', notified) =>
        ⟨notified, Function.update p.instances i (some inst')⟩

/-- The process after the steps `ls`. -/
def runFromStart (ls : List Label) : Option Process :=
  Machine.run Process.next {} ls

end TorchNpu.Store.Rendezvous
