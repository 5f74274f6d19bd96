/-
  The epoll server of the store: `ParallelTcpServer` (`ParallelTcpServer.cpp`) with the handlers of
  `ParallelStoreServer` as its `process_`.

  The state is what the worker threads share (`keyStore_` under `serverLock_`, the two maps of
  waiting clients under `spinLock_`), the per-connection contexts, the connections the kernel has
  open with their registered events, and for each worker thread the point it has reached in
  `ProcessClientEvent`.  One step is one critical section, one `write`, or thread-local code up to
  the next of these.  A connection belongs to one thread, so the `clientCtx` maps of the threads are
  kept as one map.

  `exec` is partial: a label is refused when its thread is elsewhere, and where the C++ code leaves
  a buffer or throws there is no successor.
-/
import TorchNpu.Store.ClientIo
import TorchNpu.Store.Handlers
import TorchNpu.Lib.Machine
import Mathlib.Logic.Function.Basic

namespace TorchNpu.Store

/-- A descriptor `accept` returns. -/
abbrev Fd := ℕ

/-- A waiting client: the socket and the `fd` of its request. -/
abbrev Client := Fd × Int32

/-! ### Waiting clients -/

/-- The maps under `spinLock_`. -/
structure Waiting where
  keyWaitingSockets : AList fun _ : Key => List Client := ∅
  socketWaitKeyNum : AList fun _ : Client => ℤ := ∅

namespace Waiting

/-- `keyWaitingSockets_[key].emplace_back(client)`. -/
def register (client : Client) (sockets : AList fun _ : Key => List Client) (key : Key) :
    AList fun _ : Key => List Client :=
  sockets.insert key ((sockets.lookup key).getD [] ++ [client])

/-- `SetKeysWaitingSocket`. -/
def setKeysWaitingSocket (w : Waiting) (keys : List Key) (client : Client) (waitCount : ℤ) :
    Waiting where
  keyWaitingSockets := keys.foldl (register client) w.keyWaitingSockets
  socketWaitKeyNum := w.socketWaitKeyNum.insert client waitCount

/-- The loop of `WakeupWaitingClients` over the clients of a key: those whose count reaches zero,
and the counts left.  A client without a count starts from zero. -/
def countDown : List Client → (AList fun _ : Client => ℤ) →
    List Client × AList fun _ : Client => ℤ
  | [], nums => ([], nums)
  | client :: clients, nums =>
    let num := (nums.lookup client).getD 0 - 1
    if num ≤ 0 then
      let (stop, nums) := countDown clients (nums.erase client)
      (client :: stop, nums)
    else
      countDown clients (nums.insert client num)

/-- `WakeupWaitingClients` up to the release of `spinLock_`: `stopWaitingSockets` and the maps. -/
def wakeupWaitingClients (w : Waiting) (key : Key) : List Client × Waiting :=
  match w.keyWaitingSockets.lookup key with
  | none => ([], w)
  | some clients =>
    let (stop, nums) := countDown clients w.socketWaitKeyNum
    (stop, { keyWaitingSockets := w.keyWaitingSockets.erase key, socketWaitKeyNum := nums })

end Waiting

/-- The message `WakeupWaitingClients` writes to a client. -/
def stopWaitingResponse (client : Client) : StoreMessage :=
  { mt := .wait, fd := client.2, values := [[keysStopWaiting]] }

/-! ### Threads -/

/-- The event a thread is processing. -/
structure Job where
  fd : Fd
  epollOut : Bool
  deriving DecidableEq

/-- Where a worker thread is. -/
inductive Pc
  /-- Before the next event. -/
  | idle
  /-- At the head of `while (HasNextReq())`. -/
  | serving (job : Job)
  /-- The handler has inserted `key` and released `serverLock_`. -/
  | wakeup (job : Job) (key : Key) (response : StoreMessage)
  /-- `spinLock_` is released and the clients are still to be written to. -/
  | notifying (job : Job) (clients : List Client) (response : StoreMessage)
  /-- `process_` has returned. -/
  | responding (job : Job) (response : StoreMessage)
  /-- In `FlushSendBuf`: called by `SendResponse`, or by the `EPOLLOUT` branch when `last`. -/
  | flushing (job : Job) (offset : UInt32) (last : Bool)
  /-- At `if (setEvents != currentEvents_)`. -/
  | finishing (fd : Fd) (setEvents : EventMask)
  deriving DecidableEq

/-- The number of worker threads: `std::max(4U, threadNum)`. -/
def workers (threadNum : ℕ) : ℕ := max 4 threadNum

/-- The thread `ProcessListenEvent` gives a connection to. -/
def worker (threadNum : ℕ) (fd : Fd) : ℕ := fd % workers threadNum

/-- The event being processed, if there is one. -/
def Pc.fd? : Pc → Option Fd
  | .idle => none
  | .serving job => some job.fd
  | .wakeup job _ _ => some job.fd
  | .notifying job _ _ => some job.fd
  | .responding job _ => some job.fd
  | .flushing job _ _ => some job.fd
  | .finishing fd _ => some fd

/-- The clients a thread has still to send `KEYS_STOP_WAITING` to. -/
def Pc.stopping : Pc → List Client
  | .notifying _ clients _ => clients
  | _ => []

/-- The key a thread has inserted and whose waiters it has still to wake. -/
def Pc.waking : Pc → Option Key
  | .wakeup _ key _ => some key
  | _ => none

structure Server where
  keyStore : KeyStore := ∅
  waiting : Waiting := {}
  clientCtx : AList fun _ : Fd => ClientIoContext := ∅
  /-- The open connections with the events they are registered for. -/
  registered : AList fun _ : Fd => EventMask := ∅
  pc : ℕ → Pc := fun _ => .idle

/-- Which thread moves, and what its system calls return. -/
inductive Label
  /-- A listen thread accepts `fd` and adds it to the epoll set of its thread. -/
  | connect (fd : Fd)
  /-- An event with `EPOLLRDHUP` or `EPOLLHUP`. -/
  | hangUp (fd : Fd)
  /-- Another event, and the chunks that arrive during `ReceiveData`. -/
  | event (fd : Fd) (events : EventMask) (chunks : List Bytes)
  /-- The next request up to the release of `serverLock_`, or the end of the loop. -/
  | serve (t : ℕ)
  /-- `WakeupWaitingClients` up to the release of `spinLock_`. -/
  | wakeup (t : ℕ)
  /-- One `write` of `WakeupWaitingClients`. -/
  | notify (t : ℕ) (accepted : ℕ)
  /-- `SendResponse` up to `FlushSendBuf`. -/
  | respond (t : ℕ)
  /-- One `write` of `FlushSendBuf`. -/
  | flush (t : ℕ) (accepted : ℕ)
  /-- The end of `ProcessClientEvent`; `ok` is what `epoll_ctl` returns if it is called. -/
  | finish (t : ℕ) (ok : Bool)

namespace Server

def setPc (s : Server) (t : ℕ) (pc : Pc) : Server := { s with pc := Function.update s.pc t pc }

def setCtx (s : Server) (fd : Fd) (ctx : ClientIoContext) : Server :=
  { s with clientCtx := s.clientCtx.insert fd ctx }

/-- `ctx.find(fd)`, with the context `ctx.emplace` makes when there is none. -/
def ctx (s : Server) (fd : Fd) : ClientIoContext := (s.clientCtx.lookup fd).getD {}

/-- Where `ProcessClientEvent` is after the `EPOLLIN` branch, with `setEvents` as set there. -/
def afterInput (job : Job) (setEvents : EventMask) : Pc :=
  if job.epollOut then .flushing job 0 true else .finishing job.fd setEvents

/-- Where a handler is after it has released `serverLock_`. -/
def afterHandler (job : Job) (handled : Handled) : Pc :=
  match handled.wakeup with
  | some key => .wakeup job key handled.response
  | none => .responding job handled.response

/-- The bytes a step writes, and where. -/
abbrev Output := Option (Fd × Bytes)

/-- A step of the server constructed with `threadNum`. -/
def exec (threadNum : ℕ) (s : Server) : Label → Option (Server × Output)
  | .connect fd =>
    if fd ∈ s.registered then none
    else some ({ s with registered := s.registered.insert fd .all }, none)
  | .hangUp fd =>
    if fd ∈ s.registered ∧ s.pc (worker threadNum fd) = .idle then
      -- `fd = -1; ctx.erase(fd)` erases nothing
      some ({ s with registered := s.registered.erase fd }, none)
    else none
  | .event fd events chunks =>
    if fd ∈ s.registered ∧ s.pc (worker threadNum fd) = .idle then
      let job := ⟨fd, events.epollOut⟩
      if events.epollIn then do
        let ctx ← (s.ctx fd).receiveData chunks
        return ((s.setCtx fd ctx).setPc (worker threadNum fd) (.serving job), none)
      else
        some ((s.setCtx fd (s.ctx fd)).setPc (worker threadNum fd)
          (afterInput job (s.ctx fd).currentEvents), none)
    else none
  | .serve t =>
    match s.pc t with
    | .serving job =>
      if (s.ctx job.fd).hasNextReq then do
        let (request, ctx) := (s.ctx job.fd).nextRequest
        let handled ← processRequest s.keyStore request
        let waiting := match handled.waitKeys with
          | some keys => s.waiting.setKeysWaitingSocket keys (job.fd, request.fd) keys.length
          | none => s.waiting
        return ({ (s.setCtx job.fd ctx).setPc t (afterHandler job handled) with
          keyStore := handled.keyStore
          waiting := waiting }, none)
      else
        let setEvents := if (s.ctx job.fd).sendBufEmpty then EventMask.input else EventMask.all
        some (s.setPc t (afterInput job setEvents), none)
    | _ => none
  | .wakeup t =>
    match s.pc t with
    | .wakeup job key response =>
      let (stop, waiting) := s.waiting.wakeupWaitingClients key
      some ({ s.setPc t (.notifying job stop response) with waiting := waiting }, none)
    | _ => none
  | .notify t accepted =>
    match s.pc t with
    | .notifying job (client :: clients) response =>
      let data := (pack (stopWaitingResponse client)).take accepted
      some (s.setPc t (.notifying job clients response),
        if client.1 ∈ s.registered then some (client.1, data) else none)
    | .notifying job [] response => some (s.setPc t (.responding job response), none)
    | _ => none
  | .respond t =>
    match s.pc t with
    | .responding job response =>
      if response.mt = .skipMsg then
        some (s.setPc t (.serving job), none)
      else
        some ((s.setCtx job.fd ((s.ctx job.fd).appendResponse response)).setPc t
          (.flushing job 0 false), none)
    | _ => none
  | .flush t accepted =>
    match s.pc t with
    | .flushing job offset last =>
      let data := (s.ctx job.fd).writeAt offset accepted
      if data.isEmpty then
        -- the buffer was empty from the start, or `write` returned nothing
        some ((s.setCtx job.fd ((s.ctx job.fd).eraseSent offset)).setPc t
          (if last then .finishing job.fd .input else .serving job), none)
      else
        some (s.setPc t (.flushing job (offset + UInt32.ofNat data.length) last),
          some (job.fd, data))
    | _ => none
  | .finish t ok =>
    match s.pc t with
    | .finishing fd setEvents =>
      if setEvents = (s.ctx fd).currentEvents then
        some (s.setPc t .idle, none)
      else if ok then
        some ({ (s.setCtx fd { s.ctx fd with currentEvents := setEvents }).setPc t .idle with
          registered := s.registered.insert fd setEvents }, none)
      else
        some ({ s.setPc t .idle with
          registered := s.registered.erase fd
          clientCtx := s.clientCtx.erase fd }, none)
    | _ => none

/-- The state after a step. -/
def next (threadNum : ℕ) (s : Server) (l : Label) : Option Server :=
  (exec threadNum s l).map Prod.fst

/-- The server after the steps `ls`, from its start. -/
def runFromStart (threadNum : ℕ) (ls : List Label) : Option Server :=
  Machine.run (next threadNum) {} ls

end Server

end TorchNpu.Store
