/-
  A connection on its own: what a client may expect to talk to.

  `Connection` is the abstract counterpart of everything the server keeps for one descriptor, and
  `Connection.step` its behaviour on what it gets to see: the bytes and events of the descriptor,
  the store contents at the moment one of its requests is handled, the keys whose waiters are woken,
  and how much each `write` to it takes.  Nothing else goes into the bytes sent to the client, and
  `KEYS_STOP_WAITING` is sent only for a registration that the connection itself has made.

  A new connection is `Connection.fresh`, whatever happened before on the same descriptor.
-/
import TorchNpu.Store.Server

namespace TorchNpu.Store

/-- Where the connection's thread is in `ProcessClientEvent` for it. -/
inductive Phase
  | away
  | serving (epollOut : Bool)
  | wakeup (epollOut : Bool) (key : Key) (response : StoreMessage)
  | notifying (epollOut : Bool) (response : StoreMessage)
  | responding (epollOut : Bool) (response : StoreMessage)
  | flushing (epollOut : Bool) (offset : UInt32) (last : Bool)
  | finishing

@[ext]
structure Connection where
  isOpen : Bool := false
  /-- The buffers; the registered events play no part here. -/
  io : ClientIoContext := {}
  /-- For each key, the request fds registered for it. -/
  waitingFor : Key → List Int32 := fun _ => []
  /-- The count of each request fd that waits. -/
  counts : Int32 → Option ℤ := fun _ => none
  /-- For each thread, the request fds it has still to tell to stop waiting. -/
  stopping : ℕ → List Int32 := fun _ => []
  phase : Phase := .away

/-- What a connection sees of one step of the server. -/
inductive Observation
  | connect
  | hangUp
  | event (events : EventMask) (chunks : List Bytes)
  /-- Its next request is handled on these contents of the store. -/
  | serve (keyStore : KeyStore)
  /-- Thread `t` wakes the waiters of `key`; `own` if on behalf of this connection's request. -/
  | woken (own : Bool) (t : ℕ) (key : Key)
  /-- Thread `t` writes `KEYS_STOP_WAITING` to it. -/
  | notify (t : ℕ) (accepted : ℕ)
  /-- Its own thread has nobody left to notify. -/
  | notified
  | respond
  | flush (accepted : ℕ)
  /-- Its event is done; `closed` if the server closes it. -/
  | finish (closed : Bool)

namespace Connection

/-- A connection that has just been opened. -/
def fresh : Connection := { isOpen := true }

def afterInput (epollOut : Bool) : Phase := if epollOut then .flushing epollOut 0 true else .finishing

def afterHandler (epollOut : Bool) (handled : Handled) : Phase :=
  match handled.wakeup with
  | some key => .wakeup epollOut key handled.response
  | none => .responding epollOut handled.response

/-- The loop over the clients of a woken key, for the request fds of one connection. -/
def countDown : List Int32 → (Int32 → Option ℤ) → List Int32 × (Int32 → Option ℤ)
  | [], counts => ([], counts)
  | fd :: fds, counts =>
    let num := (counts fd).getD 0 - 1
    if num ≤ 0 then
      let (stop, counts) := countDown fds (Function.update counts fd none)
      (fd :: stop, counts)
    else
      countDown fds (Function.update counts fd (some num))

/-- The registrations a handled request makes. -/
def register (c : Connection) (fd : Int32) : Option (List Key) → Connection
  | some keys =>
    { c with
      waitingFor := fun key => c.waitingFor key ++ List.replicate (keys.count key) fd
      counts := Function.update c.counts fd (some keys.length) }
  | none => c

/-- Its own request's handler goes on to notify the clients it has woken. -/
def afterWakeup (own : Bool) : Phase → Phase
  | .wakeup epollOut key response =>
    if own then .notifying epollOut response else .wakeup epollOut key response
  | phase => phase

/-- Thread `t` wakes the waiters of `key`. -/
def wake (c : Connection) (own : Bool) (t : ℕ) (key : Key) : Connection :=
  let (stop, counts) := countDown (c.waitingFor key) c.counts
  { c with
    waitingFor := Function.update c.waitingFor key []
    counts := counts
    stopping := Function.update c.stopping t stop
    phase := afterWakeup own c.phase }

/-- One step of a connection and the bytes written to its client. -/
def step (c : Connection) : Observation → Option (Connection × Bytes)
  | .connect => if c.isOpen then none else some ({ c with isOpen := true }, [])
  | .hangUp => if c.isOpen then some ({ c with isOpen := false }, []) else none
  | .event events chunks =>
    if events.epollIn then
      (c.io.receiveData chunks).map fun io =>
        ({ c with io := io, phase := .serving events.epollOut }, [])
    else
      some ({ c with phase := afterInput events.epollOut }, [])
  | .serve keyStore =>
    match c.phase with
    | .serving epollOut =>
      match c.io.requests with
      | [] => some ({ c with phase := afterInput epollOut }, [])
      | request :: requests =>
        (processRequest keyStore request).map fun handled =>
          ({ c.register request.fd handled.waitKeys with
            io := { c.io with requests := requests }
            phase := afterHandler epollOut handled }, [])
    | _ => none
  | .woken own t key => some (c.wake own t key, [])
  | .notify t accepted =>
    match c.stopping t with
    | fd :: fds =>
      some ({ c with stopping := Function.update c.stopping t fds },
        if c.isOpen then
          (pack { mt := .wait, fd := fd, values := [[keysStopWaiting]] }).take accepted
        else [])
    | [] => none
  | .notified =>
    match c.phase with
    | .notifying epollOut response => some ({ c with phase := .responding epollOut response }, [])
    | _ => none
  | .respond =>
    match c.phase with
    | .responding epollOut response =>
      if response.mt = .skipMsg then
        some ({ c with phase := .serving epollOut }, [])
      else
        some ({ c with
          io := c.io.appendResponse response, phase := .flushing epollOut 0 false }, [])
    | _ => none
  | .flush accepted =>
    match c.phase with
    | .flushing epollOut offset last =>
      let data := c.io.writeAt offset accepted
      if data.isEmpty then
        some ({ c with
          io := c.io.eraseSent offset
          phase := if last then .finishing else .serving epollOut }, [])
      else
        some ({ c with
          phase := .flushing epollOut (offset + UInt32.ofNat data.length) last }, data)
    | _ => none
  | .finish closed =>
    match c.phase with
    | .finishing =>
      if closed then some ({ c with isOpen := false, io := {}, phase := .away }, [])
      else some ({ c with phase := .away }, [])
    | _ => none

/-- All bytes a connection sends along its observations, if it can take these steps. -/
def sends : Connection → List Observation → Option Bytes
  | _, [] => some []
  | c, o :: os =>
    (c.step o).bind fun (c', bytes) => (sends c' os).map fun later => bytes ++ later

end Connection

/-! ### The connection inside the server -/

namespace Server

/-- The request fds of the clients on one socket. -/
def onSocket (fd : Fd) (clients : List Client) : List Int32 :=
  clients.filterMap fun client => if client.1 = fd then some client.2 else none

def phaseOf (fd : Fd) (pc : Pc) : Phase :=
  if pc.fd? = some fd then
    match pc with
    | .idle => .away
    | .serving job => .serving job.epollOut
    | .wakeup job key response => .wakeup job.epollOut key response
    | .notifying job _ response => .notifying job.epollOut response
    | .responding job response => .responding job.epollOut response
    | .flushing job offset last => .flushing job.epollOut offset last
    | .finishing _ _ => .finishing
  else
    .away

/-- What the server keeps for the descriptor `fd`. -/
def connection (threadNum : ℕ) (s : Server) (fd : Fd) : Connection where
  isOpen := decide (fd ∈ s.registered)
  io := { s.ctx fd with currentEvents := .all }
  waitingFor := fun key => onSocket fd ((s.waiting.keyWaitingSockets.lookup key).getD [])
  counts := fun workerFd => s.waiting.socketWaitKeyNum.lookup (fd, workerFd)
  stopping := fun t => onSocket fd (s.pc t).stopping
  phase := phaseOf fd (s.pc (worker threadNum fd))

/-- What the connection on `fd` sees of a step. -/
def observe (s : Server) (fd : Fd) : Label → Option Observation
  | .connect fd' => if fd' = fd then some .connect else none
  | .hangUp fd' => if fd' = fd then some .hangUp else none
  | .event fd' events chunks => if fd' = fd then some (.event events chunks) else none
  | .serve t => if (s.pc t).fd? = some fd then some (.serve s.keyStore) else none
  | .wakeup t =>
    match s.pc t with
    | .wakeup job key _ => some (.woken (decide (job.fd = fd)) t key)
    | _ => none
  | .notify t accepted =>
    match s.pc t with
    | .notifying _ (client :: _) _ => if client.1 = fd then some (.notify t accepted) else none
    | .notifying job [] _ => if job.fd = fd then some .notified else none
    | _ => none
  | .respond t => if (s.pc t).fd? = some fd then some .respond else none
  | .flush t accepted => if (s.pc t).fd? = some fd then some (.flush accepted) else none
  | .finish t ok =>
    match s.pc t with
    | .finishing fd' setEvents =>
      if fd' = fd then
        some (.finish (decide (setEvents ≠ (s.ctx fd').currentEvents) && !ok)) else none
    | _ => none

/-- The bytes of an output that go to `fd`. -/
def bytesTo (fd : Fd) : Output → Bytes
  | some (fd', data) => if fd' = fd then data else []
  | none => []

/-- What the connection on `fd` sees of a run. -/
def observations (threadNum : ℕ) (fd : Fd) : Server → List Label → List Observation
  | _, [] => []
  | s, l :: ls =>
    match exec threadNum s l with
    | some (s', _) => (s.observe fd l).toList ++ observations threadNum fd s' ls
    | none => []

/-- The bytes the server sends to `fd` during a run. -/
def sentTo (threadNum : ℕ) (fd : Fd) : Server → List Label → Bytes
  | _, [] => []
  | s, l :: ls =>
    match exec threadNum s l with
    | some (s', out) => bytesTo fd out ++ sentTo threadNum fd s' ls
    | none => []

end Server

end TorchNpu.Store
