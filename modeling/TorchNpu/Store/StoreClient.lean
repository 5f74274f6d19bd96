/-
  The client of the store: the operations of `ParallelTcpStore` (`ParallelTcpStore.cpp`), the
  requests they send, and `Client::SyncCall` (`StoreClient.cpp`).

  An operation makes one request after the other and reads the reply to each.  The requests are built
  with `fd = 0`; `Proxy::HandleLocalServerMessage` forwards them with the descriptor of the local
  client, or `-1` for its own.

  `Peer` is the server as one client sees it: its requests, what the two maps of waiting clients
  hold for it, and the messages written to it.  Requests and replies are taken message by message
  here; how their bytes get through the buffers of the server is the subject of `ClientIo` and
  `Connection`.  The calls are numbered, and every message carries the number of the call it belongs
  to, which neither side can see.
-/
import TorchNpu.Store.Handlers
import TorchNpu.Lib.Machine
import TorchNpu.Lib.Framing

namespace TorchNpu.Store

/-! ### Operations -/

/-- A call of a member function of `ParallelTcpStore`; `check` throws before it sends anything. -/
inductive Operation
  | set (key : Key) (value : Bytes)
  | compareSet (key : Key) (currentValue newValue : Bytes)
  | get (key : Key)
  | add (key : Key) (value : Int64)
  | deleteKey (key : Key)
  | getNumKeys
  | wait (keys : List Key)

/-- The requests of an operation, in the order they are sent. -/
def Operation.requests : Operation → List StoreMessage
  | .set key value => [{ mt := .set, keys := [key], values := [value] }]
  | .compareSet key currentValue newValue =>
    [{ mt := .compareSet, keys := [key], values := [currentValue, newValue] }]
  | .get key => [{ mt := .wait, keys := [key] }, { mt := .get, keys := [key] }]
  | .add key value => [{ mt := .add, keys := [key], values := [packPod value.toInt] }]
  | .deleteKey key => [{ mt := .deleteKey, keys := [key] }]
  | .getNumKeys => [{ mt := .getNumKeys }]
  | .wait keys => [{ mt := .wait, keys := keys }]

/-- A request as it reaches the server, from a client of its own or forwarded by a proxy. -/
def ApiRequest (request : StoreMessage) : Prop :=
  ∃ op : Operation, { request with fd := 0 } ∈ op.requests

/-- The types of these requests. -/
def MessageType.isCalled : MessageType → Bool
  | .set | .compareSet | .get | .add | .wait | .getNumKeys | .deleteKey => true
  | _ => false

/-! ### The server behind one client -/

/-- A message and the call it belongs to, if it is one of this client's. -/
abbrev Tagged := Option ℕ × StoreMessage

/-- What a message looks like on the socket. -/
def frame (message : Tagged) : Bytes := pack message.2

/-- What the server keeps for a client, which is a socket and the `fd` of its requests. -/
structure Peer where
  /-- The requests sent and not yet handled. -/
  requests : List Tagged := []
  /-- What the last handler returned, until it is written. -/
  response : Option Tagged := none
  /-- The keys of `keyWaitingSockets_` the client stands under, once for each time. -/
  waitingFor : List Key := []
  /-- Its entry in `socketWaitKeyNum_`. -/
  count : Option ℤ := none
  /-- The call whose keys were registered last. -/
  waitCall : Option ℕ := none
  /-- The calls for which a thread has still to write `KEYS_STOP_WAITING`. -/
  stopping : List (Option ℕ) := []
  /-- All messages written to the socket. -/
  written : List Tagged := []

namespace Peer

inductive Label
  /-- The next request is handled on these contents of the store. -/
  | serve (keyStore : KeyStore)
  /-- The reply is written. -/
  | respond
  /-- A handler, for whichever client, wakes the waiters of a key. -/
  | wakeup (key : Key)
  /-- A thread writes one of the outstanding `KEYS_STOP_WAITING`. -/
  | notify (i : ℕ)

/-- The loop of `WakeupWaitingClients` on a client that stands `n` times under the key: how often
its count reaches zero, and the count left. -/
def countDown : ℕ → Option ℤ → ℕ × Option ℤ
  | 0, count => (0, count)
  | n + 1, count =>
    let num := count.getD 0 - 1
    if num ≤ 0 then
      let (stop, count) := countDown n none
      (stop + 1, count)
    else
      countDown n (some num)

/-- `SetKeysWaitingSocket` in the handler of the call, if it was called. -/
def register (p : Peer) (call : Option ℕ) : Option (List Key) → Peer
  | some keys =>
    { p with waitingFor := p.waitingFor ++ keys, count := some keys.length, waitCall := call }
  | none => p

/-- A message is written; a `std::vector` holds less than `2 ^ 63` bytes. -/
def write (p : Peer) (message : Tagged) : Option Peer :=
  if (frame message).length < 2 ^ 63 then some { p with written := p.written ++ [message] }
  else none

/-- A step of the server for the client with this request `fd`. -/
def step (fd : Int32) (p : Peer) : Label → Option Peer
  | .serve keyStore =>
    match p.response, p.requests with
    | none, (call, request) :: requests =>
      (processRequest keyStore request).map fun handled =>
        { p.register call handled.waitKeys with
          requests := requests
          response := some (call, handled.response) }
    | _, _ => none
  | .respond =>
    match p.response with
    | some (call, response) =>
      if response.mt = .skipMsg then some { p with response := none }
      else { p with response := none }.write (call, response)
    | none => none
  | .wakeup key =>
    let (stop, count) := countDown (p.waitingFor.count key) p.count
    some { p with
      waitingFor := p.waitingFor.filter fun key' => decide (key' ≠ key)
      count := count
      stopping := p.stopping ++ List.replicate stop p.waitCall }
  | .notify i =>
    match p.stopping[i]? with
    | some call =>
      { p with stopping := p.stopping.eraseIdx i }.write
        (call, { mt := .wait, fd := fd, values := [[keysStopWaiting]] })
    | none => none

/-- All bytes written to the socket. -/
def stream (p : Peer) : Bytes := p.written.flatMap frame

/-- A request goes to the server. -/
def request (p : Peer) (message : Tagged) : Peer :=
  { p with requests := p.requests ++ [message] }

end Peer

/-- A call that returned 0, with the position in the received bytes where its response began. -/
structure Returned where
  number : ℕ
  position : ℕ
  response : StoreMessage
  deriving DecidableEq

/-- The message that begins at a position of the stream. -/
def messageAt : List Tagged → ℕ → Option Tagged
  | [], _ => none
  | message :: messages, position =>
    if position = 0 then some message
    else if position < (frame message).length then none
    else messageAt messages (position - (frame message).length)

/-! ### `Client::SyncCall` -/

/-- `READ_BUF_SZ`. -/
def readBufSz : ℕ := 256

/-- A call that waits in `read`, with its local `responseBuf` and the message `response` of its
caller. -/
structure Call where
  number : ℕ
  request : StoreMessage
  responseBuf : Bytes := []
  response : StoreMessage := {}

/-- How `while (!responseBuf.empty())` ends. -/
inductive Unpacked
  /-- Nothing is left. -/
  | again (response : StoreMessage)
  /-- `Unpack` has returned a negative number. -/
  | failed
  /-- The response has the type of the request; `left` bytes were in the buffer before it. -/
  | done (left : ℕ) (response : StoreMessage)

/-- The loop `while (!responseBuf.empty())`.  There is no result when `Unpack` leaves the buffer, or
when it returns zero for ever. -/
def unpackLoop (mt : MessageType) : ℕ → Bytes → StoreMessage → Option Unpacked
  | 0, _, _ => none
  | fuel + 1, responseBuf, response =>
    if responseBuf.isEmpty then
      some (.again response)
    else
      (unpack responseBuf response).value.bind fun (unpackRet, response) =>
        if unpackRet < 0 then some .failed
        else if response.mt = mt then some (.done responseBuf.length response)
        else unpackLoop mt fuel (responseBuf.drop unpackRet.toNat) response

/-- A client with its socket. -/
structure StoreClient where
  peer : Peer := {}
  /-- How many calls were made. -/
  sent : ℕ := 0
  /-- How many bytes were read from the socket. -/
  consumed : ℕ := 0
  call : Option Call := none
  returned : List Returned := []

namespace StoreClient

inductive Label
  /-- `SyncCall` up to its first `read`. -/
  | call (request : StoreMessage)
  /-- A `read` that returns at most `n` bytes, and what follows up to the next one. -/
  | read (n : ℕ)
  /-- A `read` that fails, as it does when the receive timeout is over. -/
  | timeout
  /-- The server moves. -/
  | peer (l : Peer.Label)

/-- What a `read` of at most `n` bytes returns. -/
def received (s : StoreClient) (n : ℕ) : Bytes :=
  (s.peer.stream.drop s.consumed).take (min n readBufSz)

/-- A step of a client whose requests reach the server with this `fd`: 0, or its descriptor in the
proxy it is connected to. -/
def step (fd : Int32) (s : StoreClient) : Label → Option StoreClient
  | .call request =>
    if s.call.isNone && request.mt.isCalled then
      some { s with
        peer := s.peer.request (some s.sent, { request with fd := fd })
        sent := s.sent + 1
        call := some { number := s.sent, request := request } }
    else none
  | .read n =>
    match s.call with
    | some call =>
      let responseBuf := call.responseBuf ++ s.received n
      let consumed := s.consumed + (s.received n).length
      if full responseBuf then
        (unpackLoop call.request.mt (responseBuf.length + 1) responseBuf call.response).map fun
          | .again response =>
            { s with
              consumed := consumed
              call := some { call with responseBuf := [], response := response } }
          | .failed => { s with consumed := consumed, call := none }
          | .done left response =>
            -- what is left of `responseBuf` goes with it
            { s with
              consumed := consumed
              call := none
              returned := s.returned ++ [⟨call.number, consumed - left, response⟩] }
      else
        some { s with
          consumed := consumed, call := some { call with responseBuf := responseBuf } }
    | none => none
  | .timeout => if s.call.isSome then some { s with call := none } else none
  | .peer l => (s.peer.step fd l).map fun peer => { s with peer := peer }

end StoreClient

end TorchNpu.Store

/-!
  The proxy of an agent: `Proxy::SyncCall`, `HandleLocalServerMessage` and `LoopProcessData`
  (`ParallelStoreProxy.cpp`).

  The requests of the local clients and the proxy's own share one connection to the server, on which
  they carry the descriptor of the local client or `-1`.  `LoopProcessData` reads that connection in
  a thread of its own; it hands a reply with a negative descriptor over through `proxyMsg_` and
  `localWaitCond_`, and writes the others to their local client.

  A call holds `localMutex_` except while it waits, and `ParallelTcpStore` makes one call at a time,
  so a call, the handing over of a message and the return from `wait` are one step each.  `wait` may
  return when nobody has notified.
-/

namespace TorchNpu.Store

/-- A call in `localWaitCond_.wait`. -/
structure ProxyCall where
  number : ℕ
  request : StoreMessage
  /-- `notify_all` has been called since it waits. -/
  notified : Bool := false

structure Proxy where
  peer : Peer := {}
  sent : ℕ := 0
  consumed : ℕ := 0
  /-- `responseBuf` of `LoopProcessData`. -/
  responseBuf : Bytes := []
  proxyMsg : StoreMessage := {}
  /-- Where in the received bytes `proxyMsg_` began. -/
  position : ℕ := 0
  call : Option ProxyCall := none
  returned : List Returned := []

namespace Proxy

inductive Label
  /-- `SyncCall` up to its first `wait`. -/
  | call (request : StoreMessage)
  /-- `wait` returns. -/
  | wake
  /-- One `read` of `LoopProcessData`, of at most `n` bytes. -/
  | read (n : ℕ)
  /-- The rest of the body of its outer loop. -/
  | process
  /-- The server writes a message for one of the local clients. -/
  | other (message : StoreMessage)
  /-- The server moves for the proxy. -/
  | peer (l : Peer.Label)

/-- What a `read` of at most `n` bytes returns. -/
def received (p : Proxy) (n : ℕ) : Bytes :=
  (p.peer.stream.drop p.consumed).take (min n readBufSz)

/-- The descriptor of the proxy's own requests. -/
def ownFd : Int32 := -1

def step (p : Proxy) : Label → Option Proxy
  | .call request =>
    if p.call.isNone && request.mt.isCalled then
      some { p with
        peer := p.peer.request (some p.sent, { request with fd := ownFd })
        sent := p.sent + 1
        call := some { number := p.sent, request := request } }
    else none
  | .wake =>
    match p.call with
    | some call =>
      if call.request.mt = p.proxyMsg.mt then
        some { p with
          call := none
          returned := p.returned ++ [⟨call.number, p.position, p.proxyMsg⟩] }
      else
        some { p with call := some { call with notified := false } }
    | none => none
  | .read n =>
    if full p.responseBuf then none
    else
      some { p with
        responseBuf := p.responseBuf ++ p.received n
        consumed := p.consumed + (p.received n).length }
  | .process =>
    if full p.responseBuf then
      (unpack p.responseBuf {}).value.map fun (unpackRet, response) =>
        if unpackRet < 0 then p
        else if response.fd < 0 then
          { p with
            proxyMsg := response
            position := p.consumed - p.responseBuf.length
            call := p.call.map fun call => { call with notified := true }
            responseBuf := p.responseBuf.drop unpackRet.toNat }
        else
          { p with responseBuf := p.responseBuf.drop unpackRet.toNat }
    else none
  | .other message =>
    if 0 ≤ message.fd then (p.peer.write (none, message)).map fun peer => { p with peer := peer }
    else none
  | .peer l => (p.peer.step ownFd l).map fun peer => { p with peer := peer }

end Proxy

end TorchNpu.Store

/-!
  The read loops of `Client::SyncCall` (`StoreClient.cpp`) and `Proxy::LoopProcessData`
  (`ParallelStoreProxy.cpp`), step by step.

  `StoreClient` and `StoreProxy` take a `read` and all that follows it in one step.  Here every pass
  of every loop is a step of its own, so that it can be asked whether a loop ends, and the results
  of the reads are given in advance.  After them the end of the file is reached, where every `read`
  returns 0.
-/

namespace TorchNpu.Store

/-- What a `read` returns; no bytes are a 0. -/
inductive ReadResult
  | data (bytes : Bytes)
  /-- A negative number, with `EINTR`. -/
  | interrupted
  /-- A negative number, with another error. -/
  | failed
  deriving DecidableEq

/-! ### `Client::SyncCall` -/

/-- Where in its loops a call is. -/
inductive SyncCallPhase
  /-- Before `read`. -/
  | read
  /-- At the test of `while (!responseBuf.empty())`. -/
  | unpack
  | returned (result : ℤ)
  /-- `Unpack` has left the buffer. -/
  | undefined
  deriving DecidableEq

/-- A call that has written its request. -/
structure SyncCall where
  /-- The type of the request. -/
  mt : MessageType
  unread : List ReadResult
  /-- How many bytes were read from the socket. -/
  consumed : ℕ := 0
  responseBuf : Bytes := []
  response : StoreMessage := {}
  phase : SyncCallPhase := .read
  deriving DecidableEq

namespace SyncCall

/-- `while (!StoreMessagePacker::Full(responseBuf))` -/
def testFull (s : SyncCall) : SyncCall :=
  { s with phase := if full s.responseBuf then .unpack else .read }

def step (s : SyncCall) : SyncCall :=
  match s.phase with
  | .read =>
    match s.unread with
    | [] => s.testFull
    | .data bytes :: unread =>
      { s with
        unread := unread
        consumed := s.consumed + bytes.length
        responseBuf := s.responseBuf ++ bytes }.testFull
    | .interrupted :: unread => { s with unread := unread }.testFull
    | .failed :: unread => { s with unread := unread, phase := .returned (-1) }
  | .unpack =>
    if s.responseBuf.isEmpty then { s with phase := .read }
    else
      match (unpack s.responseBuf s.response).value with
      | none => { s with phase := .undefined }
      | some (unpackRet, response) =>
        if unpackRet < 0 then { s with response := response, phase := .returned (-1) }
        else
          { s with
            responseBuf := s.responseBuf.drop unpackRet.toNat
            response := response
            phase := if response.mt = s.mt then .returned 0 else .unpack }
  | .returned _ | .undefined => s

/-- The call comes to its end. -/
def Returns (s : SyncCall) : Prop :=
  ∃ n result, (step^[n] s).phase = .returned result

end SyncCall

/-! ### `Proxy::LoopProcessData` -/

/-- Where in the body of its outer loop the thread is. -/
inductive ProcessPhase
  /-- At the test of `while (!StoreMessagePacker::Full(responseBuf))`. -/
  | read
  /-- `WriteData` at an offset; the body goes on behind it with the rest of the buffer. -/
  | write (offset : UInt32) (unpackSize : ℤ)
  /-- The end of the body, or a `continue`. -/
  | done
  /-- `Unpack` has left the buffer. -/
  | undefined

/-- The body of the outer loop of `LoopProcessData`. -/
structure ProcessData where
  unread : List ReadResult
  /-- How many bytes the writes to local clients can take, one after the other; at 0 a `write` fails. -/
  writes : ℕ → ℕ
  responseBuf : Bytes := []
  proxyMsg : StoreMessage := {}
  phase : ProcessPhase := .read

namespace ProcessData

def step (p : ProcessData) : ProcessData :=
  match p.phase with
  | .read =>
    if full p.responseBuf then
      match (unpack p.responseBuf {}).value with
      | none => { p with phase := .undefined }
      | some (unpackRet, response) =>
        if unpackRet < 0 then { p with phase := .done }
        else if response.fd < 0 then
          { p with
            proxyMsg := response
            responseBuf := p.responseBuf.drop unpackRet.toNat
            phase := .done }
        else { p with phase := .write 0 unpackRet }
    else
      match p.unread with
      | [] => p
      | .data bytes :: unread => { p with unread := unread, responseBuf := p.responseBuf ++ bytes }
      | .interrupted :: unread => { p with unread := unread }
      | .failed :: unread => { p with unread := unread, phase := .done }
  | .write offset unpackSize =>
    let written := { p with responseBuf := p.responseBuf.drop unpackSize.toNat, phase := .done }
    if (offset.toNat : ℤ) < unpackSize then
      let ret := min (p.writes 0) (unpackSize.toNat - offset.toNat)
      if ret = 0 then written
      else
        { p with
          writes := fun i => p.writes (i + 1)
          phase := .write (offset + UInt32.ofNat ret) unpackSize }
    else written
  | .done | .undefined => p

/-- The body comes to its end. -/
def Returns (p : ProcessData) : Prop :=
  ∃ n, (step^[n] p).phase = .done

end ProcessData

end TorchNpu.Store
