/-
  The buffers of one connection: `ClientIoContext` (`ParallelTcpServer.hpp`,
  `ParallelTcpServer.cpp`).

  The socket is non-blocking.  `ReceiveData` reads until a read returns nothing, so a call is
  described by the chunks that arrive while it runs: a chunk is taken by as many reads as the room
  behind `recSize_` makes necessary.  `FlushSendBuf` is given write by write, because other threads
  write to the same socket in between.

  `recSize_` and the local `offset` of `FlushSendBuf` are `uint32_t` while the buffers are sized by
  `size_t`; both are kept at their widths.
-/
import TorchNpu.Store.Packer

namespace TorchNpu.Store

/-- The epoll event bits a connection is registered with; `EPOLLRDHUP` and `EPOLLHUP` are always
among them. -/
structure EventMask where
  epollIn : Bool
  epollOut : Bool
  deriving DecidableEq

/-- `EPOLLIN | EPOLLOUT | EPOLLRDHUP | EPOLLHUP`. -/
def EventMask.all : EventMask := ⟨true, true⟩

/-- `EPOLLIN | EPOLLRDHUP | EPOLLHUP`. -/
def EventMask.input : EventMask := ⟨true, false⟩

structure ClientIoContext where
  currentEvents : EventMask := .all
  recSize : UInt32 := 0
  recBuf : Bytes := []
  sendBuf : Bytes := []
  requests : List StoreMessage := []
  deriving DecidableEq

def bufferLowLevel : ℕ := 32

def bufferExpendSize : ℕ := 256

namespace ClientIoContext

/-! ### Receiving -/

/-- The head of the read loop: make room behind `recSize_`. -/
def expendRecBuf (ctx : ClientIoContext) : ClientIoContext :=
  if ctx.recBuf.length - ctx.recSize.toNat < bufferLowLevel then
    { ctx with recBuf := ctx.recBuf ++ List.replicate bufferExpendSize 0 }
  else
    ctx

/-- The room a read may fill. -/
def room (ctx : ClientIoContext) : ℕ := ctx.recBuf.length - ctx.recSize.toNat

/-- A read that returns `data`: the bytes land behind `recSize_`, over what was there. -/
def readInto (ctx : ClientIoContext) (data : Bytes) : ClientIoContext :=
  { ctx with
    recBuf := ctx.recBuf.take ctx.recSize.toNat ++ data
      ++ ctx.recBuf.drop (ctx.recSize.toNat + data.length)
    recSize := ctx.recSize + UInt32.ofNat data.length }

/-- The rounds of the read loop that take one chunk; each takes at most the room there is. -/
def readLoop : ℕ → ClientIoContext → Bytes → ClientIoContext
  | 0, ctx, _ => ctx
  | fuel + 1, ctx, chunk =>
    if chunk.isEmpty then
      ctx
    else
      let ctx := ctx.expendRecBuf
      readLoop fuel (ctx.readInto (chunk.take ctx.room)) (chunk.drop ctx.room)

def readChunk (ctx : ClientIoContext) (chunk : Bytes) : ClientIoContext :=
  readLoop chunk.length ctx chunk

/-- The extraction loop of `ReceiveData`.  `request` is the local message `Unpack` fills; moving it
into `requests_` leaves its two vectors empty.  There is no result when `Unpack` leaves the
buffer. -/
def extract : ℕ → ClientIoContext → StoreMessage → Option ClientIoContext
  | 0, ctx, _ => some ctx
  | fuel + 1, ctx, request => do
    let (used, request) ← (unpack ctx.recBuf request).value
    if used > 0 then
      extract fuel
        { ctx with
          requests := ctx.requests ++ [request]
          recBuf := ctx.recBuf.drop used.toNat
          recSize := ctx.recSize - UInt32.ofNat used.toNat }
        { request with keys := [], values := [] }
    else
      some ctx

/-- `recBuf_.resize(recSize_)`. -/
def resizeRecBuf (ctx : ClientIoContext) : ClientIoContext :=
  { ctx with recBuf := ctx.recBuf.take ctx.recSize.toNat
      ++ List.replicate (ctx.recSize.toNat - ctx.recBuf.length) 0 }

/-- `ClientIoContext::ReceiveData`, while `chunks` arrive.  The last round of the read loop expands
the buffer and then reads nothing. -/
def receiveData (ctx : ClientIoContext) (chunks : List Bytes) : Option ClientIoContext :=
  let ctx := (chunks.foldl readChunk ctx).expendRecBuf.resizeRecBuf
  extract (ctx.recBuf.length + 1) ctx {}

/-- `ClientIoContext::HasNextReq`. -/
def hasNextReq (ctx : ClientIoContext) : Bool := !ctx.requests.isEmpty

/-- `ClientIoContext::NextRequest`. -/
def nextRequest (ctx : ClientIoContext) : StoreMessage × ClientIoContext :=
  match ctx.requests with
  | [] => ({}, ctx)
  | request :: requests => (request, { ctx with requests := requests })

/-- `while (HasNextReq()) { … NextRequest() … }`: the requests in the order they are taken. -/
def takeRequests : ℕ → ClientIoContext → List StoreMessage × ClientIoContext
  | 0, ctx => ([], ctx)
  | fuel + 1, ctx =>
    if ctx.hasNextReq then
      let (request, ctx) := ctx.nextRequest
      let (requests, ctx) := takeRequests fuel ctx
      (request :: requests, ctx)
    else
      ([], ctx)

/-- Successive calls of `ReceiveData`, each followed by taking all requests: the requests taken
and the context after the last call. -/
def receiveAll : ClientIoContext → List (List Bytes) → Option (List StoreMessage × ClientIoContext)
  | ctx, [] => some ([], ctx)
  | ctx, chunks :: calls => do
    let ctx ← ctx.receiveData chunks
    let (requests, ctx) := takeRequests ctx.requests.length ctx
    let (later, ctx) ← receiveAll ctx calls
    return (requests ++ later, ctx)

/-! ### Sending -/

/-- The head of `SendResponse`, before it calls `FlushSendBuf`. -/
def appendResponse (ctx : ClientIoContext) (response : StoreMessage) : ClientIoContext :=
  { ctx with sendBuf := ctx.sendBuf ++ pack response }

/-- What one `write` of `FlushSendBuf` at `offset` takes when the socket accepts `accepted` bytes;
nothing when it refuses. -/
def writeAt (ctx : ClientIoContext) (offset : UInt32) (accepted : ℕ) : Bytes :=
  (ctx.sendBuf.drop offset.toNat).take accepted

/-- The end of `FlushSendBuf`: drop what was written. -/
def eraseSent (ctx : ClientIoContext) (offset : UInt32) : ClientIoContext :=
  { ctx with sendBuf := ctx.sendBuf.drop offset.toNat }

/-- `ClientIoContext::SendBufEmpty`. -/
def sendBufEmpty (ctx : ClientIoContext) : Bool := ctx.sendBuf.isEmpty

end ClientIoContext

end TorchNpu.Store
