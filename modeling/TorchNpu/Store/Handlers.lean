/-
  The request handlers of the store server (`ParallelTcpStore.cpp`), up to the point where each
  gives `serverLock_` back.

  A handler runs one critical section on `keyStore_`; `Handled` is everything it decides there: the
  new contents, the keys `ProcessWaitKeysRequest` registers (still holding the lock), the key whose
  waiters are to be woken after the lock was released, and the reply.  There is no result where the
  C++ code indexes past a vector or where `std::stoll` throws out of a `noexcept` function.

  `ProcessGetRequest` and `ProcessCompareSetRequest` copy `pos->second` just after unlocking; the
  copy is taken in the critical section here.  `ProcessAddRequest` also signals `WaitWorkers`, which
  is not part of this model.
-/
import TorchNpu.Store.Packer
import Mathlib.Data.List.AList

namespace TorchNpu.Store

abbrev Key := Bytes

/-- `keyStore_`. -/
abbrev KeyStore := AList fun _ : Key => Bytes

/-- What a handler has decided when it releases `serverLock_`. -/
structure Handled where
  keyStore : KeyStore
  /-- The arguments `keys` of `SetKeysWaitingSocket`, when it was called. -/
  waitKeys : Option (List Key) := none
  /-- The key of the pending `WakeupWaitingClients`, if there is one. -/
  wakeup : Option Key := none
  response : StoreMessage

/-! ### Numbers in the store -/

/-- `PackPod` of an eight-byte integer. -/
def packPod (v : ℤ) : Bytes := leEncode 8 (v % 2 ^ 64).toNat

/-- `UnpackPod<int64_t>`. -/
def unpackPod (vec : Bytes) : Option ℤ :=
  if vec.length < 8 then none else some (toInt64 (leDecode (vec.take 8)))

/-- `isspace` in the C locale. -/
def isSpace (b : UInt8) : Bool := b == 32 || (9 ≤ b && b ≤ 13)

def isDigit (b : UInt8) : Bool := 48 ≤ b && b ≤ 57

/-- `std::stoll`; no result when it throws. -/
def stoll (str : Bytes) : Option ℤ :=
  let str := str.dropWhile isSpace
  let negative := str.head? == some 45
  let str := if negative || str.head? == some 43 then str.tail else str
  let digits := str.takeWhile isDigit
  let magnitude : ℕ := digits.foldl (fun n d => 10 * n + (d.toNat - 48)) 0
  let v : ℤ := if negative then -magnitude else magnitude
  if digits.isEmpty || v < -2 ^ 63 || 2 ^ 63 ≤ v then none else some v

/-- `std::to_string` of an integer. -/
def toDecimal (v : ℤ) : Bytes :=
  let digits := (Nat.toDigits 10 v.natAbs).map fun c => UInt8.ofNat c.toNat
  if v < 0 then 45 :: digits else digits

/-- Two's complement wrap-around of an `int64_t` sum. -/
def wrapInt64 (v : ℤ) : ℤ := toInt64 (v % 2 ^ 64).toNat

/-! ### Handlers -/

/-- `CheckAllKeysExistInLock`. -/
def checkAllKeysExist (keyStore : KeyStore) (keys : List Key) : Bool :=
  keys.all fun key => decide (key ∈ keyStore)

/-- `MessageCheckKeyRes::KEYS_READY` and `KEYS_NOT_READY`. -/
def keysReady : UInt8 := 0
def keysNotReady : UInt8 := 1

/-- `MessageWaitKeyRes::KEYS_STOP_WAITING`. -/
def keysStopWaiting : UInt8 := 0

def processGetRequest (keyStore : KeyStore) (request : StoreMessage) : Option Handled := do
  let key ← request.keys.head?
  match keyStore.lookup key with
  | some value =>
    return { keyStore, response := { mt := .get, fd := request.fd, values := [value] } }
  | none => return { keyStore, response := { mt := .get, fd := request.fd } }

def processSetRequest (keyStore : KeyStore) (request : StoreMessage) : Option Handled := do
  let key ← request.keys.head?
  let value ← request.values.head?
  return {
    keyStore := keyStore.insert key value
    wakeup := if key ∈ keyStore then none else some key
    response := { mt := .set, fd := request.fd } }

def processAddRequest (keyStore : KeyStore) (request : StoreMessage) : Option Handled := do
  let delta ← unpackPod (← request.values.head?)
  let key ← request.keys.head?
  let old ← match keyStore.lookup key with
    | some value => stoll value
    | none => some 0
  let newValue := wrapInt64 (old + delta)
  return {
    keyStore := keyStore.insert key (toDecimal newValue)
    wakeup := if key ∈ keyStore then none else some key
    response := { mt := .add, fd := request.fd, values := [packPod newValue] } }

def processCheckRequest (keyStore : KeyStore) (request : StoreMessage) : Option Handled :=
  let res := if checkAllKeysExist keyStore request.keys then keysReady else keysNotReady
  some { keyStore, response := { mt := .check, fd := request.fd, values := [[res]] } }

def processDeleteRequest (keyStore : KeyStore) (request : StoreMessage) : Option Handled := do
  let key ← request.keys.head?
  return {
    keyStore := keyStore.erase key
    response := {
      mt := .deleteKey, fd := request.fd, values := [[if key ∈ keyStore then 1 else 0]] } }

def processCompareSetRequest (keyStore : KeyStore) (request : StoreMessage) : Option Handled := do
  let key ← request.keys.head?
  let expected ← request.values.head?
  match keyStore.lookup key with
  | none =>
    if expected.isEmpty then
      let desired ← request.values[1]?
      return {
        keyStore := keyStore.insert key desired
        wakeup := some key
        response := { mt := .compareSet, fd := request.fd, values := [desired] } }
    else
      return { keyStore, response := { mt := .compareSet, fd := request.fd } }
  | some value =>
    if value = expected then
      let desired ← request.values[1]?
      return {
        keyStore := keyStore.insert key desired
        response := { mt := .compareSet, fd := request.fd, values := [desired] } }
    else
      return { keyStore, response := { mt := .compareSet, fd := request.fd, values := [value] } }

def processGetNumKeyRequest (keyStore : KeyStore) (request : StoreMessage) : Option Handled :=
  some {
    keyStore
    response := {
      mt := .getNumKeys, fd := request.fd, values := [packPod keyStore.entries.length] } }

def processWaitKeysRequest (keyStore : KeyStore) (request : StoreMessage) : Option Handled :=
  if checkAllKeysExist keyStore request.keys then
    some { keyStore, response := { mt := .wait, fd := request.fd, values := [[keysStopWaiting]] } }
  else
    some {
      keyStore
      waitKeys := some (request.keys.filter fun key => decide (key ∉ keyStore))
      response := { mt := .invalidMsg, fd := request.fd } }

/-- `ProcessRequest` with the table of `InitializeHandlers`.  A type without handler is answered
with the request itself. -/
def processRequest (keyStore : KeyStore) (request : StoreMessage) : Option Handled :=
  match request.mt with
  | .set => processSetRequest keyStore request
  | .compareSet => processCompareSetRequest keyStore request
  | .get => processGetRequest keyStore request
  | .add => processAddRequest keyStore request
  | .check => processCheckRequest keyStore request
  | .wait => processWaitKeysRequest keyStore request
  | .getNumKeys => processGetNumKeyRequest keyStore request
  | .deleteKey => processDeleteRequest keyStore request
  | _ => some { keyStore, response := request }

end TorchNpu.Store
