/-
  The store wire format: `StoreMessage`, `StoreMessagePacker::Pack`, `Full` and `Unpack`
  (`StoreMessagePacker.hpp`, `StoreMessagePacker.cpp`).

  A message travels as

      size  mt  fd  keyN  keys  vN  values
      8B    1B  4B  8B    ...   8B  ...

  where every key and value is an 8-byte length followed by its bytes, and all integers are the
  in-memory images on a little-endian host.  Strings and byte vectors are both lists of bytes.

  `unpack` is written over `Traced`: it walks the buffer with raw pointer arithmetic and no test
  before most of its reads, so which byte ranges it touches is part of what it does.
-/
import TorchNpu.Lib.TracedRead

namespace TorchNpu.Store

/-- A `std::string` or `std::vector<uint8_t>`. -/
abbrev Bytes := List UInt8

/-- `enum class MessageType : uint8_t`.  The underlying type is fixed, so every byte is a value of
the type; `unnamed k` is the value `11 + k`, which has no enumerator. -/
inductive MessageType
  | set
  | compareSet
  | get
  | add
  | check
  | wait
  | getNumKeys
  | watchKey
  | deleteKey
  | invalidMsg
  | skipMsg
  | unnamed (k : Fin 245)
  deriving DecidableEq

namespace MessageType

/-- The underlying value. -/
def toNat : MessageType → ℕ
  | set => 0
  | compareSet => 1
  | get => 2
  | add => 3
  | check => 4
  | wait => 5
  | getNumKeys => 6
  | watchKey => 7
  | deleteKey => 8
  | invalidMsg => 9
  | skipMsg => 10
  | unnamed k => 11 + k

/-- The message type with a given underlying value. -/
def ofNat : ℕ → MessageType
  | 0 => set
  | 1 => compareSet
  | 2 => get
  | 3 => add
  | 4 => check
  | 5 => wait
  | 6 => getNumKeys
  | 7 => watchKey
  | 8 => deleteKey
  | 9 => invalidMsg
  | 10 => skipMsg
  | n + 11 => unnamed (Fin.ofNat 245 n)

end MessageType

/-- `StoreMessage`; the defaults are those of the default constructor. -/
structure StoreMessage where
  fd : Int32 := 0
  mt : MessageType := .invalidMsg
  keys : List Bytes := []
  values : List Bytes := []
  deriving DecidableEq

/-! ### Packing -/

/-- `PackValue` of an object of `size` bytes. -/
def packValue (size value : ℕ) : Bytes := leEncode size value

/-- `PackString`. -/
def packString (str : Bytes) : Bytes :=
  packValue 8 str.length ++ if str.isEmpty then [] else str

/-- `PackBytes`. -/
def packBytes (bytes : Bytes) : Bytes := packValue 8 bytes.length ++ bytes

/-- `3U * sizeof(uint64_t) + sizeof(MessageType) + sizeof(int)`: size, keyN, vN, mt, fd. -/
def baseSize : ℕ := 3 * 8 + 1 + 4

/-- The running sum `totalSize` of `Pack`, before `PackValue` stores it in eight bytes. -/
def totalSize (message : StoreMessage) : ℕ :=
  baseSize + (message.keys.map fun key => 8 + key.length).sum
    + (message.values.map fun value => 8 + value.length).sum

/-- `StoreMessagePacker::Pack`. -/
def pack (message : StoreMessage) : Bytes :=
  packValue 8 (totalSize message)
    ++ packValue 1 message.mt.toNat
    ++ packValue 4 message.fd.toUInt32.toNat
    ++ packValue 8 message.keys.length
    ++ message.keys.flatMap packString
    ++ packValue 8 message.values.length
    ++ message.values.flatMap packBytes

/-! ### Unpacking -/

/-- The first eight bytes as a `uint64_t`: the declared total size. -/
def declaredSize (buffer : Bytes) : ℕ := leDecode (buffer.take 8)

/-- The reads and the answer of `StoreMessagePacker::Full`. -/
def fullTraced (buffer : Bytes) : Traced Bool :=
  if buffer.length < 8 + 1 + 4 then
    return false
  else do
    let totalSize ← Traced.readNat buffer 0 8
    return decide (totalSize ≤ buffer.length)

/-- The answer of `StoreMessagePacker::Full`. -/
def full (buffer : Bytes) : Bool :=
  decide (13 ≤ buffer.length) && decide (declaredSize buffer ≤ buffer.length)

/-- The `int64_t` a `uint64_t` is cast to. -/
def toInt64 (n : ℕ) : ℤ := if n < 2 ^ 63 then n else n - 2 ^ 64

/-- One of the two item loops of `Unpack`: `count` rounds from offset `ptr`, appending to `items`.
Returns the items and the final offset. -/
def unpackItems (buffer : Bytes) : ℕ → ℕ → List Bytes → Traced (List Bytes × ℕ)
  | 0, ptr, items => return (items, ptr)
  | count + 1, ptr, items => do
    let size ← Traced.readNat buffer ptr 8
    let item ← Traced.read buffer (ptr + 8) size
    let ptr := ptr + 8 + size
    if ptr > buffer.length then
      return (items ++ [item], ptr)
    else
      unpackItems buffer count ptr (items ++ [item])

/-- `StoreMessagePacker::Unpack`: the returned number and the message it leaves in `message`, whose
key and value vectors it appends to. -/
def unpack (buffer : Bytes) (message : StoreMessage) : Traced (ℤ × StoreMessage) := do
  if !(← fullTraced buffer) then
    return (-1, message)
  let totalSize ← Traced.readNat buffer 0 8
  let mt ← Traced.readNat buffer 8 1
  let fd ← Traced.readNat buffer 9 4
  let keyCount ← Traced.readNat buffer 13 8
  let (keys, ptr) ← unpackItems buffer keyCount 21 message.keys
  let valueCount ← Traced.readNat buffer ptr 8
  let (values, _) ← unpackItems buffer valueCount (ptr + 8) message.values
  return (toInt64 totalSize,
    { mt := MessageType.ofNat mt, fd := ⟨UInt32.ofNat fd⟩, keys := keys, values := values })

end TorchNpu.Store
