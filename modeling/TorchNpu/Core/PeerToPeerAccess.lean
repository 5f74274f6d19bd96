/-
  `NpuP2pCtrl`, which devices may copy to each other (`NPUPeerToPeerAccess.cpp`).

  What the driver answers, and which of its calls fail, is up to the call.  The names of the connected devices
  in the error log are left out.
-/
import TorchNpu.Lib.Wp
import Mathlib.Data.Int.Notation

namespace TorchNpu.Core

/-- `C10_P2P_ACCESS_MAX_NPUS` -/
def p2pAccessMaxNpus : Int8 := 8

/-- `SocVersion::Ascend910_9391` -/
def ascend910_9391 : ℤ := 250

inductive P2pStatus
  | unknown
  | copyNotAllowed
  | copyAllowed
  deriving DecidableEq

/-- `static_cast<bool>` of the values -1, 0 and 1. -/
def P2pStatus.toBool : P2pStatus → Bool
  | .unknown => true
  | .copyNotAllowed => false
  | .copyAllowed => true

structure NpuP2pCtrl where
  numDevices : ℕ
  /-- A 1-dimensional vector for 2-dimensional data. -/
  p2pAccessEnabledCache : List P2pStatus
  deviceEnabledCount : List Int8
  deriving DecidableEq

inductive P2pError
  /-- The number is that of no device. -/
  | notADevice (dev : ℤ)
  /-- `AT_ERROR` of `SetSocVersion`. -/
  | unsupportedSocVersion
  /-- `NPU_CHECK_ERROR` -/
  | acl

/-- What a call is told: `none` and `false` stand for a call of the driver that fails. -/
structure PeerAnswers where
  /-- `GetSocVersion` -/
  socVersion : Option ℤ
  /-- `aclrtDeviceCanAccessPeer` from the source to the destination. -/
  resultS2d : Option ℤ
  resultD2s : Option ℤ
  /-- The guard of the source device and `aclrtDeviceEnablePeerAccess` of the destination. -/
  enableS2d : Bool
  enableD2s : Bool

/-- `get_p2p_access(source_dev, dest_dev, flag)` -/
structure PeerCall where
  sourceDev : ℤ
  destDev : ℤ
  flag : Bool := false
  answers : PeerAnswers

/-- What the call returns, and its `flag` then. -/
structure PeerAccess where
  access : Bool
  flag : Bool

namespace NpuP2pCtrl

/-- The constructor, after the vectors of one row for each device are there.  A negative number of devices does not
    come so far: `resize` throws.  -/
def init (numDevices : ℕ) : NpuP2pCtrl where
  numDevices := numDevices
  deviceEnabledCount := List.replicate numDevices 0
  p2pAccessEnabledCache :=
    (List.range numDevices).foldl (fun cache i => cache.set (i * numDevices + i) .copyAllowed)
      (List.replicate (numDevices * numDevices) .unknown)

/-- `NpuP2pCtrl()`, where `device_count()` narrows the count of the driver to a `DeviceIndex`. -/
def new (devCount : UInt32) : Option NpuP2pCtrl :=
  let numDevices := devCount.toUInt8.toInt8.toInt
  if numDevices < 0 then none else some (init numDevices.toNat)

variable (c : NpuP2pCtrl)

/-- `p2p_access_enabled_cache_[source_dev * num_devices_ + dest_dev]` -/
def status (source dest : ℕ) : P2pStatus :=
  c.p2pAccessEnabledCache.getD (source * c.numDevices + dest) .unknown

/-- `device_enabled_count_[dev]` -/
def enabledCount (dev : ℕ) : Int8 :=
  c.deviceEnabledCount.getD dev 0

/-- The writes to `cache_s2d` and `cache_d2s`. -/
def setStatus (source dest : ℕ) (status : P2pStatus) : NpuP2pCtrl :=
  { c with
    p2pAccessEnabledCache :=
      (c.p2pAccessEnabledCache.set (source * c.numDevices + dest) status).set
        (dest * c.numDevices + source) status }

/-- `device_enabled_count_[dev]++` -/
def incrementCount (dev : ℕ) : NpuP2pCtrl :=
  { c with deviceEnabledCount := c.deviceEnabledCount.set dev (c.enabledCount dev + 1) }

/-- `limited_device`; `none` is -1. -/
def limitedDevice (source dest : ℕ) : Option ℕ :=
  if c.enabledCount source ≥ p2pAccessMaxNpus then some source
  else if c.enabledCount dest ≥ p2pAccessMaxNpus then some dest
  else none

abbrev M := EStateM P2pError NpuP2pCtrl

/-- `TORCH_CHECK(dev >= 0 && dev < num_devices_)` -/
def checkDevice (dev : ℤ) : M ℕ := do
  let c ← get
  if 0 ≤ dev ∧ dev < c.numDevices then pure dev.toNat else throw (.notADevice dev)

/-- The value of a call of the driver, if it does not fail. -/
def aclResult {α : Type} (e : P2pError) : Option α → M α
  | some a => pure a
  | none => throw e

/-- `enable_peer_access` -/
def enablePeerAccess (succeeds : Bool) : M Unit :=
  if succeeds then pure () else throw .acl

/-- Both sides of a pair get a status, which is the answer. -/
def answer (source dest : ℕ) (status : P2pStatus) (flag : Bool) : M PeerAccess := do
  modify fun c => c.setStatus source dest status
  pure ⟨status.toBool, flag⟩

/-- The queries and the enables of `get_p2p_access`. -/
def connect (source dest : ℕ) (answers : PeerAnswers) (flag : Bool) : M PeerAccess := do
  let resultS2d ← aclResult .acl answers.resultS2d
  let resultD2s ← aclResult .acl answers.resultD2s
  -- A two-way enable is required.
  if resultS2d = 0 ∨ resultD2s = 0 then
    answer source dest .copyNotAllowed true
  else
    enablePeerAccess answers.enableS2d
    enablePeerAccess answers.enableD2s
    let access ← answer source dest .copyAllowed flag
    modify fun c => (c.incrementCount source).incrementCount dest
    pure access

/-- `get_p2p_access` -/
def getP2pAccess (call : PeerCall) : M PeerAccess := do
  let source ← checkDevice call.sourceDev
  let dest ← checkDevice call.destDev
  let c ← get
  if c.status source dest ≠ .unknown then
    pure ⟨(c.status source dest).toBool, call.flag⟩
  else
    let socVersion ← aclResult .unsupportedSocVersion call.answers.socVersion
    if socVersion < ascend910_9391 ∧ (c.limitedDevice source dest).isSome then
      answer source dest .copyNotAllowed call.flag
    else
      connect source dest call.answers call.flag

/-- The state after a call, whether it returns or throws. -/
def after (call : PeerCall) : NpuP2pCtrl :=
  match getP2pAccess call c with
  | .ok _ c' => c'
  | .error _ c' => c'

/-- What a call answers; `none` if it throws. -/
def answered (call : PeerCall) : Option Bool :=
  match getP2pAccess call c with
  | .ok access _ => some access.access
  | .error _ _ => none

/-- The state after a sequence of calls. -/
def afterAll (calls : List PeerCall) : NpuP2pCtrl :=
  calls.foldl after c

end NpuP2pCtrl

end TorchNpu.Core
