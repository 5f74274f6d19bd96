/-
  The cores that threads are bound to (`NPUAffinityController.cpp` and `GetAffinityCPUInfo.cpp`).

  `CoreId` is an unsigned number of 32 bits.  The settings of the environment variable, the answers of the DCMI, the
  number of devices and of online cores, and the mask of the thread that asks first are the inputs.  `none` is an
  exception.  The names of the threads and the messages in the log are left out.
-/
import TorchNpu.Lib.Text

namespace TorchNpu.Core

open Text

/-- `CoreIdRange`, of numbers less than `2 ^ 32`. -/
structure CoreIdRange where
  start : ℕ
  end_ : ℕ
  deriving DecidableEq

/-- The types in `threadTypeList`. -/
inductive ThreadType
  | main
  | acl
  | release
  | watchdog
  | other
  deriving DecidableEq

structure AffinityInputs where
  /-- `CPU_AFFINITY_CONF` -/
  input : Option Text
  deviceNums : ℕ
  /-- `sysconf(_SC_NPROCESSORS_ONLN)` -/
  coreNums : ℕ
  /-- The affinity texts of the cards; `none` if `DcmiInit` fails. -/
  cards : Option (List Text)
  /-- `pthread_getaffinity_np` -/
  mask : ℕ → Bool

/-- `static_cast<CoreId>` -/
def toCoreId (v : ℤ) : ℕ :=
  (v % 2 ^ 32).toNat

/-- `isAllDigits` -/
def isAllDigits (str : Text) : Bool :=
  decide (str ≠ []) && str.all Char.isDigit

/-- What is before the first `c`, and what is after it. -/
def cut (c : Char) (str : Text) : Text × Text :=
  (str.takeWhile (· ≠ c), (str.dropWhile (· ≠ c)).drop 1)

/-- `regex_search` for `name` and a digit after it. -/
def searchDigit (name : Text) : Text → Option Char
  | [] => none
  | c :: str =>
    match name.isPrefixOf (c :: str), (c :: str)[name.length]? with
    | true, some d => if d.isDigit then some d else searchDigit name str
    | _, _ => searchDigit name str

/-! ### The ranges of the DCMI -/

/-- `strtol` of a text that it reads to the end. -/
def strtolAll (str : Text) : Option ℤ :=
  let digits := (str.dropWhile isSpace).dropWhile fun c => c = '-' ∨ c = '+'
  if digits.all Char.isDigit then strtol str else none

/-- `parseAffinityCPU` -/
def parseAffinityCPU (cpuString : Text) : Option CoreIdRange :=
  if '-' ∈ cpuString then do
    let startNum ← strtolAll (cut '-' cpuString).1
    let endNum ← strtolAll (cut '-' cpuString).2
    if 0 ≤ startNum ∧ startNum < endNum ∧ endNum < 2 ^ 31 then some ⟨startNum.toNat, endNum.toNat⟩ else none
  else none

/-- The part of the `i`th card of the range that it shares with other cards. -/
def exclusiveRange (cards : List Text) (i : ℕ) (cpuString : Text) : Option CoreIdRange := do
  let cpuRange ← parseAffinityCPU cpuString
  let length := (cpuRange.end_ - cpuRange.start + 1) / cards.count cpuString
  let offset := (cards.take i).count cpuString
  some ⟨toCoreId (cpuRange.start + offset * length), toCoreId (cpuRange.start + length - 1 + offset * length)⟩

/-- `GetExclusiveAffinityCPU`, as `CardIdAffinityCPU` after it.  It is empty if a text is empty or a list. -/
def exclusiveAffinityCPU (cards : List Text) : Option (List CoreIdRange) :=
  if cards.any fun card => decide (card = [] ∨ ',' ∈ card) then some []
  else cards.zipIdx.mapM fun card => exclusiveRange cards card.2 card.1

/-- `GetAssignAffinityCPU` -/
def getAssignAffinityCPU (cards : Option (List Text)) (cardId : ℕ) : Option CoreIdRange := do
  let cards ← cards
  let ranges ← exclusiveAffinityCPU cards
  if ranges = [] then some ⟨0, 0⟩ else ranges[cardId]?

/-! ### `parseCPUAffinityConf` -/

/-- `mode`, `ranges` and `lazy_bind`. -/
structure AffinityConf where
  mode : ℕ := 0
  ranges : List CoreIdRange
  lazyBind : Bool := true
  deriving DecidableEq

/-- `getCPUDefaultRange` -/
def getCPUDefaultRange (coreNums deviceNums deviceId : ℕ) : CoreIdRange :=
  let blockSize := if 0 < coreNums ∧ 0 < deviceNums then coreNums / deviceNums else 0
  ⟨toCoreId (deviceId * blockSize), toCoreId ((deviceId + 1) * blockSize - 1)⟩

/-- The ranges with those of the DCMI, from the device `i` on. -/
def assignRanges (cards : Option (List Text)) (i : ℕ) : List CoreIdRange → Option (List CoreIdRange)
  | [] => some []
  | range :: ranges => do
    let getRange ← getAssignAffinityCPU cards i
    if getRange = ⟨0, 0⟩ then some (range :: ranges)
    else (assignRanges cards (i + 1) ranges).map (getRange :: ·)

/-- What an option asks for. -/
inductive AffinitySetting
  | mode (mode : ℕ)
  | range (deviceId : ℕ) (range : CoreIdRange)
  | nothing

/-- `stoi` of digits. -/
def readCore (str : Text) : Option ℕ :=
  (stoi str).map Int.toNat

/-- The value of an option for the device. -/
def readRange (deviceId : ℕ) (value : Text) : Option AffinitySetting :=
  if '-' ∈ value then
    if isAllDigits (cut '-' value).1 && isAllDigits (cut '-' value).2 then do
      let start ← readCore (cut '-' value).1
      let end_ ← readCore (cut '-' value).2
      some (.range deviceId ⟨start, end_⟩)
    else some .nothing
  else if isAllDigits value then (readCore value).map fun core => .range deviceId ⟨core, core⟩
  else some .nothing

def readMode (value : Text) : Option AffinitySetting :=
  if isAllDigits value then (readCore value).map .mode else some .nothing

/-- An option between commas. -/
def readOption (deviceNums : ℕ) (option : Text) : Option AffinitySetting :=
  if ':' ∈ option then
    let (key, value) := cut ':' option
    if key = ['m', 'o', 'd', 'e'] then readMode value
    else if ['n', 'p', 'u'].isPrefixOf key && isAllDigits (key.drop 3) then do
      let deviceId ← readCore (key.drop 3)
      if deviceId < deviceNums then readRange deviceId value else some .nothing
    else some .nothing
  else readMode option

def AffinityConf.set (conf : AffinityConf) : AffinitySetting → AffinityConf
  | .mode mode => { conf with mode := mode }
  | .range deviceId range => { conf with ranges := conf.ranges.set deviceId range }
  | .nothing => conf

/-- The digit after `npu_affine:` is there, and is not 0. -/
def npuAffine (input : Text) : Bool :=
  (searchDigit "npu_affine:".toList input).any (· ≠ '0')

/-- `lazy_bind:0` -/
def notLazy (input : Text) : Bool :=
  (searchDigit "lazy_bind:".toList input).any (· = '0')

def defaultRanges (x : AffinityInputs) : List CoreIdRange :=
  (List.range x.deviceNums).map (getCPUDefaultRange x.coreNums x.deviceNums)

def parseCPUAffinityConf (x : AffinityInputs) : Option AffinityConf :=
  match x.input with
  | none | some [] => some { ranges := defaultRanges x }
  | some input => do
    let ranges ← if npuAffine input then assignRanges x.cards 0 (defaultRanges x) else some (defaultRanges x)
    let conf : AffinityConf := { ranges := ranges, lazyBind := !notLazy input }
    if isAllDigits input then (readCore input).map fun mode => { conf with mode := mode }
    else (split [','] input).foldlM (fun conf option => (readOption x.deviceNums option).map conf.set) conf

/-! ### Binding -/

/-- `getThreadAffinityInfo` -/
def getThreadAffinityInfo (x : AffinityInputs) (conf : AffinityConf) : Bool :=
  decide (conf.mode ≠ 0) &&
    conf.ranges.all fun range => (List.range' range.start (range.end_ - range.start)).all x.mask

/-- `getCpuAffinityMap` -/
def getCpuAffinityMap (range : CoreIdRange) (type : ThreadType) : CoreIdRange :=
  if toCoreId (range.end_ - range.start + 1) < 5 then range
  else
    match type with
    | .main => ⟨range.start, range.start⟩
    | .acl => ⟨toCoreId (range.start + 1), toCoreId (range.start + 1)⟩
    | .release => ⟨toCoreId (range.start + 2), toCoreId (range.start + 2)⟩
    | .watchdog => ⟨toCoreId (range.start + 3), toCoreId (range.start + 3)⟩
    | .other => ⟨toCoreId (range.start + 4), range.end_⟩

/-- `getCoreRange` -/
def getCoreRange (conf : AffinityConf) (deviceId : ℕ) (type : ThreadType) : CoreIdRange :=
  let range := conf.ranges.getD deviceId ⟨0, 0⟩
  if conf.mode = 0 ∨ conf.mode = 1 then range else getCpuAffinityMap range type

/-- `SetThreadAffinity(core_start, core_end)` -/
def userRange (coreNums : ℕ) (coreStart coreEnd : ℕ) : CoreIdRange :=
  ⟨min coreStart coreNums, min coreEnd coreNums⟩

end TorchNpu.Core
