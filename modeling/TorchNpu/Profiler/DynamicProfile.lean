/-
  How an edited config reaches the ranks (`_dynamic_profiler_monitor.py`, `_dynamic_profiler_monitor_shm.py`).

  The monitor process writes the time of the config file and its content into a buffer that it shares with the
  ranks.  A write and a read go through the buffer from its start to its end; a step of the machine moves one
  of them by any number of bytes.  Times are in whole seconds.  A context that `shm_to_prof_conf_context` makes
  counts as received; whether it is meant for the rank is left out.
-/
import TorchNpu.Lib.LittleEndian
import TorchNpu.Lib.Machine
import Mathlib.Data.Fintype.Basic
import Mathlib.Logic.Function.Basic

namespace TorchNpu.Profiler

/-- What the monitor is given: `json` for configs, the size of the buffer and what is in it at first. -/
structure MonitorParams (C : Type*) where
  /-- `profiler_cfg_json_to_bytes` -/
  toBytes : C → List UInt8
  /-- `bytes_to_profiler_cfg_json` -/
  ofBytes : List UInt8 → Option C
  /-- A dictionary begins with a brace. -/
  head_toBytes : ∀ config, (toBytes config).head? = some 123
  /-- White space after a text is skipped. -/
  ofBytes_toBytes : ∀ config spaces, ofBytes (toBytes config ++ List.replicate spaces 32) = some config
  /-- `CFG_BUFFER_SIZE` -/
  maxSize : ℕ
  /-- The pickled default config. -/
  defaultBytes : List UInt8
  length_defaultBytes : 4 + defaultBytes.length ≤ maxSize

/-- `bytes.ljust` -/
def ljust (size : ℕ) (bytes : List UInt8) : List UInt8 :=
  bytes ++ List.replicate (size - bytes.length) 32

/-- `bytes.lstrip` -/
def lstrip (bytes : List UInt8) : List UInt8 :=
  bytes.dropWhile fun b => decide (b ∈ [32, 9, 10, 11, 12, 13])

/-- Where the monitor is in its loop; `seen` is how many edits there were when it looked at the time. -/
inductive MonitorPc
  /-- About to look at the time of the file. -/
  | polling
  /-- About to read the file. -/
  | loading (seen : ℕ)
  /-- In the middle of writing the bytes, with so many of them written. -/
  | writing (seen : ℕ) (bytes : List UInt8) (count : ℕ)
  /-- The process has ended with an exception. -/
  | dead
  deriving DecidableEq

structure Rank (C : Type*) where
  /-- `_cur_time` -/
  curTime : ℕ
  /-- What `read_bytes` has got so far, for the time and for the config. -/
  bytes : List UInt8 := []
  contexts : List C := []
  /-- How many edits the monitor had polled when the call began. -/
  begun : ℕ := 0
  /-- The same for the last call that has returned. -/
  stepped : ℕ := 0

structure DynamicProfile (C : Type*) (worldSize : ℕ) where
  /-- The config file at first, with its time. -/
  initialFile : C × ℕ
  edits : List (C × ℕ) := []
  monitor : MonitorPc := .polling
  /-- `last_file_t` -/
  lastFileT : ℕ
  /-- How many edits there were at the beginning of the last turn of the loop that has ended. -/
  polled : ℕ := 0
  buf : List UInt8
  ranks : Fin worldSize → Rank C

inductive ProfileLabel (C : Type*) (worldSize : ℕ)
  /-- Someone writes the file. -/
  | edit (config : C) (time : ℕ)
  /-- The monitor looks at the time of the file. -/
  | getmtime
  /-- It reads the file. -/
  | readFile
  /-- It writes bytes to the buffer. -/
  | writeBytes (count : ℕ)
  /-- A rank reads bytes from the buffer. -/
  | readBytes (rank : Fin worldSize) (count : ℕ)

variable {C : Type*} {worldSize : ℕ}

/-- `shm_to_prof_conf_context`, for the next bytes of the time. -/
def Rank.readTime (rank : Rank C) (bytes : List UInt8) (polled : ℕ) : Rank C :=
  let begun := if rank.bytes = [] then polled else rank.begun
  let timeBytes := rank.bytes ++ bytes
  if timeBytes.length < 4 then { rank with bytes := timeBytes, begun }
  else
    let shmCfgChangeTime := leDecode timeBytes
    if shmCfgChangeTime ≤ rank.curTime then { rank with bytes := [], begun, stepped := begun }
    else { rank with bytes := timeBytes, begun, curTime := shmCfgChangeTime }

/-- `shm_to_prof_conf_context`, for the next bytes of the config. -/
def Rank.readConfig (rank : Rank C) (params : MonitorParams C) (bytes : List UInt8) : Rank C :=
  let allBytes := rank.bytes ++ bytes
  if allBytes.length < params.maxSize then { rank with bytes := allBytes }
  else
    match params.ofBytes (lstrip (allBytes.drop 4)) with
    | none => { rank with bytes := [], stepped := rank.begun }
    | some config =>
      { rank with bytes := [], stepped := rank.begun, contexts := rank.contexts ++ [config] }

namespace DynamicProfile

variable (s : DynamicProfile C worldSize) (params : MonitorParams C)

/-- The content of the config file and its time. -/
def file : C × ℕ :=
  s.edits.getLast?.getD s.initialFile

/-- The monitor looks at the time of the file; an unchanged file ends the turn. -/
def getmtime : DynamicProfile C worldSize :=
  let fileT := s.file.2
  if s.lastFileT = 0 ∨ s.lastFileT ≠ fileT then
    { s with lastFileT := fileT, monitor := .loading s.edits.length }
  else { s with polled := s.edits.length }

/-- The monitor reads the file.  `struct.pack` fails if the time does not fit; a config that does not fit
ends the turn. -/
def readFile (seen : ℕ) : DynamicProfile C worldSize :=
  if 256 ^ 4 ≤ s.lastFileT then { s with monitor := .dead }
  else
    let profCfgBytes := leEncode 4 s.lastFileT ++ params.toBytes s.file.1
    if profCfgBytes.length > params.maxSize then { s with monitor := .polling, polled := seen }
    else { s with monitor := .writing seen (ljust params.maxSize profCfgBytes) 0 }

/-- The next bytes are written; the last ones end the turn. -/
def writeBytes (seen : ℕ) (bytes : List UInt8) (written count : ℕ) : DynamicProfile C worldSize :=
  let s := { s with buf := bytes.take (written + count) ++ s.buf.drop (written + count) }
  if written + count < bytes.length then { s with monitor := .writing seen bytes (written + count) }
  else { s with monitor := .polling, polled := seen }

/-- A rank reads the next bytes. -/
def readBytes (rank : Fin worldSize) (count : ℕ) : DynamicProfile C worldSize :=
  let current := s.ranks rank
  let bytes := (s.buf.drop current.bytes.length).take count
  { s with
    ranks := Function.update s.ranks rank
      (if current.bytes.length < 4 then current.readTime bytes s.polled
        else current.readConfig params bytes) }

def next : ProfileLabel C worldSize → Option (DynamicProfile C worldSize)
  | .edit config time =>
    if s.file.2 ≤ time then some { s with edits := s.edits ++ [(config, time)] } else none
  | .getmtime => if s.monitor = .polling then some s.getmtime else none
  | .readFile =>
    match s.monitor with
    | .loading seen => some (s.readFile params seen)
    | .polling | .writing _ _ _ | .dead => none
  | .writeBytes count =>
    match s.monitor with
    | .writing seen bytes written =>
      if written + count ≤ bytes.length then some (s.writeBytes seen bytes written count) else none
    | .polling | .loading _ | .dead => none
  | .readBytes rank count =>
    let got := (s.ranks rank).bytes.length
    -- The time and the config are two reads.
    if got + count ≤ if got < 4 then 4 else params.maxSize then some (s.readBytes params rank count) else none

/-- The state in which the ranks and the monitor have been created. -/
def start (file : C × ℕ) (curTime : Fin worldSize → ℕ) : DynamicProfile C worldSize where
  initialFile := file
  lastFileT := file.2
  buf := ljust params.maxSize (leEncode 4 0 ++ params.defaultBytes)
  ranks rank := { curTime := curTime rank }

/-- The state after a run from the start. -/
def runFromStart (params : MonitorParams C) (file : C × ℕ) (startTime : Fin worldSize → ℕ)
    (ls : List (ProfileLabel C worldSize)) : Option (DynamicProfile C worldSize) :=
  Machine.run (DynamicProfile.next · params) (start params file startTime) ls

end DynamicProfile

end TorchNpu.Profiler
