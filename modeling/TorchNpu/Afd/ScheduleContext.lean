/-
  The schedule context of the separated attention and expert layers (`ScheduleContext.{h,cpp}`).

  Copies to the device and the buffers that are allocated are taken to succeed; `dataPtr` is the address that
  `at::empty` gives to a tensor of some bytes.  `none` is a failure.
-/
import Mathlib.Data.List.Basic
import Mathlib.Algebra.GroupWithZero.Nat

namespace TorchNpu.Afd

/-! ### Checked arithmetic -/

def mulOverflow (lhs rhs : UInt64) : Option UInt64 :=
  if lhs.toNat * rhs.toNat < 2 ^ 64 then some (lhs * rhs) else none

def addOverflow (lhs rhs : UInt64) : Option UInt64 :=
  if lhs.toNat + rhs.toNat < 2 ^ 64 then some (lhs + rhs) else none

def bufAlignSize : UInt64 := 512

def alignUp (num align : UInt64) : UInt64 :=
  (num + align - 1) / align * align

/-- `sizeof(int32_t)` -/
def int32Size : UInt64 := 4

def int32Max : ℤ := 2147483647

/-! ### The parameters -/

inductive ScheduleMode
  | ffn
  | attention
  | other

structure ScheduleParams where
  scheduleMode : ScheduleMode
  sessionNum : UInt32
  microBatchNum : UInt32
  microBatchSize : UInt32
  selectedExpertNum : UInt32
  expertNum : UInt32
  attnToFfnTokenSize : UInt32
  ffnToAttnTokenSize : UInt32
  ffnWindow : UInt64
  ffnWindowSize : UInt64
  attentionWindow : UInt64
  attentionWindowSize : UInt64

structure FfnArea where
  tokenInfoBuf : UInt64 := 0
  tokenInfoBufSize : UInt64 := 0
  tokenDataBuf : UInt64 := 0
  tokenDataBufSize : UInt64 := 0
  layerIdsBuf : UInt64 := 0
  layerIdsBufSize : UInt64 := 0
  sessionIdsBuf : UInt64 := 0
  sessionIdsBufSize : UInt64 := 0
  microBatchIdsBuf : UInt64 := 0
  microBatchIdsBufSize : UInt64 := 0
  expertIdsBuf : UInt64 := 0
  expertIdsBufSize : UInt64 := 0

structure AttentionArea where
  tokenInfoBuf : UInt64 := 0
  tokenInfoBufSize : UInt64 := 0
  tokenDataBuf : UInt64 := 0
  tokenDataBufSize : UInt64 := 0
  microBatchId : UInt32 := 0

/-- What `Init` sets up. -/
structure ScheduleContext where
  ffn : FfnArea := {}
  attention : AttentionArea := {}
  workspaceSize : UInt64 := 0
  running : Bool := false

variable (p : ScheduleParams)

namespace ScheduleParams

def checkFfnParams : Bool := p.ffnWindow ≠ 0 && p.ffnWindowSize ≠ 0

def checkAttentionParams : Bool := p.attentionWindow ≠ 0 && p.attentionWindowSize ≠ 0

def checkParams : Bool :=
  if p.sessionNum = 0 ∨ p.microBatchNum = 0 ∨ p.microBatchSize = 0 ∨ p.selectedExpertNum = 0 ∨
      p.expertNum = 0 then false
  else if p.attnToFfnTokenSize.toUInt64 % bufAlignSize ≠ 0 then false
  else if p.ffnToAttnTokenSize.toUInt64 % bufAlignSize ≠ 0 then false
  else
    match p.scheduleMode with
    | .ffn => p.checkFfnParams
    | .attention => p.checkAttentionParams
    | .other => false

end ScheduleParams

/-! ### The layout of the window -/

/-- The size, or 0 when it overflows. -/
def calcFfnTokenInfoSize : UInt64 :=
  let size := do
    let size ← mulOverflow (int32Size * p.selectedExpertNum.toUInt64) p.microBatchSize.toUInt64
    let size ← addOverflow size (int32Size * 2)
    let size ← mulOverflow size p.microBatchNum.toUInt64
    mulOverflow size p.sessionNum.toUInt64
  size.getD 0

def calcAttentionTokenInfoSize : UInt64 :=
  let size := do
    let size ← mulOverflow (int32Size * p.selectedExpertNum.toUInt64) p.microBatchSize.toUInt64
    mulOverflow size p.microBatchNum.toUInt64
  size.getD 0

/-- A host buffer of 32-bit integers that is filled through a pointer: where the pointer stands, and what was
written where. -/
structure HostBuf where
  pos : ℕ := 0
  writes : List (ℕ × ℤ) := []

/-- `*tmp_buf_int++ = value` -/
def HostBuf.put (buf : HostBuf) (value : ℤ) : HostBuf where
  pos := buf.pos + 1
  writes := buf.writes ++ [(buf.pos, value)]

/-- The flag, the layer id and the expert ids of a micro batch.  The bound of the loop is a product of 32 bits. -/
def putMicroBatch (buf : HostBuf) : HostBuf :=
  (List.range (p.microBatchSize * p.selectedExpertNum).toNat).foldl (fun buf _ => buf.put int32Max)
    ((buf.put 0).put 0)

/-- What `InitFfnTokenInfoBuf` writes to its host buffer. -/
def ffnTokenInfoBuf : HostBuf :=
  (List.range p.sessionNum.toNat).foldl
    (fun buf _ => (List.range p.microBatchNum.toNat).foldl (fun buf _ => putMicroBatch p buf) buf) {}

def initFfn : Option FfnArea :=
  let tokenInfoSize := calcFfnTokenInfoSize p
  let tokenInfoAlignedSize := alignUp tokenInfoSize bufAlignSize
  if tokenInfoSize = 0 then none
  else if tokenInfoAlignedSize < tokenInfoSize then none
  else if p.ffnWindowSize ≤ tokenInfoAlignedSize then none
  else do
    let tokenDataBuf ← addOverflow p.ffnWindow tokenInfoAlignedSize
    return {
      tokenInfoBuf := p.ffnWindow
      tokenInfoBufSize := tokenInfoSize
      tokenDataBuf
      tokenDataBufSize := p.ffnWindowSize - tokenInfoAlignedSize
      layerIdsBufSize := int32Size * p.sessionNum.toUInt64
      sessionIdsBufSize := int32Size * p.sessionNum.toUInt64
      microBatchIdsBufSize := int32Size * p.sessionNum.toUInt64
      expertIdsBufSize := int32Size * p.sessionNum.toUInt64 * p.microBatchSize.toUInt64 *
        p.selectedExpertNum.toUInt64 }

def initAttention : Option AttentionArea :=
  let tokenInfoSize := calcAttentionTokenInfoSize p
  let tokenInfoAlignedSize := alignUp tokenInfoSize bufAlignSize
  if tokenInfoSize = 0 then none
  else if tokenInfoAlignedSize < tokenInfoSize then none
  else if p.attentionWindowSize ≤ tokenInfoAlignedSize then none
  else do
    let tokenDataBuf ← addOverflow p.attentionWindow tokenInfoAlignedSize
    return {
      tokenInfoBuf := p.attentionWindow
      tokenInfoBufSize := tokenInfoSize
      tokenDataBuf
      tokenDataBufSize := p.attentionWindowSize - tokenInfoAlignedSize
      microBatchId := p.microBatchNum - 1 }

/-! ### The workspace -/

/-- The output buffers are laid out in a tensor, whose size is a signed number of 64 bits. -/
def allocAndAssignDevMem (dataPtr : UInt64 → UInt64) (ffn : FfnArea) : Option (FfnArea × UInt64) :=
  let layerIdBufSizeAlignUp := alignUp ffn.layerIdsBufSize bufAlignSize
  let expertBufSizeAlignUp := alignUp ffn.expertIdsBufSize bufAlignSize
  -- The sizes of `session_ids_buf` and `micro_batch_ids_buf` are that of `layer_ids_buf`.
  let workspaceSize := layerIdBufSizeAlignUp * 3 + expertBufSizeAlignUp
  if 2 ^ 63 ≤ workspaceSize.toNat then none
  else
    let workspaceAddr := dataPtr workspaceSize
    if workspaceAddr = 0 then none
    else some ({ ffn with
      layerIdsBuf := workspaceAddr
      sessionIdsBuf := workspaceAddr + layerIdBufSizeAlignUp
      microBatchIdsBuf := workspaceAddr + layerIdBufSizeAlignUp + layerIdBufSizeAlignUp
      expertIdsBuf := workspaceAddr + layerIdBufSizeAlignUp + layerIdBufSizeAlignUp + layerIdBufSizeAlignUp },
      workspaceSize)

/-- `Init` of a holder that was not initialized before. -/
def init (dataPtr : UInt64 → UInt64) : Option ScheduleContext :=
  if p.checkParams then
    match p.scheduleMode with
    | .ffn => do
      let ffn ← initFfn p
      let (ffn, workspaceSize) ← allocAndAssignDevMem dataPtr ffn
      return { ffn, workspaceSize, running := true }
    | .attention => do
      let attention ← initAttention p
      return { attention, running := true }
    | .other => none
  else none

end TorchNpu.Afd
