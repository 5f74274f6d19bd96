/-
  `ProcessGroupHCCL::allgather` (`ProcessGroupHCCL.cpp`) on all processes of a group.

  Each process gives its input and a list of output slots, one for each rank.  The path a process takes
  depends on the sizes of its slots: equal sizes are gathered into one tensor, with input and slots padded to a
  multiple of 512 bytes; different sizes use `HcclAllGatherV`, or one broadcast for each rank where HCCL has
  no such call or a slot is empty.
-/
import TorchNpu.Lib.Spmd
import TorchNpu.Distributed.Layout

/-!
  The calls of HCCL, by what they do to the data of the processes of a group.

  Each call gives HCCL the data it reads and says how much it takes.  `Meaning` is what HCCL promises where the
  processes call it together with counts that fit; where they do not fit the reply is not known.
-/

namespace TorchNpu.Distributed

/-- What a process gives to HCCL. -/
inductive Request
  | allGather (send : List ℚ)
  | allGatherV (send : List ℚ) (recvCounts recvDispls : List ℕ)
  | broadcast (root : ℕ) (buffer : List ℚ)
  /-- `hcclSend` and `hcclRecv` between `groupStart` and `groupEnd`. -/
  | sendRecv (sends : List (ℕ × List ℚ)) (recvs : List (ℕ × ℕ))
  | alltoAllV (send : List ℚ) (sendCounts sendDispls recvCounts recvDispls : List ℕ)
  | scatter (root : ℕ) (send : List ℚ) (recvCount : ℕ)

/-- The buffers that HCCL fills. -/
abbrev Reply := List (List ℚ)

/-- The `count` elements from `displ` on. -/
def slice (vs : List ℚ) (displ count : ℕ) : List ℚ :=
  (vs.drop displ).take count

/-- Where the parts of a buffer start, which have the given counts and follow each other. -/
def displacements : ℕ → List ℕ → List ℕ
  | _, [] => []
  | displ, count :: counts => displ :: displacements (displ + count) counts

/-- What a process sends to another. -/
def dataFor (dst : ℕ) (sends : List (ℕ × List ℚ)) : List (List ℚ) :=
  (sends.filter fun x => x.1 = dst).map Prod.snd

/-- What HCCL promises. -/
structure Meaning {n : ℕ} (req : Fin n → Request) (rep : Fin n → Reply) : Prop where
  allGather : ∀ send : Fin n → List ℚ, req = (fun r => .allGather (send r)) →
    (∀ r r', (send r).length = (send r').length) → ∀ r, rep r = [(List.ofFn send).flatten]
  allGatherV : ∀ (send : Fin n → List ℚ) (counts displs : Fin n → List ℕ),
    req = (fun r => .allGatherV (send r) (counts r) (displs r)) →
    (∀ r j : Fin n, (counts r).getD j 0 = (send j).length) →
      ∀ r, ∃ buffer, rep r = [buffer] ∧
        ∀ j : Fin n, slice buffer ((displs r).getD j 0) ((counts r).getD j 0) = send j
  broadcast : ∀ (root : Fin n) (buffer : Fin n → List ℚ), req = (fun r => .broadcast root (buffer r)) →
    ∀ r, (buffer r).length = (buffer root).length → rep r = [buffer root]
  sendRecv : ∀ (sends : Fin n → List (ℕ × List ℚ)) (recvs : Fin n → List (ℕ × ℕ)),
    req = (fun r => .sendRecv (sends r) (recvs r)) →
    ∀ r (k : ℕ) (src : Fin n) count data, (recvs r)[k]? = some (↑src, count) →
      dataFor r (sends src) = [data] → data.length = count → (rep r)[k]? = some data
  alltoAllV : ∀ (send : Fin n → List ℚ) (sendCounts sendDispls recvCounts recvDispls : Fin n → List ℕ),
    req = (fun r => .alltoAllV (send r) (sendCounts r) (sendDispls r) (recvCounts r) (recvDispls r)) →
    (∀ r j : Fin n, (sendCounts j).getD r 0 = (recvCounts r).getD j 0) →
      ∀ r, ∃ buffer, rep r = [buffer] ∧
        ∀ j : Fin n, slice buffer ((recvDispls r).getD j 0) ((recvCounts r).getD j 0) =
          slice (send j) ((sendDispls j).getD r 0) ((sendCounts j).getD r 0)
  scatter : ∀ (root : Fin n) (send : Fin n → List ℚ) (counts : Fin n → ℕ),
    req = (fun r => .scatter root (send r) (counts r)) →
    (∀ r r', counts r = counts r') → ∀ r, rep r = [slice (send root) (r * counts r) (counts r)]

/-- The program of a process, that ends with its memory. -/
abbrev Process := Spmd.Program Request Reply Memory

end TorchNpu.Distributed

namespace TorchNpu.Distributed

open Spmd

/-! ### Padding -/

/-- `element_size()`. -/
def ScalarType.elementSize : ScalarType → ℕ
  | .bool | .byte | .char | .float8E4m3fn | .float8E5m2 => 1
  | .short | .half | .bfloat16 | .uint16 => 2
  | .int | .float | .uint32 => 4
  | .long | .double | .uint64 | .complexFloat => 8

/-- The device and its libraries. -/
structure Platform where
  /-- The SoC is Ascend950 or later. -/
  noNeedPadding : Bool
  hcclAllGatherVExist : Bool
  /-- Whether `HcclAllGatherV` itself refuses an input whose count is not that of the slot of its rank. -/
  hcclAllGatherVChecks : Bool

/-- `ADDRESS_ALIGNMENT_BYTE`. -/
def addressAlignmentByte : ℕ := 512

/-- `num_add` of `byte_alignment`. -/
def numAdd (platform : Platform) (t : Tensor) : ℕ :=
  if platform.noNeedPadding then 0
  else
    let tensorByte := t.numel * t.scalarType.elementSize
    let byteAdd :=
      if tensorByte % addressAlignmentByte = 0 then 0
      else addressAlignmentByte - tensorByte % addressAlignmentByte
    byteAdd / t.scalarType.elementSize

/-- The tensor that `byte_alignment` gives. -/
def byteAlignment (platform : Platform) (t : Tensor) : Tensor :=
  newTensor 0 t.scalarType [1, t.numel + numAdd platform t]

/-- The elements of that tensor. -/
def padded (platform : Platform) (t : Tensor) (vs : List ℚ) : List ℚ :=
  vs ++ List.replicate (numAdd platform t) 0

/-! ### `copy_` -/

/-- A tensor can be expanded to larger sizes. -/
def expandable (src dst : List ℕ) : Bool :=
  src.length ≤ dst.length &&
    (src.zip (dst.drop (dst.length - src.length))).all fun (s, d) => s = d || s = 1

/-- The strides of an expanded contiguous tensor. -/
def expandStrides (src dst : List ℕ) : List ℕ :=
  List.replicate (dst.length - src.length) 0 ++
    (src.zip (Strided.contiguousStrides src)).map fun (s, stride) => if s = 1 then 0 else stride

/-- The elements of an expanded tensor. -/
def expand (src dst : List ℕ) (vs : List ℚ) : List ℚ :=
  (Strided.positions dst (expandStrides src dst) 0).map fun i => vs.getD i 0

/-- `self.copy_(src)`. -/
def copyTensor (m : Memory) (self src : PlacedTensor) : Except String Memory :=
  if self.numel = 0 then .ok m
  else if expandable src.sizes self.sizes then
    .ok (m.copy self (expand src.sizes self.sizes (m.elements src)))
  else .error "The expanded size of the tensor must match the existing size"

/-! ### The paths -/

inductive GatherPath
  | flattened
  | allGatherV
  | broadcast
  deriving DecidableEq

/-- `has_empty_tensor`: the data pointer of an empty tensor is null. -/
def hasEmptyTensor (tensors : List PlacedTensor) : Bool :=
  tensors.any fun t => t.numel = 0

/-- The path that `allgather` takes. -/
def gatherPath (platform : Platform) (outputs : List PlacedTensor) : GatherPath :=
  if checkSameSize (outputs.map PlacedTensor.toTensor) then .flattened
  else if platform.hcclAllGatherVExist && !hasEmptyTensor outputs then .allGatherV
  else .broadcast

/-- The copies from the gathered tensor to the slots. -/
def copySlots (flat : List ℚ) (displs : List ℕ) (outputs : List PlacedTensor) (m : Memory) : Memory :=
  (outputs.zip displs).foldl (fun m x => m.copy x.1 (slice flat x.2 x.1.numel)) m

/-- The path with byte alignment. -/
def gatherFlattened (platform : Platform) (size : ℕ) (outputs : List PlacedTensor) (input : PlacedTensor)
    (m : Memory) : Process :=
  let aligned := byteAlignment platform input.toTensor
  .check (flattenForScatterGather (outputs.map fun t => byteAlignment platform t.toTensor) aligned size 0)
    fun flattened =>
  .check (checkNpuTensorsDifferentDevices [flattened]) fun _ =>
  .check (getHcclDataType input.scalarType) fun _ =>
  .call (.allGather (padded platform input.toTensor (m.elements input))) fun reply =>
  .ret (copySlots (reply.headD []) ((List.range outputs.length).map (· * aligned.numel)) outputs m)

/-- `at::flatten` of the input as HCCL sees it: the tensor itself where it is contiguous, whatever its format,
else a copy. -/
def flattenedData (m : Memory) (t : PlacedTensor) : List ℚ :=
  if t.isContiguous then (List.range' t.storageOffset t.numel).map (m t.storage) else m.elements t

/-- The path with `HcclAllGatherV`. -/
def gatherV (platform : Platform) (rank : ℕ) (outputs : List PlacedTensor) (input : PlacedTensor)
    (m : Memory) : Process :=
  let outputCounts := outputs.map fun t => t.numel
  let outputSpl := displacements 0 outputCounts
  .check (getHcclDataType input.scalarType) fun _ =>
  if platform.hcclAllGatherVChecks && input.numel ≠ outputCounts.getD rank 0 then
    .fail "HcclAllGatherV"
  else
    .call (.allGatherV (flattenedData m input) outputCounts outputSpl) fun reply =>
    .ret (copySlots (reply.headD []) outputSpl outputs m)

/-- The path with one broadcast for each rank. -/
def gatherBroadcast (rank : ℕ) (input : PlacedTensor) : List (PlacedTensor × ℕ) → Memory → Process
  | [], m => .ret m
  | (output, i) :: outputs, m =>
    .check (if i = rank then copyTensor m output input else .ok m) fun m =>
    .check output.getNumelForHCCL fun _ =>
    .check (getHcclDataType output.scalarType) fun _ =>
    .call (.broadcast i (m.data output)) fun reply =>
    gatherBroadcast rank input outputs (m.fill output (reply.headD []))

/-- `allgather`. -/
def allgather (platform : Platform) (size rank : ℕ) (outputs : List PlacedTensor) (input : PlacedTensor)
    (m : Memory) : Process :=
  .check (checkNpuTensorsSameDevice (outputs.map PlacedTensor.toTensor)) fun _ =>
  .check (checkNpuTensorsDifferentDevices [input.toTensor]) fun _ =>
  match gatherPath platform outputs with
  | .flattened => gatherFlattened platform size outputs input m
  | .allGatherV => gatherV platform rank outputs input m
  | .broadcast => gatherBroadcast rank input outputs.zipIdx m

end TorchNpu.Distributed
