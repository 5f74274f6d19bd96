/-
  Where the elements of a tensor are.

  The operations of the framework (`copy_`, `cat`, `reshape`, ...) deal with the elements of a tensor in the
  order of its indices, wherever these are; HCCL deals with consecutive places from the data pointer on.
-/
import TorchNpu.Distributed.Collective
import Mathlib.Algebra.Order.Field.Rat
import TorchNpu.Lib.Assign

/-!
  What the kernels of a collective do to the memory of a process.

  Arithmetic is exact, and a conversion of the element type keeps the values.  What HCCL writes depends on
  the other processes: `received` gives the values of each of its calls.
-/

namespace TorchNpu.Distributed

/-- The values in all places of all storages. -/
abbrev Memory := ℕ → ℕ → ℚ

namespace Memory

variable (m : Memory) (t : Tensor)

/-- The values of a tensor. -/
def values : List ℚ :=
  t.cells.map (m t.storage)

/-- The values of the cells of a tensor change. -/
def update (f : ℚ → ℚ) : Memory :=
  fun s p => if s = t.storage ∧ p ∈ t.cells then f (m s p) else m s p

/-- A tensor is given values. -/
def write (vs : List ℚ) : Memory :=
  fun s p => if s = t.storage then ((t.cells.zip vs).lookup p).getD (m s p) else m s p

/-- HCCL writes `count` elements from the data pointer on. -/
def receive (count : ℕ) (received : ℕ → ℚ) : Memory :=
  fun s p =>
    if s = t.storage ∧ t.storageOffset ≤ p ∧ p < t.storageOffset + count then received p else m s p

end Memory

/-- A kernel, with the factor of `PREMUL_SUM`. -/
def Kernel.run (g : Group) (factor : ℚ) (received : ℕ → ℚ) (m : Memory) : Kernel → Memory
  | .dtypeCast dst src | .formatCast dst src | .copy dst src => m.write dst (m.values src)
  | .cat dst srcs => m.write dst (srcs.flatMap m.values)
  | .mul t => m.update t fun v => v * factor
  | .div t => m.update t fun v => v / g.size
  | .hcclAllReduce _ output count | .hcclReduceScatter _ output count
  | .hcclReduceScatterV _ output count => m.receive output count received
  | .hcclReduce _ output count root => if g.rank = root then m.receive output count received else m

def Action.run (g : Group) (factor : ℚ) (received : ℕ → ℚ) (m : Memory) : Action → Memory
  | .onCurrentStream kernel | .onHcclStream kernel => kernel.run g factor received m
  | .recordStream _ | .stash _ => m

/-- The memory when the call is complete; `received` is given by the place of the call of HCCL among the
actions that follow. -/
def runActions (g : Group) (factor : ℚ) (received : ℕ → ℕ → ℚ) : Memory → List Action → Memory
  | m, [] => m
  | m, a :: actions => runActions g factor received (a.run g factor (received actions.length) m) actions

end TorchNpu.Distributed

namespace TorchNpu.Distributed

open Assign

/-- A tensor of a process, with the places that its format gives to the elements of the storage.  The internal
formats are those of the device: all that is known is that they keep the elements apart, and where
`storage_sizes_` ends. -/
structure PlacedTensor extends Tensor where
  place : ℕ → ℕ
  place_base : toTensor.isBaseFormatType = true → ∀ i, place i = i
  place_injective : Function.Injective place
  place_lt : toTensor.isBaseFormatType = false →
    ∀ i ∈ Strided.positions sizes strides storageOffset, place i < toTensor.physicalNumel

namespace PlacedTensor

variable (t : PlacedTensor)

/-- The places of the elements, in the order of the indices. -/
def places : List ℕ :=
  (Strided.positions t.sizes t.strides t.storageOffset).map t.place

/-- How many places `getNumelForHCCL` gives to HCCL. -/
def count : ℕ :=
  if t.isBaseFormatType then t.numel else t.physicalNumel

/-- The places that HCCL deals with. -/
def extent : List ℕ :=
  List.range' t.storageOffset t.count

/-- Two tensors do not share memory. -/
def Apart (t u : PlacedTensor) : Prop :=
  t.storage = u.storage → t.extent.Disjoint u.extent

/-- A tensor of a base format. -/
def ofBase (t : Tensor) (h : t.isBaseFormatType = true) : PlacedTensor :=
  { t with
    place := id
    place_base := fun _ _ => rfl
    place_injective := Function.injective_id
    place_lt := fun hbase => nomatch h.symm.trans hbase }

end PlacedTensor

namespace Memory

variable (m : Memory) (t : PlacedTensor)

/-- The elements of a tensor in the order of the indices. -/
def elements : List ℚ :=
  t.places.map (m t.storage)

/-- `tensor.copy_`, with the elements of the source. -/
def copy (vs : List ℚ) : Memory :=
  fun s => if s = t.storage then assign (m s) t.places vs else m s

/-- What HCCL reads from the data pointer on. -/
def data : List ℚ :=
  t.extent.map (m t.storage)

/-- HCCL writes from the data pointer on. -/
def fill (vs : List ℚ) : Memory :=
  fun s => if s = t.storage then assign (m s) t.extent vs else m s

end Memory

end TorchNpu.Distributed
