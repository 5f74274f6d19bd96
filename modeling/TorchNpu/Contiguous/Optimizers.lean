/-
  Recognising the views that one operator makes contiguous (`select_opt.cpp`, `indexing_opt.cpp`,
  `slice_opt.cpp` and `permute_opt.cpp`).

  A function of the name `canUse…` is given the sizes, strides and offset of a view and those of the
  tensor it is a view of, and infers the parameters of the operator; `none` is a `false`, or a
  division by zero.  The function `…ToContiguous` of an operator applies it to the base.  Sizes,
  strides and offsets are not negative and are natural numbers here.
-/
import TorchNpu.Distributed.Tensor

namespace TorchNpu.Contiguous

open Distributed (AclFormat)

/-! ### Views and operators -/

/-- A part of a storage. -/
structure View where
  sizes : List ℕ
  strides : List ℕ
  offset : ℕ

namespace View

/-- The places of the elements, in row-major order. -/
def elements (v : View) : List ℕ :=
  Strided.positions v.sizes v.strides v.offset

/-- The sum of the products of indexes and strides. -/
def shift (v : View) (indexes : List ℕ) : ℕ :=
  (List.zipWith (· * ·) indexes v.strides).sum

/-- `npu_slice` -/
def slice (v : View) (offsets size : List ℕ) : View :=
  { sizes := size, strides := v.strides, offset := v.offset + v.shift offsets }

/-- `StridedSlice`; starts and ends are cut down to the sizes. -/
def stridedSlice (v : View) (start stop step : List ℕ) : View :=
  let start := List.zipWith min start v.sizes
  let stop := List.zipWith min stop v.sizes
  { sizes := (List.range v.sizes.length).map fun i =>
      (stop.getD i 0 - start.getD i 0 + (step.getD i 0 - 1)) / step.getD i 0
    strides := List.zipWith (· * ·) step v.strides
    offset := v.offset + v.shift start }

/-- The elements of a list that are not in the mask. -/
def keep : List Bool → List ℕ → List ℕ
  | true :: mask, _ :: l => keep mask l
  | false :: mask, n :: l => n :: keep mask l
  | [], l => l
  | _ :: _, [] => []

/-- The dimensions in the mask are dropped. -/
def shrink (v : View) (mask : List Bool) : View :=
  { v with sizes := keep mask v.sizes, strides := keep mask v.strides }

/-- `npu_transpose` -/
def transpose (v : View) (perm : List ℕ) : View :=
  { v with
    sizes := perm.map fun i => v.sizes.getD i 0
    strides := perm.map fun i => v.strides.getD i 0 }

end View

/-- `ContiguousTensorDesc`; the offset of the base is 0. -/
structure ContiguousTensorDesc where
  sizes : List ℕ
  strides : List ℕ
  offset : ℕ
  baseSizes : List ℕ
  baseStrides : List ℕ
  npuFormat : AclFormat := .nd

namespace ContiguousTensorDesc

variable (desc : ContiguousTensorDesc)

def view : View :=
  { sizes := desc.sizes, strides := desc.strides, offset := desc.offset }

/-- `view_tensor(src, base_offset_, base_sizes_, base_strides_)` -/
def base : View :=
  { sizes := desc.baseSizes, strides := desc.baseStrides, offset := 0 }

end ContiguousTensorDesc

/-- The loop that divides an offset by one stride after the other, and what is left in the end. -/
def divideOffset : ℕ → List ℕ → List ℕ × ℕ
  | offset, [] => ([], offset)
  | offset, stride :: strides =>
    let (indexes, rest) := divideOffset (offset % stride) strides
    (offset / stride :: indexes, rest)

/-! ### `SelectContiguousOpt` -/

/-- `temp_size` and `temp_stride`: the view with the first dimension of the base that it does not share. -/
def recoverDims : List (ℕ × ℕ) → List (ℕ × ℕ) → List (ℕ × ℕ)
  | base :: bases, dim :: dims =>
    if base ≠ dim then base :: dim :: dims else dim :: recoverDims bases dims
  | _, _ => []

/-- `dim` -/
def selectDim : List (ℕ × ℕ) → List (ℕ × ℕ) → ℕ
  | base :: bases, dim :: dims => if base ≠ dim then 0 else selectDim bases dims + 1
  | _, _ => 0

/-- `can_use_select`.  If the last dimension was selected, `temp_size` and `temp_stride` have one element too few,
and what is compared in its place is what happens to be `behind` them. -/
def canUseSelect (behind : ℕ × ℕ) (desc : ContiguousTensorDesc) : Option (List ℕ × List ℕ) :=
  if desc.baseSizes.length ≠ desc.sizes.length + 1 ∨ desc.baseStrides.length ≠ desc.strides.length + 1 then none
  else
    let base := desc.baseSizes.zip desc.baseStrides
    let select := desc.sizes.zip desc.strides
    if base ≠ (recoverDims base select ++ [behind]).take base.length then none
    else
      let dim := selectDim base select
      let stride := desc.baseStrides.getD dim 0
      if stride = 0 then none
      else
        some ((List.range base.length).map fun i => if i = dim then desc.offset / stride else 0,
          (List.range base.length).map fun i => if i = dim then 1 else desc.baseSizes.getD i 0)

/-- `select_to_contiguous` -/
def selectToContiguous (desc : ContiguousTensorDesc) (start length : List ℕ) : View :=
  let shrinkMask := List.zipWith (fun length size => length = 1 && size ≠ 1) length desc.baseSizes
  (desc.base.stridedSlice start (List.zipWith (· + ·) start length) (start.map fun _ => 1)).shrink shrinkMask

/-! ### `IndexingContiguousOpt` -/

/-- `can_use_indexing` -/
def canUseIndexing (desc : ContiguousTensorDesc) : Option (List ℕ × List ℕ × List ℕ) :=
  if desc.baseSizes.prod ≤ desc.sizes.prod then none
  else if desc.sizes.length ≠ desc.baseSizes.length then none
  else if desc.strides.length ≠ desc.baseStrides.length then none
  else
    let dims := List.range desc.sizes.length
    let indexingSize (i : ℕ) : ℕ := desc.sizes.getD i 0
    let indexingStride (i : ℕ) : ℕ := desc.strides.getD i 0
    let baseSize (i : ℕ) : ℕ := desc.baseSizes.getD i 0
    let baseStride (i : ℕ) : ℕ := desc.baseStrides.getD i 0
    if dims.any fun i => baseStride i = 0 || indexingStride i < baseStride i || indexingStride i % baseStride i ≠ 0
    then none
    else
      let step (i : ℕ) : ℕ := indexingStride i / baseStride i
      let start (i : ℕ) : ℕ := (divideOffset desc.offset desc.baseStrides).1.getD i 0
      let calculateEnd (i : ℕ) : ℕ := start i + indexingSize i * step i
      if dims.any fun i => (baseSize i : ℤ) < calculateEnd i - step i then none
      -- cases 1 and 2
      else if (dims.map step).prod = 1 || step (desc.sizes.length - 1) ≠ 1 then none
      -- case 3
      else if dims.any fun i => step i = 1 && indexingSize i ≠ baseSize i then none
      -- cases 4 and 5
      else if (List.range (desc.sizes.length - 1)).any fun i =>
          step i ≠ 1 && (indexingSize i = 1 || step (i + 1) = 1 &&
            indexingStride i ≠ indexingSize (i + 1) * indexingStride (i + 1) * step i) then none
      else some (dims.map start, dims.map calculateEnd, dims.map step)

/-- `indexing_to_contiguous` -/
def indexingToContiguous (desc : ContiguousTensorDesc) (start stop step : List ℕ) : View :=
  desc.base.stridedSlice start stop step

/-! ### `SliceContiguousOpt` -/

/-- `view_sizes` and `view_strides`; a select in the last dimension becomes a narrow. -/
def sliceDims (desc : ContiguousTensorDesc) : List ℕ × List ℕ :=
  if desc.strides.getLastD 0 ≠ 1 ∧ desc.npuFormat.isBaseFormatType ∧ desc.strides.length < desc.baseStrides.length ∧
      desc.sizes.prod < desc.baseSizes.prod / desc.baseSizes.getLastD 0 then
    (desc.sizes ++ [1], desc.strides ++ [1])
  else (desc.sizes, desc.strides)

/-- `can_use_slice` -/
def canUseSlice (desc : ContiguousTensorDesc) : Option (List ℕ × List ℕ) :=
  let (viewSizes, viewStrides) := sliceDims desc
  let dims := List.range viewSizes.length
  let viewSize (i : ℕ) : ℕ := viewSizes.getD i 0
  let baseSize (i : ℕ) : ℕ := desc.baseSizes.getD i 0
  if viewStrides ≠ desc.baseStrides then none
  else if viewSizes.length ≠ desc.baseSizes.length then none
  else if dims.any fun i => baseSize i < viewSize i then none
  -- The division by a stride of zero.
  else if 0 ∈ viewStrides then none
  else
    let (offsets, storageOffsets) := divideOffset desc.offset viewStrides
    let offset (i : ℕ) : ℕ := offsets.getD i 0
    if storageOffsets ≠ 0 then none
    else if dims.any fun i => baseSize i < offset i + viewSize i || offset i ≠ 0 && viewSize i = baseSize i then none
    else some (offsets, viewSizes)

/-- `slice_to_contiguous` -/
def sliceToContiguous (desc : ContiguousTensorDesc) (offsets size : List ℕ) : View :=
  desc.base.slice offsets size

/-! ### `PermuteContiguousOpt` -/

/-- An element of `view_strides`, `view_sizes` and `indexes`. -/
structure PermuteDim where
  stride : ℕ
  size : ℕ
  index : ℕ

/-- `need_swap` -/
def PermuteDim.needSwap (a b : PermuteDim) : Bool :=
  a.stride < b.stride || a.stride = b.stride && a.size < b.size

/-- The body of the two loops that reorder the axes. -/
def swapAxes (dims : List PermuteDim) (i j : ℕ) : List PermuteDim :=
  match dims[i]?, dims[j]? with
  | some a, some b => if a.needSwap b then (dims.set i b).set j a else dims
  | _, _ => dims

/-- The axes in descending order. -/
def reorderAxes (dims : List PermuteDim) : List PermuteDim :=
  (List.range (dims.length - 1)).foldl
    (fun dims i => (List.range' (i + 1) (dims.length - (i + 1))).foldl (fun dims j => swapAxes dims i j) dims) dims

/-- `current_stride` in front of some axes, if the strides of these are what they should be; it is an `int`. -/
def currentStride : List PermuteDim → Option ℤ
  | [] => some 1
  | dim :: dims => do
    let stride ← currentStride dims
    if stride ≠ dim.stride then none else some ((stride * dim.size).bmod (2 ^ 32))

/-- `perm[indexes[i]] = i` -/
def invertIndexes (indexes : List ℕ) : List ℕ :=
  (List.range indexes.length).foldl (fun perm i => perm.set (indexes.getD i 0) i) indexes

/-- `can_use_permute` -/
def canUsePermute (desc : ContiguousTensorDesc) : Option (List ℕ × List ℕ) :=
  if desc.sizes.prod ≠ desc.baseSizes.prod then none
  else
    let dims := reorderAxes ((List.range desc.sizes.length).map fun i =>
      { stride := desc.strides.getD i 0, size := desc.sizes.getD i 0, index := i })
    if (currentStride dims).isNone then none
    else if (desc.baseSizes.length : ℤ) - desc.sizes.length ≠ desc.baseStrides.length - desc.strides.length then none
    else some (invertIndexes (dims.map PermuteDim.index), dims.map PermuteDim.size)

/-- `permute_to_contiguous` -/
def permuteToContiguous (perm sizes : List ℕ) : View :=
  ({ sizes, strides := Strided.contiguousStrides sizes, offset := 0 } : View).transpose perm

end TorchNpu.Contiguous

/-!
  Recognising an expanded tensor (`broadcast_opt.cpp`).

  `self` has the sizes of the view.
-/

namespace TorchNpu.Contiguous

namespace View

/-- `is_contiguous()` -/
def isContiguous (v : View) : Bool :=
  v.sizes.prod = 0 || Distributed.Tensor.isDenseIn (v.sizes.zip v.strides).reverse 1

/-- `npu_broadcast`: the elements of a contiguous tensor, repeated in the dimensions of size one.  It fails if another
dimension is not what it should be. -/
def broadcast (v : View) (size : List ℕ) : Option View :=
  if v.sizes.length = size.length ∧ (v.sizes.zip size).all fun (n, m) => n = 1 || n = m then
    some
      { sizes := size
        strides := List.zipWith (fun n stride => if n = 1 then 0 else stride) v.sizes
          (Strided.contiguousStrides v.sizes)
        offset := v.offset }
  else none

end View

/-- `can_use_broadcast` -/
def canUseBroadcast (desc : ContiguousTensorDesc) : Bool :=
  if desc.sizes.length < desc.baseSizes.length then false
  else
    let expandDims := desc.sizes.length - desc.baseSizes.length
    let baseSize (i : ℕ) : ℕ := desc.baseSizes.getD i 0
    let baseStride (i : ℕ) : ℕ := desc.baseStrides.getD i 0
    let viewSize (i : ℕ) : ℕ := desc.sizes.getD i 0
    let viewStride (i : ℕ) : ℕ := desc.strides.getD i 0
    let baseDims := List.range desc.baseSizes.length
    if baseDims.any fun i =>
        if viewStride (i + expandDims) = 0 then baseSize i ≠ 1 || viewSize (i + expandDims) = 1
        else viewSize (i + expandDims) ≠ baseSize i || viewStride (i + expandDims) ≠ baseStride i
    then false
    else if (List.range expandDims).any fun i => viewSize i ≠ 1 && viewStride i ≠ 0 then false
    else (baseDims.any fun i => viewStride (i + expandDims) = 0) || expandDims ≠ 0

/-- `src_size` -/
def srcSize (desc : ContiguousTensorDesc) : List ℕ :=
  List.zipWith (fun size stride => if stride = 0 then 1 else size) desc.sizes desc.strides

/-- `temp_src`; it keeps the offset of `src`. -/
def tempSrc (desc : ContiguousTensorDesc) : View :=
  { sizes := srcSize desc, strides := desc.strides, offset := desc.offset }

/-- `broadcast_to_contiguous` -/
def broadcastToContiguous (desc : ContiguousTensorDesc) : Option View :=
  if (tempSrc desc).isContiguous then (tempSrc desc).broadcast desc.sizes else none

end TorchNpu.Contiguous

/-!
  Recognising a view whose memory can be copied as it is (`ReshapeOpt.cpp`).

  A size in front of the first one counts as 0.
-/

namespace TorchNpu.Contiguous

/-- `ContiguousTensorDesc` with the sizes of the storage. -/
structure StoredTensorDesc extends ContiguousTensorDesc where
  storageSizes : List ℕ

/-- `sizes[sizes.size() - i]` -/
def sizeFromEnd (sizes : List ℕ) (i : ℕ) : ℕ :=
  sizes.reverse.getD (i - 1) 0

/-- `can_use_memecpy_for_NZ_format` -/
def canUseMemecpyForNZFormat (desc : StoredTensorDesc) : Bool :=
  if (sizeFromEnd desc.sizes 1 % 16 ≠ 0 || sizeFromEnd desc.sizes 2 % 16 ≠ 0) && desc.offset ≠ 0 then false
  else if sizeFromEnd desc.sizes 1 ≠ sizeFromEnd desc.baseSizes 1 ||
      sizeFromEnd desc.sizes 2 ≠ sizeFromEnd desc.baseSizes 2 then false
  else true

/-- `can_use_memcpy_for_other_format` -/
def canUseMemcpyForOtherFormat (desc : StoredTensorDesc) : Bool :=
  if desc.sizes.length < 2 then false
  else
    match desc.npuFormat with
    | .fractalNz => canUseMemecpyForNZFormat desc
    | _ =>
      if desc.baseSizes ≠ desc.sizes then false
      else if desc.sizes.prod ≠ desc.storageSizes.prod then false
      else true

/-- `check_reshape_match` of one tensor -/
def checkReshapeMatch (desc : StoredTensorDesc) : Bool :=
  if !desc.view.isContiguous then false
  else if !desc.npuFormat.isBaseFormatType then canUseMemcpyForOtherFormat desc
  else true

/-- `check_reshape_match` of two tensors -/
def checkReshapeMatchBoth (selfDesc srcDesc : StoredTensorDesc) : Bool :=
  checkReshapeMatch srcDesc && checkReshapeMatch selfDesc && selfDesc.sizes = srcDesc.sizes

end TorchNpu.Contiguous
