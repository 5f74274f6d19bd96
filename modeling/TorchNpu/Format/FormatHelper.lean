/-
  The sizes of the storage of a tensor in a format of the device (`FormatHelper.{h,cpp}`).

  A size is a number; the products that are merged into one size are below the number of elements of a tensor
  that has any, so that they do not overflow.  `none` is an assertion that fails or an `AT_ERROR`.
-/
import Mathlib.Data.List.Basic

namespace TorchNpu.Format

/-- The formats that are registered in `info`. -/
inductive AclFormat
  | nc1hwc0
  | nd
  | nchw
  | nhwc
  | fractalNz
  | fractalZ
  | ndhwc
  | ncdhw
  | ndc1hwc0
  | fractalZ3d
  | fractalNzC016
  | fractalNzC032
  | fractalNzC02
  | fractalNzC04
  | fractalNzC08
  deriving DecidableEq

def blockSize : ℕ := 16
def blockBytes : ℕ := 32
def nzC016LastSize : ℕ := 16

def inferShapeLessTo4 : List ℕ → Option (List ℕ)
  | [] => some [1, 1, 1, 1]
  | [c] => some [1, c, 1, 1]
  | [c, h] => some [1, c, h, 1]
  | [c, h, w] => some [1, c, h, w]
  | [n, c, h, w] => some [n, c, h, w]
  | _ => none

def inferShapeofNHWC (dims : List ℕ) : Option (List ℕ) :=
  if dims.length = 4 then some dims else none

/-- The sizes after the first four are passed over; there is a message about them in the log. -/
def blocks4To5 : List ℕ → Option (List ℕ)
  | n :: c :: h :: w :: _ => some [n, (c + 15) / 16, h, w, blockSize]
  | _ => none

def inferShape4To5 (dims : List ℕ) : Option (List ℕ) :=
  if dims.length < 4 then (inferShapeLessTo4 dims).bind blocks4To5 else blocks4To5 dims

/-- The matrices of the last two dimensions in blocks; a missing dimension has size 1. -/
def nzBlocks (lastSize : ℕ) : List ℕ → List ℕ
  | [] => [(1 + lastSize - 1) / lastSize, (1 + blockSize - 1) / blockSize, blockSize, lastSize]
  | [h] => [(1 + lastSize - 1) / lastSize, (h + blockSize - 1) / blockSize, blockSize, lastSize]
  | [h, w] => [(w + lastSize - 1) / lastSize, (h + blockSize - 1) / blockSize, blockSize, lastSize]
  | n :: h :: w :: dims => n :: nzBlocks lastSize (h :: w :: dims)

/-- `lastSize` of `InferShapeNDToNZ`. -/
def nzLastSize (itemsize : ℕ) : ℕ := blockBytes / if 2 < itemsize then 2 else itemsize

def inferShapeNDToNZ (dims : List ℕ) (itemsize : ℕ) : Option (List ℕ) :=
  if itemsize = 0 then none else some (nzBlocks (nzLastSize itemsize) dims)

def inferShapeNDToNZC016 (dims : List ℕ) (itemsize : ℕ) : Option (List ℕ) :=
  if itemsize = 0 then none else some (nzBlocks nzC016LastSize dims)

def blocksNDToZ : List ℕ → Option (List ℕ)
  | n :: c :: h :: w :: _ => some [(c + 15) / blockSize * h * w, (n + 15) / blockSize, blockSize, blockSize]
  | _ => none

def inferShapeNDToZ (dims : List ℕ) : Option (List ℕ) :=
  if dims.length < 4 then (inferShapeLessTo4 dims).bind blocksNDToZ else blocksNDToZ dims

def inferShapeOfNDHWC : List ℕ → Option (List ℕ)
  | n :: c :: d :: h :: w :: _ => some [n, d, h, w, c]
  | _ => none

def inferShapeOfNCDHW : List ℕ → Option (List ℕ)
  | n :: c :: d :: h :: w :: _ => some [n, c, d, h, w]
  | _ => none

def inferShapeOfNDC1HWC0 : List ℕ → Option (List ℕ)
  | n :: c :: d :: h :: w :: _ => some [n, d, (c + blockSize - 1) / blockSize, h, w, blockSize]
  | _ => none

/-- The first four of the seven dimensions are merged. -/
def inferShapeOfFZ3D : List ℕ → Option (List ℕ)
  | n :: c :: d :: h :: w :: _ =>
    some [d * ((c + blockSize - 1) / blockSize) * h * w, (n + blockSize - 1) / blockSize, blockSize, blockSize]
  | _ => none

def inferShapeofND (dims : List ℕ) : Option (List ℕ) := some dims

def inferShapeofNCHW (dims : List ℕ) : Option (List ℕ) :=
  if dims.length < 5 then inferShapeLessTo4 dims else inferShapeofND dims

/-! ### `FormatHelper::info` -/

structure FormatInfo where
  baseFormat : AclFormat
  func : Option (List ℕ → ℕ → Option (List ℕ))
  isPadded : Bool

def info : AclFormat → FormatInfo
  | .nc1hwc0 => ⟨.nchw, some fun dims _ => inferShape4To5 dims, true⟩
  | .nd => ⟨.nd, some fun dims _ => inferShapeofND dims, false⟩
  | .nchw => ⟨.nchw, some fun dims _ => inferShapeofNCHW dims, false⟩
  | .nhwc => ⟨.nhwc, some fun dims _ => inferShapeofNHWC dims, false⟩
  | .fractalNz => ⟨.nd, some inferShapeNDToNZ, true⟩
  | .fractalZ => ⟨.nchw, some fun dims _ => inferShapeNDToZ dims, true⟩
  | .ndhwc => ⟨.ncdhw, some fun dims _ => inferShapeOfNDHWC dims, false⟩
  | .ncdhw => ⟨.ncdhw, some fun dims _ => inferShapeOfNCDHW dims, false⟩
  | .ndc1hwc0 => ⟨.ncdhw, some fun dims _ => inferShapeOfNDC1HWC0 dims, true⟩
  | .fractalZ3d => ⟨.ncdhw, some fun dims _ => inferShapeOfFZ3D dims, true⟩
  | .fractalNzC016 => ⟨.nd, some inferShapeNDToNZC016, true⟩
  | .fractalNzC032 => ⟨.nd, none, true⟩
  | .fractalNzC02 => ⟨.nd, none, true⟩
  | .fractalNzC04 => ⟨.nd, none, true⟩
  | .fractalNzC08 => ⟨.nd, none, true⟩

def isBaseFormatType (format : AclFormat) : Bool := (info format).baseFormat = format

def isPadded (format : AclFormat) : Bool := (info format).isPadded

def getStorageSizes (format : AclFormat) (oriSize : List ℕ) (itemsize : ℕ) : Option (List ℕ) :=
  (info format).func.bind fun func => func oriSize itemsize

end TorchNpu.Format
