/-
  The descriptor of a storage as a map of texts (`StorageDescHelper.cpp`, `GetDescForSerialization` and
  `SetDescForSerialization`).

  The keys of the map carry everything, its values are all `true`.  It is a list of keys here, whose order is that of
  the iteration.  Positions in a key are `int`: a key of `2 ^ 31` characters is an overflow.
-/
import TorchNpu.Format.FormatHelper
import TorchNpu.Lib.Text

namespace TorchNpu.Format

open Text

/-- `GetFormatName` -/
def formatName : AclFormat → Text
  | .nc1hwc0 => "NC1HWC0".toList
  | .nd => "ND".toList
  | .nchw => "NCHW".toList
  | .nhwc => "NHWC".toList
  | .fractalNz => "FRACTAL_NZ".toList
  | .fractalZ => "FRACTAL_Z".toList
  | .ndhwc => "NDHWC".toList
  | .ncdhw => "NCDHW".toList
  | .ndc1hwc0 => "NDC1HWC0".toList
  | .fractalZ3d => "FRACTAL_Z_3D".toList
  | .fractalNzC016 => "FRACTAL_NZ_C0_16".toList
  | .fractalNzC032 => "FRACTAL_NZ_C0_32".toList
  | .fractalNzC02 => "FRACTAL_NZ_C0_2".toList
  | .fractalNzC04 => "FRACTAL_NZ_C0_4".toList
  | .fractalNzC08 => "FRACTAL_NZ_C0_8".toList

/-- `NPUStorageDesc`, for the types `D` of elements.  `none` is `ACL_FORMAT_UNDEFINED`. -/
structure NPUStorageDesc (D : Type) where
  baseSizes : List ℤ := []
  baseStrides : List ℤ := []
  storageSizes : List ℤ := []
  baseOffset : ℤ := 0
  originFormat : Option AclFormat := none
  npuFormat : AclFormat := .nd
  dataType : D
  deriving DecidableEq

namespace NPUStorageDesc

variable {D : Type} (desc : NPUStorageDesc D)

/-- `IsSameDesc`, where the formats of `b` are those of a new descriptor; an unknown format throws. -/
def isSameDesc (a b : NPUStorageDesc D) : Bool :=
  if (a.originFormat ≠ b.originFormat ∨ a.npuFormat ≠ b.npuFormat) ∧
      (!isBaseFormatType a.npuFormat || !isBaseFormatType b.npuFormat) then false
  else decide (a.baseSizes = b.baseSizes ∧ a.baseStrides = b.baseStrides ∧ a.storageSizes = b.storageSizes)

/-! ### Writing -/

def baseSizesName : Text := ['b', 'a', 's', 'e', '_', 's', 'i', 'z', 'e', 's', '_']
def baseStridesName : Text := ['b', 'a', 's', 'e', '_', 's', 't', 'r', 'i', 'd', 'e', 's', '_']
def storageSizesName : Text := ['s', 't', 'o', 'r', 'a', 'g', 'e', '_', 's', 'i', 'z', 'e', 's', '_']
def originFormatName : Text := ['o', 'r', 'i', 'g', 'i', 'n', '_', 'f', 'o', 'r', 'm', 'a', 't', '_']
def npuFormatName : Text := ['n', 'p', 'u', '_', 'f', 'o', 'r', 'm', 'a', 't', '_']

/-- `small_vector_to_str` -/
def smallVectorToStr (keyName : Text) (vec : List ℤ) : Text :=
  keyName ++ (vec.flatMap fun v => '/' :: ofInt v) ++ ['/']

/-- `acl_format_to_str` -/
def aclFormatToStr (keyName : Text) (format : AclFormat) : Text :=
  keyName ++ '/' :: formatName format

local instance keysLawful : LawfulBEq Text := inferInstance

/-- `desc_map[key] = true` -/
def insertKey (keys : List Text) (key : Text) : List Text :=
  if key ∈ keys then keys else keys ++ [key]

/-- `GetStorageSizes` for `ACL_FORMAT_ND`, which is `InferShapeofND`. -/
def storageSizesOfNd (sizes : List ℤ) : List ℤ := sizes

/-- `GetDescForSerialization`; `hasData` says whether the storage has a data pointer.  `none`: the name of a format is
    unknown. -/
def getDescForSerialization (hasData : Bool) (descMap : List Text) : Option (List Text) :=
  if !hasData then some descMap
  else do
    let descMap := insertKey descMap (smallVectorToStr baseSizesName desc.baseSizes)
    let descMap := insertKey descMap (smallVectorToStr baseStridesName desc.baseStrides)
    let descMap := insertKey descMap (smallVectorToStr storageSizesName (storageSizesOfNd desc.baseSizes))
    let originFormat ← desc.originFormat
    let descMap := insertKey descMap (aclFormatToStr originFormatName originFormat)
    pure (insertKey descMap (aclFormatToStr npuFormatName desc.npuFormat))

/-! ### Reading -/

/-- `str.find(sub) != npos` -/
def find (sub str : Text) : Bool :=
  str.tails.any sub.isPrefixOf

/-- The numbers before the slashes; `piece` has the characters after the last slash. -/
def readNumbers (piece : Text) : Text → Option (List ℤ)
  | [] => some []
  | c :: str =>
    if c ≠ '/' then readNumbers (piece ++ [c]) str
    else do
      let v ← stoll piece
      let vec ← readNumbers [] str
      pure (v :: vec)

/-- `str_to_small_vector` -/
def strToSmallVector (str : Text) : Option (List ℤ) :=
  if 2 ^ 31 ≤ str.length then none
  else readNumbers [] ((str.dropWhile fun c => c ≠ '/').drop 1)

/-- One key of the map. -/
def loadKey (load : NPUStorageDesc D) (key : Text) : Option (NPUStorageDesc D) :=
  if find baseSizesName key then (strToSmallVector key).map fun vec => { load with baseSizes := vec }
  else if find baseStridesName key then (strToSmallVector key).map fun vec => { load with baseStrides := vec }
  else if find storageSizesName key then (strToSmallVector key).map fun vec => { load with storageSizes := vec }
  else some load

/-- `SetDescForSerialization` of a tensor with elements of type `dtype`; `uint8` is the type of a new descriptor. -/
def setDescForSerialization (cur : NPUStorageDesc D) (uint8 dtype : D) (descMap : List Text) :
    Option (NPUStorageDesc D) := do
  let load ← descMap.foldlM loadKey { dataType := uint8 }
  if isSameDesc cur load then pure cur
  else
    pure { cur with
      baseSizes := load.baseSizes
      baseStrides := load.baseStrides
      storageSizes := load.storageSizes
      dataType := dtype }

end NPUStorageDesc

end TorchNpu.Format
