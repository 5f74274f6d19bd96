/-
  What comes back of a descriptor that has been written to a map and read from it, in whatever order.

  The sizes and strides come back.  The sizes of the storage come back as those of the format ND, and the formats stay
  those of the tensor that is read into: `npu_format_cast_` changes them afterwards.
-/
import TorchNpu.Format.StorageDescHelper
import Mathlib.Data.List.Perm.Basic

namespace TorchNpu.Format.NPUStorageDesc

open Text

variable {D : Type} {desc cur load : NPUStorageDesc D} {vec : List ℤ} {name key : Text} {c : Char}

/-! ### Names in keys -/

theorem find_iff {sub str : Text} : find sub str = true ↔ sub <:+: str := by
  rw [find, List.any_eq_true, List.infix_iff_prefix_suffix]
  constructor
  · rintro ⟨tail, htail, hinit⟩
    exact ⟨tail, List.isPrefixOf_iff_prefix.mp hinit, (List.mem_tails _ _).mp htail⟩
  · rintro ⟨tail, hinit, hsuffix⟩
    exact ⟨tail, (List.mem_tails _ _).mpr hsuffix, List.isPrefixOf_iff_prefix.mpr hinit⟩

theorem find_of_notMem {sub str : Text} (h : c ∉ str) : find (c :: sub) str = false := by
  rw [Bool.eq_false_iff, ne_eq, find_iff]
  exact fun hin => h (hin.subset List.mem_cons_self)

theorem find_append (sub str : Text) : find sub (sub ++ str) = true :=
  find_iff.mpr (List.prefix_append sub str).isInfix

theorem mem_ofInt_cases {z : ℤ} (h : c ∈ ofInt z) : c = '-' ∨ c.isDigit = true := by
  unfold ofInt at h
  split_ifs at h
  · rcases List.mem_cons.mp h with rfl | h
    · exact .inl rfl
    · exact .inr (isDigit_of_mem_ofNat h)
  · exact .inr (isDigit_of_mem_ofNat h)

/-- The numbers of a key, and the slashes around them. -/
def numbers (vec : List ℤ) : Text :=
  (vec.flatMap fun v => '/' :: ofInt v) ++ ['/']

theorem smallVectorToStr_eq : smallVectorToStr name vec = name ++ numbers vec :=
  List.append_assoc _ _ _

theorem mem_numbers (h : c ∈ numbers vec) : c = '/' ∨ c = '-' ∨ c.isDigit = true := by
  rw [numbers, List.mem_append, List.mem_flatMap, List.mem_singleton] at h
  rcases h with ⟨v, -, h⟩ | rfl
  · rcases List.mem_cons.mp h with rfl | h
    · exact .inl rfl
    · exact .inr (mem_ofInt_cases h)
  · exact .inl rfl

theorem notMem_numbers (h : c.isDigit = false) (h1 : c ≠ '/') (h2 : c ≠ '-') : c ∉ numbers vec := by
  intro hc
  rcases mem_numbers hc with rfl | rfl | hdigit
  · exact h1 rfl
  · exact h2 rfl
  · rw [h] at hdigit
    cases hdigit

/-- The only b of the key is its first character. -/
theorem find_baseSizes_baseStrides : find baseSizesName (baseStridesName ++ numbers vec) = false := by
  have hnot : 'b' ∉ baseStridesName.tail ++ numbers vec := by
    rw [List.mem_append, not_or]
    exact ⟨by decide, notMem_numbers (by decide) (by decide) (by decide)⟩
  rw [Bool.eq_false_iff, ne_eq, find_iff]
  rintro ⟨left, right, h⟩
  rcases left with _ | ⟨d, left⟩
  · simp [baseSizesName, baseStridesName] at h
  · have htail : left ++ baseSizesName ++ right = baseStridesName.tail ++ numbers vec := (List.cons.inj h).2
    apply hnot
    rw [← htail]
    simp [baseSizesName]

/-! ### Reading what was written -/

theorem readNumbers_append {piece str : Text} (hpiece : '/' ∉ piece) (before : Text) :
    readNumbers before (piece ++ '/' :: str) =
      (stoll (before ++ piece)).bind fun v => (readNumbers [] str).bind fun vec => some (v :: vec) := by
  induction piece generalizing before with
  | nil =>
    rw [List.nil_append, readNumbers, if_neg (not_not.mpr rfl), List.append_nil]
    rfl
  | cons c piece ih =>
    rw [List.mem_cons, not_or] at hpiece
    rw [List.cons_append, readNumbers, if_pos (Ne.symm hpiece.1), ih hpiece.2, List.append_assoc]
    rfl

theorem slash_notMem_ofInt (z : ℤ) : '/' ∉ ofInt z := by
  intro h
  rcases mem_ofInt_cases h with h | h
  · exact absurd h (by decide)
  · exact absurd h (by decide)

/-- The slashes are after the numbers, too. -/
theorem numbers_eq (vec : List ℤ) : numbers vec = '/' :: vec.flatMap fun v => ofInt v ++ ['/'] := by
  unfold numbers
  induction vec with
  | nil => rfl
  | cons v vec ih =>
    rw [List.flatMap_cons, List.append_assoc, ih, List.flatMap_cons]
    simp

/-- 64 bits with a sign. -/
def IsInt64 (vec : List ℤ) : Prop :=
  ∀ v ∈ vec, -2 ^ 63 ≤ v ∧ v < 2 ^ 63

theorem readNumbers_flatMap (h : IsInt64 vec) : readNumbers [] (vec.flatMap fun v => ofInt v ++ ['/']) = some vec := by
  induction vec with
  | nil => rfl
  | cons v vec ih =>
    rw [IsInt64, List.forall_mem_cons] at h
    rw [List.flatMap_cons, List.append_assoc, List.singleton_append, readNumbers_append (slash_notMem_ofInt v),
      List.nil_append, stoll_ofInt h.1, ih h.2]
    rfl

theorem strToSmallVector_eq (hname : '/' ∉ name) (h : IsInt64 vec) (hlength : (name ++ numbers vec).length < 2 ^ 31) :
    strToSmallVector (name ++ numbers vec) = some vec := by
  have hdrop : (name ++ numbers vec).dropWhile (fun c => c ≠ '/') = numbers vec := by
    rw [List.dropWhile_append_of_pos, numbers_eq, List.dropWhile_cons_of_neg (by decide)]
    intro c hc
    rw [decide_eq_true_eq]
    rintro rfl
    exact hname hc
  unfold strToSmallVector
  rw [if_neg (by omega), hdrop, numbers_eq, List.drop_succ_cons, List.drop_zero, readNumbers_flatMap h]

/-! ### The keys of a map -/

/-- The keys that are written for a descriptor. -/
def keysOf (desc : NPUStorageDesc D) (originFormat : AclFormat) : List Text :=
  [baseSizesName ++ numbers desc.baseSizes, baseStridesName ++ numbers desc.baseStrides,
    storageSizesName ++ numbers desc.baseSizes, aclFormatToStr originFormatName originFormat,
    aclFormatToStr npuFormatName desc.npuFormat]

theorem getDescForSerialization_eq {originFormat : AclFormat} (h : desc.originFormat = some originFormat) :
    desc.getDescForSerialization true [] = some (keysOf desc originFormat) := by
  unfold getDescForSerialization
  simp only [h, smallVectorToStr_eq, storageSizesOfNd]
  simp [insertKey, keysOf, baseSizesName, baseStridesName, storageSizesName, aclFormatToStr, originFormatName,
    npuFormatName]

theorem notMem_formatName (format : AclFormat) : 'b' ∉ formatName format ∧ 's' ∉ formatName format := by
  cases format <;> decide

/-- What a key of a descriptor does to what has been loaded. -/
theorem loadKey_eq {originFormat : AclFormat} (hsizes : IsInt64 desc.baseSizes) (hstrides : IsInt64 desc.baseStrides)
    (hlength : ∀ key ∈ keysOf desc originFormat, key.length < 2 ^ 31) (hkey : key ∈ keysOf desc originFormat) :
    loadKey load key = some { load with
      baseSizes := if key = baseSizesName ++ numbers desc.baseSizes then desc.baseSizes else load.baseSizes
      baseStrides := if key = baseStridesName ++ numbers desc.baseStrides then desc.baseStrides else load.baseStrides
      storageSizes := if key = storageSizesName ++ numbers desc.baseSizes then desc.baseSizes
        else load.storageSizes } := by
  have hshort := hlength key hkey
  have hformat (name : Text) (format : AclFormat) (hb : 'b' ∉ name) (hs : 's' ∉ name) :
      find baseSizesName (aclFormatToStr name format) = false ∧
        find baseStridesName (aclFormatToStr name format) = false ∧
        find storageSizesName (aclFormatToStr name format) = false := by
    have hnot := notMem_formatName format
    have hb' : 'b' ∉ aclFormatToStr name format := by simp [aclFormatToStr, hb, hnot]
    have hs' : 's' ∉ aclFormatToStr name format := by simp [aclFormatToStr, hs, hnot]
    exact ⟨find_of_notMem hb', find_of_notMem hb', find_of_notMem hs'⟩
  unfold keysOf at hkey
  simp only [List.mem_cons, List.not_mem_nil, or_false] at hkey
  unfold loadKey
  rcases hkey with rfl | rfl | rfl | rfl | rfl
  · rw [if_pos (find_append _ _), strToSmallVector_eq (by decide) hsizes hshort]
    simp [baseSizesName, baseStridesName, storageSizesName]
  · rw [if_neg (by simp [find_baseSizes_baseStrides]), if_pos (find_append _ _),
      strToSmallVector_eq (by decide) hstrides hshort]
    simp [baseSizesName, baseStridesName, storageSizesName]
  · have hb : 'b' ∉ storageSizesName ++ numbers desc.baseSizes := by
      rw [List.mem_append, not_or]
      exact ⟨by decide, notMem_numbers (by decide) (by decide) (by decide)⟩
    have hno1 : find baseSizesName (storageSizesName ++ numbers desc.baseSizes) = false := find_of_notMem hb
    have hno2 : find baseStridesName (storageSizesName ++ numbers desc.baseSizes) = false := find_of_notMem hb
    rw [if_neg (by simp [hno1]), if_neg (by simp [hno2]), if_pos (find_append _ _),
      strToSmallVector_eq (by decide) hsizes hshort]
    simp [baseSizesName, baseStridesName, storageSizesName]
  · obtain ⟨h1, h2, h3⟩ := hformat originFormatName originFormat (by decide) (by decide)
    rw [if_neg (by simp [h1]), if_neg (by simp [h2]), if_neg (by simp [h3])]
    simp [aclFormatToStr, originFormatName, baseSizesName, baseStridesName, storageSizesName]
  · obtain ⟨h1, h2, h3⟩ := hformat npuFormatName desc.npuFormat (by decide) (by decide)
    rw [if_neg (by simp [h1]), if_neg (by simp [h2]), if_neg (by simp [h3])]
    simp [aclFormatToStr, npuFormatName, baseSizesName, baseStridesName, storageSizesName]

/-- In whatever order the keys come, what is loaded depends only on which of them there are. -/
theorem foldlM_loadKey {originFormat : AclFormat} (hsizes : IsInt64 desc.baseSizes)
    (hstrides : IsInt64 desc.baseStrides) (hlength : ∀ key ∈ keysOf desc originFormat, key.length < 2 ^ 31)
    {keys : List Text} (hkeys : ∀ key ∈ keys, key ∈ keysOf desc originFormat) (load : NPUStorageDesc D) :
    keys.foldlM loadKey load = some { load with
      baseSizes := if baseSizesName ++ numbers desc.baseSizes ∈ keys then desc.baseSizes else load.baseSizes
      baseStrides := if baseStridesName ++ numbers desc.baseStrides ∈ keys then desc.baseStrides
        else load.baseStrides
      storageSizes := if storageSizesName ++ numbers desc.baseSizes ∈ keys then desc.baseSizes
        else load.storageSizes } := by
  induction keys generalizing load with
  | nil => rfl
  | cons key keys ih =>
    rw [List.forall_mem_cons] at hkeys
    rw [List.foldlM_cons, loadKey_eq hsizes hstrides hlength hkeys.1, Option.bind_eq_bind, Option.bind_some,
      ih hkeys.2]
    simp only [List.mem_cons, eq_comm (a := key)]
    congr 2 <;> split_ifs <;> first | rfl | (exfalso; tauto)

/-! ### The round trip -/

/-- What was read, in whatever order the keys came. -/
def Restored (desc cur : NPUStorageDesc D) (read : Option (NPUStorageDesc D)) : Prop :=
  ∃ new, read = some new ∧ new.baseSizes = desc.baseSizes ∧ new.baseStrides = desc.baseStrides ∧
    new.storageSizes = desc.baseSizes ∧ new.baseOffset = cur.baseOffset ∧ new.originFormat = cur.originFormat ∧
    new.npuFormat = cur.npuFormat

/-- A map that was written for a descriptor restores the sizes and strides, and gives the storage the sizes of the
    format ND. -/
theorem restored_of_written (hformat : desc.originFormat.isSome) (hsizes : IsInt64 desc.baseSizes)
    (hstrides : IsInt64 desc.baseStrides) (cur : NPUStorageDesc D) (uint8 dtype : D) :
    ∃ written, desc.getDescForSerialization true [] = some written ∧
      ((∀ key ∈ written, key.length < 2 ^ 31) → ∀ keys, keys.Perm written →
        Restored desc cur (cur.setDescForSerialization uint8 dtype keys)) := by
  obtain ⟨originFormat, horigin⟩ := Option.isSome_iff_exists.mp hformat
  refine ⟨_, getDescForSerialization_eq horigin, fun hlength keys hperm => ?_⟩
  have hmem {key : Text} (h : key ∈ keysOf desc originFormat) : key ∈ keys := hperm.mem_iff.mpr h
  unfold Restored setDescForSerialization
  rw [foldlM_loadKey hsizes hstrides hlength (fun key h => hperm.mem_iff.mp h)]
  rw [if_pos (hmem (by simp [keysOf])), if_pos (hmem (by simp [keysOf])), if_pos (hmem (by simp [keysOf]))]
  simp only [Option.bind_eq_bind, Option.bind_some]
  split_ifs with hsame
  · refine ⟨cur, rfl, ?_⟩
    unfold isSameDesc at hsame
    split_ifs at hsame
    obtain ⟨h1, h2, h3⟩ := of_decide_eq_true hsame
    exact ⟨h1, h2, h3, rfl, rfl, rfl⟩
  · exact ⟨_, rfl, rfl, rfl, rfl, rfl, rfl, rfl⟩

/-- A matrix in blocks of 16 by 16. -/
def nzDesc : NPUStorageDesc Unit where
  baseSizes := [4, 4]
  baseStrides := [4, 1]
  storageSizes := [1, 1, 16, 16]
  originFormat := some .nd
  npuFormat := .fractalNz
  dataType := ()

theorem restored_of_written_nzDesc : ∃ written, nzDesc.getDescForSerialization true [] = some written ∧
    ((∀ key ∈ written, key.length < 2 ^ 31) → ∀ keys, keys.Perm written →
      Restored nzDesc { dataType := () } (setDescForSerialization { dataType := () } () () keys)) :=
  restored_of_written (by decide) (by unfold IsInt64; decide) (by unfold IsInt64; decide) _ _ _

/-- The sizes of the storage and the formats do not come back. -/
theorem not_restored_nzDesc : ¬∀ (desc cur : NPUStorageDesc Unit) (written : List Text),
    desc.originFormat.isSome → desc.getDescForSerialization true [] = some written →
    ∃ new, cur.setDescForSerialization () () written = some new ∧ new.storageSizes = desc.storageSizes ∧
      new.npuFormat = desc.npuFormat := by
  intro hall
  obtain ⟨new, hnew, hstorage, -⟩ :=
    hall nzDesc { dataType := () } (keysOf nzDesc .nd) (by decide) (by decide +kernel)
  have hread : setDescForSerialization { dataType := () } () () (keysOf nzDesc .nd) =
      some { dataType := (), baseSizes := [4, 4], baseStrides := [4, 1], storageSizes := [4, 4] } := by
    decide +kernel
  rw [hread] at hnew
  obtain rfl := Option.some.inj hnew
  exact absurd hstorage (by decide)

end TorchNpu.Format.NPUStorageDesc
