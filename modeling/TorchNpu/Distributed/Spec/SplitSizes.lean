/-
  When the parts that HCCL gets are the parts of the tensor.

  A count is the product of a split and the elements of a row, as long as nothing wraps: the splits, which are
  only compared by their sum, may be negative, and the elements of a row are made an `int`.
-/
import Mathlib.Algebra.BigOperators.Ring.Finset
import Mathlib.Algebra.BigOperators.Ring.List
import Mathlib.Algebra.Order.BigOperators.Group.List
import Mathlib.Data.List.Induction
import Mathlib.Tactic.Linarith
import TorchNpu.Distributed.SplitSizes

namespace TorchNpu.Distributed.SplitSizes

/-! ### Integers of a fixed width -/

theorem toNat_toUInt64 (x : Int64) : (x.toUInt64.toNat : ℤ) = x.toInt % 2 ^ 64 := by
  have hlt := x.toBitVec.isLt
  rw [← Int64.toNat_toBitVec, ← Int64.toInt_toBitVec, BitVec.toInt_eq_toNat_bmod]
  calc (x.toBitVec.toNat : ℤ) = (x.toBitVec.toNat : ℤ) % (2 ^ 64 : ℕ) :=
        (Int.emod_eq_of_lt (by omega) (by exact_mod_cast hlt)).symm
    _ = _ := Int.bmod_emod.symm

theorem toInt_toInt64_ofNat (n : ℕ) : (Int32.ofNat n).toInt64.toInt = (n : ℤ).bmod (2 ^ 32) := by
  rw [Int32.toInt_toInt64, Int32.toInt_ofNat']
  rfl

/-- The count of a split. -/
theorem toNat_count (split : Int64) (n : ℕ) :
    (((split * (Int32.ofNat n).toInt64).toUInt64.toNat : ℕ) : ℤ) = split.toInt * (n : ℤ).bmod (2 ^ 32) % 2 ^ 64 := by
  rw [toNat_toUInt64, Int64.toInt_mul, toInt_toInt64_ofNat]
  exact Int.bmod_emod

/-- A product that does not change when its second factor is made an `int`. -/
theorem count_exact {split : ℤ} {n : ℕ} (hsplit : 0 ≤ split) (hn : n < 2 ^ 31) (hlt : split * n < 2 ^ 63) :
    split * (n : ℤ).bmod (2 ^ 32) % 2 ^ 64 = split * n := by
  have hbmod : (n : ℤ).bmod (2 ^ 32) = n := by
    apply Int.bmod_eq_of_le <;> omega
  rw [hbmod]
  have hnonneg : 0 ≤ split * (n : ℤ) := Int.mul_nonneg hsplit (Int.natCast_nonneg n)
  exact Int.emod_eq_of_lt hnonneg (by omega)

/-- A product of a positive factor with one that is no `int`. -/
theorem count_not_exact {split : ℤ} {n : ℕ} (hsplit : 0 < split) (hn : 2 ^ 31 ≤ n) (hlt : split * n < 2 ^ 63) :
    split * (n : ℤ).bmod (2 ^ 32) % 2 ^ 64 ≠ split * n := by
  intro heq
  -- The bits that are lost are a multiple of `2 ^ 32`, and at most twice the number.
  obtain ⟨m, hm⟩ : ∃ m : ℤ, (n : ℤ) - (n : ℤ).bmod (2 ^ 32) = 2 ^ 32 * m := by
    obtain ⟨m, hm⟩ := Int.dvd_self_sub_bmod (x := (n : ℤ)) (m := 2 ^ 32)
    exact ⟨m, by simpa using hm⟩
  have hbmod_lt : (n : ℤ).bmod (2 ^ 32) < 2 ^ 31 := by
    have := Int.bmod_lt (x := (n : ℤ)) (m := 2 ^ 32) (by decide)
    omega
  have hbmod_le : -2 ^ 31 ≤ (n : ℤ).bmod (2 ^ 32) := by
    have := Int.le_bmod (x := (n : ℤ)) (m := 2 ^ 32) (by decide)
    omega
  have hmpos : 0 < m := by omega
  have hmle : 2 ^ 32 * m ≤ 2 * n := by omega
  have hdvd : (2 ^ 64 : ℤ) ∣ split * (2 ^ 32 * m) := by
    rw [← hm, mul_sub]
    have := Int.dvd_self_sub_emod (x := split * (n : ℤ).bmod (2 ^ 32)) (m := 2 ^ 64)
    rw [heq] at this
    rw [← Int.dvd_neg, neg_sub]
    exact this
  have hpos : 0 < split * (2 ^ 32 * m) := Int.mul_pos hsplit (by omega)
  have hle := Int.le_of_dvd hpos hdvd
  have htwice : split * (2 ^ 32 * m) ≤ split * (2 * n) := Int.mul_le_mul_of_nonneg_left hmle hsplit.le
  rw [Int.mul_left_comm split 2 n] at htwice
  omega

/-! ### The loop -/

/-- The offset of a part, as it is computed. -/
def wrappedSum (counts : List UInt64) : UInt64 :=
  counts.foldl (· + ·) 0

theorem wrappedSum_append_singleton (counts : List UInt64) (count : UInt64) :
    wrappedSum (counts ++ [count]) = wrappedSum counts + count := by
  rw [wrappedSum, List.foldl_append]
  rfl

theorem toNat_wrappedSum {counts : List UInt64} (h : (counts.map UInt64.toNat).sum < 2 ^ 64) :
    (wrappedSum counts).toNat = (counts.map UInt64.toNat).sum := by
  induction counts using List.reverseRecOn with
  | nil => rfl
  | append_singleton counts count ih =>
    rw [List.map_append, List.sum_append] at h ⊢
    rw [wrappedSum_append_singleton, UInt64.toNat_add, ih (by omega)]
    simp only [List.map_cons, List.map_nil, List.sum_cons, List.sum_nil, add_zero] at h ⊢
    exact Nat.mod_eq_of_lt h

/-- The offsets of some parts; there is one even if there are no parts. -/
def offsets (counts : List UInt64) : List UInt64 :=
  (List.range (max 1 counts.length)).map fun i => wrappedSum (counts.take i)

theorem offsets_append_singleton {counts : List UInt64} (h : counts ≠ []) (count : UInt64) :
    offsets (counts ++ [count]) = offsets counts ++ [wrappedSum counts] := by
  have hpos := List.length_pos_iff.mpr h
  rw [offsets, List.length_append, List.length_singleton, Nat.max_eq_right (by omega), List.range_succ,
    List.map_append, offsets, Nat.max_eq_right hpos]
  congr 1
  · apply List.map_congr_left
    intro i hi
    rw [List.take_append_of_le_length (List.mem_range.mp hi).le]
  · rw [List.map_singleton, List.take_left']
    rfl

theorem getLast?_offsets (counts : List UInt64) (count : UInt64) :
    (offsets (counts ++ [count])).getLast? = some (wrappedSum counts) := by
  by_cases h : counts = []
  · rw [h]
    rfl
  · rw [offsets_append_singleton h, List.getLast?_concat]

theorem push_offsets (rowSize : Int32) (counts : List UInt64) (splitSize : Int64) :
    Parts.push rowSize ⟨counts, offsets counts⟩ splitSize =
      ⟨counts ++ [(splitSize * rowSize.toInt64).toUInt64],
        offsets (counts ++ [(splitSize * rowSize.toInt64).toUInt64])⟩ := by
  rcases List.eq_nil_or_concat counts with rfl | ⟨counts, last, rfl⟩
  · -- The first round adds no offset.
    rfl
  · rw [Parts.push, List.concat_eq_append]
    dsimp only
    have hne : counts ++ [last] ≠ [] := List.append_ne_nil_of_right_ne_nil _ (List.cons_ne_nil _ _)
    rw [getLast?_offsets, List.getLast?_concat, offsets_append_singleton hne, wrappedSum_append_singleton]

/-- The counts and the offsets of some splits. -/
theorem foldl_push (rowSize : Int32) (splitSizes : List Int64) :
    splitSizes.foldl (Parts.push rowSize) {} =
      ⟨splitSizes.map fun splitSize => (splitSize * rowSize.toInt64).toUInt64,
        offsets (splitSizes.map fun splitSize => (splitSize * rowSize.toInt64).toUInt64)⟩ := by
  induction splitSizes using List.reverseRecOn with
  | nil => rfl
  | append_singleton splitSizes splitSize ih =>
    rw [List.foldl_append, List.foldl_cons, List.foldl_nil, ih, push_offsets, List.map_append, List.map_singleton]

/-! ### The parts of a tensor -/

/-- The parts are those of the tensor: each count is the size of its split, nothing has wrapped, they follow each
other and there is nothing else. -/
structure Partition (tensor : TensorSizes) (splitSizes : List Int64) (parts : Parts) : Prop where
  splits : ∀ size0 ∈ tensor.size0?, (splitSizes.map Int64.toInt).sum = size0
  counts : ∀ size0 ∈ tensor.size0?, parts.counts.map (fun count => (count.toNat : ℤ)) =
    splitSizes.map fun splitSize => splitSize.toInt * (rowElements tensor size0 : ℤ)
  sum : (parts.counts.map UInt64.toNat).sum = tensor.numel
  spl : ∀ i < parts.counts.length,
    (parts.spl[i]?).map UInt64.toNat = some ((parts.counts.take i).map UInt64.toNat).sum

/-- The splits are sizes that fill the dimension, and the elements of a row are an `int`. -/
def Fits (tensor : TensorSizes) (splitSizes : List Int64) : Prop :=
  ∀ size0 ∈ tensor.size0?, (splitSizes.map Int64.toInt).sum = size0 ∧
    (rowElements tensor size0 = 0 ∨ rowElements tensor size0 < 2 ^ 31 ∧ ∀ splitSize ∈ splitSizes, 0 ≤ splitSize.toInt)

theorem size0_mul_rowElements {tensor : TensorSizes} {size0 : ℕ} (h : tensor.size0? = some size0) :
    size0 * rowElements tensor size0 = tensor.numel := by
  obtain ⟨rest, hsizes⟩ : ∃ rest, tensor.sizes = size0 :: rest := by
    cases hsizes : tensor.sizes with
    | nil => simp [TensorSizes.size0?, hsizes] at h
    | cons size rest =>
      obtain rfl : size = size0 := by simpa [TensorSizes.size0?, hsizes] using h
      exact ⟨rest, rfl⟩
  have hnumel : tensor.numel = size0 * rest.prod := by rw [TensorSizes.numel, hsizes, List.prod_cons]
  rw [rowElements]
  split_ifs with hzero
  · rw [hnumel, Nat.mul_div_cancel_left _ (Nat.pos_of_ne_zero hzero)]
  · rw [hnumel, not_not.mp hzero, Nat.zero_mul, Nat.zero_mul]

theorem mul_le_numel {tensor : TensorSizes} {splitSizes : List Int64} {size0 n : ℕ}
    (hsum : (splitSizes.map Int64.toInt).sum = size0) (hnonneg : ∀ splitSize ∈ splitSizes, 0 ≤ splitSize.toInt)
    (hnumel : size0 * n = tensor.numel) {splitSize : Int64} (hmem : splitSize ∈ splitSizes) :
    splitSize.toInt * n ≤ tensor.numel := by
  have hle : splitSize.toInt ≤ size0 := by
    rw [← hsum]
    apply List.single_le_sum
    · rw [List.forall_mem_map]
      exact hnonneg
    · exact List.mem_map_of_mem hmem
  calc splitSize.toInt * n ≤ size0 * n := Int.mul_le_mul_of_nonneg_right hle (Int.natCast_nonneg n)
    _ = tensor.numel := by rw [← hnumel, Nat.cast_mul]

theorem partition_iff_fits {tensor : TensorSizes} {splitSizes : List Int64} {parts : Parts}
    (h : partsOf tensor splitSizes = some parts) : Partition tensor splitSizes parts ↔ Fits tensor splitSizes := by
  obtain ⟨size0, hsize0, hparts⟩ := Option.bind_eq_some_iff.mp h
  obtain rfl := Option.some.inj hparts
  have hnumel := size0_mul_rowElements hsize0
  have hnumel_lt : tensor.numel < 2 ^ 63 := tensor.numel_lt
  set n := rowElements tensor size0 with hn
  rw [foldl_push]
  set counts := splitSizes.map (fun splitSize => (splitSize * (Int32.ofNat n).toInt64).toUInt64) with hcounts
  have hcast : counts.map (fun count => (count.toNat : ℤ)) =
      splitSizes.map fun splitSize => splitSize.toInt * (n : ℤ).bmod (2 ^ 32) % 2 ^ 64 := by
    rw [hcounts, List.map_map]
    apply List.map_congr_left
    intro splitSize _
    exact toNat_count splitSize n
  constructor
  · intro ⟨hsplits, hexact, _, _⟩ size0' hsize0'
    obtain rfl := Option.some.inj (hsize0.symm.trans hsize0')
    have hsum := hsplits _ hsize0
    have hexact : ∀ splitSize ∈ splitSizes,
        splitSize.toInt * (n : ℤ).bmod (2 ^ 32) % 2 ^ 64 = splitSize.toInt * n := by
      have hexact := hexact _ hsize0
      rwa [hcast, List.map_inj_left] at hexact
    refine ⟨hsum, ?_⟩
    by_cases hzero : n = 0
    · exact .inl hzero
    have hnonneg : ∀ splitSize ∈ splitSizes, 0 ≤ splitSize.toInt := by
      intro splitSize hmem
      by_contra hneg
      have hproduct := Int.mul_neg_of_neg_of_pos (not_le.mp hneg) (show (0 : ℤ) < n by omega)
      have := hexact splitSize hmem
      omega
    refine .inr ⟨?_, hnonneg⟩
    by_contra hlarge
    -- A row that is no `int` is not that of a tensor without rows.
    have hsize0_pos : 0 < size0 := by
      rcases Nat.eq_zero_or_pos size0 with rfl | hpos
      · simp [rowElements] at hn
        omega
      · exact hpos
    obtain ⟨splitSize, hmem, hpos⟩ : ∃ splitSize ∈ splitSizes, 0 < splitSize.toInt := by
      by_contra hnone
      push Not at hnone
      have : (splitSizes.map Int64.toInt).sum = 0 := by
        apply List.sum_eq_zero
        rw [List.forall_mem_map]
        exact fun splitSize hmem => le_antisymm (hnone splitSize hmem) (hnonneg splitSize hmem)
      omega
    have hle := mul_le_numel hsum hnonneg hnumel hmem
    exact count_not_exact (n := n) hpos (not_lt.mp hlarge) (by omega) (hexact splitSize hmem)
  · intro hfits
    obtain ⟨hsum, hrow⟩ : _ ∧ (n = 0 ∨ n < 2 ^ 31 ∧ ∀ splitSize ∈ splitSizes, 0 ≤ splitSize.toInt) :=
      hfits _ hsize0
    have hexact : counts.map (fun count => (count.toNat : ℤ)) =
        splitSizes.map fun splitSize => splitSize.toInt * (n : ℤ) := by
      rw [hcast]
      apply List.map_congr_left
      intro splitSize hmem
      rcases hrow with hzero | ⟨hsmall, hnonneg⟩
      · rw [hzero]
        simp
      · have hle := mul_le_numel hsum hnonneg hnumel hmem
        exact count_exact (hnonneg splitSize hmem) hsmall (by omega)
    have htotal : (counts.map UInt64.toNat).sum = tensor.numel := by
      have hcastSum := congrArg List.sum hexact
      rw [List.sum_map_mul_right, hsum, ← Nat.cast_mul, hnumel] at hcastSum
      have : ((counts.map UInt64.toNat).sum : ℤ) = (counts.map fun count => (count.toNat : ℤ)).sum := by
        rw [Nat.cast_list_sum, List.map_map]
        rfl
      omega
    refine ⟨?_, ?_, htotal, fun i hi => ?_⟩
    · intro size0' hsize0'
      rwa [← Option.some.inj (hsize0.symm.trans hsize0')]
    · intro size0' hsize0'
      rwa [← Option.some.inj (hsize0.symm.trans hsize0')]
    · have hlt : i < max 1 counts.length := lt_max_of_lt_right hi
      have htake : ((counts.take i).map UInt64.toNat).sum ≤ (counts.map UInt64.toNat).sum := by
        rw [List.map_take]
        exact List.Sublist.sum_le_sum (List.take_sublist _ _) fun _ _ => Nat.zero_le _
      show ((offsets counts)[i]?).map UInt64.toNat = _
      rw [offsets, List.getElem?_map, List.getElem?_range hlt, Option.map_map]
      exact congrArg some (toNat_wrappedSum (by omega))

/-! ### The collectives -/

/-- The splits of a tensor, with equal ones where there are none. -/
def splitsOrEqual (tensor : TensorSizes) (splitSizes : List Int64) (groupSize : ℕ) : List Int64 :=
  if splitSizes.isEmpty then
    List.replicate groupSize (int64OfNat ((tensor.size0?).getD 0 / groupSize))
  else splitSizes

theorem partsOf_of_baseUneven {tensor : TensorSizes} {splitSizes : List Int64} {groupSize : ℕ} {parts : Parts}
    (h : baseUneven tensor splitSizes groupSize = some parts) :
    partsOf tensor (splitsOrEqual tensor splitSizes groupSize) = some parts := by
  obtain ⟨filled, hfilled, hrest⟩ := Option.bind_eq_some_iff.mp h
  obtain ⟨-, -, hparts⟩ := Option.bind_eq_some_iff.mp hrest
  rw [fillEqualSplitSizesWhenEmpty] at hfilled
  rw [splitsOrEqual]
  split_ifs at hfilled ⊢ with hempty
  · obtain ⟨size0, hsize0, hequal⟩ := Option.bind_eq_some_iff.mp hfilled
    split_ifs at hequal
    obtain rfl := Option.some.inj hequal
    rwa [hsize0]
  · rwa [Option.some.inj hfilled]

theorem baseUneven_partition_iff (tensor : TensorSizes) (splitSizes : List Int64) (groupSize : ℕ) :
    (∀ parts ∈ baseUneven tensor splitSizes groupSize,
        Partition tensor (splitsOrEqual tensor splitSizes groupSize) parts) ↔
      ((baseUneven tensor splitSizes groupSize).isSome → Fits tensor (splitsOrEqual tensor splitSizes groupSize)) := by
  cases h : baseUneven tensor splitSizes groupSize with
  | none => simp
  | some parts => simpa using partition_iff_fits (partsOf_of_baseUneven h)

/-- What HCCL gets for both tensors are their parts.  The equal parts of `HcclAlltoAll` follow each other. -/
def AlltoallCall.Partitions (outputTensor inputTensor : TensorSizes) (outputSplitSizes inputSplitSizes : List Int64)
    (ranks : ℕ) : AlltoallCall → Prop
  | .hcclAlltoAll inputCounts outputCounts =>
    ranks * inputCounts.toNat = inputTensor.numel ∧ ranks * outputCounts.toNat = outputTensor.numel
  | .hcclAlltoAllV input output =>
    Partition inputTensor (splitsOrEqual inputTensor inputSplitSizes ranks) input ∧
      Partition outputTensor (splitsOrEqual outputTensor outputSplitSizes ranks) output

theorem fillSplitSizes_eq {tensor : TensorSizes} {size0 : ℕ} (h : tensor.size0? = some size0)
    (splitSizes : List Int64) (ranks : ℕ) :
    fillSplitSizes splitSizes size0 ranks = splitsOrEqual tensor splitSizes ranks := by
  rw [fillSplitSizes, splitsOrEqual, h, Option.getD_some]

theorem dvd_numel {tensor : TensorSizes} {size0 ranks : ℕ} (h : tensor.size0? = some size0) (hdvd : size0 % ranks = 0) :
    ranks ∣ tensor.numel := by
  rw [← size0_mul_rowElements h]
  exact (Nat.dvd_of_mod_eq_zero hdvd).mul_right _

/-- A number of elements is a 64-bit count. -/
theorem mul_toNat_ofNat {tensor : TensorSizes} {ranks : ℕ} (h : ranks ∣ tensor.numel) :
    ranks * (UInt64.ofNat (tensor.numel / ranks)).toNat = tensor.numel := by
  have hlt : tensor.numel < 2 ^ 63 := tensor.numel_lt
  have hle := Nat.div_le_self tensor.numel ranks
  rw [UInt64.toNat_ofNat_of_lt' (show _ < 2 ^ 64 by omega), Nat.mul_div_cancel' h]

/-- The conditions for the two tensors of `alltoall_base`. -/
def AlltoallFits (outputTensor inputTensor : TensorSizes) (outputSplitSizes inputSplitSizes : List Int64)
    (ranks : ℕ) : Prop :=
  inputSplitSizes = [] ∧ outputSplitSizes = [] ∨
    Fits inputTensor (splitsOrEqual inputTensor inputSplitSizes ranks) ∧
      Fits outputTensor (splitsOrEqual outputTensor outputSplitSizes ranks)

theorem alltoallBase_partitions_iff (outputTensor inputTensor : TensorSizes)
    (outputSplitSizes inputSplitSizes : List Int64) (ranks : ℕ) :
    (∀ call ∈ alltoallBase outputTensor inputTensor outputSplitSizes inputSplitSizes ranks,
        call.Partitions outputTensor inputTensor outputSplitSizes inputSplitSizes ranks) ↔
      ((alltoallBase outputTensor inputTensor outputSplitSizes inputSplitSizes ranks).isSome →
        AlltoallFits outputTensor inputTensor outputSplitSizes inputSplitSizes ranks) := by
  cases h : alltoallBase outputTensor inputTensor outputSplitSizes inputSplitSizes ranks with
  | none => simp
  | some call =>
    rw [alltoallBase] at h
    split_ifs at h with hranks hempty
    · -- Both tensors have as many elements, which the ranks share equally.
      obtain ⟨size0, hsize0, hcall⟩ := Option.bind_eq_some_iff.mp h
      split_ifs at hcall with hcheck
      obtain rfl := Option.some.inj hcall
      have hfits : AlltoallFits outputTensor inputTensor outputSplitSizes inputSplitSizes ranks :=
        .inl (by simpa using hempty)
      have hdvd := dvd_numel hsize0 hcheck.2
      have hparts : (AlltoallCall.hcclAlltoAll (UInt64.ofNat (inputTensor.numel / ranks))
          (UInt64.ofNat (outputTensor.numel / ranks))).Partitions outputTensor inputTensor outputSplitSizes
          inputSplitSizes ranks := ⟨mul_toNat_ofNat (hcheck.1 ▸ hdvd), mul_toNat_ofNat hdvd⟩
      simp [hfits, hparts]
    · obtain ⟨outputSize0, houtput, h⟩ := Option.bind_eq_some_iff.mp h
      obtain ⟨inputSize0, hinput, h⟩ := Option.bind_eq_some_iff.mp h
      obtain ⟨-, -, h⟩ := Option.bind_eq_some_iff.mp h
      obtain ⟨-, -, h⟩ := Option.bind_eq_some_iff.mp h
      obtain ⟨output, houtputParts, h⟩ := Option.bind_eq_some_iff.mp h
      obtain ⟨input, hinputParts, h⟩ := Option.bind_eq_some_iff.mp h
      obtain rfl := Option.some.inj h
      rw [fillSplitSizes_eq houtput] at houtputParts
      rw [fillSplitSizes_eq hinput] at hinputParts
      have hfits : AlltoallFits outputTensor inputTensor outputSplitSizes inputSplitSizes ranks ↔
          Fits inputTensor (splitsOrEqual inputTensor inputSplitSizes ranks) ∧
            Fits outputTensor (splitsOrEqual outputTensor outputSplitSizes ranks) :=
        or_iff_right (by simpa using hempty)
      simp only [Option.mem_def, Option.some.injEq, forall_eq', Option.isSome_some, forall_const]
      rw [hfits, AlltoallCall.Partitions, partition_iff_fits hinputParts, partition_iff_fits houtputParts]

/-- The parts that HCCL gets are the parts of the tensors exactly when the splits are sizes that fill the
dimension, and the elements of a row are an `int`; what `alltoall_base` does without splits is right. -/
theorem splitSizes_partition_iff_fits (groupSize : ℕ) :
    (∀ outputTensor outputSplitSizes,
      (∀ parts ∈ allgatherBaseUneven outputTensor outputSplitSizes groupSize,
          Partition outputTensor (splitsOrEqual outputTensor outputSplitSizes groupSize) parts) ↔
        ((allgatherBaseUneven outputTensor outputSplitSizes groupSize).isSome →
          Fits outputTensor (splitsOrEqual outputTensor outputSplitSizes groupSize))) ∧
    (∀ inputTensor inputSplitSizes,
      (∀ parts ∈ reduceScatterBaseUneven inputTensor inputSplitSizes groupSize,
          Partition inputTensor (splitsOrEqual inputTensor inputSplitSizes groupSize) parts) ↔
        ((reduceScatterBaseUneven inputTensor inputSplitSizes groupSize).isSome →
          Fits inputTensor (splitsOrEqual inputTensor inputSplitSizes groupSize))) ∧
    ∀ outputTensor inputTensor outputSplitSizes inputSplitSizes,
      (∀ call ∈ alltoallBase outputTensor inputTensor outputSplitSizes inputSplitSizes groupSize,
          call.Partitions outputTensor inputTensor outputSplitSizes inputSplitSizes groupSize) ↔
        ((alltoallBase outputTensor inputTensor outputSplitSizes inputSplitSizes groupSize).isSome →
          AlltoallFits outputTensor inputTensor outputSplitSizes inputSplitSizes groupSize) :=
  ⟨fun tensor splitSizes => baseUneven_partition_iff tensor splitSizes groupSize,
    fun tensor splitSizes => baseUneven_partition_iff tensor splitSizes groupSize,
    fun outputTensor inputTensor outputSplitSizes inputSplitSizes =>
      alltoallBase_partitions_iff outputTensor inputTensor outputSplitSizes inputSplitSizes groupSize⟩

/-- One row of `2 ^ 31` elements. -/
def longRow : TensorSizes where
  sizes := [1, 2 ^ 31]
  size_lt := by decide
  numel_lt := by decide

/-- The row goes to the only rank of its group, with a count that is no size. -/
theorem not_partition_longRow :
    ¬ ∀ (tensor : TensorSizes) (splitSizes : List Int64) (groupSize : ℕ),
      ∀ parts ∈ allgatherBaseUneven tensor splitSizes groupSize,
        Partition tensor (splitsOrEqual tensor splitSizes groupSize) parts := by
  intro h
  have hparts := h longRow [1] 1 ⟨[2 ^ 64 - 2 ^ 31], [0]⟩ (by decide)
  exact absurd hparts.sum (by decide)

end TorchNpu.Distributed.SplitSizes
