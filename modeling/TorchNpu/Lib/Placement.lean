/-
  How an array is spread over the ranks of a group.

  Under `replicate` every rank holds the whole array, under `shard d` rank `r` of `p` holds chunk `r` along
  dimension `d`, and under `partialSum` and `partialAvg` the array is the sum, or the mean, of what the ranks
  hold.  `Placement.localTensor` is what a rank is given of an array; `Placement.Recombines` says that what
  the ranks hold is the array under a placement.
-/
import TorchNpu.Lib.NdArray
import Mathlib.Algebra.Order.BigOperators.Group.Finset

namespace TorchNpu

inductive Placement
  | replicate
  | shard (dim : ℕ)
  | partialSum
  | partialAvg
  deriving DecidableEq

namespace Placement

open Index NdArray

variable {α : Type*}

/-- The dimension that is cut exists. -/
def InRange (s : List ℕ) : Placement → Prop
  | shard d => d < s.length
  | _ => True

instance (s : List ℕ) (a : Placement) : Decidable (a.InRange s) :=
  match a with
  | shard d => inferInstanceAs (Decidable (d < s.length))
  | replicate | partialSum | partialAvg => inferInstanceAs (Decidable True)

/-- The chunks are equal. -/
def CutsEvenly (p : ℕ) (s : List ℕ) : Placement → Prop
  | shard d => p ∣ s.getD d 1
  | _ => True

instance (p : ℕ) (s : List ℕ) (a : Placement) : Decidable (a.CutsEvenly p s) :=
  match a with
  | shard d => inferInstanceAs (Decidable (p ∣ s.getD d 1))
  | replicate | partialSum | partialAvg => inferInstanceAs (Decidable True)

/-- The dimension that is cut exists, and its chunks are equal. -/
def Even (p : ℕ) (s : List ℕ) : Placement → Prop
  | shard d => d < s.length ∧ p ∣ s.getD d 1
  | _ => True

/-- What rank `r` of `p` is given of an array that is cut or replicated. -/
def localTensor : Placement → ℕ → ℕ → NdArray α → NdArray α
  | shard d, p, r, A => A.chunk d p r
  | _, _, _, A => A

/-- The shape of what rank `r` of `p` holds of an array of this shape. -/
def localShape : Placement → ℕ → ℕ → List ℕ → List ℕ
  | shard d, p, r, s => s.set d (chunkLen (s.getD d 1) p r)
  | _, _, _, s => s

/-- What the `p` ranks hold is the array `full`. -/
def Recombines [AddCommMonoid α] : Placement → ℕ → (ℕ → NdArray α) → NdArray α → Prop
  | replicate, p, parts, full => ∀ r < p, Same (parts r) full
  | shard d, p, parts, full => d < full.shape.length ∧ Concatenated d p parts full
  | partialSum, p, parts, full => (∀ r < p, (parts r).shape = full.shape) ∧
      ∀ i, Within full.shape i → ∑ r ∈ Finset.range p, (parts r).get i = full.get i
  | partialAvg, p, parts, full => (∀ r < p, (parts r).shape = full.shape) ∧
      ∀ i, Within full.shape i → ∑ r ∈ Finset.range p, (parts r).get i = p • full.get i

theorem localTensor_shape (a : Placement) (p r : ℕ) (A : NdArray α) :
    (a.localTensor p r A).shape = a.localShape p r A.shape := by
  cases a <;> rfl

theorem length_localShape (a : Placement) (p r : ℕ) (s : List ℕ) : (a.localShape p r s).length = s.length := by
  cases a with
  | shard d => exact List.length_set
  | replicate | partialSum | partialAvg => rfl

/-- Ranks that hold the array's own chunks hold the array. -/
theorem recombines_shard [AddCommMonoid α] {d p : ℕ} {parts : ℕ → NdArray α} {full : NdArray α} (hp : 0 < p)
    (hd : d < full.shape.length) (h : ∀ r < p, Same (parts r) (full.chunk d p r)) :
    (shard d).Recombines p parts full :=
  ⟨hd, concatenated_of_same_chunk hp hd h⟩

/-- Ranks whose parts are the same arrays recombine to the same. -/
theorem Recombines.congr [AddCommMonoid α] {a : Placement} {p : ℕ} {parts parts' : ℕ → NdArray α}
    {full full' : NdArray α} (h : a.Recombines p parts full) (hparts : ∀ r < p, Same (parts r) (parts' r))
    (hfull : Same full full') : a.Recombines p parts' full' := by
  cases a with
  | replicate => exact fun r hr => (hparts r hr).symm.trans ((h r hr).trans hfull)
  | shard d =>
    obtain ⟨hd, hcat⟩ := h
    have hdim : ∀ r < p, (parts' r).dim d = (parts r).dim d := by
      intro r hr
      rw [NdArray.dim, NdArray.dim, (hparts r hr).1]
    have hstart : ∀ r ≤ p, ∑ q ∈ Finset.range r, (parts' q).dim d = ∑ q ∈ Finset.range r, (parts q).dim d := by
      intro r hr
      refine Finset.sum_congr rfl fun q hq => hdim q ?_
      rw [Finset.mem_range] at hq
      omega
    have hd' : d < full'.shape.length := by
      rw [← hfull.1]
      exact hd
    refine ⟨hd', fun r hr => ?_, ?_, fun r hr i hi => ?_⟩
    · rw [hdim r hr, ← (hparts r hr).1, ← hfull.1]
      exact hcat.shape r hr
    · rw [hstart p le_rfl, hcat.length, NdArray.dim, NdArray.dim, hfull.1]
    · rw [← (hparts r hr).1] at hi
      rw [← (hparts r hr).2 i hi, hcat.get r hr i hi, hstart r hr.le]
      refine hfull.2 _ (Within.shift hd ?_ (hcat.shape r hr ▸ hi))
      have hle : ∑ q ∈ Finset.range (r + 1), (parts q).dim d ≤ ∑ q ∈ Finset.range p, (parts q).dim d :=
        Finset.sum_le_sum_of_subset (Finset.range_mono hr)
      rw [Finset.sum_range_succ, hcat.length] at hle
      exact hle
  | partialSum | partialAvg =>
    refine ⟨fun r hr => ?_, fun i hi => ?_⟩
    · rw [← (hparts r hr).1, ← hfull.1]
      exact h.1 r hr
    · rw [← hfull.1] at hi
      rw [← hfull.2 i hi, ← h.2 i hi]
      refine Finset.sum_congr rfl fun r hr => ?_
      rw [Finset.mem_range] at hr
      refine ((hparts r hr).2 i ?_).symm
      rw [h.1 r hr]
      exact hi

/-! ### Cutting another dimension -/

theorem not_within_of_zero {s : List ℕ} {i : ℕ → ℕ} {d : ℕ} (h : s.getD d 1 = 0) : ¬Within s i := by
  intro hi
  have hd := hi d
  omega

/-- An array without elements is made up of arrays of its own shape. -/
theorem recombines_shard_of_empty [AddCommMonoid α] {d p : ℕ} {parts : ℕ → NdArray α} {full : NdArray α}
    (hd : d < full.shape.length) (hzero : full.dim d = 0) (h : ∀ r < p, (parts r).shape = full.shape) :
    (shard d).Recombines p parts full := by
  have hdim : ∀ r < p, (parts r).dim d = 0 := by
    intro r hr
    rw [NdArray.dim, h r hr]
    exact hzero
  refine ⟨hd, fun r hr => ?_, ?_, fun r hr i hi => ?_⟩
  · rw [NdArray.dim, h r hr, set_getD_self]
  · rw [hzero]
    exact Finset.sum_eq_zero fun r hr => hdim r (Finset.mem_range.mp hr)
  · exact absurd hi (not_within_of_zero (hdim r hr))

/-- Parts that are cut along another dimension make up an array only if it has no elements. -/
theorem dims_eq_zero_of_recombines [AddCommMonoid α] {d e p : ℕ} {parts : ℕ → NdArray α} {full : NdArray α}
    (hp : 1 < p) (h : (shard d).Recombines p parts full) (hne : e ≠ d) (he : e < full.shape.length)
    (hdvd : p ∣ full.dim e) (hparts : ∀ r < p, (parts r).shape = full.shape.set e (chunkLen (full.dim e) p r)) :
    full.dim e = 0 ∧ full.dim d = 0 := by
  obtain ⟨hd, hcat⟩ := h
  constructor
  · have hshape := hcat.shape 0 (by omega)
    have hlen := congrArg (·.getD e 1) ((hparts 0 (by omega)).symm.trans hshape)
    simp only [getD_set_self he, getD_set_of_ne hne, chunkLen_of_dvd (by omega : 0 < p) hdvd
      (by omega : 0 < p)] at hlen
    have hlen : full.dim e / p = full.dim e := hlen
    by_contra hpos
    exact absurd hlen (Nat.div_lt_self (Nat.pos_of_ne_zero hpos) hp).ne
  · have hdim : ∀ r ∈ Finset.range p, (parts r).dim d = full.dim d := by
      intro r hr
      rw [NdArray.dim, hparts r (Finset.mem_range.mp hr), getD_set_of_ne hne.symm]
      rfl
    have hlength := hcat.length
    rw [Finset.sum_const_nat hdim, Finset.card_range] at hlength
    by_contra hpos
    have hlt : full.dim d < p * full.dim d := by
      have hmul := Nat.mul_lt_mul_of_pos_right hp (Nat.pos_of_ne_zero hpos)
      rw [Nat.one_mul] at hmul
      exact hmul
    exact absurd hlength hlt.ne'

/-! ### A single rank -/

/-- A single rank holds everything. -/
theorem localTensor_one (a : Placement) (A : NdArray α) : a.localTensor 1 0 A = A := by
  cases a with
  | shard d =>
    show A.chunk d 1 0 = A
    have hlen : chunkLen (A.dim d) 1 0 = A.dim d := by
      rw [chunkLen_of_dvd Nat.one_pos (one_dvd _) Nat.one_pos, Nat.div_one]
    unfold chunk narrow
    rw [hlen, chunkStart_zero]
    simp only [shift_zero, dim, set_getD_self]
  | replicate | partialSum | partialAvg => rfl

theorem recombines_one [AddCommMonoid α] {a : Placement} {parts : ℕ → NdArray α} {full : NdArray α}
    (ha : a.Even 1 full.shape) (h : Same (parts 0) full) : a.Recombines 1 parts full := by
  have hzero : ∀ r < 1, r = 0 := fun r hr => Nat.lt_one_iff.mp hr
  cases a with
  | replicate =>
    intro r hr
    obtain rfl := hzero r hr
    exact h
  | shard d =>
    refine recombines_shard Nat.one_pos ha.1 fun r hr => ?_
    obtain rfl := hzero r hr
    show Same (parts 0) ((shard d).localTensor 1 0 full)
    rw [localTensor_one]
    exact h
  | partialSum =>
    refine ⟨fun r hr => hzero r hr ▸ h.1, fun i hi => ?_⟩
    rw [Finset.sum_range_one]
    exact h.2 i (h.1.symm ▸ hi)
  | partialAvg =>
    refine ⟨fun r hr => hzero r hr ▸ h.1, fun i hi => ?_⟩
    rw [Finset.sum_range_one, one_nsmul]
    exact h.2 i (h.1.symm ▸ hi)

end Placement

end TorchNpu
