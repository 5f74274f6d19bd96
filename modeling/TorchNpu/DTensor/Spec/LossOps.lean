/-
  When the sharding rules of the losses are sound.

  A loss is made up of the losses of samples or of elements, so that cutting it is sound without a reduction and
  with a sum.  A mean over the ranks' means is the mean if and only if all ranks count equally much: for the
  divergence the rule makes sure of it, for the cross entropy it looks at how the targets are placed now, and
  not at the targets that are ignored.
-/
import TorchNpu.DTensor.MathOps
import Mathlib.Algebra.Order.BigOperators.Group.Finset
import Mathlib.Algebra.CharZero.Defs
import Mathlib.Data.Rat.Cast.CharZero
import Mathlib.Tactic.FieldSimp
import Mathlib.Tactic.Ring

namespace TorchNpu.DTensor

open Index NdArray Placement

variable {K : Type*} {p : ℕ}

/-! ### Samples -/

namespace CrossEntropy

variable (ce : CrossEntropy K) {x : NdArray K} {target : NdArray ℤ} {N C : ℕ}

theorem targetOf_chunk (n r : ℕ) :
    targetOf (target.chunk 0 p r) n = targetOf target (n + chunkStart (target.dim 0) p r) := by
  show target.get (shift (cons n _) 0 _) = target.get (cons _ _)
  rw [shift_cons_zero]

theorem logProb_chunk (r : ℕ) : ce.logProb (x.chunk 0 p r) = (ce.logProb x).chunk 0 p r := by
  unfold logProb chunk narrow
  congr 1
  ext i
  show ce.logSoftmax (fun c => x.get (shift (cons (i 0) _) 0 _)) (i 1) =
    ce.logSoftmax (fun c => x.get (cons (shift i 0 _ 0) _)) (shift i 0 _ 1)
  simp only [shift_cons_zero, shift_self]
  rw [shift_of_ne Nat.one_ne_zero]
  rfl

variable [Field K]

theorem lossOf_chunk (hdim : target.dim 0 = x.dim 0) (n r : ℕ) :
    ce.lossOf (x.chunk 0 p r) (target.chunk 0 p r) n = ce.lossOf x target (n + chunkStart (x.dim 0) p r) := by
  unfold lossOf
  rw [targetOf_chunk, hdim, logProb_chunk]
  refine if_congr Iff.rfl rfl (congrArg (ce.sampleLoss · _) ?_)
  ext c
  show (ce.logProb x).get (shift (cons n _) 0 _) = _
  rw [shift_cons_zero]
  rfl

/-- The losses of the samples of all ranks add up. -/
theorem sum_lossOf_chunk (hp : 0 < p) (hx : 0 < x.shape.length) (hdim : target.dim 0 = x.dim 0) :
    ∑ r ∈ Finset.range p, ∑ n ∈ Finset.range ((x.chunk 0 p r).dim 0),
      ce.lossOf (x.chunk 0 p r) (target.chunk 0 p r) n = ∑ n ∈ Finset.range (x.dim 0), ce.lossOf x target n := by
  have hchunks := sum_range_eq_sum_chunks (n := x.dim 0) (ce.lossOf x target) hp
  rw [hchunks]
  refine Finset.sum_congr rfl fun r _ => ?_
  rw [NdArray.dim_chunk hx]
  exact Finset.sum_congr rfl fun n _ => ce.lossOf_chunk hdim n r

/-! Soundness of the sharded strategies -/

theorem recombines_logProb (hp : 0 < p) (hx : 0 < x.shape.length) :
    (Placement.shard 0).Recombines p (fun r => ce.logProb (x.chunk 0 p r)) (ce.logProb x) := by
  refine recombines_shard hp hx fun r _ => ?_
  rw [logProb_chunk]
  exact Same.refl _

theorem recombines_loss_none (hp : 0 < p) (hx : 0 < x.shape.length) (hdim : target.dim 0 = x.dim 0) :
    (Placement.shard 0).Recombines p (fun r => ce.loss (x.chunk 0 p r) (target.chunk 0 p r) .none)
      (ce.loss x target .none) := by
  refine recombines_shard hp Nat.one_pos fun r _ => ⟨?_, fun i _ => ?_⟩
  · show [(x.chunk 0 p r).dim 0] = [chunkLen (x.dim 0) p r]
    rw [NdArray.dim_chunk hx]
  · show ce.lossOf (x.chunk 0 p r) (target.chunk 0 p r) (i 0) = ce.lossOf x target (shift i 0 _ 0)
    rw [ce.lossOf_chunk hdim, shift_self]
    rfl

theorem recombines_loss_sum (hp : 0 < p) (hx : 0 < x.shape.length) (hdim : target.dim 0 = x.dim 0) :
    Placement.partialSum.Recombines p (fun r => ce.loss (x.chunk 0 p r) (target.chunk 0 p r) .sum)
      (ce.loss x target .sum) :=
  ⟨fun _ _ => rfl, fun _ _ => ce.sum_lossOf_chunk hp hx hdim⟩

/-! A mean -/

/-- How many of the `N` targets from `start` on count. -/
def counted (target : NdArray ℤ) (ignoreIndex : ℤ) (start N : ℕ) : ℕ :=
  ∑ n ∈ Finset.range N, if targetOf target (n + start) = ignoreIndex then 0 else 1

theorem counted_eq_sum_chunks (target : NdArray ℤ) (ignoreIndex : ℤ) (N : ℕ) (hp : 0 < p) :
    counted target ignoreIndex 0 N =
      ∑ r ∈ Finset.range p, counted target ignoreIndex (chunkStart N p r) (chunkLen N p r) :=
  sum_range_eq_sum_chunks (fun n => if targetOf target n = ignoreIndex then 0 else 1) hp

/-- Without class weights, the weights of the targets count them. -/
theorem sum_weightOf (hweight : ce.classWeight = fun _ => 1) (start N : ℕ) :
    ∑ n ∈ Finset.range N, ce.weightOf target (n + start) = (counted target ce.ignoreIndex start N : K) := by
  unfold counted weightOf
  rw [Nat.cast_sum, hweight]
  refine Finset.sum_congr rfl fun n _ => ?_
  rw [Nat.cast_ite, Nat.cast_zero, Nat.cast_one]

theorem get_loss_mean (hweight : ce.classWeight = fun _ => 1) (i : ℕ → ℕ) :
    (ce.loss x target .mean).get i = (∑ n ∈ Finset.range (x.dim 0), ce.lossOf x target n) /
      (counted target ce.ignoreIndex 0 (x.dim 0) : K) := by
  rw [← ce.sum_weightOf hweight]
  rfl

theorem get_loss_mean_chunk (hweight : ce.classWeight = fun _ => 1) (hx : 0 < x.shape.length)
    (hdim : target.dim 0 = x.dim 0) (i : ℕ → ℕ) (r : ℕ) :
    (ce.loss (x.chunk 0 p r) (target.chunk 0 p r) .mean).get i =
      (∑ n ∈ Finset.range (chunkLen (x.dim 0) p r), ce.lossOf x target (n + chunkStart (x.dim 0) p r)) /
        (counted target ce.ignoreIndex (chunkStart (x.dim 0) p r) (chunkLen (x.dim 0) p r) : K) := by
  rw [ce.get_loss_mean hweight, NdArray.dim_chunk hx]
  congr 1
  · exact Finset.sum_congr rfl fun n _ => ce.lossOf_chunk hdim n r
  · congr 1
    refine Finset.sum_congr rfl fun n _ => ?_
    rw [targetOf_chunk, hdim, Nat.add_zero]

/-- Equally many targets count on every rank: the mean of the ranks' means is the mean. -/
theorem recombines_loss_mean [CharZero K] (hweight : ce.classWeight = fun _ => 1) (hp : 0 < p)
    (hx : 0 < x.shape.length) (hdim : target.dim 0 = x.dim 0)
    (h : ∀ r < p, p * counted target ce.ignoreIndex (chunkStart (x.dim 0) p r) (chunkLen (x.dim 0) p r) =
      counted target ce.ignoreIndex 0 (x.dim 0)) :
    Placement.partialAvg.Recombines p (fun r => ce.loss (x.chunk 0 p r) (target.chunk 0 p r) .mean)
      (ce.loss x target .mean) := by
  refine ⟨fun _ _ => rfl, fun i _ => ?_⟩
  have hpK : (p : K) ≠ 0 := Nat.cast_ne_zero.mpr hp.ne'
  have hparts : ∀ r ∈ Finset.range p, (ce.loss (x.chunk 0 p r) (target.chunk 0 p r) .mean).get i =
      (∑ n ∈ Finset.range (chunkLen (x.dim 0) p r), ce.lossOf x target (n + chunkStart (x.dim 0) p r)) *
        (p / (counted target ce.ignoreIndex 0 (x.dim 0) : K)) := by
    intro r hr
    rw [ce.get_loss_mean_chunk hweight hx hdim, ← h r (Finset.mem_range.mp hr), Nat.cast_mul, div_mul_cancel_left₀ hpK]
    exact div_eq_mul_inv _ _
  have hchunks := sum_range_eq_sum_chunks (n := x.dim 0) (ce.lossOf x target) hp
  rw [Finset.sum_congr rfl hparts, ← Finset.sum_mul, ← hchunks, ce.get_loss_mean hweight, nsmul_eq_mul]
  ring

/-- The loss of a sample is its first logit. -/
def firstLogit (K : Type*) [Field K] (ignoreIndex : ℤ) : CrossEntropy K where
  logSoftmax row := row
  sampleLoss row _ := row 0
  sampleGrad _ _ _ := 0
  classWeight _ := 1
  ignoreIndex := ignoreIndex

/-- Logits that are one for the samples of rank `r`, and zero for the others. -/
def onRank (K : Type*) [Field K] (N C p r : ℕ) : NdArray K where
  shape := [N, C]
  get i := if chunkStart N p r ≤ i 0 ∧ i 0 < chunkStart N p r + chunkLen N p r then 1 else 0

theorem lossOf_onRank (ignoreIndex : ℤ) {q r k : ℕ} (hk : k < chunkLen N p q) :
    (firstLogit K ignoreIndex).lossOf (onRank K N C p r) target (k + chunkStart N p q) =
      if q = r then (if targetOf target (k + chunkStart N p q) = ignoreIndex then 0 else 1) else 0 := by
  show (if targetOf target (k + chunkStart N p q) = ignoreIndex then (0 : K) else
    if chunkStart N p r ≤ k + chunkStart N p q ∧ k + chunkStart N p q < chunkStart N p r + chunkLen N p r
      then 1 else 0) = _
  by_cases hqr : q = r
  · subst hqr
    rw [if_pos rfl, if_pos (show _ ∧ _ by omega)]
  · have hout : ¬(chunkStart N p r ≤ k + chunkStart N p q ∧
        k + chunkStart N p q < chunkStart N p r + chunkLen N p r) := by
      rintro ⟨hlo, hhi⟩
      have hplace : k + chunkStart N p q = (k + chunkStart N p q - chunkStart N p r) + chunkStart N p r := by omega
      exact hqr (chunk_unique hk (by omega) hplace)
    rw [if_neg hout, ite_self, if_neg hqr]

theorem sum_lossOf_onRank (ignoreIndex : ℤ) (q r : ℕ) :
    ∑ k ∈ Finset.range (chunkLen N p q),
      (firstLogit K ignoreIndex).lossOf (onRank K N C p r) target (k + chunkStart N p q) =
        if q = r then (counted target ignoreIndex (chunkStart N p r) (chunkLen N p r) : K) else 0 := by
  rw [Finset.sum_congr rfl fun k hk => lossOf_onRank ignoreIndex (Finset.mem_range.mp hk)]
  split_ifs with hqr
  · subst hqr
    unfold counted
    rw [Nat.cast_sum]
    refine Finset.sum_congr rfl fun k _ => ?_
    rw [Nat.cast_ite, Nat.cast_zero, Nat.cast_one]
  · exact Finset.sum_const_zero

/-- If the mean of the ranks' means is the mean, then a rank counts nothing, or its share of everything. -/
theorem counted_of_recombines [CharZero K] (hp : 0 < p) (ignoreIndex : ℤ) {r : ℕ} (hr : r < p)
    (htarget : target.dim 0 = N)
    (h : Placement.partialAvg.Recombines p (fun q => (firstLogit K ignoreIndex).loss ((onRank K N C p r).chunk 0 p q)
      (target.chunk 0 p q) .mean) ((firstLogit K ignoreIndex).loss (onRank K N C p r) target .mean)) :
    p * counted target ignoreIndex (chunkStart N p r) (chunkLen N p r) = 0 ∨
      p * counted target ignoreIndex (chunkStart N p r) (chunkLen N p r) = counted target ignoreIndex 0 N := by
  have hx : 0 < (onRank K N C p r).shape.length := Nat.succ_pos _
  have hmean := h.2 (fun _ => 0) fun _ => Nat.one_pos
  -- only this rank's samples have a loss, so that the other ranks' means vanish
  have hparts : ∀ q ∈ Finset.range p, ((firstLogit K ignoreIndex).loss ((onRank K N C p r).chunk 0 p q)
      (target.chunk 0 p q) .mean).get (fun _ => 0) =
        if q = r then (counted target ignoreIndex (chunkStart N p r) (chunkLen N p r) : K) /
          counted target ignoreIndex (chunkStart N p r) (chunkLen N p r) else 0 := by
    intro q _
    rw [(firstLogit K ignoreIndex).get_loss_mean_chunk rfl hx htarget]
    show (∑ k ∈ Finset.range (chunkLen N p q),
      (firstLogit K ignoreIndex).lossOf (onRank K N C p r) target (k + chunkStart N p q)) / _ = _
    rw [sum_lossOf_onRank]
    split_ifs with hqr
    · subst hqr
      rfl
    · exact zero_div _
  have hfull : ((firstLogit K ignoreIndex).loss (onRank K N C p r) target .mean).get (fun _ => 0) =
      (counted target ignoreIndex (chunkStart N p r) (chunkLen N p r) : K) / counted target ignoreIndex 0 N := by
    rw [(firstLogit K ignoreIndex).get_loss_mean rfl]
    show (∑ k ∈ Finset.range N, (firstLogit K ignoreIndex).lossOf (onRank K N C p r) target k) / _ = _
    rw [sum_range_eq_sum_chunks (n := N) _ hp,
      Finset.sum_congr rfl fun q _ => sum_lossOf_onRank (K := K) (C := C) ignoreIndex q r,
      Finset.sum_ite_eq' (Finset.range p) r, if_pos (Finset.mem_range.mpr hr)]
    rfl
  rw [Finset.sum_congr rfl hparts, Finset.sum_ite_eq' (Finset.range p) r, if_pos (Finset.mem_range.mpr hr), hfull,
    nsmul_eq_mul] at hmean
  by_cases hzero : counted target ignoreIndex (chunkStart N p r) (chunkLen N p r) = 0
  · left
    rw [hzero, Nat.mul_zero]
  · right
    have hzeroK : (counted target ignoreIndex (chunkStart N p r) (chunkLen N p r) : K) ≠ 0 :=
      Nat.cast_ne_zero.mpr hzero
    rw [div_self hzeroK] at hmean
    have htotal : (counted target ignoreIndex 0 N : K) ≠ 0 := by
      intro htotal
      rw [htotal, div_zero, mul_zero] at hmean
      exact one_ne_zero hmean
    rw [← mul_div_assoc, eq_div_iff htotal, one_mul] at hmean
    exact_mod_cast hmean.symm

/-- The shares are shares of everything only if all ranks have the same. -/
theorem counted_eq_of_shares (hp : 0 < p) (ignoreIndex : ℤ)
    (h : ∀ r < p, p * counted target ignoreIndex (chunkStart N p r) (chunkLen N p r) = 0 ∨
      p * counted target ignoreIndex (chunkStart N p r) (chunkLen N p r) = counted target ignoreIndex 0 N) :
    ∀ r < p, p * counted target ignoreIndex (chunkStart N p r) (chunkLen N p r) =
      counted target ignoreIndex 0 N := by
  have hle : ∀ r ∈ Finset.range p, p * counted target ignoreIndex (chunkStart N p r) (chunkLen N p r) ≤
      counted target ignoreIndex 0 N := by
    intro r hr
    rcases h r (Finset.mem_range.mp hr) with hzero | heq
    · rw [hzero]
      exact Nat.zero_le _
    · exact heq.le
  have hsum : ∑ r ∈ Finset.range p, p * counted target ignoreIndex (chunkStart N p r) (chunkLen N p r) =
      ∑ _r ∈ Finset.range p, counted target ignoreIndex 0 N := by
    rw [← Finset.mul_sum, ← counted_eq_sum_chunks target ignoreIndex N hp, Finset.sum_const_nat fun _ _ => rfl,
      Finset.card_range]
  intro r hr
  exact (Finset.sum_eq_sum_iff_of_le hle).mp hsum r (Finset.mem_range.mpr hr)

end CrossEntropy

/-! ### The rule of the cross entropy -/

section CrossEntropyRule

open CrossEntropy

variable {expandToFullMesh : Expansion} {N C : ℕ} {placement : Placement}
  {weight : Option (List ℕ)} {reduction : Reduction} {target : NdArray ℤ} {ignoreIndex : ℤ}

/-- What the ranks make of their parts of the logits and the targets recombines to the loss and to the logarithmic
probabilities. -/
def CrossEntropySound [Field K] (ce : CrossEntropy K) (p : ℕ) (x : NdArray K) (target : NdArray ℤ)
    (reduction : Reduction) : Strategy → Prop
  | (loss :: logProb :: _, some a :: some b :: _) =>
    a.InRange x.shape ∧ b.InRange target.shape ∧
      loss.Recombines p (fun r => ce.loss (a.localTensor p r x) (b.localTensor p r target) reduction)
        (ce.loss x target reduction) ∧
      logProb.Recombines p (fun r => ce.logProb (a.localTensor p r x)) (ce.logProb x)
  | _ => False

/-- The entries of the rule besides the one that replicates everything. -/
def crossEntropyEntries (p N : ℕ) (placement : Placement) (weight : Option (List ℕ)) : Reduction → List (List Placement)
  | .none => [[.shard 0, .shard 0, .replicate, .replicate, .shard 0, .shard 0] ++ replicateIfSome weight]
  | .mean =>
    if weight = none ∧ placement.CutsEvenly p [N] then
      [[.partialAvg, .shard 0, .replicate, .replicate, .shard 0, .shard 0]]
    else []
  | .sum => [[.partialSum, .shard 0, .replicate, .replicate, .shard 0, .shard 0] ++ replicateIfSome weight]

theorem crossEntropyRule_eq (hp : 0 < p) (hplacement : placement.InRange [N]) :
    customCrossEntropyLossSharding expandToFullMesh [N, C] (onMesh p [N] placement) weight reduction =
      expandToFullMesh 4 ([[N, C], [N]] ++ weight.toList)
        ((List.replicate 6 .replicate ++ replicateIfSome weight) ::
          crossEntropyEntries p N placement weight reduction) := by
  have hrun : isTensorEvenlyShardable (onMesh p [N] placement).shape (onMesh p [N] placement) =
      .ok (decide (placement.CutsEvenly p [N])) :=
    isTensorEvenlyShardable_onMesh (List.cons_ne_nil N []) hp hplacement
  unfold customCrossEntropyLossSharding
  cases reduction with
  | none | sum => rfl
  | mean =>
    cases weight with
    | some _ => rfl
    | none =>
      rw [hrun]
      by_cases heven : placement.CutsEvenly p [N]
      · rw [decide_eq_true heven, crossEntropyEntries, if_pos ⟨rfl, heven⟩]
        rfl
      · rw [decide_eq_false heven, crossEntropyEntries, if_neg fun h => heven h.2]
        rfl

/-- Every entry has the placements of four results and of the arguments. -/
theorem length_crossEntropyEntry {placements : List Placement}
    (hmem : placements ∈ (List.replicate 6 .replicate ++ replicateIfSome weight) ::
      crossEntropyEntries p N placement weight reduction) :
    placements.length = 4 + ([[N, C], [N]] ++ weight.toList).length := by
  have hweight : (replicateIfSome weight).length = weight.toList.length := List.length_map _
  have hlength : ([[N, C], [N]] ++ weight.toList).length = 2 + weight.toList.length := by
    rw [List.length_append]
    rfl
  rcases List.mem_cons.mp hmem with rfl | hmem
  · rw [List.length_append, List.length_replicate, hweight, hlength]
    omega
  · unfold crossEntropyEntries at hmem
    cases reduction with
    | none | sum =>
      obtain rfl := List.mem_singleton.mp hmem
      rw [List.length_append, hweight, hlength]
      simp only [List.length_cons, List.length_nil]
      omega
    | mean =>
      simp only at hmem
      split_ifs at hmem with hmean
      · obtain rfl := List.mem_singleton.mp hmem
        rw [hlength, hmean.1]
        rfl
      · exact absurd hmem List.not_mem_nil

/-- The entries that the expansion keeps. -/
theorem mem_crossEntropyRule (hexpand : ExpandsToFullMesh p expandToFullMesh) (C : ℕ) (weight : Option (List ℕ))
    (reduction : Reduction) (hp : 0 < p) (hplacement : placement.InRange [N]) :
    ∃ strategies,
      customCrossEntropyLossSharding expandToFullMesh [N, C] (onMesh p [N] placement) weight reduction =
        .ok strategies ∧ ∀ s, s ∈ strategies ↔
          ∃ placements ∈ (List.replicate 6 .replicate ++ replicateIfSome weight) ::
              crossEntropyEntries p N placement weight reduction,
            (∀ q ∈ ([[N, C], [N]] ++ weight.toList).zip (placements.drop 4), Shardable p q.1 q.2) ∧
              (placements.take 4, (placements.drop 4).map some) = s := by
  rw [crossEntropyRule_eq hp hplacement]
  exact hexpand.lists _ _ _ fun placements hmem => length_crossEntropyEntry hmem

/-- Logits and targets whose samples are cut are kept if there are enough samples. -/
theorem shardable_shard (hN : p ≤ N) (C : ℕ) :
    ∀ q ∈ [[N, C], [N]].zip [Placement.shard 0, Placement.shard 0], Shardable p q.1 q.2 := by
  intro q hq
  rcases List.mem_cons.mp hq with rfl | hq
  · exact ⟨Nat.succ_pos _, Or.inr hN⟩
  · obtain rfl := List.mem_singleton.mp hq
    exact ⟨Nat.one_pos, Or.inr hN⟩

/-- The inputs for which the rule of the cross entropy is sound. -/
def CrossEntropyShards (p N : ℕ) (placement : Placement) (weight : Option (List ℕ)) (reduction : Reduction)
    (target : NdArray ℤ) (ignoreIndex : ℤ) : Prop :=
  reduction = .mean → weight = none → placement.CutsEvenly p [N] → p ≤ N →
    ∀ r < p, p * counted target ignoreIndex (chunkStart N p r) (chunkLen N p r) = counted target ignoreIndex 0 N

/-- The rule returns, and for these targets every strategy is sound, whatever the logits and the weights are. -/
def CrossEntropyRuleSound (K : Type*) [Field K] (expandToFullMesh : Expansion) (p N C : ℕ)
    (placement : Placement) (weight : Option (List ℕ)) (reduction : Reduction) (target : NdArray ℤ)
    (ignoreIndex : ℤ) : Prop :=
  ∃ strategies, customCrossEntropyLossSharding expandToFullMesh [N, C] (onMesh p [N] placement) weight reduction =
      .ok strategies ∧
    ∀ (ce : CrossEntropy K) (x : NdArray K), ce.ignoreIndex = ignoreIndex →
      (weight = none → ce.classWeight = fun _ => 1) → x.shape = [N, C] →
        ∀ s ∈ strategies, CrossEntropySound ce p x target reduction s

theorem crossEntropyRuleSound_iff [Field K] [CharZero K] (hp : 0 < p) (hplacement : placement.InRange [N])
    (hexpand : ExpandsToFullMesh p expandToFullMesh) (htarget : target.shape = [N]) :
    CrossEntropyRuleSound K expandToFullMesh p N C placement weight reduction target ignoreIndex ↔
      CrossEntropyShards p N placement weight reduction target ignoreIndex := by
  have htargetDim : target.dim 0 = N := by
    rw [NdArray.dim, htarget]
    rfl
  obtain ⟨strategies, hrun, hmem⟩ := mem_crossEntropyRule hexpand C weight reduction hp hplacement
  constructor
  · rintro ⟨strategies', hrun', hsound⟩ rfl rfl heven hle
    rw [hrun] at hrun'
    obtain rfl := Except.ok.inj hrun'
    have hlisted : ([.partialAvg, .shard 0, .replicate, .replicate], [some (.shard 0), some (.shard 0)]) ∈
        strategies := by
      refine (hmem _).mpr ⟨[.partialAvg, .shard 0, .replicate, .replicate, .shard 0, .shard 0],
        List.mem_cons_of_mem _ ?_, ?_, rfl⟩
      · rw [crossEntropyEntries, if_pos ⟨rfl, heven⟩]
        exact List.mem_cons_self
      · exact shardable_shard hle C
    refine counted_eq_of_shares hp ignoreIndex fun r hr => ?_
    obtain ⟨-, -, hloss, -⟩ := hsound (firstLogit K ignoreIndex) (onRank K N C p r) rfl (fun _ => rfl) rfl _ hlisted
    exact counted_of_recombines hp ignoreIndex hr htargetDim hloss
  · intro h
    refine ⟨strategies, hrun, fun ce x hignore hweight hx s hs => ?_⟩
    have hxlength : 0 < x.shape.length := by
      rw [hx]
      exact Nat.succ_pos _
    have hxDim : x.dim 0 = N := by
      rw [NdArray.dim, hx]
      rfl
    have htargetLength : 0 < target.shape.length := by
      rw [htarget]
      exact Nat.one_pos
    have hdim : target.dim 0 = x.dim 0 := htargetDim.trans hxDim.symm
    obtain ⟨placements, hplacements, hkept, rfl⟩ := (hmem s).mp hs
    rcases List.mem_cons.mp hplacements with rfl | hentry
    · exact ⟨trivial, trivial, fun _ _ => Same.refl _, fun _ _ => Same.refl _⟩
    unfold crossEntropyEntries at hentry
    cases reduction with
    | none =>
      obtain rfl := List.mem_singleton.mp hentry
      exact ⟨hxlength, htargetLength, ce.recombines_loss_none hp hxlength hdim, ce.recombines_logProb hp hxlength⟩
    | sum =>
      obtain rfl := List.mem_singleton.mp hentry
      exact ⟨hxlength, htargetLength, ce.recombines_loss_sum hp hxlength hdim, ce.recombines_logProb hp hxlength⟩
    | mean =>
      simp only at hentry
      split_ifs at hentry with hmean
      · obtain rfl := List.mem_singleton.mp hentry
        refine ⟨hxlength, htargetLength, ?_, ce.recombines_logProb hp hxlength⟩
        refine ce.recombines_loss_mean (hweight hmean.1) hp hxlength hdim ?_
        rw [hignore, hxDim]
        -- the rows were kept because they are shardable
        have hrows : Shardable p [N, C] (.shard 0) := hkept _ List.mem_cons_self
        rcases hrows.2 with rfl | hle
        · intro r hr
          obtain rfl := Nat.lt_one_iff.mp hr
          rw [Nat.one_mul, chunkStart_zero, chunkLen_of_dvd Nat.one_pos (one_dvd N) Nat.one_pos, Nat.div_one]
        · exact h rfl hmean.1 hmean.2 hle
      · exact absurd hentry List.not_mem_nil

end CrossEntropyRule

/-! ### The gradient of the cross entropy -/

section CrossEntropyBackward

open CrossEntropy

variable {expandToFullMesh : Expansion} {N C : ℕ} {weight gradZloss lseForZloss : Option (List ℕ)}
  {reduction : Reduction} {target : NdArray ℤ}

/-- The gradient of the loss has its shape. -/
def lossShape (N : ℕ) : Reduction → List ℕ
  | .none => [N]
  | .mean | .sum => []

def CrossEntropyBackwardSound [Field K] (ce : CrossEntropy K) (p : ℕ) (grad logProb : NdArray K)
    (target : NdArray ℤ) (reduction : Reduction) : Strategy → Prop
  | ([out], some g :: some a :: some b :: _) =>
    g.InRange grad.shape ∧ a.InRange logProb.shape ∧ b.InRange target.shape ∧
      out.Recombines p (fun r => ce.lossBackward (g.localTensor p r grad) (a.localTensor p r logProb)
        (b.localTensor p r target) reduction) (ce.lossBackward grad logProb target reduction)
  | _ => False

theorem same_lossBackward_chunk [Field K] (ce : CrossEntropy K) {grad logProb : NdArray K}
    (hdim : target.dim 0 = logProb.dim 0) (hgrad : grad.dim 0 = logProb.dim 0) (r : ℕ) :
    Same (ce.lossBackward (grad.chunk 0 p r) (logProb.chunk 0 p r) (target.chunk 0 p r) .none)
      ((ce.lossBackward grad logProb target .none).chunk 0 p r) := by
  refine ⟨rfl, fun i _ => ?_⟩
  show (if targetOf (target.chunk 0 p r) (i 0) = ce.ignoreIndex then 0 else _) =
    if targetOf target (shift i 0 _ 0) = ce.ignoreIndex then 0 else _
  rw [targetOf_chunk, hdim, shift_self]
  refine if_congr Iff.rfl rfl ?_
  show grad.get (shift (cons (i 0) _) 0 (chunkStart (grad.dim 0) p r)) *
      ce.sampleGrad (fun c => logProb.get (shift (cons (i 0) _) 0 _)) _ (i 1) =
    grad.get (cons (i 0 + chunkStart (logProb.dim 0) p r) _) * ce.sampleGrad _ _ (shift i 0 _ 1)
  simp only [shift_cons_zero, hgrad]
  rw [shift_of_ne Nat.one_ne_zero]
  rfl

theorem same_lossBackward_chunk_sum [Field K] (ce : CrossEntropy K) {grad logProb : NdArray K}
    (hdim : target.dim 0 = logProb.dim 0) (r : ℕ) :
    Same (ce.lossBackward grad (logProb.chunk 0 p r) (target.chunk 0 p r) .sum)
      ((ce.lossBackward grad logProb target .sum).chunk 0 p r) := by
  refine ⟨rfl, fun i _ => ?_⟩
  show (if targetOf (target.chunk 0 p r) (i 0) = ce.ignoreIndex then 0 else _) =
    if targetOf target (shift i 0 _ 0) = ce.ignoreIndex then 0 else _
  rw [targetOf_chunk, hdim, shift_self]
  refine if_congr Iff.rfl rfl ?_
  show grad.get _ * ce.sampleGrad (fun c => logProb.get (shift (cons (i 0) _) 0 _)) _ (i 1) =
    grad.get _ * ce.sampleGrad _ _ (shift i 0 _ 1)
  simp only [shift_cons_zero]
  rw [shift_of_ne Nat.one_ne_zero]
  rfl

/-- The entries of the rule besides the one that replicates everything. -/
def crossEntropyBackwardEntries (weight lseForZloss : Option (List ℕ)) : Reduction → List (List Placement)
  | .none => [[.shard 0, .shard 0, .shard 0, .shard 0] ++ replicateIfSome weight ++ replicateIfSome lseForZloss]
  | .sum => [[.shard 0, .replicate, .shard 0, .shard 0] ++ replicateIfSome weight ++ replicateIfSome lseForZloss]
  | .mean => []

/-- The rule returns, and every strategy is sound. -/
def CrossEntropyBackwardRuleSound (K : Type*) [Field K] (expandToFullMesh : Expansion)
    (p N C : ℕ) (weight gradZloss lseForZloss : Option (List ℕ)) (reduction : Reduction) (target : NdArray ℤ) :
    Prop :=
  ∃ strategies, customCrossEntropyLossBackwardStrategy expandToFullMesh (lossShape N reduction) [N, C] [N]
      weight gradZloss lseForZloss reduction = .ok strategies ∧
    ∀ (ce : CrossEntropy K) (grad logProb : NdArray K), grad.shape = lossShape N reduction →
      logProb.shape = [N, C] → ∀ s ∈ strategies, CrossEntropyBackwardSound ce p grad logProb target reduction s

/-- The placements of the rule leave out the gradient of `zloss`. -/
theorem crossEntropyBackwardRuleSound_iff [Field K] (hp : 0 < p) (hexpand : ExpandsToFullMesh p expandToFullMesh)
    (htarget : target.shape = [N]) :
    CrossEntropyBackwardRuleSound K expandToFullMesh p N C weight gradZloss lseForZloss reduction target ↔
      gradZloss = none := by
  have hreplicate : ∀ tensor : Option (List ℕ), (replicateIfSome tensor).length = tensor.toList.length :=
    fun tensor => List.length_map _
  constructor
  · rintro ⟨strategies, hrun, -⟩
    by_contra hsome
    obtain ⟨z, rfl⟩ := Option.ne_none_iff_exists'.mp hsome
    refine hexpand.raises _ _ _ ⟨_, List.mem_cons_self, ?_⟩ _ hrun
    simp only [List.length_append, List.length_replicate, hreplicate, List.length_cons, List.length_nil,
      Option.toList_some]
    omega
  · rintro rfl
    have hlists := hexpand.lists 1
      ([lossShape N reduction, [N, C], [N]] ++ weight.toList ++ [] ++ lseForZloss.toList)
      ((List.replicate 4 .replicate ++ replicateIfSome weight ++ replicateIfSome lseForZloss) ::
        crossEntropyBackwardEntries weight lseForZloss reduction) ?_
    · obtain ⟨strategies, hrun, hmem⟩ := hlists
      refine ⟨strategies, hrun, fun ce grad logProb hgrad hlogProb s hs => ?_⟩
      have hdim : target.dim 0 = logProb.dim 0 := by
        rw [NdArray.dim, NdArray.dim, htarget, hlogProb]
        rfl
      have hrange : (Placement.shard 0).InRange logProb.shape := by
        rw [hlogProb]
        exact Nat.succ_pos _
      have htargetRange : (Placement.shard 0).InRange target.shape := by
        rw [htarget]
        exact Nat.one_pos
      obtain ⟨placements, hmem, -, rfl⟩ := (hmem s).mp hs
      rcases List.mem_cons.mp hmem with rfl | hmem
      · exact ⟨trivial, trivial, trivial, fun _ _ => Same.refl _⟩
      · cases reduction with
        | none =>
          obtain rfl := List.mem_singleton.mp hmem
          have hgradDim : grad.dim 0 = logProb.dim 0 := by
            rw [NdArray.dim, NdArray.dim, hgrad, hlogProb]
            rfl
          have hgradRange : (Placement.shard 0).InRange grad.shape := by
            rw [hgrad]
            exact Nat.one_pos
          exact ⟨hgradRange, hrange, htargetRange,
            recombines_shard hp hrange fun r _ => same_lossBackward_chunk ce hdim hgradDim r⟩
        | sum =>
          obtain rfl := List.mem_singleton.mp hmem
          exact ⟨trivial, hrange, htargetRange,
            recombines_shard hp hrange fun r _ => same_lossBackward_chunk_sum ce hdim r⟩
        | mean => exact absurd hmem List.not_mem_nil
    · intro placements hmem
      rcases List.mem_cons.mp hmem with rfl | hmem
      · simp only [List.length_append, List.length_replicate, hreplicate, List.length_cons, List.length_nil]
        omega
      · cases reduction with
        | none | sum =>
          obtain rfl := List.mem_singleton.mp hmem
          simp only [List.length_append, hreplicate, List.length_cons, List.length_nil]
          omega
        | mean => exact absurd hmem List.not_mem_nil

end CrossEntropyBackward

/-! ### The divergence -/

section KLDiv

variable {f : K → K → K} {x target grad : NdArray K} {shape : List ℕ} {reduction : Reduction} {d : ℕ}

def KLDivSound [Field K] (f : K → K → K) (p : ℕ) (x target : NdArray K) (reduction : Reduction) : Strategy → Prop
  | ([out], some a :: some b :: _) =>
    a.InRange x.shape ∧ b.InRange target.shape ∧
      out.Recombines p (fun r => klDiv f (a.localTensor p r x) (b.localTensor p r target) reduction)
        (klDiv f x target reduction)
  | _ => False

/-- The divergences of the elements of all ranks add up. -/
theorem sumBox_klDiv_chunk [Field K] (hp : 0 < p) (hd : d < x.shape.length) (hdim : target.dim d = x.dim d) :
    ∑ r ∈ Finset.range p, sumBox (x.chunk d p r).shape
      (fun i => f ((x.chunk d p r).get i) ((target.chunk d p r).get i)) =
        sumBox x.shape fun i => f (x.get i) (target.get i) := by
  rw [sumBox_eq_sum_chunks hp hd]
  refine Finset.sum_congr rfl fun r _ => ?_
  show sumBox _ (fun i => f (x.get _) (target.get (shift i d (chunkStart (target.dim d) p r)))) = _
  rw [hdim]
  rfl

theorem prod_chunk_shape (hp : 0 < p) (hd : d < shape.length) (hdvd : p ∣ shape.getD d 1) {r : ℕ} (hr : r < p) :
    p * (shape.set d (chunkLen (shape.getD d 1) p r)).prod = shape.prod := by
  rw [chunkLen_of_dvd hp hdvd hr]
  induction shape generalizing d with
  | nil => exact absurd hd (Nat.not_lt_zero d)
  | cons n shape ih =>
    cases d with
    | zero =>
      show p * ((n / p) :: shape).prod = _
      rw [List.prod_cons, List.prod_cons, ← Nat.mul_assoc, Nat.mul_div_cancel' (show p ∣ n from hdvd)]
    | succ d =>
      show p * (n :: shape.set d (shape.getD d 1 / p)).prod = _
      rw [List.prod_cons, List.prod_cons, Nat.mul_left_comm, ih (Nat.lt_of_succ_lt_succ hd) hdvd]

theorem klDivSound_shard [Field K] [CharZero K] (hp : 0 < p) (hshape : target.shape = x.shape)
    (hd : d < x.shape.length) {s : Strategy} (hs : klDivSharding p x.shape reduction d = some s) :
    KLDivSound f p x target reduction s := by
  have hdim : target.dim d = x.dim d := by
    rw [NdArray.dim, hshape]
    rfl
  have htarget : d < target.shape.length := by
    rw [hshape]
    exact hd
  cases reduction with
  | none =>
    obtain rfl := Option.some.inj hs
    refine ⟨hd, htarget, recombines_shard hp hd fun r _ => ⟨rfl, fun i _ => ?_⟩⟩
    show f (x.get _) (target.get (shift i d (chunkStart (target.dim d) p r))) = f (x.get _) (target.get _)
    rw [hdim]
    rfl
  | sum =>
    obtain rfl := Option.some.inj hs
    exact ⟨hd, htarget, fun _ _ => rfl, fun _ _ => sumBox_klDiv_chunk hp hd hdim⟩
  | mean =>
    unfold klDivSharding at hs
    simp only at hs
    split_ifs at hs with hmod
    · obtain rfl := Option.some.inj hs
      refine ⟨hd, htarget, fun _ _ => rfl, fun _ _ => ?_⟩
      have hdvd : p ∣ x.shape.getD d 1 := Nat.dvd_of_mod_eq_zero hmod
      have hpK : (p : K) ≠ 0 := Nat.cast_ne_zero.mpr hp.ne'
      have hparts : ∀ r ∈ Finset.range p, (klDiv f (x.chunk d p r) (target.chunk d p r) .mean).get (fun _ => 0) =
          sumBox (x.chunk d p r).shape (fun i => f ((x.chunk d p r).get i) ((target.chunk d p r).get i)) *
            (p / (x.shape.prod : ℕ)) := by
        intro r hr
        have hprod : p * (x.chunk d p r).shape.prod = x.shape.prod :=
          prod_chunk_shape hp hd hdvd (Finset.mem_range.mp hr)
        rw [← hprod, Nat.cast_mul, div_mul_cancel_left₀ hpK]
        exact div_eq_mul_inv _ _
      show ∑ r ∈ Finset.range p, (klDiv f (x.chunk d p r) (target.chunk d p r) .mean).get (fun _ => 0) =
        p • ((sumBox x.shape fun i => f (x.get i) (target.get i)) / (x.shape.prod : ℕ))
      rw [Finset.sum_congr rfl hparts, ← Finset.sum_mul, sumBox_klDiv_chunk hp hd hdim, nsmul_eq_mul]
      ring

/-- The rule returns, and every strategy is sound. -/
def KLDivRuleSound (K : Type*) [Field K] (p : ℕ) (shape : List ℕ) (reduction : Reduction) : Prop :=
  ∃ strategies, customKLDivLossForwardStrategy p shape reduction = .ok strategies ∧
    ∀ (f : K → K → K) (x target : NdArray K), x.shape = shape → target.shape = shape →
      ∀ s ∈ strategies, KLDivSound f p x target reduction s

/-- The loop over the dimensions needs a strategy for the first one. -/
def KLDivShards (p : ℕ) (shape : List ℕ) (reduction : Reduction) : Prop :=
  reduction = .mean → shape ≠ [] → p ∣ shape.getD 0 1

theorem klDivRuleSound_iff [Field K] [CharZero K] (hp : 0 < p) :
    KLDivRuleSound K p shape reduction ↔ KLDivShards p shape reduction := by
  constructor
  · rintro ⟨strategies, hrun, -⟩ rfl hne
    by_contra hdvd
    have hfirst : klDivSharding p shape .mean 0 = none :=
      if_neg fun hmod => hdvd (Nat.dvd_of_mod_eq_zero hmod)
    unfold customKLDivLossForwardStrategy at hrun
    rw [appendInLoop_range_none (List.length_pos_iff.mpr hne) hfirst] at hrun
    cases hrun
  · intro h
    have hfirst : 0 < shape.length → klDivSharding p shape reduction 0 ≠ none := by
      intro hpos
      cases reduction with
      | none | sum => exact Option.some_ne_none _
      | mean =>
        unfold klDivSharding
        simp only
        rw [if_pos (Nat.mod_eq_zero_of_dvd (h rfl (List.length_pos_iff.mp hpos)))]
        exact Option.some_ne_none _
    obtain ⟨shardings, hloop, hmem⟩ := appendInLoop_range "shard_strategy" shape.length hfirst
    refine ⟨([.replicate], [some .replicate, some .replicate, none, none]) :: shardings, ?_, ?_⟩
    · unfold customKLDivLossForwardStrategy
      rw [hloop]
      rfl
    · rintro f x target rfl htarget s hs
      rcases List.mem_cons.mp hs with rfl | hs
      · exact ⟨trivial, trivial, fun _ _ => Same.refl _⟩
      · obtain ⟨d, hd, hs⟩ := (hmem s).mp hs
        exact klDivSound_shard hp htarget hd hs

/-! Its gradient -/

def KLDivBackwardSound [Field K] (f' : K → K → K) (p : ℕ) (grad x target : NdArray K) (reduction : Reduction) :
    Strategy → Prop
  | ([out], some g :: some a :: some b :: _) =>
    g.InRange grad.shape ∧ a.InRange x.shape ∧ b.InRange target.shape ∧
      out.Recombines p (fun r => klDivBackward f' (g.localTensor p r grad) (a.localTensor p r x)
        (b.localTensor p r target) reduction) (klDivBackward f' grad x target reduction)
  | _ => False

/-- Every strategy of the gradient is sound. -/
theorem klDivBackward_sound [Field K] (f' : K → K → K) (hp : 0 < p) (hshape : target.shape = x.shape)
    (hgrad : reduction = .none → grad.shape = x.shape) {s : Strategy}
    (hs : s ∈ customKLDivLossBackwardStrategy x.shape reduction) :
    KLDivBackwardSound f' p grad x target reduction s := by
  unfold customKLDivLossBackwardStrategy at hs
  rcases List.mem_cons.mp hs with rfl | hs
  · exact ⟨trivial, trivial, trivial, fun _ _ => Same.refl _⟩
  obtain ⟨d, hd, hs⟩ := List.mem_flatMap.mp hs
  have hd : d < x.shape.length := List.mem_range.mp hd
  have hdim : target.dim d = x.dim d := by
    rw [NdArray.dim, hshape]
    rfl
  have htarget : d < target.shape.length := by
    rw [hshape]
    exact hd
  cases reduction with
  | none =>
    obtain rfl := List.mem_singleton.mp hs
    have hgradDim : grad.dim d = x.dim d := by
      rw [NdArray.dim, hgrad rfl]
      rfl
    have hgradRange : d < grad.shape.length := by
      rw [hgrad rfl]
      exact hd
    refine ⟨hgradRange, hd, htarget, recombines_shard hp hd fun r _ => ⟨rfl, fun i _ => ?_⟩⟩
    show grad.get (shift i d (chunkStart (grad.dim d) p r)) *
        f' (x.get _) (target.get (shift i d (chunkStart (target.dim d) p r))) =
      grad.get _ * f' (x.get _) (target.get _)
    rw [hdim, hgradDim]
    rfl
  | sum =>
    obtain rfl := List.mem_singleton.mp hs
    refine ⟨trivial, hd, htarget, recombines_shard hp hd fun r _ => ⟨rfl, fun i _ => ?_⟩⟩
    show grad.get _ * f' (x.get _) (target.get (shift i d (chunkStart (target.dim d) p r))) =
      grad.get _ * f' (x.get _) (target.get _)
    rw [hdim]
    rfl
  | mean => exact absurd hs List.not_mem_nil

end KLDiv

/-! ### The four rules -/

/-- Each of the rules of the losses and of their gradients returns sound strategies exactly for its own inputs. -/
theorem losses_sound_iff [Field K] [CharZero K] {expandToFullMesh : Expansion} (hp : 0 < p)
    (hexpand : ExpandsToFullMesh p expandToFullMesh) :
    (∀ N C placement weight reduction target ignoreIndex, placement.InRange [N] → target.shape = [N] →
      (CrossEntropyRuleSound K expandToFullMesh p N C placement weight reduction target ignoreIndex ↔
        CrossEntropyShards p N placement weight reduction target ignoreIndex)) ∧
    (∀ N C weight gradZloss lseForZloss reduction target, target.shape = [N] →
      (CrossEntropyBackwardRuleSound K expandToFullMesh p N C weight gradZloss lseForZloss reduction target ↔
        gradZloss = none)) ∧
    (∀ shape reduction, KLDivRuleSound K p shape reduction ↔ KLDivShards p shape reduction) ∧
    ∀ (f' : K → K → K) grad x target reduction, target.shape = x.shape →
      (reduction = .none → grad.shape = x.shape) → ∀ s ∈ customKLDivLossBackwardStrategy x.shape reduction,
        KLDivBackwardSound f' p grad x target reduction s := by
  refine ⟨?_, ?_, fun _ _ => klDivRuleSound_iff hp, ?_⟩
  · intro N C placement weight reduction target ignoreIndex hplacement htarget
    exact crossEntropyRuleSound_iff hp hplacement hexpand htarget
  · intro N C weight gradZloss lseForZloss reduction target htarget
    exact crossEntropyBackwardRuleSound_iff hp hexpand htarget
  · intro f' grad x target reduction hshape hgrad s hs
    exact klDivBackward_sound f' hp hshape hgrad hs

/-- The expansion of a list of entries. -/
def expandEntries (p : ℕ) : Expansion := fun inputIndex args single =>
  if ∃ placements ∈ single, placements.length ≠ inputIndex + args.length then .error (.assertionError "")
  else .ok ((single.filter fun placements : List Placement =>
      decide (∀ q ∈ args.zip (placements.drop inputIndex), Shardable p q.1 q.2)).map fun placements =>
    (placements.take inputIndex, (placements.drop inputIndex).map some))

theorem expandsToFullMesh_expandEntries (p : ℕ) : ExpandsToFullMesh p (expandEntries p) := by
  constructor
  · intro inputIndex args single h
    refine ⟨_, if_neg ?_, fun s => ?_⟩
    · rintro ⟨placements, hmem, hne⟩
      exact hne (h placements hmem)
    · rw [List.mem_map]
      simp only [List.mem_filter, decide_eq_true_eq, and_assoc]
  · intro inputIndex args single h strategies hrun
    rw [expandEntries, if_pos h] at hrun
    cases hrun

/-- Four samples over two ranks, the second and the third ignored: every rank counts one. -/
theorem losses_sound_iff_even :
    CrossEntropyRuleSound ℚ (expandEntries 2) 2 4 3 (.shard 0) none .mean
        ⟨[4], fun i => if i 0 = 1 ∨ i 0 = 2 then -100 else 0⟩ (-100) ∧
      CrossEntropyBackwardRuleSound ℚ (expandEntries 2) 2 4 3 none none none .mean ⟨[4], fun _ => 0⟩ ∧
        KLDivRuleSound ℚ 2 [4, 3] .mean := by
  obtain ⟨hloss, hbackward, hdiv, -⟩ :=
    losses_sound_iff (K := ℚ) (p := 2) (by decide) (expandsToFullMesh_expandEntries 2)
  refine ⟨(hloss _ _ _ _ _ _ _ (by decide) rfl).mpr fun _ _ _ _ => by decide,
    (hbackward _ _ _ _ _ _ _ rfl).mpr rfl, (hdiv _ _).mpr fun _ _ => by decide⟩

/-- The same samples, only the second ignored: the ranks count one and two.  A gradient of `zloss` has no
placement, and three rows of elements are not cut evenly. -/
theorem not_losses_sound :
    ¬CrossEntropyRuleSound ℚ (expandEntries 2) 2 4 3 (.shard 0) none .mean
        ⟨[4], fun i => if i 0 = 1 then -100 else 0⟩ (-100) ∧
      ¬CrossEntropyRuleSound ℚ (expandEntries 2) 2 7 3 .replicate none .mean ⟨[7], fun _ => 0⟩ (-100) ∧
      ¬CrossEntropyBackwardRuleSound ℚ (expandEntries 2) 2 4 3 none (some []) none .mean ⟨[4], fun _ => 0⟩ ∧
        ¬KLDivRuleSound ℚ 2 [3, 4] .mean := by
  refine ⟨?_, ?_, ?_, ?_⟩
  · rw [crossEntropyRuleSound_iff (by decide) (by decide) (expandsToFullMesh_expandEntries 2) rfl]
    exact fun h => absurd (h rfl rfl (by decide) (by decide) 0 (by decide)) (by decide)
  · rw [crossEntropyRuleSound_iff (by decide) (by decide) (expandsToFullMesh_expandEntries 2) rfl]
    exact fun h => absurd (h rfl rfl trivial (by decide) 0 (by decide)) (by decide)
  · rw [crossEntropyBackwardRuleSound_iff (by decide) (expandsToFullMesh_expandEntries 2) rfl]
    exact Option.some_ne_none _
  · rw [klDivRuleSound_iff (by decide)]
    exact fun h => absurd (h rfl (List.cons_ne_nil _ _)) (by decide)

end TorchNpu.DTensor
