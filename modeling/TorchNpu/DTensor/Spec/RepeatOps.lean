/-
  When the sharding rules of the repeating operators and of the backward of `gather` are sound.

  Cutting a dimension that is not repeated is always sound.  Cutting the repeated one is sound exactly if the
  chunks of the repeated dimension are the repeated chunks, `RepeatsEvenly`; flattening repeats the first
  dimension by the product of the others too.  The backward of `gather` gives every rank the shape of the
  whole input, so that cutting a dimension is sound only if there is one rank or nothing in it.
-/
import TorchNpu.DTensor.MathOps

namespace TorchNpu.DTensor

open Index NdArray Placement

variable {α : Type*} {p repeats d k : ℕ} {shape : List ℕ} {dim : ℤ}

/-! ### Repeating -/

theorem same_repeatAlong_chunk_of_ne (x : NdArray α) (hne : d ≠ k) (r : ℕ) :
    Same (repeatAlong (x.chunk d p r) repeats k) ((repeatAlong x repeats k).chunk d p r) := by
  have hdim : (repeatAlong x repeats k).dim d = x.dim d := getD_set_of_ne hne
  have hdim' : (x.chunk d p r).dim k = x.dim k := getD_set_of_ne hne.symm
  refine ⟨?_, fun i _ => ?_⟩
  · show (x.shape.set d _).set k ((x.chunk d p r).dim k * repeats) = (x.shape.set k _).set d _
    rw [hdim', hdim, List.set_comm _ _ hne]
  · show x.get (shift (Function.update i k _) d _) = x.get (Function.update (shift i d _) k _)
    rw [hdim, update_shift_of_ne hne.symm, shift_of_ne hne.symm]

theorem dim_repeatAlong {x : NdArray α} (hk : k < x.shape.length) :
    (repeatAlong x repeats k).dim k = x.dim k * repeats :=
  getD_set_self hk

/-- Repeating a chunk of the repeated dimension gives that chunk of the result if the chunks are repeated too. -/
theorem same_repeatAlong_chunk_self {x : NdArray α} (hp : 0 < p) (hk : k < x.shape.length)
    (h : RepeatsEvenly (x.dim k) repeats p) (r : ℕ) :
    Same (repeatAlong (x.chunk k p r) repeats k) ((repeatAlong x repeats k).chunk k p r) := by
  have hdim : (x.chunk k p r).dim k = chunkLen (x.dim k) p r := getD_set_self hk
  have hshape : (repeatAlong (x.chunk k p r) repeats k).shape = x.shape.set k (chunkLen (x.dim k) p r * repeats) := by
    show (x.shape.set k _).set k ((x.chunk k p r).dim k * repeats) = _
    rw [hdim, List.set_set]
  refine ⟨?_, fun i hi => ?_⟩
  · rw [hshape]
    show _ = (x.shape.set k _).set k _
    rw [List.set_set, dim_repeatAlong hk, chunkLen_mul hp h]
  · have hpos : 0 < repeats := by
      have hik := hi k
      rw [hshape, getD_set_self hk] at hik
      exact Nat.pos_of_mul_pos_left (Nat.zero_lt_of_lt hik)
    show x.get (shift (Function.update i k _) k _) = x.get (Function.update (shift i k _) k _)
    rw [shift_update_self, update_shift_self, shift_self, dim_repeatAlong hk, chunkStart_mul hp h,
      Nat.add_mul_div_right _ _ hpos]

theorem repeatsEvenly_of_same {x : NdArray α} (hp : 0 < p) (hk : k < x.shape.length)
    (h : ∀ r < p, Same (repeatAlong (x.chunk k p r) repeats k) ((repeatAlong x repeats k).chunk k p r)) :
    RepeatsEvenly (x.dim k) repeats p := by
  refine repeatsEvenly_of_chunkLen hp fun r hr => ?_
  have hdim : (x.chunk k p r).dim k = chunkLen (x.dim k) p r := getD_set_self hk
  have hlength : (x.chunk k p r).shape.length = x.shape.length := List.length_set
  have hsize := congrArg (·.getD k 1) (h r hr).1
  have hleft : (repeatAlong (x.chunk k p r) repeats k).shape.getD k 1 = chunkLen (x.dim k) p r * repeats := by
    rw [← hdim]
    exact dim_repeatAlong (by rw [hlength]; exact hk)
  have hright : ((repeatAlong x repeats k).chunk k p r).shape.getD k 1 = chunkLen (x.dim k * repeats) p r := by
    rw [← dim_repeatAlong hk]
    exact getD_set_self (by rw [repeatAlong, List.length_set]; exact hk)
  exact hright.symm.trans (hsize.symm.trans hleft)

/-! Flattening a tensor: its first dimension is repeated by the others. -/

theorem same_repeatFlattened_chunk {x : NdArray α} {n : ℕ} {rest : List ℕ} (hx : x.shape = n :: rest) (hp : 0 < p)
    (h : RepeatsEvenly n (rest.prod * repeats) p) (r : ℕ) :
    Same (repeatFlattened (x.chunk 0 p r) repeats) ((repeatFlattened x repeats).chunk 0 p r) := by
  have hchunk : (x.chunk 0 p r).shape = chunkLen n p r :: rest := by
    show x.shape.set 0 (chunkLen (x.shape.getD 0 1) p r) = _
    rw [hx]
    rfl
  have hdim : (repeatFlattened x repeats).dim 0 = n * (rest.prod * repeats) := by
    show x.shape.prod * repeats = _
    rw [hx, List.prod_cons, Nat.mul_assoc]
  have hshape : (repeatFlattened (x.chunk 0 p r) repeats).shape = [chunkLen n p r * (rest.prod * repeats)] := by
    show [(x.chunk 0 p r).shape.prod * repeats] = _
    rw [hchunk, List.prod_cons, Nat.mul_assoc]
  refine ⟨?_, fun i hi => ?_⟩
  · rw [hshape]
    show _ = [chunkLen ((repeatFlattened x repeats).dim 0) p r]
    rw [hdim, chunkLen_mul hp h]
  · have hpos : 0 < rest.prod * repeats := by
      have hi0 := hi 0
      rw [hshape] at hi0
      exact Nat.pos_of_mul_pos_left (Nat.zero_lt_of_lt hi0)
    have hrepeats : 0 < repeats := Nat.pos_of_mul_pos_left hpos
    have hrest : 0 < rest.prod := Nat.pos_of_mul_pos_right hpos
    show x.get (shift (unravel (x.chunk 0 p r).shape (i 0 / repeats)) 0 (chunkStart (x.shape.getD 0 1) p r)) =
      x.get (unravel x.shape (shift i 0 (chunkStart ((repeatFlattened x repeats).dim 0) p r) 0 / repeats))
    rw [hchunk, hx, hdim, shift_self, chunkStart_mul hp h, ← Nat.mul_assoc, Nat.add_mul_div_right _ _ hrepeats]
    show x.get (shift (cons _ _) 0 (chunkStart n p r)) = x.get (cons _ _)
    rw [shift_cons_zero, Nat.add_mul_div_right _ _ hrest, Nat.add_mul_mod_self_right]

theorem repeatsEvenly_of_same_flattened {x : NdArray α} {n : ℕ} {rest : List ℕ} (hx : x.shape = n :: rest)
    (hp : 0 < p)
    (h : ∀ r < p, Same (repeatFlattened (x.chunk 0 p r) repeats) ((repeatFlattened x repeats).chunk 0 p r)) :
    RepeatsEvenly n (rest.prod * repeats) p := by
  refine repeatsEvenly_of_chunkLen hp fun r hr => ?_
  have hsize : [(x.chunk 0 p r).shape.prod * repeats] = [chunkLen (x.shape.prod * repeats) p r] := (h r hr).1
  have hchunk : (x.chunk 0 p r).shape = chunkLen n p r :: rest := by
    show x.shape.set 0 (chunkLen (x.shape.getD 0 1) p r) = _
    rw [hx]
    rfl
  rw [hchunk, hx, List.prod_cons, List.prod_cons, Nat.mul_assoc, Nat.mul_assoc] at hsize
  exact (List.singleton_injective hsize).symm

/-! ### The rule of `repeat_interleave` -/

/-- What each rank makes of its part of the input is its part of the result. -/
def RepeatSound (p : ℕ) (x : NdArray α) (repeats : ℕ) (dim : Option ℤ) : Strategy → Prop
  | ([out], some a :: _) =>
    a.InRange x.shape ∧ out.InRange (repeatInterleave x repeats dim).shape ∧
      ∀ r < p, Same (repeatInterleave (a.localTensor p r x) repeats dim)
        (out.localTensor p r (repeatInterleave x repeats dim))
  | _ => False

theorem repeatSound_replicate (x : NdArray α) (dim : Option ℤ) :
    RepeatSound p x repeats dim ([.replicate], [some .replicate, none, none, none]) :=
  ⟨trivial, trivial, fun _ _ => Same.refl _⟩

/-- The strategy that cuts dimension `d` of the input and of the result. -/
def shardRepeat (d : ℕ) : Strategy :=
  ([.shard d], [some (.shard d), none, none, none])

theorem repeatSound_of_ne (x : NdArray α) (hd : d < x.shape.length) (hne : d ≠ normalizeDim dim x.shape.length) :
    RepeatSound p x repeats (some dim) (shardRepeat d) := by
  have hlength : ∀ r, (x.chunk d p r).shape.length = x.shape.length := fun r => List.length_set
  refine ⟨hd, ?_, fun r _ => ?_⟩
  · show d < (x.shape.set _ _).length
    rw [List.length_set]
    exact hd
  · show Same (repeatAlong (x.chunk d p r) repeats (normalizeDim dim (x.chunk d p r).shape.length)) _
    rw [hlength]
    exact same_repeatAlong_chunk_of_ne x hne r

theorem repeatSound_self_iff {x : NdArray α} (hp : 0 < p) (hd : normalizeDim dim x.shape.length < x.shape.length) :
    RepeatSound p x repeats (some dim) (shardRepeat (normalizeDim dim x.shape.length)) ↔
      RepeatsEvenly (x.shape.getD (normalizeDim dim x.shape.length) 1) repeats p := by
  have hlength : ∀ d r, (x.chunk d p r).shape.length = x.shape.length := fun d r => List.length_set
  constructor
  · rintro ⟨-, -, h⟩
    refine repeatsEvenly_of_same hp hd fun r hr => ?_
    have hr := h r hr
    unfold repeatInterleave localTensor at hr
    rw [hlength] at hr
    exact hr
  · intro h
    refine ⟨hd, ?_, fun r _ => ?_⟩
    · show _ < (x.shape.set _ _).length
      rw [List.length_set]
      exact hd
    · unfold repeatInterleave localTensor
      rw [hlength]
      exact same_repeatAlong_chunk_self hp hd h r

theorem repeatSound_flattened_iff {x : NdArray α} (hp : 0 < p) (hx : x.shape ≠ []) :
    RepeatSound p x repeats none (shardRepeat 0) ↔
      RepeatsEvenly (x.shape.getD 0 1) (x.shape.tail.prod * repeats) p := by
  obtain ⟨n, rest, hshape⟩ := List.exists_cons_of_ne_nil hx
  rw [hshape]
  constructor
  · rintro ⟨-, -, h⟩
    exact repeatsEvenly_of_same_flattened hshape hp h
  · intro h
    refine ⟨?_, Nat.one_pos, fun r _ => same_repeatFlattened_chunk hshape hp h r⟩
    show 0 < x.shape.length
    rw [hshape]
    exact Nat.succ_pos _

/-- The first pass has no strategy to list if its dimension is the repeated one. -/
theorem unevenLoop_zero {ndim : ℕ} (h : 0 < ndim) :
    appendInLoop "sharding_strategy" (unevenSharding 0) (List.range ndim) none =
      .error (.unboundLocalError "sharding_strategy") :=
  appendInLoop_range_none h rfl

theorem unevenLoop (hdim : dim ≠ 0) (ndim : ℕ) :
    ∃ shardings, appendInLoop "sharding_strategy" (unevenSharding dim) (List.range ndim) none = .ok shardings ∧
      ∀ s, s ∈ shardings ↔ ∃ i < ndim, (i : ℤ) ≠ dim ∧ s = shardRepeat i := by
  have hfirst : 0 < ndim → unevenSharding dim 0 ≠ none := by
    intro _
    unfold unevenSharding
    rw [if_pos fun h => hdim h.symm]
    exact Option.some_ne_none _
  obtain ⟨shardings, hrun, hmem⟩ := appendInLoop_range "sharding_strategy" ndim hfirst
  refine ⟨shardings, hrun, fun s => ?_⟩
  rw [hmem]
  refine exists_congr fun i => and_congr_right fun _ => ?_
  unfold unevenSharding
  split_ifs with hi
  · constructor
    · intro h
      exact ⟨hi, (Option.some.inj h).symm⟩
    · rintro ⟨-, rfl⟩
      rfl
  · constructor
    · intro h
      cases h
    · rintro ⟨h, -⟩
      exact absurd h hi

/-- The dimensions that the operator admits. -/
def AdmitsDim (dim : Option ℤ) (ndim : ℕ) : Prop :=
  ∀ d, dim = some d → -(ndim : ℤ) ≤ d ∧ d < ndim

/-- The inputs for which the rule of `repeat_interleave` is sound. -/
def RepeatShards (p : ℕ) (shape : List ℕ) (placement : Placement) (repeats : ℕ) : Option ℤ → Prop
  | none => shape ≠ [] ∧
      (placement.CutsEvenly p shape → RepeatsEvenly (shape.getD 0 1) (shape.tail.prod * repeats) p)
  | some dim => (placement.CutsEvenly p shape ∨ dim < 0 →
      RepeatsEvenly (shape.getD (normalizeDim dim shape.length) 1) repeats p) ∧
      (¬placement.CutsEvenly p shape → dim ≠ 0)

/-- The rule returns, and every strategy that it returns is sound. -/
def RepeatRuleSound (α : Type*) (p : ℕ) (shape : List ℕ) (placement : Placement) (repeats : ℕ) (dim : Option ℤ) :
    Prop :=
  ∃ strategies, customNpuRepeatInterleaveSelfIntStrategy (onMesh p shape placement) dim = .ok strategies ∧
    ∀ x : NdArray α, x.shape = shape → ∀ s ∈ strategies, RepeatSound p x repeats dim s

section Rule

variable {placement : Placement}

def replicateRepeat : Strategy :=
  ([.replicate], [some .replicate, none, none, none])

theorem repeatRule_even (hshape : shape ≠ []) (hp : 0 < p) (hplacement : placement.InRange shape)
    (heven : placement.CutsEvenly p shape) (dim : Option ℤ) :
    customNpuRepeatInterleaveSelfIntStrategy (onMesh p shape placement) dim =
      .ok (replicateRepeat :: dim.elim [shardRepeat 0] fun _ => (List.range shape.length).map shardRepeat) := by
  have hrun := isTensorEvenlyShardable_onMesh hshape hp hplacement
  rw [decide_eq_true heven] at hrun
  unfold customNpuRepeatInterleaveSelfIntStrategy
  have hspec : isTensorEvenlyShardable (onMesh p shape placement).shape (onMesh p shape placement) = .ok true := hrun
  rw [hspec]
  cases dim <;> rfl

theorem repeatRule_uneven_none (hshape : shape ≠ []) (hp : 0 < p) (hplacement : placement.InRange shape)
    (heven : ¬placement.CutsEvenly p shape) :
    customNpuRepeatInterleaveSelfIntStrategy (onMesh p shape placement) none = .ok [replicateRepeat] := by
  have hrun := isTensorEvenlyShardable_onMesh hshape hp hplacement
  rw [decide_eq_false heven] at hrun
  unfold customNpuRepeatInterleaveSelfIntStrategy
  have hspec : isTensorEvenlyShardable (onMesh p shape placement).shape (onMesh p shape placement) = .ok false :=
    hrun
  rw [hspec]
  rfl

theorem repeatRule_uneven_some (hshape : shape ≠ []) (hp : 0 < p) (hplacement : placement.InRange shape)
    (heven : ¬placement.CutsEvenly p shape) (dim : ℤ) :
    customNpuRepeatInterleaveSelfIntStrategy (onMesh p shape placement) (some dim) =
      (appendInLoop "sharding_strategy" (unevenSharding dim) (List.range shape.length) none).map
        (replicateRepeat :: ·) := by
  have hrun := isTensorEvenlyShardable_onMesh hshape hp hplacement
  rw [decide_eq_false heven] at hrun
  unfold customNpuRepeatInterleaveSelfIntStrategy
  have hspec : isTensorEvenlyShardable (onMesh p shape placement).shape (onMesh p shape placement) = .ok false :=
    hrun
  rw [hspec]
  show (appendInLoop "sharding_strategy" (unevenSharding dim) (List.range shape.length) none >>=
    fun shardings => Except.ok (_ :: shardings)) = _
  cases appendInLoop "sharding_strategy" (unevenSharding dim) (List.range shape.length) none <;> rfl

theorem normalizeDim_lt {ndim : ℕ} (h : AdmitsDim (some dim) ndim) : normalizeDim dim ndim < ndim := by
  obtain ⟨hlo, hhi⟩ := h dim rfl
  unfold normalizeDim
  split_ifs <;> omega

/-- A rule that returns is sound if and only if its strategies are. -/
theorem ruleSound_iff_of_run {dim : Option ℤ} {strategies : List Strategy}
    (hrun : customNpuRepeatInterleaveSelfIntStrategy (onMesh p shape placement) dim = .ok strategies) :
    RepeatRuleSound α p shape placement repeats dim ↔
      ∀ x : NdArray α, x.shape = shape → ∀ s ∈ strategies, RepeatSound p x repeats dim s := by
  constructor
  · rintro ⟨strategies', hrun', h⟩
    rw [hrun] at hrun'
    exact Except.ok.inj hrun' ▸ h
  · intro h
    exact ⟨strategies, hrun, h⟩

theorem repeatRuleSound_none_iff [Inhabited α] (hp : 0 < p) (hplacement : placement.InRange shape) :
    RepeatRuleSound α p shape placement repeats none ↔ RepeatShards p shape placement repeats none := by
  by_cases hshape : shape = []
  · -- the test for evenness raises
    subst hshape
    refine iff_of_false ?_ fun h => h.1 rfl
    rintro ⟨strategies, hrun, -⟩
    have hraise : Except.error (PyError.valueError
      "'shape' must have at least 1 dimension (empty shape is invalid).") = Except.ok strategies := hrun
    cases hraise
  by_cases heven : placement.CutsEvenly p shape
  · rw [ruleSound_iff_of_run (repeatRule_even hshape hp hplacement heven none)]
    constructor
    · intro h
      refine ⟨hshape, fun _ => ?_⟩
      have hsound := h ⟨shape, fun _ => default⟩ rfl (shardRepeat 0) (List.mem_cons_of_mem _ List.mem_cons_self)
      exact (repeatSound_flattened_iff hp hshape).mp hsound
    · rintro ⟨-, h⟩ x rfl s hs
      rcases List.mem_cons.mp hs with rfl | hs
      · exact repeatSound_replicate x none
      · obtain rfl := List.mem_singleton.mp hs
        exact (repeatSound_flattened_iff hp hshape).mpr (h heven)
  · rw [ruleSound_iff_of_run (repeatRule_uneven_none hshape hp hplacement heven)]
    refine iff_of_true (fun x _ s hs => ?_) ⟨hshape, fun h => absurd h heven⟩
    obtain rfl := List.mem_singleton.mp hs
    exact repeatSound_replicate x none

theorem repeatRuleSound_some_iff [Inhabited α] (hp : 0 < p) (hplacement : placement.InRange shape)
    (hdim : AdmitsDim (some dim) shape.length) :
    RepeatRuleSound α p shape placement repeats (some dim) ↔
      RepeatShards p shape placement repeats (some dim) := by
  have hlt := normalizeDim_lt hdim
  obtain ⟨hlo, hhi⟩ := hdim dim rfl
  have hshape : shape ≠ [] := by
    rintro rfl
    exact absurd hlt (Nat.not_lt_zero _)
  by_cases heven : placement.CutsEvenly p shape
  · -- every dimension is cut
    rw [ruleSound_iff_of_run (repeatRule_even hshape hp hplacement heven (some dim))]
    constructor
    · intro h
      refine ⟨fun _ => ?_, fun hne => absurd heven hne⟩
      have hmem : shardRepeat (normalizeDim dim shape.length) ∈ (List.range shape.length).map shardRepeat :=
        List.mem_map_of_mem (List.mem_range.mpr hlt)
      have hsound := h ⟨shape, fun _ => default⟩ rfl _ (List.mem_cons_of_mem _ hmem)
      exact (repeatSound_self_iff hp hlt).mp hsound
    · rintro ⟨h, -⟩ x rfl s hs
      rcases List.mem_cons.mp hs with rfl | hs
      · exact repeatSound_replicate x _
      · obtain ⟨d, hd, rfl⟩ := List.mem_map.mp hs
        by_cases hne : d = normalizeDim dim x.shape.length
        · subst hne
          exact (repeatSound_self_iff hp hlt).mpr (h (Or.inl heven))
        · exact repeatSound_of_ne x (List.mem_range.mp hd) hne
  · by_cases hzero : dim = 0
    · -- the loop reads a strategy that was never made
      subst hzero
      refine iff_of_false ?_ fun h => h.2 heven rfl
      rintro ⟨strategies, hrun, -⟩
      rw [repeatRule_uneven_some hshape hp hplacement heven, unevenLoop_zero (Nat.zero_lt_of_lt hlt)] at hrun
      cases hrun
    · -- every dimension is cut that is not the given number
      obtain ⟨shardings, hloop, hmem⟩ := unevenLoop hzero shape.length
      have hrun := repeatRule_uneven_some hshape hp hplacement heven dim
      rw [hloop] at hrun
      rw [ruleSound_iff_of_run hrun]
      constructor
      · intro h
        refine ⟨fun hneg => ?_, fun _ => hzero⟩
        have hneg := hneg.resolve_left heven
        have hsound := h ⟨shape, fun _ => default⟩ rfl (shardRepeat (normalizeDim dim shape.length))
          (List.mem_cons_of_mem _ ((hmem _).mpr ⟨_, hlt, by omega, rfl⟩))
        exact (repeatSound_self_iff hp hlt).mp hsound
      · rintro ⟨h, -⟩ x rfl s hs
        rcases List.mem_cons.mp hs with rfl | hs
        · exact repeatSound_replicate x _
        · obtain ⟨d, hd, hne, rfl⟩ := (hmem s).mp hs
          by_cases heq : d = normalizeDim dim x.shape.length
          · have hneg : dim < 0 := by
              unfold normalizeDim at heq
              split_ifs at heq <;> omega
            subst heq
            exact (repeatSound_self_iff hp hlt).mpr (h (Or.inr hneg))
          · exact repeatSound_of_ne x hd heq

end Rule

/-! ### The backward of `repeat_interleave` -/

section Backward

variable [AddCommMonoid α] {grad x : NdArray α}

/-- The gradient has the size of the result in dimension `k`, and that of the input in the others. -/
def RepeatShapes (grad x : List ℕ) (repeats k : ℕ) : Prop :=
  grad = x.set k (x.getD k 1 * repeats)

theorem same_repeatBackward_chunk_of_ne (h : RepeatShapes grad.shape x.shape repeats k) (hne : d ≠ k) (r : ℕ) :
    RepeatShapes (grad.chunk d p r).shape (x.chunk d p r).shape repeats k ∧
      Same (repeatBackwardAlong (grad.chunk d p r) (x.chunk d p r) repeats k)
        ((repeatBackwardAlong grad x repeats k).chunk d p r) := by
  have hdim : grad.dim d = x.dim d := by
    rw [NdArray.dim, h]
    exact getD_set_of_ne hne
  refine ⟨?_, rfl, fun i _ => ?_⟩
  · show grad.shape.set d (chunkLen (grad.dim d) p r) =
      (x.shape.set d _).set k ((x.shape.set d _).getD k 1 * repeats)
    rw [getD_set_of_ne hne.symm, hdim, h, List.set_comm _ _ hne.symm]
  · show ∑ j ∈ Finset.range repeats,
        grad.get (shift (Function.update i k (i k * repeats + j)) d (chunkStart (grad.dim d) p r)) =
      ∑ j ∈ Finset.range repeats, grad.get (Function.update (shift i d (chunkStart (x.dim d) p r)) k
        (shift i d (chunkStart (x.dim d) p r) k * repeats + j))
    refine Finset.sum_congr rfl fun j _ => ?_
    rw [hdim, update_shift_of_ne hne.symm, shift_of_ne hne.symm]

theorem same_repeatBackward_chunk_self (h : RepeatShapes grad.shape x.shape repeats k) (hp : 0 < p)
    (hk : k < x.shape.length) (heven : RepeatsEvenly (x.dim k) repeats p) (r : ℕ) :
    RepeatShapes (grad.chunk k p r).shape (x.chunk k p r).shape repeats k ∧
      Same (repeatBackwardAlong (grad.chunk k p r) (x.chunk k p r) repeats k)
        ((repeatBackwardAlong grad x repeats k).chunk k p r) := by
  have hdim : grad.dim k = x.dim k * repeats := by
    rw [NdArray.dim, h]
    exact getD_set_self hk
  refine ⟨?_, rfl, fun i _ => ?_⟩
  · show grad.shape.set k (chunkLen (grad.dim k) p r) =
      (x.shape.set k _).set k ((x.shape.set k _).getD k 1 * repeats)
    rw [getD_set_self hk, hdim, chunkLen_mul hp heven, List.set_set, h, List.set_set]
  · show ∑ j ∈ Finset.range repeats,
        grad.get (shift (Function.update i k (i k * repeats + j)) k (chunkStart (grad.dim k) p r)) =
      ∑ j ∈ Finset.range repeats, grad.get (Function.update (shift i k (chunkStart (x.dim k) p r)) k
        (shift i k (chunkStart (x.dim k) p r) k * repeats + j))
    refine Finset.sum_congr rfl fun j _ => ?_
    rw [hdim, shift_update_self, update_shift_self, shift_self, chunkStart_mul hp heven, Nat.add_mul,
      Nat.add_right_comm]

omit [AddCommMonoid α] in
theorem repeatsEvenly_of_repeatShapes (h : RepeatShapes grad.shape x.shape repeats k) (hp : 0 < p)
    (hk : k < x.shape.length)
    (hparts : ∀ r < p, RepeatShapes (grad.chunk k p r).shape (x.chunk k p r).shape repeats k) :
    RepeatsEvenly (x.dim k) repeats p := by
  refine repeatsEvenly_of_chunkLen hp fun r hr => ?_
  have hdim : grad.dim k = x.dim k * repeats := by
    rw [NdArray.dim, h]
    exact getD_set_self hk
  have hlength : grad.shape.length = x.shape.length := by
    rw [h, List.length_set]
  have hsize : grad.shape.set k (chunkLen (grad.dim k) p r) =
      (x.shape.set k _).set k ((x.shape.set k _).getD k 1 * repeats) := hparts r hr
  rw [getD_set_self hk, hdim, List.set_set] at hsize
  have hsize := congrArg (·.getD k 1) hsize
  simp only [getD_set_self hk, getD_set_self (hlength ▸ hk)] at hsize
  exact hsize

/-- The gradient has the shape of the result. -/
def GradShape (grad x : List ℕ) (repeats : ℕ) : Option ℤ → Prop
  | none => grad = [x.prod * repeats]
  | some dim => RepeatShapes grad x repeats (normalizeDim dim x.length)

/-- What each rank makes of its parts is its part of the gradient. -/
def RepeatBackwardSound (p : ℕ) (grad x : NdArray α) (repeats : ℕ) (dim : Option ℤ) : Strategy → Prop
  | ([out], some g :: some a :: _) =>
    g.InRange grad.shape ∧ a.InRange x.shape ∧ out.InRange x.shape ∧
      ∀ r < p, GradShape (g.localTensor p r grad).shape (a.localTensor p r x).shape repeats dim ∧
        Same (repeatInterleaveBackward (g.localTensor p r grad) (a.localTensor p r x) repeats dim)
          (out.localTensor p r (repeatInterleaveBackward grad x repeats dim))
  | _ => False

def replicateBackward : Strategy :=
  ([.replicate], [some .replicate, some .replicate, none, none])

def shardBackward (d : ℕ) : Strategy :=
  ([.shard d], [some (.shard d), some (.shard d), none, none])

theorem repeatBackwardSound_replicate {dim : Option ℤ} (h : GradShape grad.shape x.shape repeats dim) :
    RepeatBackwardSound p grad x repeats dim replicateBackward :=
  ⟨trivial, trivial, trivial, fun _ _ => ⟨h, Same.refl _⟩⟩

theorem repeatBackwardSound_of_ne
    (h : RepeatShapes grad.shape x.shape repeats (normalizeDim dim x.shape.length)) (hd : d < x.shape.length)
    (hne : d ≠ normalizeDim dim x.shape.length) : RepeatBackwardSound p grad x repeats (some dim) (shardBackward d) := by
  have hlength : grad.shape.length = x.shape.length := by
    rw [h, List.length_set]
  have hlength' : ∀ r, (x.chunk d p r).shape.length = x.shape.length := fun r => List.length_set
  refine ⟨?_, hd, hd, fun r _ => ?_⟩
  · show d < grad.shape.length
    omega
  · unfold repeatInterleaveBackward GradShape localTensor
    rw [hlength']
    exact same_repeatBackward_chunk_of_ne h hne r

theorem repeatBackwardSound_self_iff
    (h : RepeatShapes grad.shape x.shape repeats (normalizeDim dim x.shape.length)) (hp : 0 < p)
    (hd : normalizeDim dim x.shape.length < x.shape.length) :
    RepeatBackwardSound p grad x repeats (some dim) (shardBackward (normalizeDim dim x.shape.length)) ↔
      RepeatsEvenly (x.shape.getD (normalizeDim dim x.shape.length) 1) repeats p := by
  have hlength : grad.shape.length = x.shape.length := by
    rw [h, List.length_set]
  have hlength' : ∀ d r, (x.chunk d p r).shape.length = x.shape.length := fun d r => List.length_set
  constructor
  · rintro ⟨-, -, -, hparts⟩
    refine repeatsEvenly_of_repeatShapes h hp hd fun r hr => ?_
    have hshapes := (hparts r hr).1
    unfold GradShape localTensor at hshapes
    rw [hlength'] at hshapes
    exact hshapes
  · intro heven
    refine ⟨?_, hd, hd, fun r _ => ?_⟩
    · show _ < grad.shape.length
      omega
    · unfold repeatInterleaveBackward GradShape localTensor
      rw [hlength']
      exact same_repeatBackward_chunk_self h hp hd heven r

end Backward

/-- The inputs for which the rule of the backward of `repeat_interleave` is sound. -/
def RepeatBackwardShards (p : ℕ) (shape : List ℕ) (placement : Placement) (gradShape : List ℕ)
    (gradPlacement : Placement) (repeats : ℕ) : Option ℤ → Prop
  | none => True
  | some dim => placement.CutsEvenly p shape →
      (∀ d : ℕ, gradPlacement = .shard d → dim = d → gradPlacement.CutsEvenly p gradShape) →
        RepeatsEvenly (shape.getD (normalizeDim dim shape.length) 1) repeats p

section BackwardRule

variable {placement gradPlacement : Placement} {gradShape : List ℕ}

/-- The loop over the dimensions makes the same test in every pass. -/
theorem foldlM_skip (test : Except PyError Bool) (skip : Bool) (htest : test = .ok skip) (is : List ℕ)
    (acc : List Strategy) :
    is.foldlM (fun (acc : List Strategy) i => do
      let skip ← test
      return if skip then acc else acc ++ [shardBackward i]) acc =
        .ok (acc ++ if skip then [] else is.map shardBackward) := by
  subst htest
  induction is generalizing acc with
  | nil => cases skip <;> simp [pure, Except.pure]
  | cons i is ih =>
    rw [List.foldlM_cons]
    cases skip with
    | true => exact ih acc
    | false =>
      show List.foldlM _ (acc ++ [shardBackward i]) is = _
      rw [ih]
      simp

theorem backwardRule_uneven (hshape : shape ≠ []) (hp : 0 < p) (hplacement : placement.InRange shape)
    (heven : ¬placement.CutsEvenly p shape) :
    customNpuRepeatInterleaveBackwardIntStrategy (onMesh p gradShape gradPlacement) (onMesh p shape placement)
      (some dim) = .ok [replicateBackward] := by
  have hrun : isTensorEvenlyShardable (onMesh p shape placement).shape (onMesh p shape placement) = .ok false := by
    rw [← decide_eq_false heven]
    exact isTensorEvenlyShardable_onMesh hshape hp hplacement
  unfold customNpuRepeatInterleaveBackwardIntStrategy
  simp only [hrun]
  rfl

/-- The gradient is cut along the given number into chunks that are not equal. -/
def SkipsBackward (p : ℕ) (gradShape : List ℕ) (gradPlacement : Placement) (dim : ℤ) : Prop :=
  ∃ d : ℕ, gradPlacement = .shard d ∧ dim = d ∧ ¬gradPlacement.CutsEvenly p gradShape

theorem skipsDims_onMesh (hp : 0 < p) (hgrad : gradPlacement.InRange gradShape) (hgradShape : gradShape ≠ [])
    {skip : Bool} (hskip : skip = true ↔ SkipsBackward p gradShape gradPlacement dim) :
    skipsDims (onMesh p gradShape gradPlacement) dim = .ok skip := by
  have hrun := isTensorEvenlyShardable_onMesh hgradShape hp hgrad
  cases gradPlacement with
  | shard d =>
    show (if dim = d then (isTensorEvenlyShardable gradShape (onMesh p gradShape (.shard d))).map (!·)
      else .ok false) = _
    rw [hrun]
    split_ifs with hd
    · show Except.ok (!decide _) = _
      congr 1
      rw [Bool.eq_iff_iff, hskip, Bool.not_eq_true', decide_eq_false_iff_not]
      constructor
      · intro h
        exact ⟨d, rfl, hd, h⟩
      · rintro ⟨_, _, _, h⟩
        exact h
    · congr 1
      rw [Bool.eq_iff_iff, hskip]
      refine iff_of_false Bool.false_ne_true ?_
      rintro ⟨d', hd', hdim, -⟩
      obtain rfl := Placement.shard.inj hd'
      exact hd hdim
  | replicate | partialSum | partialAvg =>
    show Except.ok false = _
    congr 1
    rw [Bool.eq_iff_iff, hskip]
    refine iff_of_false Bool.false_ne_true ?_
    rintro ⟨d', hd', -, -⟩
    cases hd'

theorem backwardRule_even (dim : ℤ) (hshape : shape ≠ []) (hp : 0 < p) (hplacement : placement.InRange shape)
    (hgrad : gradPlacement.InRange gradShape) (hgradShape : gradShape ≠ []) (heven : placement.CutsEvenly p shape)
    {skip : Bool} (hskip : skip = true ↔ SkipsBackward p gradShape gradPlacement dim) :
    customNpuRepeatInterleaveBackwardIntStrategy (onMesh p gradShape gradPlacement) (onMesh p shape placement)
      (some dim) =
        .ok (replicateBackward :: if skip then [] else (List.range shape.length).map shardBackward) := by
  have hrun : isTensorEvenlyShardable (onMesh p shape placement).shape (onMesh p shape placement) = .ok true := by
    rw [← decide_eq_true heven]
    exact isTensorEvenlyShardable_onMesh hshape hp hplacement
  have hloop := foldlM_skip _ skip (skipsDims_onMesh hp hgrad hgradShape hskip) (List.range shape.length) []
  unfold customNpuRepeatInterleaveBackwardIntStrategy
  simp only [hrun]
  exact congrArg (· >>= fun shardings => Except.ok (replicateBackward :: shardings)) hloop

/-- The rule returns, and every strategy that it returns is sound. -/
def RepeatBackwardRuleSound (α : Type*) [AddCommMonoid α] (p : ℕ) (shape : List ℕ) (placement : Placement)
    (gradShape : List ℕ) (gradPlacement : Placement) (repeats : ℕ) (dim : Option ℤ) : Prop :=
  ∃ strategies, customNpuRepeatInterleaveBackwardIntStrategy (onMesh p gradShape gradPlacement)
      (onMesh p shape placement) dim = .ok strategies ∧
    ∀ grad x : NdArray α, grad.shape = gradShape → x.shape = shape →
      ∀ s ∈ strategies, RepeatBackwardSound p grad x repeats dim s

theorem backwardRuleSound_iff_of_run [AddCommMonoid α] {dim : Option ℤ} {strategies : List Strategy}
    (hrun : customNpuRepeatInterleaveBackwardIntStrategy (onMesh p gradShape gradPlacement)
      (onMesh p shape placement) dim = .ok strategies) :
    RepeatBackwardRuleSound α p shape placement gradShape gradPlacement repeats dim ↔
      ∀ grad x : NdArray α, grad.shape = gradShape → x.shape = shape →
        ∀ s ∈ strategies, RepeatBackwardSound p grad x repeats dim s := by
  constructor
  · rintro ⟨strategies', hrun', h⟩
    rw [hrun] at hrun'
    exact Except.ok.inj hrun' ▸ h
  · intro h
    exact ⟨strategies, hrun, h⟩

theorem repeatBackwardRuleSound_iff [AddCommMonoid α] {dim : Option ℤ} (hp : 0 < p)
    (hplacement : placement.InRange shape) (hgrad : gradPlacement.InRange gradShape)
    (hdim : AdmitsDim dim shape.length) (hgradShape : GradShape gradShape shape repeats dim) :
    RepeatBackwardRuleSound α p shape placement gradShape gradPlacement repeats dim ↔
      RepeatBackwardShards p shape placement gradShape gradPlacement repeats dim := by
  rcases dim with - | dim
  · rw [backwardRuleSound_iff_of_run rfl]
    refine iff_of_true ?_ trivial
    rintro grad x rfl rfl s hs
    obtain rfl := List.mem_singleton.mp hs
    exact repeatBackwardSound_replicate hgradShape
  have hlt := normalizeDim_lt hdim
  have hlength : gradShape.length = shape.length := by
    rw [hgradShape, List.length_set]
  have hshape : shape ≠ [] := by
    rintro rfl
    exact absurd hlt (Nat.not_lt_zero _)
  have hgradNe : gradShape ≠ [] := by
    rintro rfl
    rw [← hlength] at hlt
    exact absurd hlt (Nat.not_lt_zero _)
  by_cases heven : placement.CutsEvenly p shape
  · by_cases hskip : SkipsBackward p gradShape gradPlacement dim
    · -- no dimension is cut
      have hrun := backwardRule_even dim hshape hp hplacement hgrad hgradNe heven (iff_of_true rfl hskip)
      rw [backwardRuleSound_iff_of_run hrun]
      refine iff_of_true ?_ fun _ h => ?_
      · rintro grad x rfl rfl s hs
        obtain rfl := List.mem_singleton.mp hs
        exact repeatBackwardSound_replicate hgradShape
      · obtain ⟨d, hd, hdim', hne⟩ := hskip
        exact absurd (h d hd hdim') hne
    · -- every dimension is cut
      have hrun := backwardRule_even dim hshape hp hplacement hgrad hgradNe heven
        (iff_of_false Bool.false_ne_true hskip)
      rw [backwardRuleSound_iff_of_run hrun]
      constructor
      · intro h _ _
        have hmem : shardBackward (normalizeDim dim shape.length) ∈ (List.range shape.length).map shardBackward :=
          List.mem_map_of_mem (List.mem_range.mpr hlt)
        have hsound := h ⟨gradShape, fun _ => 0⟩ ⟨shape, fun _ => 0⟩ rfl rfl _ (List.mem_cons_of_mem _ hmem)
        refine (repeatBackwardSound_self_iff ?_ hp hlt).mp hsound
        exact hgradShape
      · rintro h grad x rfl rfl s hs
        have hevenly := h heven fun d hd hdim' => by
          by_contra hne
          exact hskip ⟨d, hd, hdim', hne⟩
        rcases List.mem_cons.mp hs with rfl | hs
        · exact repeatBackwardSound_replicate hgradShape
        · obtain ⟨d, hd, rfl⟩ := List.mem_map.mp hs
          by_cases hne : d = normalizeDim dim x.shape.length
          · subst hne
            exact (repeatBackwardSound_self_iff hgradShape hp hlt).mpr hevenly
          · exact repeatBackwardSound_of_ne hgradShape (List.mem_range.mp hd) hne
  · rw [backwardRuleSound_iff_of_run (backwardRule_uneven hshape hp hplacement heven)]
    refine iff_of_true ?_ fun h => absurd h heven
    rintro grad x rfl rfl s hs
    obtain rfl := List.mem_singleton.mp hs
    exact repeatBackwardSound_replicate hgradShape

end BackwardRule

/-! ### The backward of `gather` -/

section Gather

variable {gradShape inputShape indexShape : List ℕ}

/-- What each rank makes of its parts is its part of the gradient. -/
def GatherSound [AddCommMonoid α] (p : ℕ) (grad : NdArray α) (inputShape : List ℕ) (dim : ℤ) (index : NdArray ℕ) :
    Strategy → Prop
  | ([out], [some g, none, none, some a, none]) =>
    g.InRange grad.shape ∧ a.InRange index.shape ∧ out.InRange inputShape ∧
      ∀ r < p, Same (gatherBackward (g.localTensor p r grad) inputShape dim (a.localTensor p r index))
        (out.localTensor p r (gatherBackward grad inputShape dim index))
  | _ => False

/-- Every rank is given the shape of the whole input, which is that of its part only on one rank, or if there is
nothing to cut. -/
theorem gatherSound_shard_iff [AddCommMonoid α] {grad : NdArray α} {index : NdArray ℕ} (hp : 0 < p)
    (hinput : d < inputShape.length) (hgrad : d < grad.shape.length) (hindex : d < index.shape.length) :
    GatherSound p grad inputShape dim index ([.shard d], [some (.shard d), none, none, some (.shard d), none]) ↔
      p = 1 ∨ inputShape.getD d 1 = 0 := by
  constructor
  · rintro ⟨-, -, -, h⟩
    have hlen : ∀ r ∈ Finset.range p, chunkLen (inputShape.getD d 1) p r = inputShape.getD d 1 := by
      intro r hr
      have hshape : inputShape = inputShape.set d (chunkLen (inputShape.getD d 1) p r) :=
        (h r (Finset.mem_range.mp hr)).1
      have hsize := congrArg (·.getD d 1) hshape
      simp only [getD_set_self hinput] at hsize
      exact hsize.symm
    have hsum := sum_chunkLen (n := inputShape.getD d 1) (p := p) (r := p)
    rw [chunkStart_self hp, Finset.sum_const_nat hlen, Finset.card_range] at hsum
    rcases Nat.eq_zero_or_pos (inputShape.getD d 1) with hzero | hpos
    · exact Or.inr hzero
    · refine Or.inl (Nat.eq_of_mul_eq_mul_right hpos ?_)
      rw [hsum, Nat.one_mul]
  · intro h
    refine ⟨hgrad, hindex, hinput, fun r hr => ?_⟩
    rcases h with rfl | hzero
    · obtain rfl := Nat.lt_one_iff.mp hr
      rw [localTensor_one, localTensor_one, localTensor_one]
      exact Same.refl _
    · -- nothing to cut
      have hshape : ((gatherBackward grad inputShape dim index).chunk d p r).shape = inputShape :=
        shape_chunk_of_dim_eq_zero hzero
      refine ⟨hshape.symm, fun i hi => absurd hi (not_within_of_zero hzero)⟩

/-- The inputs for which the rule of the backward of `gather` is sound. -/
def GatherShards (p : ℕ) (gradShape inputShape : List ℕ) (dim : ℤ) (indexShape : List ℕ) : Prop :=
  inputShape.length = indexShape.length → indexShape.length = gradShape.length →
    ∀ d < indexShape.length, d ≠ normalizeDim dim inputShape.length →
      inputShape.getD d 1 = indexShape.getD d 1 → indexShape.getD d 1 = gradShape.getD d 1 →
        p = 1 ∨ inputShape.getD d 1 = 0

def GatherRuleSound (α : Type*) [AddCommMonoid α] (p : ℕ) (gradShape inputShape : List ℕ) (dim : ℤ)
    (indexShape : List ℕ) : Prop :=
  ∀ (grad : NdArray α) (index : NdArray ℕ), grad.shape = gradShape → index.shape = indexShape →
    ∀ s ∈ customNpuGatherBackwardStrategy gradShape inputShape dim indexShape,
      GatherSound p grad inputShape dim index s

theorem gatherRuleSound_iff [AddCommMonoid α] (hp : 0 < p) :
    GatherRuleSound α p gradShape inputShape dim indexShape ↔ GatherShards p gradShape inputShape dim indexShape := by
  constructor
  · intro h hlength₁ hlength₂ d hd hne hsize₁ hsize₂
    refine (gatherSound_shard_iff (α := α) hp (by omega) ?_ ?_).mp
      (h ⟨gradShape, fun _ => 0⟩ ⟨indexShape, fun _ => 0⟩ rfl rfl _ ?_)
    · show d < gradShape.length
      omega
    · exact hd
    · unfold customNpuGatherBackwardStrategy
      rw [if_pos ⟨hlength₁, hlength₂⟩]
      refine List.mem_cons_of_mem _ (List.mem_flatMap.mpr ⟨d, List.mem_range.mpr hd, ?_⟩)
      rw [mem_appendIf, decide_eq_true_eq]
      exact ⟨⟨hne, hsize₁, hsize₂⟩, rfl⟩
  · rintro h grad index rfl rfl s hs
    unfold customNpuGatherBackwardStrategy at hs
    rcases List.mem_cons.mp hs with rfl | hs
    · exact ⟨trivial, trivial, trivial, fun _ _ => Same.refl _⟩
    · split_ifs at hs with hlength
      · obtain ⟨d, hd, hs⟩ := List.mem_flatMap.mp hs
        rw [mem_appendIf, decide_eq_true_eq] at hs
        obtain ⟨⟨hne, hsize₁, hsize₂⟩, rfl⟩ := hs
        have hd : d < index.shape.length := List.mem_range.mp hd
        exact (gatherSound_shard_iff hp (by omega) (by omega) hd).mpr
          (h hlength.1 hlength.2 d hd hne hsize₁ hsize₂)
      · exact absurd hs List.not_mem_nil

end Gather

/-! ### The three rules -/

/-- Each of the three rules returns sound strategies exactly for its own inputs. -/
theorem repeatGather_sound_iff [AddCommMonoid α] (hp : 0 < p) :
    (∀ shape placement repeats dim, placement.InRange shape → AdmitsDim dim shape.length →
      (RepeatRuleSound α p shape placement repeats dim ↔ RepeatShards p shape placement repeats dim)) ∧
    (∀ shape placement gradShape gradPlacement repeats dim, placement.InRange shape →
      gradPlacement.InRange gradShape → AdmitsDim dim shape.length → GradShape gradShape shape repeats dim →
        (RepeatBackwardRuleSound α p shape placement gradShape gradPlacement repeats dim ↔
          RepeatBackwardShards p shape placement gradShape gradPlacement repeats dim)) ∧
    ∀ gradShape inputShape dim indexShape,
      GatherRuleSound α p gradShape inputShape dim indexShape ↔ GatherShards p gradShape inputShape dim indexShape := by
  refine ⟨fun shape placement repeats dim hplacement hdim => ?_, ?_, fun _ _ _ _ => gatherRuleSound_iff hp⟩
  · let _ : Inhabited α := ⟨0⟩
    rcases dim with - | dim
    · exact repeatRuleSound_none_iff hp hplacement
    · exact repeatRuleSound_some_iff hp hplacement hdim
  · intro shape placement gradShape gradPlacement repeats dim hplacement hgrad hdim hgradShape
    exact repeatBackwardRuleSound_iff hp hplacement hgrad hdim hgradShape

/-- An even tensor repeated along its second dimension, its gradient, and the gradient of a gather along the only
dimension: all sound on two ranks. -/
theorem repeatGather_sound_iff_even :
    RepeatRuleSound ℤ 2 [8, 8] (.shard 1) 3 (some 1) ∧
      RepeatBackwardRuleSound ℤ 2 [8, 8] (.shard 1) [8, 24] (.shard 1) 3 (some 1) ∧
        GatherRuleSound ℤ 2 [4] [6] 0 [4] := by
  obtain ⟨hrepeat, hbackward, hgather⟩ := repeatGather_sound_iff (α := ℤ) (p := 2) (by decide)
  have hdim : AdmitsDim (some 1) [8, 8].length := by
    rintro d ⟨⟩
    decide
  refine ⟨(hrepeat [8, 8] (.shard 1) 3 (some 1) (by decide) hdim).mpr ?_,
    (hbackward [8, 8] (.shard 1) [8, 24] (.shard 1) 3 (some 1) (by decide) (by decide) hdim rfl).mpr ?_,
    (hgather [4] [6] 0 [4]).mpr ?_⟩
  · exact ⟨fun _ => by decide, fun _ => by decide⟩
  · exact fun _ _ => by decide
  · intro _ _ d hd hne
    exact absurd (Nat.lt_one_iff.mp hd) hne

/-- Five rows cut over two ranks and repeated: the rule fails.  Not cut: the rule proposes to cut them, for the
gradient too.  A gather of two rows of a matrix: the rule proposes to cut the rows. -/
theorem not_repeatGather_sound : ¬RepeatRuleSound ℤ 2 [5, 5] (.shard 0) 3 (some 0) ∧
    ¬RepeatRuleSound ℤ 2 [5, 5] .replicate 3 (some 0) ∧
      ¬RepeatBackwardRuleSound ℤ 2 [5, 5] .replicate [15, 5] .replicate 3 (some 0) ∧
        ¬GatherRuleSound ℤ 2 [4, 3] [4, 3] 1 [4, 3] := by
  have hdim : AdmitsDim (some 0) [5, 5].length := by
    rintro d ⟨⟩
    decide
  refine ⟨?_, ?_, ?_, ?_⟩
  · rw [repeatRuleSound_some_iff (by decide) (by decide) hdim]
    exact fun h => h.2 (by decide) rfl
  · rw [repeatRuleSound_some_iff (by decide) (by decide) hdim]
    exact fun h => absurd (h.1 (Or.inl trivial)) (by decide)
  · have hgrad : GradShape [15, 5] [5, 5] 3 (some 0) := rfl
    rw [repeatBackwardRuleSound_iff (by decide) (by decide) (by decide) hdim hgrad]
    exact fun h => absurd (h trivial fun d hd => by cases hd) (by decide)
  · rw [gatherRuleSound_iff (by decide)]
    exact fun h => absurd (h rfl rfl 0 (by decide) (by decide) rfl rfl) (by decide)

end TorchNpu.DTensor
