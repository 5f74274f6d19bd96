/-
  What the sharding rules of the operators work with.

  A rule lists strategies; a strategy gives the placements of the results and those of the arguments, `none`
  for an argument that is not a tensor.  `isTensorEvenlyShardable` tells whether the chunks that a tensor is
  cut into now are equal.
-/
import TorchNpu.Lib.Placement

namespace TorchNpu.DTensor

/-- The placements of the results, and those of the arguments. -/
abbrev Strategy := List Placement × List (Option Placement)

/-- `acceptable_shardings.append` under a condition. -/
def appendIf (c : Bool) (s : Strategy) : List Strategy :=
  if c then [s] else []

theorem mem_appendIf {c : Bool} {s t : Strategy} : s ∈ appendIf c t ↔ c = true ∧ s = t := by
  unfold appendIf
  split_ifs with hc
  · rw [List.mem_singleton]
    exact ⟨fun h => ⟨hc, h⟩, fun h => h.2⟩
  · exact ⟨fun h => absurd h List.not_mem_nil, fun h => absurd h.1 hc⟩

inductive PyError
  | valueError (text : String)
  | unboundLocalError (name : String)
  | assertionError (text : String)
  | indexError (text : String)
  | notImplementedError (text : String)

/-- A loop that appends the variable `name` in every pass and assigns it only in some, to what `assign` gives;
`last` is the value that it has before the loop. -/
def appendInLoop (name : String) (assign : ℕ → Option Strategy) :
    List ℕ → Option Strategy → Except PyError (List Strategy)
  | [], _ => .ok []
  | i :: is, last =>
    match (assign i).or last with
    | none => .error (.unboundLocalError name)
    | some strategy => (appendInLoop name assign is (some strategy)).map (strategy :: ·)

section AppendInLoop

variable {name : String} {assign : ℕ → Option Strategy}

/-- Once the variable has a value, the loop lists that value, those assigned later, and nothing else. -/
theorem appendInLoop_some (name : String) (assign : ℕ → Option Strategy) (is : List ℕ) (last : Strategy) :
    ∃ shardings, appendInLoop name assign is (some last) = .ok shardings ∧
      (∀ s ∈ shardings, s = last ∨ ∃ i ∈ is, assign i = some s) ∧
        ∀ i ∈ is, ∀ s, assign i = some s → s ∈ shardings := by
  induction is generalizing last with
  | nil => exact ⟨[], rfl, fun s h => absurd h List.not_mem_nil, fun i h => absurd h List.not_mem_nil⟩
  | cons i is ih =>
    cases hi : assign i with
    | none =>
      -- the value of an earlier pass is listed again
      obtain ⟨shardings, hrun, honly, hall⟩ := ih last
      refine ⟨last :: shardings, ?_, fun s hs => ?_, fun j hj s hs => ?_⟩
      · rw [appendInLoop, hi, Option.none_or]
        simp only [hrun, Except.map]
      · rcases List.mem_cons.mp hs with rfl | hs
        · exact Or.inl rfl
        · rcases honly s hs with rfl | ⟨j, hj, hs⟩
          · exact Or.inl rfl
          · exact Or.inr ⟨j, List.mem_cons_of_mem _ hj, hs⟩
      · rcases List.mem_cons.mp hj with rfl | hj
        · rw [hi] at hs
          cases hs
        · exact List.mem_cons_of_mem _ (hall j hj s hs)
    | some strategy =>
      obtain ⟨shardings, hrun, honly, hall⟩ := ih strategy
      refine ⟨strategy :: shardings, ?_, fun s hs => ?_, fun j hj s hs => ?_⟩
      · rw [appendInLoop, hi, Option.some_or]
        simp only [hrun, Except.map]
      · rcases List.mem_cons.mp hs with rfl | hs
        · exact Or.inr ⟨i, List.mem_cons_self, hi⟩
        · rcases honly s hs with rfl | ⟨j, hj, hs⟩
          · exact Or.inr ⟨i, List.mem_cons_self, hi⟩
          · exact Or.inr ⟨j, List.mem_cons_of_mem _ hj, hs⟩
      · rcases List.mem_cons.mp hj with rfl | hj
        · rw [hi] at hs
          exact Option.some.inj hs ▸ List.mem_cons_self
        · exact List.mem_cons_of_mem _ (hall j hj s hs)

theorem range_pos_eq_cons {n : ℕ} (h : 0 < n) : List.range n = 0 :: (List.range (n - 1)).map Nat.succ := by
  obtain ⟨m, rfl⟩ := Nat.exists_eq_succ_of_ne_zero h.ne'
  exact List.range_succ_eq_map

/-- The first pass has nothing to append if it assigns nothing. -/
theorem appendInLoop_range_none {n : ℕ} (hn : 0 < n) (h : assign 0 = none) :
    appendInLoop name assign (List.range n) none = .error (.unboundLocalError name) := by
  rw [range_pos_eq_cons hn, appendInLoop, h]
  rfl

/-- If the first pass assigns the variable, the loop lists what the passes assign. -/
theorem appendInLoop_range (name : String) (n : ℕ) (h : 0 < n → assign 0 ≠ none) :
    ∃ shardings, appendInLoop name assign (List.range n) none = .ok shardings ∧
      ∀ s, s ∈ shardings ↔ ∃ i < n, assign i = some s := by
  rcases Nat.eq_zero_or_pos n with rfl | hpos
  · exact ⟨[], rfl, fun s => ⟨fun h => absurd h List.not_mem_nil, fun ⟨i, hi, _⟩ => absurd hi (Nat.not_lt_zero i)⟩⟩
  obtain ⟨first, hfirst⟩ := Option.ne_none_iff_exists'.mp (h hpos)
  obtain ⟨shardings, hrun, honly, hall⟩ :=
    appendInLoop_some name assign ((List.range (n - 1)).map Nat.succ) first
  have hrange := range_pos_eq_cons hpos
  refine ⟨first :: shardings, ?_, fun s => ⟨fun hs => ?_, ?_⟩⟩
  · rw [hrange, appendInLoop, hfirst, Option.some_or]
    simp only [hrun, Except.map]
  · rcases List.mem_cons.mp hs with rfl | hs
    · exact ⟨0, hpos, hfirst⟩
    · rcases honly s hs with rfl | ⟨i, hi, hs⟩
      · exact ⟨0, hpos, hfirst⟩
      · have hi : i ∈ List.range n := hrange ▸ List.mem_cons_of_mem _ hi
        exact ⟨i, List.mem_range.mp hi, hs⟩
  · rintro ⟨i, hi, hs⟩
    have hi : i ∈ List.range n := List.mem_range.mpr hi
    rw [hrange] at hi
    rcases List.mem_cons.mp hi with rfl | hi
    · rw [hfirst] at hs
      exact Option.some.inj hs ▸ List.mem_cons_self
    · exact List.mem_cons_of_mem _ (hall i hi s hs)

end AppendInLoop

structure DTensorSpec where
  /-- The number of ranks in each dimension of the mesh. -/
  mesh : List ℕ
  shape : List ℕ
  /-- One for each dimension of the mesh. -/
  placements : List Placement

namespace DTensorSpec

def ndim (spec : DTensorSpec) : ℕ :=
  spec.shape.length

/-- The number of shards in each tensor dimension. -/
def shardsMap (spec : DTensorSpec) (rank : ℕ) : List ℕ :=
  (spec.placements.zip spec.mesh).foldl
    (fun shards q =>
      match q.1 with
      | .shard d => shards.modify d (· * q.2)
      | _ => shards)
    (List.replicate rank 1)

end DTensorSpec

def isTensorEvenlyShardable (shape : List ℕ) (spec : DTensorSpec) : Except PyError Bool :=
  if shape.length = 0 then
    .error (.valueError "'shape' must have at least 1 dimension (empty shape is invalid).")
  else if spec.placements.length = 0 then
    .error (.valueError "'spec.placements' cannot be empty (must have at least one placement).")
  else
    .ok ((List.range shape.length).all fun i =>
      !(1 < (spec.shardsMap shape.length).getD i 1 &&
        shape.getD i 1 % (spec.shardsMap shape.length).getD i 1 != 0))

/-- A tensor of this shape is given to `p` ranks under a placement only if the dimension that is cut exists and has
a place for every rank. -/
def Shardable (p : ℕ) (shape : List ℕ) : Placement → Prop
  | .shard d => d < shape.length ∧ (p = 1 ∨ p ≤ shape.getD d 1)
  | _ => True

instance (p : ℕ) (shape : List ℕ) (a : Placement) : Decidable (Shardable p shape a) :=
  match a with
  | .shard d => inferInstanceAs (Decidable (d < shape.length ∧ (p = 1 ∨ p ≤ shape.getD d 1)))
  | .replicate | .partialSum | .partialAvg => inferInstanceAs (Decidable True)

/-- From the number of results, the shapes of the tensor arguments, and entries with the placements of the results
and then those of the arguments. -/
abbrev Expansion := ℕ → List (List ℕ) → List (List Placement) → Except PyError (List Strategy)

/-- What the rules rely on of `expand_to_full_mesh_op_strategy` on a mesh of `p` ranks. -/
structure ExpandsToFullMesh (p : ℕ) (expand : Expansion) : Prop where
  /-- Those entries are listed whose arguments are shardable. -/
  lists : ∀ inputIndex args single, (∀ placements ∈ single, placements.length = inputIndex + args.length) →
    ∃ strategies, expand inputIndex args single = .ok strategies ∧
      ∀ s, s ∈ strategies ↔ ∃ placements ∈ single,
        (∀ q ∈ args.zip (placements.drop inputIndex), Shardable p q.1 q.2) ∧
          (placements.take inputIndex, (placements.drop inputIndex).map some) = s
  /-- An entry with a placement too few or too many is an error. -/
  raises : ∀ inputIndex args single, (∃ placements ∈ single, placements.length ≠ inputIndex + args.length) →
    ∀ strategies, expand inputIndex args single ≠ .ok strategies

/-! ### One mesh dimension -/

/-- A tensor on a mesh of one dimension. -/
def onMesh (p : ℕ) (shape : List ℕ) (placement : Placement) : DTensorSpec where
  mesh := [p]
  shape := shape
  placements := [placement]

theorem shardsMap_onMesh {p d i : ℕ} {shape : List ℕ} (hd : d < shape.length) :
    ((onMesh p shape (.shard d)).shardsMap shape.length).getD i 1 = if i = d then p else 1 := by
  show ((List.replicate shape.length 1).modify d (· * p)).getD i 1 = _
  rw [List.getD_eq_getElem?_getD, List.getElem?_modify]
  split_ifs with hid hdi hdi
  · subst hid
    rw [List.getElem?_replicate, if_pos hd]
    exact Nat.one_mul p
  · exact absurd hid.symm hdi
  · exact absurd hdi.symm hid
  · rw [List.getElem?_replicate]
    split_ifs <;> rfl

theorem isTensorEvenlyShardable_onMesh {p : ℕ} {shape : List ℕ} {placement : Placement} (hshape : shape ≠ [])
    (hp : 0 < p) (hplacement : placement.InRange shape) :
    isTensorEvenlyShardable shape (onMesh p shape placement) =
      .ok (decide (placement.CutsEvenly p shape)) := by
  unfold isTensorEvenlyShardable
  rw [if_neg fun h => hshape (List.length_eq_zero_iff.mp h),
    if_neg (show ¬ (onMesh p shape placement).placements.length = 0 from Nat.one_ne_zero)]
  congr 1
  rw [Bool.eq_iff_iff, List.all_eq_true, decide_eq_true_eq]
  simp only [List.mem_range, Bool.not_eq_true', Bool.and_eq_false_iff, decide_eq_false_iff_not, bne_eq_false_iff_eq]
  cases placement with
  | shard d =>
    have hd : d < shape.length := hplacement
    show _ ↔ p ∣ shape.getD d 1
    simp only [shardsMap_onMesh hd]
    constructor
    · intro h
      have hmod := h d hd
      rw [if_pos rfl] at hmod
      rcases hmod with hle | hzero
      · rw [show p = 1 by omega]
        exact one_dvd _
      · exact Nat.dvd_of_mod_eq_zero hzero
    · intro h i hi
      split_ifs with hid
      · subst hid
        exact Or.inr (Nat.mod_eq_zero_of_dvd h)
      · exact Or.inl (lt_irrefl 1)
  | replicate | partialSum | partialAvg =>
    show _ ↔ True
    refine iff_of_true (fun i hi => Or.inl ?_) trivial
    show ¬ 1 < (List.replicate shape.length 1).getD i 1
    rw [List.getD_eq_getElem _ _ (by rw [List.length_replicate]; exact hi), List.getElem_replicate]
    exact lt_irrefl 1

end TorchNpu.DTensor
