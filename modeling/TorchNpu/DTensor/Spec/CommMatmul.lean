/-
  How the recorded shapes depend on the calls before.

  The specs of a schema are changed once in each of its calls, so that the rows are divided by the world size (or
  multiplied with it) once more each time.  Only the first change is the correction of the propagated shape.
-/
import TorchNpu.DTensor.CommMatmul
import Mathlib.Data.List.Induction
import Mathlib.Tactic.Ring
import Mathlib.Algebra.Order.Ring.Nat

namespace TorchNpu.DTensor

variable {A : Type} [DecidableEq A] {metaShapes : CommMmSchema A → List (List ℕ)} {s : CommMmSchema A}
  {before : List (CommMmCall A)} {call : CommMmCall A}

/-- What the operators say of the shapes of their results, for inputs of the global shapes: the ranks' rows together, or
    one rank's share of them. -/
structure MetaShapes (metaShapes : CommMmSchema A → List (List ℕ)) : Prop where
  allGather {s : CommMmSchema A} (h : s.op = .allGatherBaseMm) : metaShapes s =
    [[s.m * s.worldSize, s.n], if s.gatherOutput then [s.m * s.worldSize, s.k] else [0]]
  reduceScatter {s : CommMmSchema A} (h : s.op = .mmReduceScatterBase) : metaShapes s = [[s.m / s.worldSize, s.n]]

/-- How often the specs of a schema have been changed. -/
def changes (before : List (CommMmCall A)) (s : CommMmSchema A) : ℕ :=
  (before.map CommMmCall.schema).count s

/-- The shapes after the specs have been changed `j` times. -/
def changedShapes (metaShapes : CommMmSchema A → List (List ℕ)) (s : CommMmSchema A) (j : ℕ) : List (List ℕ) :=
  (List.map s.getOutputMeta)^[j] (metaShapes s)

theorem changes_concat (before : List (CommMmCall A)) (call : CommMmCall A) (s : CommMmSchema A) :
    changes (before ++ [call]) s = changes before s + if call.schema = s then 1 else 0 := by
  simp [changes, List.count_singleton]

omit [DecidableEq A] in
theorem changedShapes_succ (s : CommMmSchema A) (j : ℕ) :
    changedShapes metaShapes s (j + 1) = (changedShapes metaShapes s j).map s.getOutputMeta :=
  Function.iterate_succ_apply' _ j _

/-- The cache has the changed shapes of the schemas that have been called. -/
def Caches (metaShapes : CommMmSchema A → List (List ℕ)) (before : List (CommMmCall A)) (cache : ShardingCache A) :
    Prop :=
  ∀ s, cache s =
    if s.supported ∧ 0 < changes before s then some (changedShapes metaShapes s (changes before s)) else none

/-- The propagated shapes are those that have been changed 0 times. -/
theorem Caches.propagate_eq {cache : ShardingCache A} (h : Caches metaShapes before cache) (s : CommMmSchema A) :
    propagate metaShapes cache s =
      if s.supported then some (changedShapes metaShapes s (changes before s)) else none := by
  unfold propagate
  rw [h s]
  by_cases hsupported : s.supported
  · rcases Nat.eq_zero_or_pos (changes before s) with h0 | hpos
    · simp only [hsupported, h0, changedShapes, Nat.lt_irrefl, and_false, if_false, if_true, Function.iterate_zero, id]
    · simp only [hsupported, hpos, and_self, if_true]
  · simp only [hsupported, Bool.false_eq_true, false_and, if_false]

/-- A call changes the specs of its schema once more, and records them. -/
theorem Caches.handler_eq {cache : ShardingCache A} (h : Caches metaShapes before cache) (call : CommMmCall A) :
    npuCommMmFusionHandler metaShapes cache call =
      if call.schema.supported then
        (if call.returns then some (changedShapes metaShapes call.schema (changes before call.schema + 1)) else none,
          Function.update cache call.schema
            (some (changedShapes metaShapes call.schema (changes before call.schema + 1))))
      else (none, cache) := by
  unfold npuCommMmFusionHandler
  rw [h.propagate_eq]
  split_ifs <;> simp [changedShapes_succ, *]

theorem caches_cacheAfter (before : List (CommMmCall A)) : Caches metaShapes before (cacheAfter metaShapes before) := by
  unfold cacheAfter
  induction before using List.reverseRecOn with
  | nil =>
    intro s
    simp [changes]
  | append_singleton before call ih =>
    intro s
    rw [List.foldl_append, List.foldl_cons, List.foldl_nil, changes_concat, ih.handler_eq]
    by_cases hsupported : call.schema.supported
    · rw [if_pos hsupported]
      by_cases hs : call.schema = s
      · subst hs
        refine (Function.update_self ..).trans ?_
        rw [if_pos rfl, if_pos ⟨hsupported, Nat.succ_pos _⟩]
      · refine ((Function.update_of_ne (Ne.symm hs) ..).trans (ih s)).trans ?_
        rw [if_neg hs, Nat.add_zero]
    · rw [if_neg hsupported]
      refine (ih s).trans ?_
      by_cases hs : call.schema = s
      · subst hs
        rw [if_neg fun h => hsupported h.1, if_neg fun h => hsupported h.1]
      · rw [if_neg hs, Nat.add_zero]

/-- A call records the shapes that have been changed once more. -/
theorem recorded_eq (before : List (CommMmCall A)) (call : CommMmCall A) :
    recorded metaShapes before call = if call.schema.supported ∧ call.returns then
      some (changedShapes metaShapes call.schema (changes before call.schema + 1)) else none := by
  unfold recorded
  rw [(caches_cacheAfter before).handler_eq]
  split_ifs <;> simp_all

/-! ### The rows -/

omit [DecidableEq A] in
/-- After `j` changes beyond the correction. -/
theorem changedShapes_allGather (hmeta : MetaShapes metaShapes) (hop : s.op = .allGatherBaseMm)
    (hpos : 0 < s.worldSize) (j : ℕ) :
    changedShapes metaShapes s (j + 1) =
      [[s.m / s.worldSize ^ j, s.n], if s.gatherOutput then [s.m / s.worldSize ^ j, s.k] else [0]] := by
  have hne : s.worldSize ≠ 0 := by omega
  induction j with
  | zero =>
    rw [changedShapes_succ]
    show (metaShapes s).map _ = _
    rw [hmeta.allGather hop]
    split_ifs <;> simp [CommMmSchema.getOutputMeta, hop, hne, Nat.mul_div_cancel _ hpos]
  | succ j ih =>
    rw [changedShapes_succ, ih]
    split_ifs <;> simp [CommMmSchema.getOutputMeta, hop, hne, Nat.pow_succ, Nat.div_div_eq_div_mul]

omit [DecidableEq A] in
theorem changedShapes_reduceScatter (hmeta : MetaShapes metaShapes) (hop : s.op = .mmReduceScatterBase)
    (hpos : 0 < s.worldSize) (j : ℕ) :
    changedShapes metaShapes s (j + 1) = [[s.m / s.worldSize * s.worldSize ^ (j + 1), s.n]] := by
  have hne : s.worldSize ≠ 0 := by omega
  induction j with
  | zero =>
    rw [changedShapes_succ]
    show (metaShapes s).map _ = _
    rw [hmeta.reduceScatter hop]
    simp [CommMmSchema.getOutputMeta, hop, hne]
  | succ j ih =>
    rw [changedShapes_succ, ih]
    simp [CommMmSchema.getOutputMeta, hop, hne, Nat.pow_succ, Nat.mul_assoc]

theorem div_pow_eq_iff {m w j : ℕ} (hj : 0 < j) : m / w ^ j = m ↔ w = 1 ∨ m = 0 := by
  constructor
  · intro h
    by_contra! hnot
    have hm : 0 < m := by omega
    rcases Nat.eq_zero_or_pos w with rfl | hw
    · rw [Nat.zero_pow hj, Nat.div_zero] at h
      omega
    · exact absurd h (Nat.div_lt_self hm (Nat.one_lt_pow (by omega) (by omega))).ne
  · rintro (rfl | rfl)
    · rw [Nat.one_pow, Nat.div_one]
    · exact Nat.zero_div _

theorem mul_pow_eq_iff {m w j : ℕ} (hj : 0 < j) (hw : 0 < w) : m * w ^ j = m ↔ w = 1 ∨ m = 0 := by
  constructor
  · intro h
    by_contra! hnot
    have hm : 0 < m := by omega
    have hlt : m * 1 < m * w ^ j := Nat.mul_lt_mul_of_pos_left (Nat.one_lt_pow (by omega) (by omega)) hm
    omega
  · rintro (rfl | rfl)
    · rw [Nat.one_pow, Nat.mul_one]
    · exact Nat.zero_mul _

omit [DecidableEq A] in
/-- The shapes are those of the full results exactly if there was no change before, or changes make no difference. -/
theorem changedShapes_eq_fullShapes_iff (hmeta : MetaShapes metaShapes) (hpos : 0 < s.worldSize)
    (hsplit : s.op = .mmReduceScatterBase → s.worldSize ∣ s.m) (j : ℕ) :
    changedShapes metaShapes s (j + 1) = s.fullShapes ↔ j = 0 ∨ s.worldSize = 1 ∨ s.m = 0 := by
  have hrows : (j = 0 ∨ s.worldSize = 1 ∨ s.m = 0) ↔ s.m / s.worldSize ^ j = s.m := by
    rcases Nat.eq_zero_or_pos j with rfl | hj
    · simp
    · rw [div_pow_eq_iff hj]
      simp [hj.ne']
  have hrows' : (j = 0 ∨ s.worldSize = 1 ∨ s.m = 0) ↔ s.m * s.worldSize ^ j = s.m := by
    rcases Nat.eq_zero_or_pos j with rfl | hj
    · simp
    · rw [mul_pow_eq_iff hj hpos]
      simp [hj.ne']
  rcases hop : s.op with _ | _
  · rw [changedShapes_allGather hmeta hop hpos, hrows, CommMmSchema.fullShapes, hop]
    constructor
    · intro h
      exact (List.cons.inj (List.cons.inj h).1).1
    · intro h
      rw [h]
  · rw [changedShapes_reduceScatter hmeta hop hpos, hrows', CommMmSchema.fullShapes, hop, Nat.pow_succ',
      ← Nat.mul_assoc, Nat.div_mul_cancel (hsplit hop)]
    constructor
    · intro h
      exact (List.cons.inj (List.cons.inj h).1).1
    · intro h
      rw [h]

/-! ### Sequences of calls -/

/-- Every call records what it records as the first one, and a call that returns the shapes of the full results. -/
def HistoryFree (metaShapes : CommMmSchema A → List (List ℕ)) (calls : List (CommMmCall A)) : Prop :=
  ∀ before call after, calls = before ++ call :: after →
    recorded metaShapes before call = recorded metaShapes [] call ∧
      ∀ shapes ∈ recorded metaShapes before call, shapes = call.schema.fullShapes

/-- A call that returns is the first one of its schema, or its world size is 1, or there are no rows. -/
def Fresh (calls : List (CommMmCall A)) : Prop :=
  ∀ before call after, calls = before ++ call :: after → call.schema.supported → call.returns →
    (∀ earlier ∈ before, earlier.schema ≠ call.schema) ∨ call.schema.worldSize = 1 ∨ call.schema.m = 0

theorem changes_eq_zero_iff : changes before s = 0 ↔ ∀ earlier ∈ before, earlier.schema ≠ s := by
  simp [changes, List.count_eq_zero]

/-- The shapes that the operators give. -/
def exampleMeta (s : CommMmSchema Unit) : List (List ℕ) :=
  match s.op with
  | .allGatherBaseMm =>
    [[s.m * s.worldSize, s.n], if s.gatherOutput then [s.m * s.worldSize, s.k] else [0]]
  | .mmReduceScatterBase => [[s.m / s.worldSize, s.n]]

theorem metaShapes_exampleMeta : MetaShapes exampleMeta where
  allGather h := by rw [exampleMeta, h]
  reduceScatter h := by rw [exampleMeta, h]

/-- Two ranks gather 8 rows. -/
def gatherCall (returns : Bool) : CommMmCall Unit :=
  ⟨{ op := .allGatherBaseMm, m := 8, k := 4, n := 6, worldSize := 2, rest := () }, returns⟩

end TorchNpu.DTensor
