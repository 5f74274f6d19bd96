/-
  The rounds of the checksum, where no rank is too fast.

  `counter` and `counter2` are a barrier that is used again in every round, and rank 0 resets them by
  subtraction.  A rank that looks at `counter` again before rank 0 has reset it passes at once, and a rank that
  has not yet seen that `counter2` is full before rank 0 resets it never sees it.  Where neither happens, the
  phases of two ranks are never far apart: `Paced` is the invariant, and it makes the sums right.
-/
import TorchNpu.SilentCheck.ChecksumState
import TorchNpu.Lib.AListSum
import Mathlib.Algebra.BigOperators.Ring.Finset
import Mathlib.Algebra.Order.BigOperators.Group.Finset
import Mathlib.Data.Fintype.BigOperators
import Mathlib.Tactic.Linarith
import Mathlib.Tactic.Ring

namespace TorchNpu.SilentCheck

/-- The place of a phase in the loop. -/
def ChecksumPhase.place : ChecksumPhase → ℕ
  | .start => 0
  | .addState => 1
  | .subCounter2 => 2
  | .addCounter => 3
  | .waitCounter => 4
  | .getState => 5
  | .addCounter2 => 6
  | .waitCounter2 => 7
  | .subState => 8
  | .subCounter => 9

namespace ChecksumRank

variable (r : ChecksumRank)

/-- How many times the rank has come to a place. -/
def past (place : ℕ) : ℕ :=
  r.round + if place ≤ r.phase.place then 1 else 0

/-- How far the rank has come. -/
def time : ℕ :=
  10 * r.round + r.phase.place

variable {r}

theorem place_le (p : ChecksumPhase) : p.place ≤ 9 := by
  cases p <;> decide

/-- The two ways to say how far a rank has come. -/
theorem lt_past_iff {k place : ℕ} (hplace : place ≤ 10) : k < r.past place ↔ 10 * k + place ≤ r.time := by
  have hle := place_le r.phase
  rw [past, time]
  split_ifs <;> omega

end ChecksumRank

namespace ChecksumRounds

variable {worldSize : ℕ} [NeZero worldSize] {s s' : ChecksumRounds worldSize} {rank : Fin worldSize}

/-! ### What is claimed -/

/-- The rounds that a rank has entered: it has added its value. -/
def entered (s : ChecksumRounds worldSize) (rank : Fin worldSize) : ℕ :=
  (s.ranks rank).past 2

/-- The rounds that a rank has left: both counters were full. -/
def left (s : ChecksumRounds worldSize) (rank : Fin worldSize) : ℕ :=
  (s.ranks rank).past 8

/-- All ranks wait for counters that no rank will change. -/
def Stuck (s : ChecksumRounds worldSize) : Prop :=
  ∀ rank, ((s.ranks rank).phase = .waitCounter ∧ s.counter < worldSize) ∨
    ((s.ranks rank).phase = .waitCounter2 ∧ s.counter2 < worldSize)

instance (s : ChecksumRounds worldSize) : Decidable s.Stuck :=
  inferInstanceAs (Decidable (∀ rank, ((s.ranks rank).phase = .waitCounter ∧ s.counter < worldSize) ∨
    ((s.ranks rank).phase = .waitCounter2 ∧ s.counter2 < worldSize)))

/-- What a rank reads in a round is the sum of the values added in this round, no rank leaves a round that
another one has not entered, and the ranks are not stuck. -/
structure Agree (s : ChecksumRounds worldSize) : Prop where
  read : ∀ rank round value, s.read rank round = some value →
    (∀ other, round < s.entered other) ∧ value = ∑ other, s.added other round
  left : ∀ rank other, s.left rank ≤ s.entered other
  alive : ¬ s.Stuck

/-- The condition on a step: a rank looks at `counter` only when rank 0 has gone through the rounds before,
and rank 0 resets `counter2` only when all ranks have left the round before. -/
def Careful (s : ChecksumRounds worldSize) : ChecksumLabel worldSize → Prop
  | .advance rank =>
    ((s.ranks rank).phase = .waitCounter → (s.ranks rank).round ≤ (s.ranks 0).round) ∧
    ((s.ranks rank).phase = .subCounter2 → ∀ other, (s.ranks rank).round ≤ (s.ranks other).round)
  | .addState _ _ => True

instance (s : ChecksumRounds worldSize) : DecidablePred s.Careful
  | .advance _ => inferInstanceAs (Decidable ((_ → _) ∧ (_ → ∀ _, _)))
  | .addState _ _ => isTrue trivial

/-! ### Pace -/

/-- The places that the ranks can be in. -/
structure Paced (s : ChecksumRounds worldSize) : Prop where
  /-- Only rank 0 resets the counters. -/
  others : ∀ rank, rank ≠ 0 → (s.ranks rank).phase.place ∈ [1, 3, 4, 5, 6, 7]
  start : (s.ranks 0).phase = .start → (s.ranks 0).round = 0
  /-- Past `counter`, all ranks have added to it. -/
  counter : ∀ k rank other, 10 * k + 5 ≤ (s.ranks rank).time → 10 * k + 4 ≤ (s.ranks other).time
  /-- Past `counter2`, all ranks have added to it. -/
  counter2 : ∀ k rank other, 10 * k + 8 ≤ (s.ranks rank).time → 10 * k + 7 ≤ (s.ranks other).time
  /-- Where rank 0 has reset `counter2`, all ranks have left the round before. -/
  reset : ∀ k rank, 10 * k + 3 ≤ (s.ranks 0).time → 10 * k ≤ (s.ranks rank).time

/-- What the counters hold, and what has been read. -/
structure Counted (s : ChecksumRounds worldSize) : Prop where
  counter : s.counter + worldSize * (s.ranks 0).past 10 = ∑ rank, ((s.ranks rank).past 4 : ℤ)
  counter2 : s.counter2 + worldSize * (s.ranks 0).past 3 =
    (if (s.ranks 0).time = 0 then 0 else (worldSize : ℤ)) + ∑ rank, ((s.ranks rank).past 7 : ℤ)
  state : s.checksumState + ∑ round ∈ Finset.range ((s.ranks 0).past 9), ∑ rank, s.added rank round =
    ∑ rank, ∑ round ∈ Finset.range (s.entered rank), s.added rank round
  globalState : ∀ rank, 6 ≤ (s.ranks rank).phase.place →
    (s.ranks rank).globalState = ∑ other, s.added other (s.ranks rank).round
  read : ∀ rank round value, s.read rank round = some value →
    (∀ other, round < s.entered other) ∧ value = ∑ other, s.added other round

omit [NeZero worldSize] in
/-- A sum of numbers of which none is greater than `c` is too small, unless all are `c`. -/
theorem eq_of_le_sum {f : Fin worldSize → ℕ} {c : ℕ} (hle : ∀ rank, f rank ≤ c)
    (hsum : (worldSize : ℤ) * c ≤ ∑ rank, (f rank : ℤ)) : ∀ rank, f rank = c := by
  have hconst : ∑ _rank : Fin worldSize, c = worldSize * c := by
    rw [Finset.sum_const, Finset.card_univ, Fintype.card_fin, nsmul_eq_mul, Nat.cast_id]
  have hge : ∑ _rank : Fin worldSize, c ≤ ∑ rank, f rank := by
    rw [hconst]
    exact_mod_cast hsum
  have heq := (Finset.sum_eq_sum_iff_of_le fun rank _ => hle rank).mp
    (Nat.le_antisymm (Finset.sum_le_sum fun rank _ => hle rank) hge)
  exact fun rank => heq rank (Finset.mem_univ rank)

omit [NeZero worldSize] in
theorem le_sum {f : Fin worldSize → ℕ} {c : ℕ} (hle : ∀ rank, c ≤ f rank) :
    (worldSize : ℤ) * c ≤ ∑ rank, (f rank : ℤ) := by
  have hsum := Finset.card_nsmul_le_sum Finset.univ f c fun rank _ => hle rank
  rw [Finset.card_univ, Fintype.card_fin, nsmul_eq_mul, Nat.cast_id] at hsum
  exact_mod_cast hsum

/-! ### Full counters -/

/-- A rank that finds `counter` full finds that all ranks have added to it. -/
theorem counter_full (hpaced : s.Paced) (hcounted : s.Counted) (hphase : (s.ranks rank).phase = .waitCounter)
    (hround : (s.ranks rank).round ≤ (s.ranks 0).round) (hfull : ¬ s.counter < worldSize) :
    ∀ other, 10 * (s.ranks rank).round + 4 ≤ (s.ranks other).time := by
  have htime : (s.ranks rank).time = 10 * (s.ranks rank).round + 4 := by
    rw [ChecksumRank.time, hphase, ChecksumPhase.place]
  have htime0 : (s.ranks 0).time = 10 * (s.ranks 0).round + (s.ranks 0).phase.place := rfl
  -- Rank 0 is in the same round: it cannot have left this one.
  have hsame : (s.ranks rank).round = (s.ranks 0).round := by
    have h := hpaced.counter2 (s.ranks rank).round 0 rank
    omega
  have hle : ∀ other, (s.ranks other).past 4 ≤ (s.ranks rank).round + 1 := by
    intro other
    by_contra hlt
    have hother := (ChecksumRank.lt_past_iff (by omega)).mp (Nat.lt_of_not_le hlt)
    have h := hpaced.counter2 (s.ranks rank).round other rank
    omega
  have hpast : (s.ranks 0).past 10 = (s.ranks 0).round := by
    have hplace := ChecksumRank.place_le (s.ranks 0).phase
    rw [ChecksumRank.past, if_neg (by omega), Nat.add_zero]
  have hsum := hcounted.counter
  rw [hpast, ← hsame] at hsum
  have heq := eq_of_le_sum hle (by push_cast; linarith)
  intro other
  apply (ChecksumRank.lt_past_iff (by omega)).mp
  have h := heq other
  omega

/-- A rank that finds `counter2` full finds that all ranks have added to it. -/
theorem counter2_full (hpaced : s.Paced) (hcounted : s.Counted)
    (hphase : (s.ranks rank).phase = .waitCounter2) (hfull : ¬ s.counter2 < worldSize) :
    ∀ other, 10 * (s.ranks rank).round + 7 ≤ (s.ranks other).time := by
  have htime : (s.ranks rank).time = 10 * (s.ranks rank).round + 7 := by
    rw [ChecksumRank.time, hphase, ChecksumPhase.place]
  have htime0 : (s.ranks 0).time = 10 * (s.ranks 0).round + (s.ranks 0).phase.place := rfl
  have hplace := ChecksumRank.place_le (s.ranks 0).phase
  by_cases hleft : 10 * (s.ranks rank).round + 8 ≤ (s.ranks 0).time
  · exact fun other => hpaced.counter2 _ 0 other hleft
  · -- Rank 0 has reset the counter in this round, and is not yet past it.
    have hentered := hpaced.counter (s.ranks rank).round rank 0
    have hsame : (s.ranks 0).round = (s.ranks rank).round := by omega
    have hle : ∀ other, (s.ranks other).past 7 ≤ (s.ranks rank).round + 1 := by
      intro other
      by_contra hlt
      have hother := (ChecksumRank.lt_past_iff (by omega)).mp (Nat.lt_of_not_le hlt)
      have h := hpaced.counter ((s.ranks rank).round + 1) other 0
      omega
    have hpast : (s.ranks 0).past 3 = (s.ranks rank).round + 1 := by
      rw [ChecksumRank.past, if_pos (by omega), hsame]
    have hsum := hcounted.counter2
    rw [hpast, if_neg (by omega)] at hsum
    have heq := eq_of_le_sum hle (by push_cast at hsum ⊢; linarith)
    intro other
    apply (ChecksumRank.lt_past_iff (by omega)).mp
    have h := heq other
    omega

theorem not_stuck (hpaced : s.Paced) (hcounted : s.Counted) : ¬ s.Stuck := by
  intro hstuck
  have hplaces : ∀ rank, (s.ranks rank).phase.place = 4 ∨ (s.ranks rank).phase.place = 7 := by
    intro rank
    rcases hstuck rank with ⟨hphase, -⟩ | ⟨hphase, -⟩ <;> simp [hphase, ChecksumPhase.place]
  have htimes : ∀ rank, (s.ranks rank).time = 10 * (s.ranks rank).round + (s.ranks rank).phase.place :=
    fun rank => rfl
  have hpast : (s.ranks 0).past 10 = (s.ranks 0).round := by
    have hplace := ChecksumRank.place_le (s.ranks 0).phase
    rw [ChecksumRank.past, if_neg (by omega), Nat.add_zero]
  -- All ranks have added to `counter` in the round of rank 0.
  have hadded : ∀ rank, (s.ranks 0).round + 1 ≤ (s.ranks rank).past 4 := by
    intro rank
    apply (ChecksumRank.lt_past_iff (by omega)).mpr
    have hreset := hpaced.reset (s.ranks 0).round rank
    have h0 := hplaces 0
    have hrank := hplaces rank
    have htime := htimes rank
    have htime0 := htimes 0
    omega
  have hcounter := le_sum hadded
  have hsum := hcounted.counter
  rw [hpast] at hsum
  have hfull : ¬ s.counter < worldSize := by
    push_cast at hcounter
    linarith
  have hwaiting : ∀ rank, (s.ranks rank).phase = .waitCounter2 ∧ s.counter2 < worldSize := by
    intro rank
    rcases hstuck rank with ⟨-, hlt⟩ | hwait
    · exact absurd hlt hfull
    · exact hwait
  have hvoted : ∀ rank, (s.ranks 0).round + 1 ≤ (s.ranks rank).past 7 := by
    intro rank
    have h := (ChecksumRank.lt_past_iff (by omega)).mp (hadded rank)
    apply (ChecksumRank.lt_past_iff (by omega)).mpr
    have htime := htimes rank
    rw [(hwaiting rank).1, ChecksumPhase.place] at htime
    omega
  have hcounter2 := le_sum hvoted
  have hsum2 := hcounted.counter2
  have hplace0 : (s.ranks 0).phase.place = 7 := by rw [(hwaiting 0).1, ChecksumPhase.place]
  have hpast3 : (s.ranks 0).past 3 = (s.ranks 0).round + 1 := by
    rw [ChecksumRank.past, if_pos (by omega)]
  rw [hpast3, if_neg (by rw [htimes 0]; omega)] at hsum2
  have hlt := (hwaiting 0).2
  push_cast at hsum2 hcounter2
  linarith

theorem agree (hpaced : s.Paced) (hcounted : s.Counted) : s.Agree where
  read := hcounted.read
  left := by
    intro rank other
    by_contra hlt
    have hrank := (ChecksumRank.lt_past_iff (r := s.ranks rank) (by omega)).mp (Nat.lt_of_not_le hlt)
    have hother := hpaced.counter2 _ rank other hrank
    have h : (s.ranks other).past 2 < (s.ranks other).past 2 := by
      apply (ChecksumRank.lt_past_iff (by omega)).mpr
      show 10 * s.entered other + 2 ≤ _
      omega
    omega
  alive := not_stuck hpaced hcounted

/-! ### Moves -/

variable {r : ChecksumRank}

theorem Paced.move (h : s.Paced) (hranks : s'.ranks = Function.update s.ranks rank r)
    (htime : (s.ranks rank).time ≤ r.time) (hstart : r.phase ≠ .start)
    (hothers : rank ≠ 0 → r.phase.place ∈ [1, 3, 4, 5, 6, 7])
    (hcounter : ∀ k, (s.ranks rank).time < 10 * k + 5 → 10 * k + 5 ≤ r.time →
      ∀ other, 10 * k + 4 ≤ (s.ranks other).time)
    (hcounter2 : ∀ k, (s.ranks rank).time < 10 * k + 8 → 10 * k + 8 ≤ r.time →
      ∀ other, 10 * k + 7 ≤ (s.ranks other).time)
    (hreset : rank = 0 → ∀ k, (s.ranks 0).time < 10 * k + 3 → 10 * k + 3 ≤ r.time →
      ∀ other, 10 * k ≤ (s.ranks other).time) : s'.Paced := by
  have hself : s'.ranks rank = r := by rw [hranks, Function.update_self]
  have hne : ∀ other, other ≠ rank → s'.ranks other = s.ranks other := by
    intro other hother
    rw [hranks, Function.update_of_ne hother]
  -- No rank goes back.
  have hmono : ∀ other, (s.ranks other).time ≤ (s'.ranks other).time := by
    intro other
    by_cases hother : other = rank
    · rw [hother, hself]
      exact htime
    · rw [hne other hother]
  constructor
  · intro other hother
    by_cases heq : other = rank
    · subst heq
      rw [hself]
      exact hothers hother
    · rw [hne other heq]
      exact h.others other hother
  · intro hphase
    by_cases heq : (0 : Fin worldSize) = rank
    · rw [heq, hself] at hphase
      exact absurd hphase hstart
    · rw [hne 0 heq] at hphase ⊢
      exact h.start hphase
  · intro k i j hi
    apply (hmono j).trans'
    by_cases heq : i = rank
    · subst heq
      rw [hself] at hi
      by_cases hold : 10 * k + 5 ≤ (s.ranks i).time
      · exact h.counter k i j hold
      · exact hcounter k (by omega) hi j
    · rw [hne i heq] at hi
      exact h.counter k i j hi
  · intro k i j hi
    apply (hmono j).trans'
    by_cases heq : i = rank
    · subst heq
      rw [hself] at hi
      by_cases hold : 10 * k + 8 ≤ (s.ranks i).time
      · exact h.counter2 k i j hold
      · exact hcounter2 k (by omega) hi j
    · rw [hne i heq] at hi
      exact h.counter2 k i j hi
  · intro k j h0
    apply (hmono j).trans'
    by_cases heq : (0 : Fin worldSize) = rank
    · rw [heq, hself] at h0
      by_cases hold : 10 * k + 3 ≤ (s.ranks 0).time
      · exact h.reset k j hold
      · exact hreset heq.symm k (by omega) h0 j
    · rw [hne 0 heq] at h0
      exact h.reset k j h0

omit [NeZero worldSize] in
/-- The sum of the numbers of a place, when one rank moves. -/
theorem sum_past (hranks : s'.ranks = Function.update s.ranks rank r) (place : ℕ) :
    ∑ other, ((s'.ranks other).past place : ℤ) =
      ∑ other, ((s.ranks other).past place : ℤ) + (r.past place - (s.ranks rank).past place) := by
  have hsum := sum_update_add (fun _ (r : ChecksumRank) => (r.past place : ℤ)) s.ranks rank r
  rw [hranks]
  linarith

/-- A move that neither adds to the state nor reads it. -/
theorem Counted.move (h : s.Counted) (hranks : s'.ranks = Function.update s.ranks rank r)
    (hadded : s'.added = s.added) (hread : s'.read = s.read) (hentered : r.past 2 = (s.ranks rank).past 2)
    (hglobal : 6 ≤ r.phase.place → r.globalState = ∑ other, s.added other r.round)
    (hcounter : s'.counter + worldSize * (s'.ranks 0).past 10 + (s.ranks rank).past 4 =
      s.counter + worldSize * (s.ranks 0).past 10 + r.past 4)
    (hcounter2 : s'.counter2 + worldSize * (s'.ranks 0).past 3 + (s.ranks rank).past 7 +
        (if (s.ranks 0).time = 0 then 0 else (worldSize : ℤ)) =
      s.counter2 + worldSize * (s.ranks 0).past 3 + r.past 7 +
        (if (s'.ranks 0).time = 0 then 0 else (worldSize : ℤ)))
    (hstate : s'.checksumState +
        ∑ round ∈ Finset.range ((s'.ranks 0).past 9), ∑ rank, s.added rank round =
      s.checksumState + ∑ round ∈ Finset.range ((s.ranks 0).past 9), ∑ rank, s.added rank round) :
    s'.Counted := by
  have hentered' : ∀ other, s'.entered other = s.entered other := by
    intro other
    rw [entered, hranks]
    by_cases heq : other = rank
    · rw [heq, Function.update_self, hentered]
      rfl
    · rw [Function.update_of_ne heq]
      rfl
  constructor
  · rw [sum_past hranks]
    linarith [h.counter]
  · rw [sum_past hranks]
    linarith [h.counter2]
  · simp only [hadded, hentered']
    rw [hstate, h.state]
  · intro other hplace
    rw [hadded]
    rw [hranks] at hplace ⊢
    by_cases heq : other = rank
    · subst heq
      rw [Function.update_self] at hplace ⊢
      exact hglobal hplace
    · rw [Function.update_of_ne heq] at hplace ⊢
      exact h.globalState other hplace
  · intro other round value
    rw [hread, hadded]
    simp only [hentered']
    exact h.read other round value

/-- A move within a round that resets nothing. -/
theorem Counted.goTo {p q : ChecksumPhase} (h : s.Counted) (hphase : (s.ranks rank).phase = p)
    (hranks : s'.ranks = Function.update s.ranks rank { s.ranks rank with phase := q })
    (hadded : s'.added = s.added) (hread : s'.read = s.read)
    (hplaces : 3 ≤ p.place ∧ p.place ≤ q.place ∧ q.place ≤ 8) (hglobal : 6 ≤ q.place → 6 ≤ p.place)
    (hcounter : s'.counter = s.counter + if p.place < 4 ∧ 4 ≤ q.place then 1 else 0)
    (hcounter2 : s'.counter2 = s.counter2 + if p.place < 7 ∧ 7 ≤ q.place then 1 else 0)
    (hstate : s'.checksumState = s.checksumState) : s'.Counted := by
  have hplace : (s.ranks rank).phase.place = p.place := by rw [hphase]
  have hpast : ∀ place, ({ s.ranks rank with phase := q } : ChecksumRank).past place =
      (s.ranks rank).past place + if p.place < place ∧ place ≤ q.place then 1 else 0 := by
    intro place
    simp only [ChecksumRank.past, hplace]
    split_ifs <;> omega
  have hzero : ∀ place, place ≤ 3 ∨ 9 ≤ place → (s'.ranks 0).past place = (s.ranks 0).past place := by
    intro place hout
    rw [hranks]
    by_cases heq : (0 : Fin worldSize) = rank
    · rw [heq, Function.update_self, hpast, if_neg (by omega), Nat.add_zero]
    · rw [Function.update_of_ne heq]
  have htime : (s'.ranks 0).time = 0 ↔ (s.ranks 0).time = 0 := by
    rw [hranks]
    by_cases heq : (0 : Fin worldSize) = rank
    · rw [heq, Function.update_self, ChecksumRank.time, ChecksumRank.time]
      dsimp only
      omega
    · rw [Function.update_of_ne heq]
  have h4 := hpast 4
  have h7 := hpast 7
  apply h.move hranks hadded hread
  · rw [hpast, if_neg (by omega), Nat.add_zero]
  · intro hq
    exact h.globalState rank (by rw [hplace]; exact hglobal hq)
  · rw [hzero 10 (by omega), hcounter, h4]
    push_cast
    ring
  · rw [hzero 3 (by omega), hcounter2, h7]
    simp only [htime]
    push_cast
    ring
  · rw [hzero 9 (by omega), hstate]

theorem Paced.eq_zero (h : s.Paced) (hplace : (s.ranks rank).phase.place ∉ [1, 3, 4, 5, 6, 7]) : rank = 0 := by
  by_contra hne
  exact hplace (h.others rank hne)

/-- A move within a round. -/
theorem Paced.goTo {p q : ChecksumPhase} (h : s.Paced) (hphase : (s.ranks rank).phase = p)
    (hranks : s'.ranks = Function.update s.ranks rank r) (hphase' : r.phase = q)
    (hround : r.round = (s.ranks rank).round) (hle : p.place ≤ q.place ∧ q ≠ .start)
    (hothers : rank ≠ 0 → q.place ∈ [1, 3, 4, 5, 6, 7])
    (hcounter : p.place < 5 ∧ 5 ≤ q.place →
      ∀ other, 10 * (s.ranks rank).round + 4 ≤ (s.ranks other).time)
    (hcounter2 : p.place < 8 ∧ 8 ≤ q.place →
      ∀ other, 10 * (s.ranks rank).round + 7 ≤ (s.ranks other).time)
    (hreset : rank = 0 → p.place < 3 ∧ 3 ≤ q.place →
      ∀ other, 10 * (s.ranks rank).round ≤ (s.ranks other).time) : s'.Paced := by
  have htime : (s.ranks rank).time = 10 * (s.ranks rank).round + p.place := by
    rw [ChecksumRank.time, hphase]
  have htime' : r.time = 10 * (s.ranks rank).round + q.place := by
    rw [ChecksumRank.time, hround, hphase']
  have hplace := ChecksumRank.place_le q
  apply h.move hranks
  · omega
  · rw [hphase']
    exact hle.2
  · rw [hphase']
    exact hothers
  · intro k hlt hge
    obtain rfl : k = (s.ranks rank).round := by omega
    exact hcounter ⟨by omega, by omega⟩
  · intro k hlt hge
    obtain rfl : k = (s.ranks rank).round := by omega
    exact hcounter2 ⟨by omega, by omega⟩
  · rintro rfl k hlt hge
    obtain rfl : k = (s.ranks 0).round := by omega
    exact hreset rfl ⟨by omega, by omega⟩

/-- The next round begins. -/
theorem Paced.nextRound (h : s.Paced) (hranks : s'.ranks = (s.nextRound rank).ranks)
    (hplace : 7 ≤ (s.ranks rank).phase.place)
    (hcounter2 : ∀ other, 10 * (s.ranks rank).round + 7 ≤ (s.ranks other).time) : s'.Paced := by
  have htime : (s.ranks rank).time = 10 * (s.ranks rank).round + (s.ranks rank).phase.place := rfl
  have hle := ChecksumRank.place_le (s.ranks rank).phase
  apply h.move hranks
  · show (s.ranks rank).time ≤ 10 * ((s.ranks rank).round + 1) + 1
    omega
  · exact nofun
  · exact fun _ => List.mem_cons_self
  · intro k hlt hge
    have hge' : 10 * k + 5 ≤ 10 * ((s.ranks rank).round + 1) + 1 := hge
    omega
  · intro k hlt hge
    have hge' : 10 * k + 8 ≤ 10 * ((s.ranks rank).round + 1) + 1 := hge
    obtain rfl : k = (s.ranks rank).round := by omega
    exact hcounter2
  · rintro rfl k hlt hge
    have hge' : 10 * k + 3 ≤ 10 * ((s.ranks 0).round + 1) + 1 := hge
    omega

/-- The steps keep the pace. -/
theorem paced_advance (h : s.Paced) (hcounted : s.Counted) (hcareful : s.Careful (.advance rank))
    (hnext : s.advance rank = some s') : s'.Paced := by
  cases hphase : (s.ranks rank).phase with
  | addState =>
    rw [advance, hphase] at hnext
    cases hnext
  | start =>
    have hzero : rank = 0 := h.eq_zero (by rw [hphase]; decide)
    rw [advance, hphase] at hnext
    cases hnext
    apply h.goTo (r := { s.ranks rank with phase := .addState }) hphase rfl rfl rfl
    all_goals simp [ChecksumPhase.place]
  | subCounter2 =>
    have hzero : rank = 0 := h.eq_zero (by rw [hphase]; decide)
    rw [advance, hphase] at hnext
    cases hnext
    apply h.goTo (r := { s.ranks rank with phase := .addCounter }) hphase rfl rfl rfl
    · simp [ChecksumPhase.place]
    · exact fun hne => absurd hzero hne
    · simp [ChecksumPhase.place]
    · simp [ChecksumPhase.place]
    · intro _ _ other
      have hround := hcareful.2 hphase other
      have htime : (s.ranks other).time = 10 * (s.ranks other).round + (s.ranks other).phase.place := rfl
      omega
  | addCounter =>
    rw [advance, hphase] at hnext
    cases hnext
    apply h.goTo (r := { s.ranks rank with phase := .waitCounter }) hphase rfl rfl rfl
    all_goals simp [ChecksumPhase.place]
  | waitCounter =>
    rw [advance, hphase] at hnext
    obtain rfl := Option.some.inj hnext
    split_ifs with hfull
    · exact h
    · apply h.goTo (r := { s.ranks rank with phase := .getState }) hphase rfl rfl rfl
      · simp [ChecksumPhase.place]
      · simp [ChecksumPhase.place]
      · exact fun _ => counter_full h hcounted hphase (hcareful.1 hphase) hfull
      · simp [ChecksumPhase.place]
      · simp [ChecksumPhase.place]
  | getState =>
    rw [advance, hphase] at hnext
    cases hnext
    apply h.goTo (r := { s.ranks rank with phase := .addCounter2, globalState := s.checksumState })
      hphase rfl rfl rfl
    all_goals simp [ChecksumPhase.place]
  | addCounter2 =>
    rw [advance, hphase] at hnext
    cases hnext
    apply h.goTo (r := { s.ranks rank with phase := .waitCounter2 }) hphase rfl rfl rfl
    all_goals simp [ChecksumPhase.place]
  | waitCounter2 =>
    rw [advance, hphase] at hnext
    obtain rfl := Option.some.inj hnext
    split_ifs with hfull hzero
    · exact h
    · apply h.goTo (r := { s.ranks rank with phase := .subState }) hphase rfl rfl rfl
      · simp [ChecksumPhase.place]
      · exact fun hne => absurd hzero hne
      · simp [ChecksumPhase.place]
      · exact fun _ => counter2_full h hcounted hphase hfull
      · simp [ChecksumPhase.place]
    · apply h.nextRound rfl
      · rw [hphase]
        decide
      · exact counter2_full h hcounted hphase hfull
  | subState =>
    have hzero : rank = 0 := h.eq_zero (by rw [hphase]; decide)
    rw [advance, hphase] at hnext
    cases hnext
    apply h.goTo (r := { s.ranks rank with phase := .subCounter }) hphase rfl rfl rfl
    · simp [ChecksumPhase.place]
    · exact fun hne => absurd hzero hne
    all_goals simp [ChecksumPhase.place]
  | subCounter =>
    rw [advance, hphase] at hnext
    have hranks : s'.ranks = (s.nextRound rank).ranks := by
      cases hnext
      rfl
    apply h.nextRound hranks
    · rw [hphase]
      decide
    · intro other
      apply h.counter2 _ rank other
      rw [ChecksumRank.time, hphase, ChecksumPhase.place]
      omega

/-- A rank enters a round. -/
theorem paced_addState (h : s.Paced) (hphase : (s.ranks rank).phase = .addState) (value : ℤ) :
    (s.addState rank value).Paced := by
  by_cases hzero : rank = 0
  · have hranks : (s.addState rank value).ranks =
        Function.update s.ranks rank { s.ranks rank with phase := .subCounter2 } := by
      show (s.goTo rank (if rank = 0 then .subCounter2 else .addCounter)).ranks = _
      rw [if_pos hzero]
      rfl
    apply h.goTo hphase hranks rfl rfl
    · simp [ChecksumPhase.place]
    · exact fun hne => absurd hzero hne
    all_goals simp [ChecksumPhase.place]
  · have hranks : (s.addState rank value).ranks =
        Function.update s.ranks rank { s.ranks rank with phase := .addCounter } := by
      show (s.goTo rank (if rank = 0 then .subCounter2 else .addCounter)).ranks = _
      rw [if_neg hzero]
      rfl
    apply h.goTo hphase hranks rfl rfl
    · simp [ChecksumPhase.place]
    · simp [ChecksumPhase.place]
    · simp [ChecksumPhase.place]
    · simp [ChecksumPhase.place]
    · exact fun h0 => absurd h0 hzero

/-- The sum that a rank reads. -/
theorem getState_eq (h : s.Paced) (hcounted : s.Counted) (hphase : (s.ranks rank).phase = .getState) :
    s.checksumState = ∑ other, s.added other (s.ranks rank).round ∧
      ∀ other, (s.ranks rank).round < s.entered other := by
  have htime : (s.ranks rank).time = 10 * (s.ranks rank).round + 5 := by
    rw [ChecksumRank.time, hphase, ChecksumPhase.place]
  have hpassed : ∀ other, 10 * (s.ranks rank).round + 4 ≤ (s.ranks other).time :=
    fun other => h.counter _ rank other (by omega)
  have hentered : ∀ other, s.entered other = (s.ranks rank).round + 1 := by
    intro other
    have hother := hpassed other
    have hlt : (s.ranks rank).round < s.entered other :=
      (ChecksumRank.lt_past_iff (by omega)).mpr (by omega)
    by_contra hne
    have hnext : (s.ranks rank).round + 1 < s.entered other := by omega
    have htimes := (ChecksumRank.lt_past_iff (by omega)).mp hnext
    have hleft := h.counter2 (s.ranks rank).round other rank
    omega
  have hreset : (s.ranks 0).past 9 = (s.ranks rank).round := by
    have h0 := hpassed 0
    have hle : ¬ (s.ranks rank).round < (s.ranks 0).past 9 := by
      intro hlt
      have htimes := (ChecksumRank.lt_past_iff (by omega)).mp hlt
      have hleft := h.counter2 (s.ranks rank).round 0 rank
      omega
    have hge : ∀ k, k < (s.ranks rank).round → k < (s.ranks 0).past 9 := fun k hk =>
      (ChecksumRank.lt_past_iff (by omega)).mpr (by omega)
    have hge' := hge ((s.ranks rank).round - 1)
    omega
  have hstate := hcounted.state
  simp only [hentered, hreset, Finset.sum_range_succ, Finset.sum_add_distrib] at hstate
  rw [Finset.sum_comm] at hstate
  refine ⟨by linarith, fun other => ?_⟩
  rw [hentered other]
  omega

/-- A rank reads the sum of its round. -/
theorem Counted.getState (h : s.Counted) (hphase : (s.ranks rank).phase = .getState)
    (hsum : s.checksumState = ∑ other, s.added other (s.ranks rank).round)
    (hentered : ∀ other, (s.ranks rank).round < s.entered other) : (s.getState rank).Counted := by
  -- All but the history is a move within the round.
  have hmoved : ({ s.getState rank with read := s.read } : ChecksumRounds worldSize).Counted := by
    have hpast : ∀ place, place ≠ 6 → ({ s.ranks rank with
        phase := .addCounter2, globalState := s.checksumState } : ChecksumRank).past place =
          (s.ranks rank).past place := by
      intro place hplace
      have hiff : place ≤ 6 ↔ place ≤ 5 := by omega
      simp only [ChecksumRank.past, hphase, ChecksumPhase.place, hiff]
    have hzero : ∀ place, place ≠ 6 → ((s.getState rank).ranks 0).past place = (s.ranks 0).past place := by
      intro place hplace
      show (Function.update s.ranks rank _ 0).past place = _
      by_cases heq : (0 : Fin worldSize) = rank
      · rw [heq, Function.update_self, hpast place hplace]
      · rw [Function.update_of_ne heq]
    have htime : ((s.getState rank).ranks 0).time = 0 ↔ (s.ranks 0).time = 0 := by
      show (Function.update s.ranks rank _ 0).time = 0 ↔ _
      by_cases heq : (0 : Fin worldSize) = rank
      · rw [heq, Function.update_self, ChecksumRank.time, ChecksumRank.time, hphase]
        simp [ChecksumPhase.place]
      · rw [Function.update_of_ne heq]
    refine h.move (r := { s.ranks rank with phase := .addCounter2, globalState := s.checksumState }) rfl rfl rfl
      (hpast 2 (by omega)) (fun _ => hsum) ?_ ?_ ?_
    · rw [hpast 4 (by omega)]
      show s.counter + worldSize * (((s.getState rank).ranks 0).past 10 : ℤ) + _ = _
      rw [hzero 10 (by omega)]
    · rw [hpast 7 (by omega)]
      show s.counter2 + worldSize * (((s.getState rank).ranks 0).past 3 : ℤ) + _ + _ =
        _ + _ + _ + if ((s.getState rank).ranks 0).time = 0 then 0 else (worldSize : ℤ)
      rw [hzero 3 (by omega)]
      simp only [htime]
    · show s.checksumState + ∑ round ∈ Finset.range (((s.getState rank).ranks 0).past 9), _ = _
      rw [hzero 9 (by omega)]
  refine ⟨hmoved.counter, hmoved.counter2, hmoved.state, hmoved.globalState, ?_⟩
  have hentered' : ∀ other, (s.getState rank).entered other = s.entered other := by
    intro other
    show (Function.update s.ranks rank _ other).past 2 = _
    by_cases heq : other = rank
    · rw [heq, Function.update_self, entered, ChecksumRank.past, ChecksumRank.past, hphase]
      rfl
    · rw [Function.update_of_ne heq]
      rfl
  intro other round value hread
  simp only [hentered']
  have hread' : Function.update s.read rank
      (Function.update (s.read rank) (s.ranks rank).round (some s.checksumState)) other round = some value :=
    hread
  by_cases heq : other = rank
  · subst heq
    rw [Function.update_self] at hread'
    by_cases hround : round = (s.ranks other).round
    · subst hround
      rw [Function.update_self] at hread'
      cases hread'
      exact ⟨hentered, hsum⟩
    · rw [Function.update_of_ne hround] at hread'
      exact h.read other round value hread'
  · rw [Function.update_of_ne heq] at hread'
    exact h.read other round value hread'

/-- The steps keep the counts. -/
theorem counted_advance (h : s.Paced) (hcounted : s.Counted) (hnext : s.advance rank = some s') :
    s'.Counted := by
  cases hphase : (s.ranks rank).phase with
  | addState =>
    rw [advance, hphase] at hnext
    cases hnext
  | start =>
    obtain rfl : rank = 0 := h.eq_zero (by rw [hphase]; decide)
    have hround := h.start hphase
    rw [advance, hphase] at hnext
    cases hnext
    refine hcounted.move (r := { s.ranks 0 with phase := .addState }) rfl rfl rfl ?_ ?_ ?_ ?_ ?_
    all_goals simp [goTo, setRank, ChecksumRank.past, ChecksumRank.time, ChecksumPhase.place, hphase, hround]
  | subCounter2 =>
    obtain rfl : rank = 0 := h.eq_zero (by rw [hphase]; decide)
    rw [advance, hphase] at hnext
    cases hnext
    refine hcounted.move (r := { s.ranks 0 with phase := .addCounter }) rfl rfl rfl ?_ ?_ ?_ ?_ ?_
    all_goals simp [goTo, setRank, ChecksumRank.past, ChecksumRank.time, ChecksumPhase.place, hphase]
    ring
  | addCounter =>
    rw [advance, hphase] at hnext
    cases hnext
    refine hcounted.goTo (q := .waitCounter) hphase rfl rfl rfl ?_ ?_ ?_ ?_ ?_
    all_goals simp [ChecksumPhase.place, goTo, setRank]
  | waitCounter =>
    rw [advance, hphase] at hnext
    obtain rfl := Option.some.inj hnext
    split_ifs with hfull
    · exact hcounted
    · refine hcounted.goTo (q := .getState) hphase rfl rfl rfl ?_ ?_ ?_ ?_ ?_
      all_goals simp [ChecksumPhase.place, goTo, setRank]
  | getState =>
    obtain ⟨hsum, hentered⟩ := getState_eq h hcounted hphase
    rw [advance, hphase] at hnext
    cases hnext
    exact hcounted.getState hphase hsum hentered
  | addCounter2 =>
    rw [advance, hphase] at hnext
    cases hnext
    refine hcounted.goTo (q := .waitCounter2) hphase rfl rfl rfl ?_ ?_ ?_ ?_ ?_
    all_goals simp [ChecksumPhase.place, goTo, setRank]
  | waitCounter2 =>
    rw [advance, hphase] at hnext
    obtain rfl := Option.some.inj hnext
    split_ifs with hfull hzero
    · exact hcounted
    · refine hcounted.goTo (q := .subState) hphase rfl rfl rfl ?_ ?_ ?_ ?_ ?_
      all_goals simp [ChecksumPhase.place, goTo, setRank]
    · have hself : (s.nextRound rank).ranks 0 = s.ranks 0 :=
        Function.update_of_ne (fun heq => hzero heq.symm) _ _
      have hpast : ∀ place, 2 ≤ place → place ≤ 7 →
          ({ s.ranks rank with phase := .addState, round := (s.ranks rank).round + 1 } : ChecksumRank).past place =
            (s.ranks rank).past place := by
        intro place h2 h7
        show (s.ranks rank).round + 1 + (if place ≤ 1 then 1 else 0) =
          (s.ranks rank).round + if place ≤ (s.ranks rank).phase.place then 1 else 0
        rw [hphase, if_neg (by omega), if_pos (show place ≤ ChecksumPhase.waitCounter2.place from h7)]
      refine hcounted.move (r := { s.ranks rank with phase := .addState, round := (s.ranks rank).round + 1 })
        rfl rfl rfl (hpast 2 (by omega) (by omega)) (by simp [ChecksumPhase.place]) ?_ ?_ ?_
      · rw [hself, hpast 4 (by omega) (by omega)]
        rfl
      · rw [hself, hpast 7 (by omega) (by omega)]
        rfl
      · rw [hself]
        rfl
  | subState =>
    obtain rfl : rank = 0 := h.eq_zero (by rw [hphase]; decide)
    have hglobal := hcounted.globalState 0 (by rw [hphase]; decide)
    rw [advance, hphase] at hnext
    cases hnext
    refine hcounted.move (r := { s.ranks 0 with phase := .subCounter }) rfl rfl rfl ?_ ?_ ?_ ?_ ?_
    all_goals simp [goTo, setRank, ChecksumRank.past, ChecksumRank.time, ChecksumPhase.place, hphase]
    · exact hglobal
    · rw [Finset.sum_range_succ, hglobal]
      ring
  | subCounter =>
    obtain rfl : rank = 0 := h.eq_zero (by rw [hphase]; decide)
    rw [advance, hphase] at hnext
    cases hnext
    refine hcounted.move (r := { s.ranks 0 with phase := .addState, round := (s.ranks 0).round + 1 })
      rfl rfl rfl ?_ ?_ ?_ ?_ ?_
    all_goals simp [nextRound, setRank, ChecksumRank.past, ChecksumRank.time, ChecksumPhase.place, hphase]
    ring

/-- A rank enters a round. -/
theorem counted_addState (h : s.Paced) (hcounted : s.Counted) (hphase : (s.ranks rank).phase = .addState)
    (value : ℤ) : (s.addState rank value).Counted := by
  set p : ChecksumPhase := if rank = 0 then .subCounter2 else .addCounter with hp
  set k := (s.ranks rank).round with hk
  have hplaces : 2 ≤ p.place ∧ p.place ≤ 3 := by
    rw [hp]
    split_ifs <;> decide
  have hranks : (s.addState rank value).ranks =
      Function.update s.ranks rank { s.ranks rank with phase := p } := rfl
  have hself : (s.addState rank value).ranks rank = { s.ranks rank with phase := p } := by
    rw [hranks, Function.update_self]
  have hne : ∀ other, other ≠ rank → (s.addState rank value).ranks other = s.ranks other := by
    intro other hother
    rw [hranks, Function.update_of_ne hother]
  have htime : (s.ranks rank).time = 10 * k + 1 := by
    rw [ChecksumRank.time, hphase, ChecksumPhase.place]
  -- Only the value of this round is new.
  have hadded : ∀ other round, (s.addState rank value).added other round =
      if other = rank ∧ round = k then value else s.added other round := by
    intro other round
    show Function.update s.added rank (Function.update (s.added rank) k value) other round = _
    by_cases heq : other = rank
    · subst heq
      rw [Function.update_self, Function.update_apply]
      simp
    · rw [Function.update_of_ne heq, if_neg fun hand => heq hand.1]
  have hsame : ∀ round, round ≠ k →
      ∑ other, (s.addState rank value).added other round = ∑ other, s.added other round := by
    intro round hround
    apply Finset.sum_congr rfl
    intro other _
    rw [hadded, if_neg fun hand => hround hand.2]
  have hentered : s.entered rank = k := by
    rw [entered, ChecksumRank.past, hphase]
    rfl
  have hentered' : (s.addState rank value).entered rank = k + 1 := by
    rw [entered, hself]
    show k + (if 2 ≤ p.place then 1 else 0) = k + 1
    rw [if_pos hplaces.1]
  have hpast : ∀ place, 4 ≤ place → ((s.addState rank value).ranks rank).past place =
      (s.ranks rank).past place := by
    intro place hplace
    rw [hself]
    show k + (if place ≤ p.place then 1 else 0) = k + if place ≤ (s.ranks rank).phase.place then 1 else 0
    rw [hphase, if_neg (by omega), if_neg (show ¬ place ≤ ChecksumPhase.addState.place by rw [ChecksumPhase.place]; omega)]
  have hpast0 : ∀ place, place = 3 ∨ 4 ≤ place → ((s.addState rank value).ranks 0).past place =
      (s.ranks 0).past place := by
    intro place hplace
    by_cases heq : (0 : Fin worldSize) = rank
    · rcases hplace with rfl | hplace
      · rw [heq, hself]
        show k + (if 3 ≤ p.place then 1 else 0) = k + if 3 ≤ (s.ranks rank).phase.place then 1 else 0
        rw [hphase, hp, if_pos heq.symm]
        rfl
      · rw [heq]
        exact hpast place hplace
    · rw [hne 0 heq]
  have htime0 : ((s.addState rank value).ranks 0).time = 0 ↔ (s.ranks 0).time = 0 := by
    by_cases heq : (0 : Fin worldSize) = rank
    · rw [heq, hself, htime]
      show 10 * k + p.place = 0 ↔ _
      omega
    · rw [hne 0 heq]
  constructor
  · rw [hpast0 10 (by omega), sum_past hranks]
    show s.counter + _ = _
    rw [hcounted.counter, ← hself, hpast 4 (by omega)]
    ring
  · rw [hpast0 3 (by omega), sum_past hranks]
    simp only [htime0]
    show s.counter2 + _ = _
    rw [hcounted.counter2, ← hself, hpast 7 (by omega)]
    ring
  · have hle : (s.ranks 0).past 9 ≤ k := by
      by_contra hlt
      have h0 := (ChecksumRank.lt_past_iff (by omega)).mp (Nat.lt_of_not_le hlt)
      have hrank := h.counter2 k 0 rank (by omega)
      omega
    have hbefore : ∑ round ∈ Finset.range ((s.ranks 0).past 9), ∑ other, (s.addState rank value).added other round =
        ∑ round ∈ Finset.range ((s.ranks 0).past 9), ∑ other, s.added other round := by
      apply Finset.sum_congr rfl
      intro round hround
      rw [Finset.mem_range] at hround
      exact hsame round (by omega)
    -- Only the sum of this rank is another one.
    have hrest : ∀ other, ∑ round ∈ Finset.range ((s.addState rank value).entered other),
        (s.addState rank value).added other round =
          (∑ round ∈ Finset.range (s.entered other), s.added other round) +
            if other = rank then value else 0 := by
      intro other
      by_cases heq : other = rank
      · subst heq
        rw [hentered', hentered, Finset.sum_range_succ, hadded, if_pos ⟨rfl, rfl⟩, if_pos rfl]
        congr 1
        apply Finset.sum_congr rfl
        intro round hround
        rw [Finset.mem_range] at hround
        rw [hadded, if_neg (by omega)]
      · have hother : (s.addState rank value).entered other = s.entered other := by
          rw [entered, hne other heq]
          rfl
        rw [hother, if_neg heq, add_zero]
        apply Finset.sum_congr rfl
        intro round _
        rw [hadded, if_neg fun hand => heq hand.1]
    rw [hpast0 9 (by omega), hbefore]
    simp only [hrest, Finset.sum_add_distrib, Finset.sum_ite_eq', Finset.mem_univ, if_true]
    rw [← hcounted.state]
    show s.checksumState + value + _ = _
    ring
  · intro other hplace
    by_cases heq : other = rank
    · subst heq
      rw [hself] at hplace
      have hplace' : 6 ≤ p.place := hplace
      omega
    · rw [hne other heq] at hplace ⊢
      have hother := h.counter (s.ranks other).round other rank (by rw [ChecksumRank.time]; omega)
      rw [hsame _ (by omega)]
      exact hcounted.globalState other hplace
  · intro other round read hread
    obtain ⟨hall, hvalue⟩ := hcounted.read other round read hread
    refine ⟨fun another => ?_, ?_⟩
    · by_cases heq : another = rank
      · subst heq
        have hlt := hall another
        omega
      · rw [entered, hne another heq]
        exact hall another
    · have hlt := hall rank
      rw [hsame _ (by omega)]
      exact hvalue

/-! ### Runs -/

theorem phase_init (rank : Fin worldSize) : ((init : ChecksumRounds worldSize).ranks rank).phase =
    if rank = 0 then .start else .addState :=
  rfl

theorem time_init_le (rank : Fin worldSize) : ((init : ChecksumRounds worldSize).ranks rank).time ≤ 1 := by
  show 10 * 0 + (if rank = 0 then ChecksumPhase.start else .addState).place ≤ 1
  split_ifs <;> decide

theorem past_init {place : ℕ} (hplace : 2 ≤ place) (rank : Fin worldSize) :
    ((init : ChecksumRounds worldSize).ranks rank).past place = 0 := by
  rw [ChecksumRank.past, phase_init]
  split_ifs with hzero hle
  · exact absurd hle (by simp [ChecksumPhase.place]; omega)
  · rfl
  · rename_i hle
    exact absurd hle (by simp [ChecksumPhase.place]; omega)
  · rfl

theorem paced_init : (init : ChecksumRounds worldSize).Paced where
  others rank hne := by
    rw [phase_init, if_neg hne]
    decide
  start _ := rfl
  counter k rank other h := by
    have hle := time_init_le rank
    omega
  counter2 k rank other h := by
    have hle := time_init_le rank
    omega
  reset k rank h := by
    have hle := time_init_le (0 : Fin worldSize)
    omega

theorem counted_init : (init : ChecksumRounds worldSize).Counted := by
  constructor
  · rw [past_init (by omega)]
    simp only [past_init (show 2 ≤ 4 by omega)]
    simp [init]
  · have htime : ((init : ChecksumRounds worldSize).ranks 0).time = 0 := by
      rw [ChecksumRank.time, phase_init, if_pos rfl]
      rfl
    rw [past_init (by omega), if_pos htime]
    simp only [past_init (show 2 ≤ 7 by omega)]
    simp [init]
  · rw [past_init (by omega)]
    simp only [entered, past_init (show 2 ≤ 2 by omega)]
    simp [init]
  · intro rank hplace
    rw [phase_init] at hplace
    split_ifs at hplace
    · exact absurd hplace (by decide)
    · exact absurd hplace (by decide)
  · exact nofun

/-- Where all steps are careful, the ranks agree in every state. -/
theorem agree_of_careful {ls : List (ChecksumLabel worldSize)} (hcareful : Machine.Guarded next Careful init ls)
    (hrun : runFromInit ls = some s) : s.Agree := by
  have hinv : s.Paced ∧ s.Counted := by
    apply Machine.guarded_run_induction (P := fun s => s.Paced ∧ s.Counted) _ ⟨paced_init, counted_init⟩
      hcareful hrun
    rintro s l s' ⟨hpaced, hcounted⟩ hG hnext
    cases l with
    | addState rank value =>
      rw [next] at hnext
      split_ifs at hnext with hphase
      cases hnext
      exact ⟨paced_addState hpaced hphase value, counted_addState hpaced hcounted hphase value⟩
    | advance rank => exact ⟨paced_advance hpaced hcounted hG hnext, counted_advance hpaced hcounted hnext⟩
  exact agree hinv.1 hinv.2

local instance roundRanks : NeZero 2 := inferInstance

/-- Two ranks go through a round. -/
def oneRound : List (ChecksumLabel 2) :=
  [.advance 0, .addState 0 1, .addState 1 0, .advance 0, .advance 0, .advance 1, .advance 0, .advance 1,
    .advance 0, .advance 1, .advance 0, .advance 1]

/-- A second round, after rank 0 has reset the counters. -/
def twoRounds : List (ChecksumLabel 2) :=
  oneRound ++ [ChecksumLabel.advance 1, .advance 0, .advance 0, .advance 0, .addState 1 1, .addState 0 1, .advance 0,
    .advance 0, .advance 1, .advance 1, .advance 1]

theorem agree_twoRounds : ∃ s, runFromInit twoRounds = some s ∧ s.read 1 1 = some 2 ∧ s.Agree := by
  have hrun : ((runFromInit twoRounds).any fun s => decide (s.read 1 1 = some 2)) = true := by
    decide +kernel
  obtain ⟨s, hs, hread⟩ := (Option.any_eq_true _ _).mp hrun
  refine ⟨s, hs, of_decide_eq_true hread, agree_of_careful ?_ hs⟩
  decide +kernel

/-- Rank 1 goes on to the second round before rank 0 has reset the counters. -/
def fastRank : List (ChecksumLabel 2) :=
  oneRound ++ [ChecksumLabel.advance 1, .addState 1 0, .advance 1, .advance 1, .advance 1]

/-- Rank 0 resets `counter2` before rank 1 has seen that it was full. -/
def slowRank : List (ChecksumLabel 2) :=
  oneRound ++ [ChecksumLabel.advance 0, .advance 0, .advance 0, .addState 0 0, .advance 0, .advance 0]

theorem not_agree_fastRank : (∃ s, runFromInit fastRank = some s ∧ ¬ s.Agree) ∧
    ∃ s, runFromInit slowRank = some s ∧ s.Stuck := by
  have hfast : ((runFromInit fastRank).any fun s =>
      decide (s.read 1 1 = some 1 ∧ s.entered 0 = 1)) = true := by
    decide +kernel
  have hslow : ((runFromInit slowRank).any fun s => decide s.Stuck) = true := by
    decide +kernel
  constructor
  · obtain ⟨s, hs, h⟩ := (Option.any_eq_true _ _).mp hfast
    obtain ⟨hread, hentered⟩ := of_decide_eq_true h
    refine ⟨s, hs, fun hagree => ?_⟩
    -- Rank 0 has not entered the round in which rank 1 has read.
    have hlt := (hagree.read 1 1 1 hread).1 0
    rw [hentered] at hlt
    exact Nat.lt_irrefl 1 hlt
  · obtain ⟨s, hs, h⟩ := (Option.any_eq_true _ _).mp hslow
    exact ⟨s, hs, of_decide_eq_true h⟩

end ChecksumRounds

end TorchNpu.SilentCheck
