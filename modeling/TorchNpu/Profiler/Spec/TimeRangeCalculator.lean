/-
  What the overlap of communication and computation consists of.

  Times are compared away from the ends of the intervals.  The ranges are visited by their starts; up to the
  end of `min_range` everything is decided, except that a range of the other kind may still cut off a part of
  it (`Sweep.Tracks`).
-/
import Mathlib.Order.MinMax
import TorchNpu.Lib.SortByKey
import TorchNpu.Profiler.TimeRangeCalculator

namespace TorchNpu.Profiler

variable {T : Type*} [LinearOrder T]

/-! ### Times in ranges -/

/-- A range holds the time. -/
def TimeRange.Holds (r : TimeRange T) (t : T) : Prop :=
  r.startTs ≤ t ∧ t ≤ r.endTs

def TimeRange.Proper (r : TimeRange T) : Prop :=
  r.startTs ≤ r.endTs

/-- The time lies in one of the ranges. -/
def Covered (ranges : List (TimeRange T)) (t : T) : Prop :=
  ∃ r ∈ ranges, r.Holds t

/-- The time lies in one of the ranges of a kind. -/
def CoveredBy (communication : Bool) (ranges : List (TimeRange T)) (t : T) : Prop :=
  ∃ r ∈ ranges, r.communication = communication ∧ r.Holds t

/-- The time is the start or the end of a range. -/
def IsEndpoint (ranges : List (TimeRange T)) (t : T) : Prop :=
  ∃ r ∈ ranges, t = r.startTs ∨ t = r.endTs

/-- The time lies between the first start and the last end. -/
def InHull (ranges : List (TimeRange T)) (t : T) : Prop :=
  (∃ r ∈ ranges, r.startTs ≤ t) ∧ ∃ r ∈ ranges, t ≤ r.endTs

/-- One range ends before the other starts. -/
def Before (r r' : TimeRange T) : Prop :=
  r.endTs < r'.startTs

variable {ranges ranges' : List (TimeRange T)} {r : TimeRange T} {b : Bool} {t : T}

@[simp]
theorem covered_nil : ¬ Covered ([] : List (TimeRange T)) t := by
  simp [Covered]

@[simp]
theorem covered_cons : Covered (r :: ranges) t ↔ r.Holds t ∨ Covered ranges t := by
  simp [Covered]

@[simp]
theorem covered_append : Covered (ranges ++ ranges') t ↔ Covered ranges t ∨ Covered ranges' t := by
  simp [Covered, or_and_right, exists_or]

@[simp]
theorem coveredBy_append_singleton :
    CoveredBy b (ranges ++ [r]) t ↔ CoveredBy b ranges t ∨ r.communication = b ∧ r.Holds t := by
  simp [CoveredBy, or_and_right, exists_or]

omit [LinearOrder T] in
@[simp]
theorem isEndpoint_append_singleton :
    IsEndpoint (ranges ++ [r]) t ↔ IsEndpoint ranges t ∨ t = r.startTs ∨ t = r.endTs := by
  simp [IsEndpoint, or_and_right, exists_or]

theorem covered_append_singleton : Covered (ranges ++ [r]) t ↔ Covered ranges t ∨ r.Holds t := by
  rw [covered_append, covered_cons, or_iff_left covered_nil]

theorem inHull_append_singleton :
    InHull (ranges ++ [r]) t ↔
      ((∃ x ∈ ranges, x.startTs ≤ t) ∨ r.startTs ≤ t) ∧ ((∃ x ∈ ranges, t ≤ x.endTs) ∨ t ≤ r.endTs) := by
  simp [InHull, or_and_right, exists_or]

theorem covered_iff_coveredBy : Covered ranges t ↔ CoveredBy true ranges t ∨ CoveredBy false ranges t := by
  constructor
  · rintro ⟨r, hr, hholds⟩
    cases hb : r.communication with
    | true => exact .inl ⟨r, hr, hb, hholds⟩
    | false => exact .inr ⟨r, hr, hb, hholds⟩
  · rintro (⟨r, hr, -, hholds⟩ | ⟨r, hr, -, hholds⟩) <;> exact ⟨r, hr, hholds⟩

namespace RangeCaculator

theorem perm_sortedByStart (timeRangeList : List (TimeRange T)) :
    (sortedByStart timeRangeList).Perm timeRangeList :=
  List.perm_insertionSort _ _

theorem sorted_sortedByStart (timeRangeList : List (TimeRange T)) :
    (sortedByStart timeRangeList).Pairwise fun x y => x.startTs ≤ y.startTs :=
  SortByKey.pairwise_insertionSort_on TimeRange.startTs timeRangeList

/-! ### Merging -/

/-- The ranges are those of the list, put together where they touch. -/
structure Merges (timeRangeList ranges : List (TimeRange T)) : Prop where
  covered : ∀ t, Covered ranges t ↔ Covered timeRangeList t
  before : ranges.Pairwise Before
  proper : ∀ r ∈ ranges, r.Proper
  startTs : ∀ r ∈ ranges, ∃ x ∈ timeRangeList, x.startTs = r.startTs
  endTs : ∀ r ∈ ranges, ∃ x ∈ timeRangeList, x.endTs = r.endTs
  communication : ∀ r ∈ ranges, ∃ x ∈ timeRangeList, x.communication = r.communication

variable {current : TimeRange T} {rest : List (TimeRange T)}

/-- A range that touches the current one extends it. -/
theorem holds_extended (hstart : current.startTs ≤ r.startTs)
    (htouch : r.startTs ≤ current.endTs) :
    ({ current with endTs := max current.endTs r.endTs } : TimeRange T).Holds t ↔ current.Holds t ∨ r.Holds t := by
  constructor
  · rintro ⟨hle, hmax⟩
    rcases le_total t current.endTs with hend | hend
    · exact .inl ⟨hle, hend⟩
    · rcases le_max_iff.mp hmax with hmax | hmax
      · exact .inl ⟨hle, hmax⟩
      · exact .inr ⟨htouch.trans hend, hmax⟩
  · rintro (⟨hle, hend⟩ | ⟨hle, hend⟩)
    · exact ⟨hle, le_max_of_le_left hend⟩
    · exact ⟨hstart.trans hle, le_max_of_le_right hend⟩

/-- The loop of a sorted list.  The induction is on the list, for every current range that starts before it. -/
theorem merges_mergeLoop (hcurrent : current.Proper) (hproper : ∀ r ∈ rest, r.Proper)
    (hsorted : (current :: rest).Pairwise fun x y => x.startTs ≤ y.startTs) :
    Merges (current :: rest) (mergeLoop current rest) ∧
      ∀ r ∈ mergeLoop current rest, current.startTs ≤ r.startTs := by
  induction rest generalizing current with
  | nil =>
    refine ⟨⟨fun t => Iff.rfl, List.pairwise_singleton _ _, ?_, ?_, ?_, ?_⟩, ?_⟩
    · simpa [mergeLoop] using hcurrent
    all_goals simp [mergeLoop]
  | cons r rest ih =>
    rw [List.forall_mem_cons] at hproper
    obtain ⟨hstart, hsorted⟩ := List.pairwise_cons.mp hsorted
    have hr := hstart r (by simp)
    rw [mergeLoop]
    split_ifs with htouch
    · set extended : TimeRange T := { current with endTs := max current.endTs r.endTs } with hextended
      have hcurrent' : extended.Proper := le_max_of_le_left hcurrent
      have hstart' : ∀ x ∈ rest, current.startTs ≤ x.startTs := fun x hx => hstart x (by simp [hx])
      obtain ⟨hmerges, hfirst⟩ := @ih extended hcurrent' hproper.2
        (List.pairwise_cons.mpr ⟨hstart', (List.pairwise_cons.mp hsorted).2⟩)
      refine ⟨⟨fun t => ?_, hmerges.before, hmerges.proper, fun x hx => ?_, fun x hx => ?_, fun x hx => ?_⟩,
        hfirst⟩
      · rw [hmerges.covered, covered_cons, covered_cons, covered_cons,
          holds_extended hr htouch, or_assoc]
      · obtain ⟨y, hy, heq⟩ := hmerges.startTs x hx
        rcases List.mem_cons.mp hy with rfl | hy
        · exact ⟨current, by simp, heq⟩
        · exact ⟨y, by simp [hy], heq⟩
      · obtain ⟨y, hy, heq⟩ := hmerges.endTs x hx
        rcases List.mem_cons.mp hy with rfl | hy
        · rcases max_choice current.endTs r.endTs with hmax | hmax
          · exact ⟨current, by simp, hmax.symm.trans heq⟩
          · exact ⟨r, by simp, hmax.symm.trans heq⟩
        · exact ⟨y, by simp [hy], heq⟩
      · obtain ⟨y, hy, heq⟩ := hmerges.communication x hx
        rcases List.mem_cons.mp hy with rfl | hy
        · exact ⟨current, by simp, heq⟩
        · exact ⟨y, by simp [hy], heq⟩
    · obtain ⟨hmerges, hfirst⟩ := ih hproper.1 hproper.2 hsorted
      have hbefore : ∀ x ∈ mergeLoop r rest, Before current x := fun x hx =>
        (not_le.mp htouch).trans_le (hfirst x hx)
      refine ⟨⟨fun t => ?_, List.pairwise_cons.mpr ⟨hbefore, hmerges.before⟩, ?_, ?_, ?_, ?_⟩, ?_⟩
      · rw [covered_cons, hmerges.covered, ← covered_cons]
      · exact List.forall_mem_cons.mpr ⟨hcurrent, hmerges.proper⟩
      · exact List.forall_mem_cons.mpr ⟨⟨current, by simp, rfl⟩, fun x hx =>
          (hmerges.startTs x hx).imp fun y hy => ⟨by simp [hy.1], hy.2⟩⟩
      · exact List.forall_mem_cons.mpr ⟨⟨current, by simp, rfl⟩, fun x hx =>
          (hmerges.endTs x hx).imp fun y hy => ⟨by simp [hy.1], hy.2⟩⟩
      · exact List.forall_mem_cons.mpr ⟨⟨current, by simp, rfl⟩, fun x hx =>
          (hmerges.communication x hx).imp fun y hy => ⟨by simp [hy.1], hy.2⟩⟩
      · exact List.forall_mem_cons.mpr ⟨le_rfl, fun x hx => hr.trans (hfirst x hx)⟩

theorem Merges.perm {l l' : List (TimeRange T)} (hperm : l.Perm l') (h : Merges l ranges) : Merges l' ranges where
  covered t := (h.covered t).trans (by simp only [Covered, hperm.mem_iff])
  before := h.before
  proper := h.proper
  startTs r hr := (h.startTs r hr).imp fun _ hx => ⟨hperm.mem_iff.mp hx.1, hx.2⟩
  endTs r hr := (h.endTs r hr).imp fun _ hx => ⟨hperm.mem_iff.mp hx.1, hx.2⟩
  communication r hr := (h.communication r hr).imp fun _ hx => ⟨hperm.mem_iff.mp hx.1, hx.2⟩

theorem merges_mergeContinuousIntervals {timeRangeList : List (TimeRange T)}
    (hproper : ∀ r ∈ timeRangeList, r.Proper) :
    Merges timeRangeList (mergeContinuousIntervals timeRangeList) := by
  have hperm := perm_sortedByStart timeRangeList
  have hsorted := sorted_sortedByStart timeRangeList
  apply Merges.perm hperm
  rw [mergeContinuousIntervals]
  cases hlist : sortedByStart timeRangeList with
  | nil => exact ⟨fun t => Iff.rfl, List.Pairwise.nil, by simp, by simp, by simp, by simp⟩
  | cons current rest =>
    rw [hlist] at hperm hsorted
    have hproper' : ∀ r ∈ current :: rest, r.Proper := fun r hr => hproper r (hperm.mem_iff.mp hr)
    rw [List.forall_mem_cons] at hproper'
    -- The first round compares the first range with itself.
    dsimp only
    rw [mergeLoop, if_pos (show current.startTs ≤ current.endTs from hproper'.1), max_self]
    exact (merges_mergeLoop hproper'.1 hproper'.2 hsorted).1
/-! ### The sweep -/

/-- After the ranges of `done`.  A further range of the kind of `min_range` comes after it, and one of the other
kind after its start; what `min_range` holds after its start is decided by its kind. -/
structure Sweep.Tracks (s : Sweep T) (done rest : List (TimeRange T)) : Prop where
  proper : s.minRange.Proper
  next : ∀ n ∈ rest, if n.communication = s.minRange.communication then Before s.minRange n
    else s.minRange.startTs ≤ n.startTs
  started : ∃ r ∈ done, r.startTs ≤ s.minRange.startTs
  ended : ∃ r ∈ done, r.endTs = s.minRange.endTs
  endTs_le : ∀ r ∈ done, r.endTs ≤ s.minRange.endTs
  decided : ∀ t, s.minRange.startTs < t → t ≤ s.minRange.endTs →
    (CoveredBy false done t ↔ s.minRange.communication = false) ∧
      (s.minRange.communication = true → CoveredBy true done t)
  pure_le : ∀ r ∈ s.pureCommunicationRange, r.Proper ∧ r.endTs ≤ s.minRange.startTs
  free_le : ∀ r ∈ s.freeTimeRange, r.Proper ∧ r.endTs ≤ s.minRange.startTs
  pure : ∀ t, ¬ IsEndpoint done t →
    (Covered s.pureCommunication t ↔ CoveredBy true done t ∧ ¬ CoveredBy false done t)
  free : ∀ t, ¬ IsEndpoint done t → (Covered s.freeTimeRange t ↔ InHull done t ∧ ¬ Covered done t)

/-- Two ranges of one kind do not touch, and the ranges are sorted by their starts. -/
def Apart (ranges : List (TimeRange T)) : Prop :=
  ranges.Pairwise fun r n => r.startTs ≤ n.startTs ∧ (r.communication = n.communication → Before r n)

namespace Sweep

variable {s : Sweep T} {done rest : List (TimeRange T)} {n : TimeRange T}

/-- `min_range` becomes a pure communication if it is of one. -/
def pureUpTo (s : Sweep T) (start «end» : T) : List (TimeRange T) :=
  if s.minRange.communication then [generateTimeRange start «end»] else []

omit [LinearOrder T] in
theorem appendPure_eq (start «end» : T) :
    s.appendPure start «end» =
      { s with pureCommunicationRange := s.pureCommunicationRange ++ s.pureUpTo start «end» } := by
  rw [appendPure, pureUpTo]
  split_ifs with hkind
  · rfl
  · rw [List.append_nil]

theorem next_of_gap (hgap : s.minRange.endTs < n.startTs) :
    s.next n =
      { minRange := n
        pureCommunicationRange :=
          s.pureCommunicationRange ++ s.pureUpTo s.minRange.startTs s.minRange.endTs
        freeTimeRange := s.freeTimeRange ++ [generateTimeRange s.minRange.endTs n.startTs] } := by
  rw [next, appendPure_eq]
  dsimp only
  rw [if_pos hgap]

/-- What is left of `min_range` and of a range of the other kind after the part that both hold. -/
def remainder (s : Sweep T) (n : TimeRange T) : TimeRange T where
  startTs := min s.minRange.endTs n.endTs
  endTs := max s.minRange.endTs n.endTs
  communication := if s.minRange.endTs < n.endTs then n.communication else s.minRange.communication

theorem next_of_touch (htouch : n.startTs ≤ s.minRange.endTs)
    (hkind : n.communication ≠ s.minRange.communication) :
    s.next n =
      { minRange := s.remainder n
        pureCommunicationRange := s.pureCommunicationRange ++ s.pureUpTo s.minRange.startTs n.startTs
        freeTimeRange := s.freeTimeRange } := by
  have hn : n.communication = !s.minRange.communication := by
    cases hmin : s.minRange.communication <;> simpa [hmin] using hkind
  rw [next, remainder]
  dsimp only
  rw [if_neg (not_lt.mpr htouch)]
  simp only [appendPure_eq]
  rcases lt_or_ge s.minRange.endTs n.endTs with hlt | hge
  · rw [if_pos hlt, if_pos hlt, min_eq_left hlt.le, max_eq_right hlt.le, hn]
    cases hmin : s.minRange.communication <;> rfl
  · rw [if_neg (not_lt.mpr hge), if_neg (not_lt.mpr hge), min_eq_right hge, max_eq_left hge, hn]
    cases hmin : s.minRange.communication <;> rfl

theorem startTs_le_remainder (htouch : n.startTs ≤ s.minRange.endTs) (hn : n.Proper) : n.startTs ≤ (s.remainder n).startTs :=
  le_min htouch hn

theorem covered_pureUpTo {start «end» : T} :
    Covered (s.pureUpTo start «end») t ↔ s.minRange.communication = true ∧ start ≤ t ∧ t ≤ «end» := by
  rw [pureUpTo]
  split_ifs with hkind <;> simp [hkind, generateTimeRange, TimeRange.Holds]

theorem covered_pureCommunication :
    Covered s.pureCommunication t ↔
      Covered s.pureCommunicationRange t ∨ s.minRange.communication = true ∧ s.minRange.Holds t := by
  rw [pureCommunication, covered_append]
  split_ifs with hkind <;> simp [hkind]

namespace Tracks

theorem not_coveredBy (hs : s.Tracks done rest) (ht : s.minRange.endTs < t) : ¬ CoveredBy b done t := by
  rintro ⟨r, hr, -, -, hle⟩
  exact absurd (hle.trans (hs.endTs_le r hr)) (not_le.mpr ht)

theorem not_covered_pure (hs : s.Tracks done rest) (ht : s.minRange.startTs < t) :
    ¬ Covered s.pureCommunicationRange t := by
  rintro ⟨r, hr, -, hle⟩
  exact absurd (hle.trans (hs.pure_le r hr).2) (not_le.mpr ht)

theorem not_covered_free (hs : s.Tracks done rest) (ht : s.minRange.startTs < t) :
    ¬ Covered s.freeTimeRange t := by
  rintro ⟨r, hr, -, hle⟩
  exact absurd (hle.trans (hs.free_le r hr).2) (not_le.mpr ht)

theorem ne_endTs (hs : s.Tracks done rest) (ht : ¬ IsEndpoint done t) : t ≠ s.minRange.endTs := by
  rintro rfl
  obtain ⟨r, hr, heq⟩ := hs.ended
  exact ht ⟨r, hr, .inr heq.symm⟩

theorem startTs_le (hs : s.Tracks done (n :: rest)) : s.minRange.startTs ≤ n.startTs := by
  have hnext := hs.next n (by simp)
  split_ifs at hnext with hkind
  · exact hs.proper.trans hnext.le
  · exact hnext

/-! #### A range that touches -/

section touch

/-- Before the start of the remainder, both ranges hold. -/
theorem holds_of_lt_remainder (hs : s.Tracks done (n :: rest)) (hle : n.startTs ≤ t) (ht : t < (s.remainder n).startTs) :
    s.minRange.Holds t ∧ n.Holds t := by
  obtain ⟨hmin, hn⟩ := lt_min_iff.mp ht
  exact ⟨⟨hs.startTs_le.trans hle, hmin.le⟩, hle, hn.le⟩

variable (hs : s.Tracks done (n :: rest)) (htouch : n.startTs ≤ s.minRange.endTs)

include hs htouch

theorem kind_ne : n.communication ≠ s.minRange.communication := by
  intro hkind
  have hnext := hs.next n (by simp)
  rw [if_pos hkind] at hnext
  exact absurd htouch (not_le.mpr hnext)

/-- After the start of the remainder, just one of the two ranges holds, and the remainder is of its kind. -/
theorem remainder_holds (hn : n.Proper) (ht : (s.remainder n).startTs < t) (hle : t ≤ (s.remainder n).endTs) :
    (s.minRange.Holds t ∧ ¬ n.Holds t ∧ (s.remainder n).communication = s.minRange.communication) ∨
      (n.Holds t ∧ s.minRange.endTs < t ∧ (s.remainder n).communication = n.communication) := by
  have hstart := hs.startTs_le
  rw [remainder] at ht hle ⊢
  dsimp only at ht hle ⊢
  rcases lt_or_ge s.minRange.endTs n.endTs with hlt | hge
  · rw [min_eq_left hlt.le] at ht
    rw [max_eq_right hlt.le] at hle
    rw [if_pos hlt]
    exact .inr ⟨⟨htouch.trans ht.le, hle⟩, ht, rfl⟩
  · rw [min_eq_right hge] at ht
    rw [max_eq_left hge] at hle
    rw [if_neg (not_lt.mpr hge)]
    have hholds : s.minRange.Holds t := ⟨(hstart.trans hn).trans ht.le, hle⟩
    exact .inl ⟨hholds, fun h => absurd h.2 (not_le.mpr ht), rfl⟩

theorem next_remainder (hapart : Apart (n :: rest)) {m : TimeRange T} (hm : m ∈ rest) :
    if m.communication = (s.remainder n).communication then Before (s.remainder n) m
      else (s.remainder n).startTs ≤ m.startTs := by
  have hkind := hs.kind_ne htouch
  have hmin : m.communication = s.minRange.communication → s.minRange.endTs < m.startTs := by
    intro heq
    have hnext := hs.next m (by simp [hm])
    rwa [if_pos heq] at hnext
  have hn : m.communication = n.communication → n.endTs < m.startTs := fun heq =>
    ((List.pairwise_cons.mp hapart).1 m hm).2 heq.symm
  have hor : m.communication = s.minRange.communication ∨ m.communication = n.communication := by
    revert hkind
    cases m.communication <;> cases s.minRange.communication <;> cases n.communication <;> simp
  rw [remainder, Before]
  dsimp only
  rcases lt_or_ge s.minRange.endTs n.endTs with hlt | hge
  · rw [if_pos hlt, min_eq_left hlt.le, max_eq_right hlt.le]
    split_ifs with heq
    · exact hn heq
    · exact (hmin (hor.resolve_right heq)).le
  · rw [if_neg (not_lt.mpr hge), min_eq_right hge, max_eq_left hge]
    split_ifs with heq
    · exact hmin heq
    · exact (hn (hor.resolve_left heq)).le

/-- What the remainder holds after its start. -/
theorem decided_remainder (hn : n.Proper) (ht : (s.remainder n).startTs < t)
    (hle : t ≤ (s.remainder n).endTs) :
    (CoveredBy false (done ++ [n]) t ↔ (s.remainder n).communication = false) ∧
      ((s.remainder n).communication = true → CoveredBy true (done ++ [n]) t) := by
  rw [coveredBy_append_singleton, coveredBy_append_singleton]
  rcases hs.remainder_holds htouch hn ht hle with ⟨⟨-, hmin⟩, hnot, hkind⟩ | ⟨hholds, hlt, hkind⟩
  · have hlt : s.minRange.startTs < t :=
      (hs.startTs_le.trans (startTs_le_remainder htouch hn)).trans_lt ht
    obtain ⟨hfalse, htrue⟩ := hs.decided t hlt hmin
    rw [hkind]
    simpa only [hnot, and_false, or_false] using ⟨hfalse, htrue⟩
  · have hdone := fun b => hs.not_coveredBy (b := b) hlt
    rw [hkind]
    simp only [hdone, hholds, and_true, false_or, iff_self, true_and]
    exact id

/-- Where the new range begins is the end of what is pure so far. -/
theorem covered_pure_touch (hn : n.Proper) (ht : ¬ IsEndpoint (done ++ [n]) t) :
    Covered (s.next n).pureCommunication t ↔
      CoveredBy true (done ++ [n]) t ∧ ¬ CoveredBy false (done ++ [n]) t := by
  rw [isEndpoint_append_singleton, not_or, not_or] at ht
  obtain ⟨hdone, hneStart, hneEnd⟩ := ht
  have hold := hs.pure t hdone
  have hremainder := startTs_le_remainder htouch hn
  rw [covered_pureCommunication] at hold
  rw [covered_pureCommunication, next_of_touch htouch (hs.kind_ne htouch), covered_append, covered_pureUpTo,
    coveredBy_append_singleton, coveredBy_append_singleton]
  dsimp only
  rcases lt_or_gt_of_ne hneStart with hlt | hgt
  · -- before the new range
    have hnot : ¬ n.Holds t := fun h => absurd h.1 (not_le.mpr hlt)
    have hnot' : ¬ (s.remainder n).Holds t := fun h => absurd (hremainder.trans h.1) (not_le.mpr hlt)
    have hholds : s.minRange.Holds t ↔ s.minRange.startTs ≤ t ∧ t ≤ n.startTs :=
      and_congr_right fun _ => iff_of_true (hlt.le.trans htouch) hlt.le
    rw [hholds] at hold
    simp only [hnot, hnot', and_false, or_false]
    exact hold
  · have hmin : s.minRange.startTs < t := hs.startTs_le.trans_lt hgt
    simp only [hs.not_covered_pure hmin, not_le.mpr hgt, and_false, false_or] at hold ⊢
    rcases lt_or_ge t (s.remainder n).startTs with hlt | hge
    · -- both hold, so that one of them is a computation
      obtain ⟨hholds, hholds'⟩ := hs.holds_of_lt_remainder hgt.le hlt
      have hnot' : ¬ (s.remainder n).Holds t := fun h => absurd h.1 (not_le.mpr hlt)
      have hfalse := (hs.decided t hmin hholds.2).1
      have hkind := hs.kind_ne htouch
      have hcompute : CoveredBy false done t ∨ n.communication = false := by
        rw [hfalse]
        revert hkind
        cases s.minRange.communication <;> cases n.communication <;> simp
      simp only [hnot', hholds', and_false, and_true, false_iff, not_and, not_not]
      exact fun _ => hcompute
    · have hgt' : (s.remainder n).startTs < t := by
        refine lt_of_le_of_ne hge ?_
        rcases min_choice s.minRange.endTs n.endTs with hmin | hmin
        · exact fun heq => hs.ne_endTs hdone (heq.symm.trans hmin)
        · exact fun heq => hneEnd (heq.symm.trans hmin)
      rcases le_or_gt t (s.remainder n).endTs with hle | hlt
      · have hholds'' : (s.remainder n).Holds t := ⟨hge, hle⟩
        rcases hs.remainder_holds htouch hn hgt' hle with ⟨hholds, hnot, hkind⟩ | ⟨hholds, hlt, hkind⟩
        · simp only [hholds'', hkind, hnot, hholds, and_true, and_false, or_false] at hold ⊢
          exact hold
        · have hnone := fun b => hs.not_coveredBy (b := b) hlt
          simp only [hholds'', hkind, hholds, hnone, and_true, false_or]
          cases n.communication <;> simp
      · -- after everything
        obtain ⟨hltMin, hltN⟩ := max_lt_iff.mp hlt
        have hnone := fun b => hs.not_coveredBy (b := b) hltMin
        have hnot : ¬ n.Holds t := fun h => absurd h.2 (not_le.mpr hltN)
        have hnot' : ¬ (s.remainder n).Holds t := fun h => absurd h.2 (not_le.mpr hlt)
        simp only [hnone, hnot, hnot', and_false, or_self, false_and]

/-- A range that touches adds no free time. -/
theorem free_touch (ht : ¬ IsEndpoint (done ++ [n]) t) :
    Covered s.freeTimeRange t ↔ InHull (done ++ [n]) t ∧ ¬ Covered (done ++ [n]) t := by
  rw [isEndpoint_append_singleton, not_or, not_or] at ht
  obtain ⟨hdone, hneStart, -⟩ := ht
  rw [hs.free t hdone, covered_append_singleton, inHull_append_singleton, not_or]
  constructor
  · rintro ⟨⟨hfirst, hlast⟩, hnot⟩
    refine ⟨⟨.inl hfirst, .inl hlast⟩, hnot, fun hholds => ?_⟩
    -- What is free ends before `min_range` starts.
    have hfree := (hs.free t hdone).mpr ⟨⟨hfirst, hlast⟩, hnot⟩
    exact hs.not_covered_free (hs.startTs_le.trans_lt (lt_of_le_of_ne hholds.1 (Ne.symm hneStart))) hfree
  · rintro ⟨⟨hfirst, hlast⟩, hnot, hnotN⟩
    refine ⟨⟨?_, ?_⟩, hnot⟩
    · rcases hfirst with hfirst | hle
      · exact hfirst
      · exact hs.started.imp fun r hr => ⟨hr.1, (hr.2.trans hs.startTs_le).trans hle⟩
    · rcases hlast with hlast | hle
      · exact hlast
      · have hlt : t < n.startTs := lt_of_not_ge fun hge => hnotN ⟨hge, hle⟩
        exact hs.ended.imp fun r hr => ⟨hr.1, hlt.le.trans (htouch.trans hr.2.ge)⟩

theorem touch (hn : n.Proper) (hapart : Apart (n :: rest)) : (s.next n).Tracks (done ++ [n]) rest := by
  have hremainder := startTs_le_remainder htouch hn
  have hmin := hs.startTs_le.trans hremainder
  have hpure : ∀ t, ¬ IsEndpoint (done ++ [n]) t → _ := fun t => hs.covered_pure_touch htouch hn
  rw [next_of_touch htouch (hs.kind_ne htouch)] at hpure ⊢
  refine ⟨?_, ?_, ?_, ?_, ?_, ?_, ?_, ?_, hpure, fun t => hs.free_touch htouch⟩
  · exact min_le_max
  · exact fun m hm => hs.next_remainder htouch hapart hm
  · exact hs.started.imp fun r hr => ⟨by simp [hr.1], hr.2.trans hmin⟩
  · rcases max_choice s.minRange.endTs n.endTs with hmax | hmax
    · exact hs.ended.imp fun r hr => ⟨by simp [hr.1], hr.2.trans hmax.symm⟩
    · exact ⟨n, by simp, hmax.symm⟩
  · intro r hr
    rcases List.mem_append.mp hr with hr | hr
    · exact le_max_of_le_left (hs.endTs_le r hr)
    · rw [List.mem_singleton.mp hr]
      exact le_max_right _ _
  · exact fun t ht hle => hs.decided_remainder htouch hn ht hle
  · intro r hr
    rcases List.mem_append.mp hr with hr | hr
    · exact ⟨(hs.pure_le r hr).1, (hs.pure_le r hr).2.trans hmin⟩
    · rw [pureUpTo] at hr
      split_ifs at hr
      · rw [List.mem_singleton.mp hr]
        exact ⟨hs.startTs_le, hremainder⟩
      · exact absurd hr List.not_mem_nil
  · exact fun r hr => ⟨(hs.free_le r hr).1, (hs.free_le r hr).2.trans hmin⟩

end touch

/-! #### A range after a gap -/

section gap

variable (hs : s.Tracks done (n :: rest)) (hgap : s.minRange.endTs < n.startTs)

include hs hgap

/-- The ranges up to the gap end before it. -/
theorem not_holds_of_coveredBy (hcovered : CoveredBy b done t) : ¬ n.Holds t := by
  obtain ⟨r, hr, -, -, hle⟩ := hcovered
  exact fun hholds => absurd ((hle.trans (hs.endTs_le r hr)).trans_lt hgap) (not_lt.mpr hholds.1)

theorem covered_pure_gap (ht : ¬ IsEndpoint (done ++ [n]) t) :
    Covered (s.next n).pureCommunication t ↔
      CoveredBy true (done ++ [n]) t ∧ ¬ CoveredBy false (done ++ [n]) t := by
  rw [isEndpoint_append_singleton, not_or] at ht
  have hold := hs.pure t ht.1
  rw [covered_pureCommunication] at hold
  rw [covered_pureCommunication, next_of_gap hgap, covered_append, covered_pureUpTo,
    coveredBy_append_singleton, coveredBy_append_singleton]
  dsimp only
  rw [← TimeRange.Holds, hold]
  by_cases hholds : n.Holds t
  · have hnone : ∀ b, ¬ CoveredBy b done t := fun b hcovered => hs.not_holds_of_coveredBy hgap hcovered hholds
    simp only [hnone, hholds, and_true, false_and, false_or]
    cases n.communication <;> simp
  · simp only [hholds, and_false, or_false]

theorem free_gap (hn : n.Proper) (ht : ¬ IsEndpoint (done ++ [n]) t) :
    Covered (s.freeTimeRange ++ [generateTimeRange s.minRange.endTs n.startTs]) t ↔
      InHull (done ++ [n]) t ∧ ¬ Covered (done ++ [n]) t := by
  rw [isEndpoint_append_singleton, not_or, not_or] at ht
  obtain ⟨hdone, hneStart, hneEnd⟩ := ht
  have hne := hs.ne_endTs hdone
  have hcovered : Covered (s.freeTimeRange ++ [generateTimeRange s.minRange.endTs n.startTs]) t ↔
      Covered s.freeTimeRange t ∨ s.minRange.endTs ≤ t ∧ t ≤ n.startTs := covered_append_singleton
  rw [hcovered, hs.free t hdone, covered_append_singleton, inHull_append_singleton, not_or]
  constructor
  · rintro (⟨⟨hfirst, hlast⟩, hnot⟩ | ⟨hge, hle⟩)
    · refine ⟨⟨.inl hfirst, .inl hlast⟩, hnot, fun hholds => ?_⟩
      obtain ⟨r, hr, hle⟩ := hlast
      exact absurd ((hle.trans (hs.endTs_le r hr)).trans_lt hgap) (not_lt.mpr hholds.1)
    · have hlt : s.minRange.endTs < t := lt_of_le_of_ne hge (Ne.symm hne)
      have hnone : ¬ Covered done t := by
        rw [covered_iff_coveredBy, not_or]
        exact ⟨hs.not_coveredBy hlt, hs.not_coveredBy hlt⟩
      have hfirst : ∃ r ∈ done, r.startTs ≤ t :=
        hs.started.imp fun r hr => ⟨hr.1, (hr.2.trans hs.proper).trans hge⟩
      exact ⟨⟨.inl hfirst, .inr (hle.trans hn)⟩, hnone, fun hholds => hneStart (le_antisymm hle hholds.1)⟩
  · rintro ⟨⟨hfirst, hlast⟩, hnot, hnotN⟩
    rcases lt_or_gt_of_ne hne with hlt | hgt
    · refine .inl ⟨⟨?_, hs.ended.imp fun r hr => ⟨hr.1, hlt.le.trans hr.2.ge⟩⟩, hnot⟩
      exact hfirst.resolve_right fun hle => absurd (hle.trans_lt (hlt.trans hgap)) (lt_irrefl _)
    · refine .inr ⟨hgt.le, le_of_not_gt fun hlt => hnotN ⟨hlt.le, ?_⟩⟩
      rcases hlast with ⟨r, hr, hle⟩ | hle
      · exact absurd (hle.trans (hs.endTs_le r hr)) (not_le.mpr hgt)
      · exact hle

theorem gap (hn : n.Proper) (hapart : Apart (n :: rest)) : (s.next n).Tracks (done ++ [n]) rest := by
  obtain ⟨hhead, -⟩ := List.pairwise_cons.mp hapart
  have hpure : ∀ t, ¬ IsEndpoint (done ++ [n]) t → _ := fun t => hs.covered_pure_gap hgap
  have hstart : s.minRange.startTs ≤ n.startTs := hs.startTs_le
  rw [next_of_gap hgap] at hpure ⊢
  refine ⟨hn, ?_, ⟨n, by simp, le_rfl⟩, ⟨n, by simp, rfl⟩, ?_, ?_, ?_, ?_, hpure, fun t => hs.free_gap hgap hn⟩
  · intro m hm
    dsimp only
    split_ifs with hkind
    · exact (hhead m hm).2 hkind.symm
    · exact (hhead m hm).1
  · intro r hr
    rcases List.mem_append.mp hr with hr | hr
    · exact ((hs.endTs_le r hr).trans hgap.le).trans hn
    · rw [List.mem_singleton.mp hr]
  · intro t ht hle
    have hnone := fun b => hs.not_coveredBy (b := b) (hgap.trans ht)
    have hholds : n.Holds t := ⟨ht.le, hle⟩
    simp only [coveredBy_append_singleton, hnone, hholds, and_true, false_or, iff_self, true_and]
    exact id
  · intro r hr
    rcases List.mem_append.mp hr with hr | hr
    · exact ⟨(hs.pure_le r hr).1, (hs.pure_le r hr).2.trans hstart⟩
    · rw [pureUpTo] at hr
      split_ifs at hr
      · rw [List.mem_singleton.mp hr]
        exact ⟨hs.proper, hgap.le⟩
      · exact absurd hr List.not_mem_nil
  · intro r hr
    rcases List.mem_append.mp hr with hr | hr
    · exact ⟨(hs.free_le r hr).1, (hs.free_le r hr).2.trans hstart⟩
    · rw [List.mem_singleton.mp hr]
      exact ⟨hgap.le, le_rfl⟩

end gap

/-! #### Every range -/

theorem step (hs : s.Tracks done (n :: rest)) (hn : n.Proper) (hapart : Apart (n :: rest)) :
    (s.next n).Tracks (done ++ [n]) rest := by
  rcases lt_or_ge s.minRange.endTs n.startTs with hgap | htouch
  · exact hs.gap hgap hn hapart
  · exact hs.touch htouch hn hapart

theorem foldl (hs : s.Tracks done rest) (hproper : ∀ r ∈ rest, r.Proper) (hapart : Apart rest) :
    (rest.foldl Sweep.next s).Tracks (done ++ rest) [] := by
  induction rest generalizing s done with
  | nil => rwa [List.append_nil]
  | cons n rest ih =>
    rw [List.forall_mem_cons] at hproper
    have htracks := ih (hs.step hproper.1 hapart) hproper.2 (List.pairwise_cons.mp hapart).2
    rwa [List.append_assoc, List.singleton_append] at htracks

/-- Before the loop. -/
theorem singleton (hn : n.Proper) (hapart : Apart (n :: rest)) : Tracks { minRange := n } [n] rest where
  proper := hn
  next m hm := by
    obtain ⟨hstart, hbefore⟩ := (List.pairwise_cons.mp hapart).1 m hm
    split_ifs with hkind
    · exact hbefore hkind.symm
    · exact hstart
  started := ⟨n, by simp, le_rfl⟩
  ended := ⟨n, by simp, rfl⟩
  endTs_le := by simp
  decided t ht hle := by
    have hholds : n.Holds t := ⟨ht.le, hle⟩
    simp [CoveredBy, hholds]
  pure_le := by simp
  free_le := by simp
  pure t _ := by
    rw [covered_pureCommunication]
    cases hkind : n.communication <;> simp [CoveredBy, hkind]
  free t _ := by
    simp [InHull, TimeRange.Holds]

end Tracks

end Sweep

/-! ### The callers -/

/-- An interval of time. -/
structure Interval (T : Type*) [LE T] where
  start : T
  «end» : T
  start_le : start ≤ «end»

def Interval.Holds (i : Interval T) (t : T) : Prop :=
  i.start ≤ t ∧ t ≤ i.end

/-- What the callers pass on for the intervals of a kind. -/
def callerRanges (communication : Bool) (intervals : List (Interval T)) : List (TimeRange T) :=
  mergeContinuousIntervals (intervals.map fun i => generateTimeRange i.start i.end communication)

theorem merges_callerRanges (b : Bool) (intervals : List (Interval T)) :
    Merges (intervals.map fun i => generateTimeRange i.start i.end b) (callerRanges b intervals) := by
  apply merges_mergeContinuousIntervals
  intro r hr
  obtain ⟨i, -, rfl⟩ := List.mem_map.mp hr
  exact i.start_le

theorem communication_callerRanges {intervals : List (Interval T)} (hr : r ∈ callerRanges b intervals) :
    r.communication = b := by
  obtain ⟨x, hx, hkind⟩ := (merges_callerRanges b intervals).communication r hr
  obtain ⟨i, -, rfl⟩ := List.mem_map.mp hx
  exact hkind.symm

theorem covered_callerRanges {intervals : List (Interval T)} :
    Covered (callerRanges b intervals) t ↔ ∃ i ∈ intervals, i.Holds t := by
  rw [(merges_callerRanges b intervals).covered]
  simp only [Covered, List.mem_map, exists_exists_and_eq_and]
  rfl

/-- The list that the loop goes through. -/
theorem apart_sortedByStart (communication compute : List (Interval T)) :
    Apart (sortedByStart (callerRanges true communication ++ callerRanges false compute)) := by
  have hcommunication := merges_callerRanges true communication
  have hcompute := merges_callerRanges false compute
  set ranges := callerRanges true communication ++ callerRanges false compute with hranges
  have hperm := perm_sortedByStart ranges
  have hproper : ∀ r ∈ ranges, r.Proper :=
    List.forall_mem_append.mpr ⟨hcommunication.proper, hcompute.proper⟩
  -- In either order, since the relation has to be symmetric to survive the sort.
  have hpairs : ranges.Pairwise fun r n => r.communication = n.communication → Before r n ∨ Before n r := by
    rw [hranges, List.pairwise_append]
    refine ⟨hcommunication.before.imp fun h _ => .inl h, hcompute.before.imp fun h _ => .inl h, ?_⟩
    intro r hr n hn hkind
    rw [communication_callerRanges hr, communication_callerRanges hn] at hkind
    contradiction
  have hsorted := (hperm.pairwise_iff fun {r n} h heq => (h heq.symm).symm).mpr hpairs
  refine ((sorted_sortedByStart ranges).and hsorted).imp_of_mem ?_
  rintro r n - hn ⟨hstart, hbefore⟩
  refine ⟨hstart, fun hkind => (hbefore hkind).resolve_right fun hafter => ?_⟩
  have hle := hproper n (hperm.mem_iff.mp hn)
  exact absurd (hstart.trans hle) (not_le.mpr hafter)

theorem tracks_computePipelineOverlap {communication compute : List (Interval T)} {r : TimeRange T}
    {rest : List (TimeRange T)}
    (hsorted : sortedByStart (callerRanges true communication ++ callerRanges false compute) = r :: rest) :
    (rest.foldl Sweep.next { minRange := r }).Tracks (r :: rest) [] := by
  have hapart := apart_sortedByStart communication compute
  have hperm := perm_sortedByStart (callerRanges true communication ++ callerRanges false compute)
  rw [hsorted] at hapart hperm
  have hproper : ∀ x ∈ r :: rest, x.Proper := by
    intro x hx
    rcases List.mem_append.mp (hperm.mem_iff.mp hx) with hx | hx
    · exact (merges_callerRanges true communication).proper x hx
    · exact (merges_callerRanges false compute).proper x hx
  rw [List.forall_mem_cons] at hproper
  exact (Sweep.Tracks.singleton hproper.1 hapart).foldl hproper.2 (List.pairwise_cons.mp hapart).2

section callers

variable {intervals communication compute : List (Interval T)}

theorem exists_startTs_le : (∃ r ∈ callerRanges b intervals, r.startTs ≤ t) ↔ ∃ i ∈ intervals, i.start ≤ t := by
  constructor
  · rintro ⟨r, hr, hle⟩
    obtain ⟨x, hx, heq⟩ := (merges_callerRanges b intervals).startTs r hr
    obtain ⟨i, hi, rfl⟩ := List.mem_map.mp hx
    exact ⟨i, hi, heq.trans_le hle⟩
  · rintro ⟨i, hi, hle⟩
    obtain ⟨r, hr, hstart, -⟩ := covered_callerRanges (b := b).mpr ⟨i, hi, le_rfl, i.start_le⟩
    exact ⟨r, hr, hstart.trans hle⟩

theorem exists_le_endTs : (∃ r ∈ callerRanges b intervals, t ≤ r.endTs) ↔ ∃ i ∈ intervals, t ≤ i.end := by
  constructor
  · rintro ⟨r, hr, hle⟩
    obtain ⟨x, hx, heq⟩ := (merges_callerRanges b intervals).endTs r hr
    obtain ⟨i, hi, rfl⟩ := List.mem_map.mp hx
    exact ⟨i, hi, hle.trans_eq heq.symm⟩
  · rintro ⟨i, hi, hle⟩
    obtain ⟨r, hr, -, hend⟩ := covered_callerRanges (b := b).mpr ⟨i, hi, i.start_le, le_rfl⟩
    exact ⟨r, hr, hle.trans hend⟩

theorem isEndpoint_callerRanges (h : IsEndpoint (callerRanges b intervals) t) :
    ∃ i ∈ intervals, t = i.start ∨ t = i.end := by
  obtain ⟨r, hr, rfl | rfl⟩ := h
  · obtain ⟨x, hx, heq⟩ := (merges_callerRanges b intervals).startTs r hr
    obtain ⟨i, hi, rfl⟩ := List.mem_map.mp hx
    exact ⟨i, hi, .inl heq.symm⟩
  · obtain ⟨x, hx, heq⟩ := (merges_callerRanges b intervals).endTs r hr
    obtain ⟨i, hi, rfl⟩ := List.mem_map.mp hx
    exact ⟨i, hi, .inr heq.symm⟩

theorem coveredBy_append_callerRanges :
    CoveredBy b (callerRanges true communication ++ callerRanges false compute) t ↔
      ∃ i ∈ if b then communication else compute, i.Holds t := by
  rw [← covered_callerRanges (b := b)]
  constructor
  · rintro ⟨r, hr, hkind, hholds⟩
    refine ⟨r, ?_, hholds⟩
    rcases List.mem_append.mp hr with hr | hr
    · obtain rfl := (communication_callerRanges hr).symm.trans hkind
      exact hr
    · obtain rfl := (communication_callerRanges hr).symm.trans hkind
      exact hr
  · rintro ⟨r, hr, hholds⟩
    refine ⟨r, List.mem_append.mpr ?_, communication_callerRanges hr, hholds⟩
    cases b with
    | true => exact .inl hr
    | false => exact .inr hr

/-- What the loop goes through. -/
abbrev callerSorted (communication compute : List (Interval T)) : List (TimeRange T) :=
  sortedByStart (callerRanges true communication ++ callerRanges false compute)

variable (communication compute)

theorem mem_callerSorted :
    r ∈ callerSorted communication compute ↔ r ∈ callerRanges true communication ∨ r ∈ callerRanges false compute :=
  (perm_sortedByStart _).mem_iff.trans List.mem_append

theorem coveredBy_callerSorted (b : Bool) (t : T) :
    CoveredBy b (callerSorted communication compute) t ↔
      ∃ i ∈ if b then communication else compute, i.Holds t := by
  rw [← coveredBy_append_callerRanges]
  simp only [CoveredBy, (perm_sortedByStart _).mem_iff]

theorem exists_mem_append (p : Interval T → Prop) :
    (∃ i ∈ communication ++ compute, p i) ↔ (∃ i ∈ communication, p i) ∨ ∃ i ∈ compute, p i := by
  simp only [List.mem_append, or_and_right, exists_or]

theorem covered_callerSorted (t : T) :
    Covered (callerSorted communication compute) t ↔ ∃ i ∈ communication ++ compute, i.Holds t := by
  rw [covered_iff_coveredBy, coveredBy_callerSorted, coveredBy_callerSorted, exists_mem_append]
  rfl

theorem inHull_callerSorted (t : T) :
    InHull (callerSorted communication compute) t ↔
      (∃ i ∈ communication ++ compute, i.start ≤ t) ∧ ∃ i ∈ communication ++ compute, t ≤ i.end := by
  rw [exists_mem_append, exists_mem_append, ← exists_startTs_le (b := true), ← exists_startTs_le (b := false),
    ← exists_le_endTs (b := true), ← exists_le_endTs (b := false)]
  simp only [InHull, mem_callerSorted, or_and_right, exists_or]

theorem not_isEndpoint_callerSorted {t : T} (hne : ∀ i ∈ communication ++ compute, t ≠ i.start ∧ t ≠ i.end) :
    ¬ IsEndpoint (callerSorted communication compute) t := by
  rintro ⟨r, hr, heq⟩
  have hends : ∃ i ∈ communication ++ compute, t = i.start ∨ t = i.end := by
    rw [exists_mem_append]
    rcases (mem_callerSorted _ _).mp hr with hr | hr
    · exact .inl (isEndpoint_callerRanges ⟨r, hr, heq⟩)
    · exact .inr (isEndpoint_callerRanges ⟨r, hr, heq⟩)
  obtain ⟨i, hi, hor⟩ := hends
  exact hor.elim (hne i hi).1 (hne i hi).2

end callers

/-- The pure communication is the communication without the computation, and the free time is what neither of
them takes between the first start and the last end. -/
theorem computePipelineOverlap_sound (communication compute : List (Interval T)) :
    let all := communication ++ compute
    let overlap := computePipelineOverlap (callerRanges true communication) (callerRanges false compute)
    (∀ r ∈ overlap.1 ++ overlap.2, r.startTs ≤ r.endTs) ∧
    ∀ t, (∀ i ∈ all, t ≠ i.start ∧ t ≠ i.end) →
      (Covered overlap.1 t ↔ (∃ i ∈ communication, i.Holds t) ∧ ¬ ∃ i ∈ compute, i.Holds t) ∧
      (Covered overlap.2 t ↔
        ((∃ i ∈ all, i.start ≤ t) ∧ ∃ i ∈ all, t ≤ i.end) ∧ ¬ ∃ i ∈ all, i.Holds t) := by
  intro all overlap
  have hoverlap : overlap = computePipelineOverlap (callerRanges true communication) (callerRanges false compute) := rfl
  rw [computePipelineOverlap, ← callerSorted] at hoverlap
  have hcommunication : ∀ t, CoveredBy true (callerSorted communication compute) t ↔ ∃ i ∈ communication, i.Holds t :=
    coveredBy_callerSorted communication compute true
  have hcompute : ∀ t, CoveredBy false (callerSorted communication compute) t ↔ ∃ i ∈ compute, i.Holds t :=
    coveredBy_callerSorted communication compute false
  have hhull := inHull_callerSorted communication compute
  have hcovered := covered_callerSorted communication compute
  cases hsorted : callerSorted communication compute with
  | nil =>
    rw [hsorted] at hoverlap hcommunication hhull
    rw [hoverlap]
    refine ⟨by simp, fun t _ => ⟨?_, ?_⟩⟩
    · rw [iff_false_left covered_nil, ← hcommunication]
      simp [CoveredBy]
    · rw [iff_false_left covered_nil, ← hhull]
      simp [InHull]
  | cons r rest =>
    have htracks := tracks_computePipelineOverlap hsorted
    have hendpoint : ∀ t, (∀ i ∈ all, t ≠ i.start ∧ t ≠ i.end) → ¬ IsEndpoint (r :: rest) t := by
      rw [← hsorted]
      exact fun t => not_isEndpoint_callerSorted communication compute
    rw [hsorted] at hoverlap hcommunication hcompute hhull hcovered
    rw [hoverlap]
    refine ⟨fun x hx => ?_, fun t hne => ⟨?_, ?_⟩⟩
    · rcases List.mem_append.mp hx with hx | hx
      · rcases List.mem_append.mp hx with hx | hx
        · exact (htracks.pure_le x hx).1
        · split_ifs at hx
          · rw [List.mem_singleton.mp hx]
            exact htracks.proper
          · exact absurd hx List.not_mem_nil
      · exact (htracks.free_le x hx).1
    · rw [htracks.pure t (hendpoint t hne), hcommunication, hcompute]
    · rw [htracks.free t (hendpoint t hne), hhull, hcovered]

/-- A communication that a computation cuts off, and a later computation. -/
theorem computePipelineOverlap_sound_cutOff :
    let communication : List (Interval ℕ) := [⟨0, 10, by decide⟩]
    let compute : List (Interval ℕ) := [⟨4, 20, by decide⟩, ⟨30, 40, by decide⟩]
    let overlap := computePipelineOverlap (callerRanges true communication) (callerRanges false compute)
    Covered overlap.1 2 ∧ ¬ Covered overlap.1 7 ∧ Covered overlap.2 25 := by
  intro communication compute overlap
  obtain ⟨-, hsound⟩ := computePipelineOverlap_sound communication compute
  refine ⟨(hsound 2 (by decide)).1.mpr ?_, fun h => ?_, (hsound 25 (by decide)).2.mpr ?_⟩
  · simp [communication, compute, Interval.Holds]
  · have hnot := ((hsound 7 (by decide)).1.mp h).2
    simp [compute, Interval.Holds] at hnot
  · simp [communication, compute, Interval.Holds]

end RangeCaculator

end TorchNpu.Profiler
