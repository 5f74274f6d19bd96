/-
  When the tree of the events of one thread is the nesting of their intervals.

  An event is retired when it ends before the start of the next one, so that it still stands on the stack
  when the next one starts at its end.
-/
import TorchNpu.Profiler.Spec.EventTree

namespace TorchNpu.Profiler.EventTreeParser

/-- The interval `[start, end)` of the one event contains that of the other. -/
def Encloses (outer inner : ProfilerEvent) : Prop :=
  outer.startTimeNs ≤ inner.startTimeNs ∧ inner.endTimeNs ≤ outer.endTimeNs

variable {n : ℕ}

/-- Events of one thread in the order of their starts, whose intervals are nested or disjoint. -/
structure WellNested (events : Fin n → ProfilerEvent) : Prop where
  tid_eq : ∀ i j, (events i).tid = (events j).tid
  start_lt : ∀ i, (events i).startTimeNs < (events i).endTimeNs
  sorted : ∀ i j, i < j → (events i).startTimeNs ≤ (events j).startTimeNs
  nested : ∀ i j, i ≠ j → Encloses (events i) (events j) ∨ Encloses (events j) (events i) ∨
    (events i).endTimeNs ≤ (events j).startTimeNs ∨ (events j).endTimeNs ≤ (events i).startTimeNs
  /-- An enclosing event precedes what it encloses. -/
  before : ∀ i j, i ≠ j → Encloses (events i) (events j) → i < j

/-- The parent of an event is the smallest other event that encloses it, if there is one. -/
def ParentRight (events : Fin n → ProfilerEvent) (parent : Fin n → Option (Fin n)) (r : Fin n) : Prop :=
  match parent r with
  | some p => p ≠ r ∧ Encloses (events p) (events r) ∧
      ∀ q, q ≠ r → Encloses (events q) (events r) → Encloses (events q) (events p)
  | none => ∀ q, q ≠ r → ¬ Encloses (events q) (events r)

/-- No event ends where one of the first `k` starts. -/
def NoTouch (events : Fin n → ProfilerEvent) (k : ℕ) : Prop :=
  ∀ i j : Fin n, (j : ℕ) < k → (events i).endTimeNs ≠ (events j).startTimeNs

/-- What holds after the first `k` events, when none of them starts where another ends. -/
structure NestedInv (events : Fin n → ProfilerEvent) (k : ℕ) (s : BuildState n) : Prop where
  parentRight : ∀ r : Fin n, (r : ℕ) < k → ParentRight events s.parent r
  finished_iff : ∀ r : Fin n, (r : ℕ) < k →
    (s.finished r = false ↔ ∀ q : Fin n, (q : ℕ) < k → (events q).startTimeNs < (events r).endTimeNs)
  current : ∀ {tid r}, s.threadEvent tid = some r → s.finished r = false ∧ (events r).tid = tid
  parent_unfinished : ∀ {r p}, s.finished r = false → s.parent r = some p → s.finished p = false

/-- What holds while the events are retired that end before the start of `event`. -/
structure RetireInv (events : Fin n → ProfilerEvent) (event : Fin n) (parent : Fin n → Option (Fin n))
    (s : BuildState n) : Prop where
  tree : TreeInv events event s
  queued : Queued events event s
  parent_eq : s.parent = parent
  current : ∀ {tid r}, s.threadEvent tid = some r → s.finished r = false ∧ (events r).tid = tid
  parent_unfinished : ∀ {r p}, s.finished r = false → s.parent r = some p → s.finished p = false
  start_lt_end : ∀ r : Fin n, r < event → s.finished r = false →
    ∀ q < event, (events q).startTimeNs < (events r).endTimeNs
  kept : ∀ r : Fin n, r < event → (∀ q < event, (events q).startTimeNs < (events r).endTimeNs) →
    (events event).startTimeNs ≤ (events r).endTimeNs → s.finished r = false

variable {events : Fin n → ProfilerEvent}

/-! ### Enclosing events -/

theorem WellNested.encloses (h : WellNested events) {i j : Fin n} (hij : i < j)
    (hlt : (events j).startTimeNs < (events i).endTimeNs) : Encloses (events i) (events j) := by
  rcases h.nested i j (ne_of_lt hij) with henc | henc | hend | hend
  · exact henc
  · exact absurd (h.before j i (ne_of_gt hij) henc) (lt_asymm hij)
  · omega
  · have := h.sorted i j hij
    have := h.start_lt j
    omega

/-- An event that ends where another starts precedes it. -/
theorem WellNested.lt_of_touch (h : WellNested events) {i j : Fin n}
    (htouch : (events i).endTimeNs = (events j).startTimeNs) : i < j := by
  by_contra hle
  have hi := h.start_lt i
  rcases eq_or_lt_of_le (not_lt.mp hle) with rfl | hlt
  · omega
  · have := h.sorted j i hlt
    omega

/-! ### Retiring events -/

/-- A pop takes nothing from the stack that does not end before the start of the next event. -/
theorem RetireInv.pop (h : WellNested events) {event : Fin n} {parent : Fin n → Option (Fin n)}
    {s : BuildState n} (hs : RetireInv events event parent s) {entry : ℤ × Fin n}
    (hentry : entry ∈ s.unfinishedEvents) (hretire : entry.1 < (events event).startTimeNs) :
    ∃ s', popEvent events (getTop s entry) entry.2 = .ok s' ∧ RetireInv events event parent s' ∧
      s'.unfinishedEvents = s.unfinishedEvents.erase entry := by
  obtain ⟨s', hpop, htree, hqueued, hqueue, hpopped⟩ := popEvent_getTop hs.tree hs.queued hentry
  refine ⟨s', hpop, ?_, hqueue⟩
  rcases hpopped with ⟨hfinished, rfl⟩ | ⟨above, below, hstack, rfl⟩
  · exact ⟨htree, hqueued, hs.parent_eq, hs.current, hs.parent_unfinished, hs.start_lt_end, hs.kept⟩
  · have hpairwise := hstack.pairwise (treeInv_getTop hs.tree entry)
    have hmem := fun r => hstack.mem_iff r
    have habove : ∀ r ∈ above, entry.2 < r := by
      intro r hr
      exact (List.pairwise_append.mp hpairwise).2.2 r hr entry.2 (List.mem_cons_self ..)
    have hunfinished : s.finished entry.2 = false := ((hmem entry.2).mp (by simp)).2.2
    have hlt : (entry.2 : ℕ) < event := (hs.queued.entry entry hentry).1
    have hend : (events entry.2).endTimeNs < (events event).startTimeNs := by
      rw [← (hs.queued.entry entry hentry).2]
      exact hretire
    -- A parent stands below its child, and is not taken with what is above the event.
    have hparent : ∀ {r p}, r ≤ entry.2 → s.finished r = false → s.parent r = some p →
        (retired events (getTop s entry) above entry.2).finished p = false := by
      intro r p hle hr hp
      have hpr := hs.tree.parent_lt hp
      rw [finished_retired]
      refine ⟨hs.parent_unfinished hr hp, ne_of_lt (lt_of_lt_of_le hpr hle), ?_⟩
      intro hmem'
      exact lt_asymm (habove p hmem') (lt_of_lt_of_le hpr hle)
    refine ⟨htree, hqueued, hs.parent_eq, ?_, ?_, ?_, ?_⟩
    · intro tid r hr
      change Function.update s.threadEvent (events entry.2).tid (s.parent entry.2) tid = some r at hr
      by_cases htid : tid = (events entry.2).tid
      · rw [htid, Function.update_self] at hr
        rw [htid]
        exact ⟨hparent le_rfl hunfinished hr, h.tid_eq r entry.2⟩
      · rw [Function.update_of_ne htid] at hr
        exact absurd ((hs.current hr).2.symm.trans (h.tid_eq r entry.2)) htid
    · intro r p hr hp
      obtain ⟨hr', hne, hnot⟩ := finished_retired.mp hr
      have hrlt : (r : ℕ) < event := by
        by_contra hge
        obtain ⟨-, hnone, -⟩ := hs.tree.fresh r (not_lt.mp hge)
        exact absurd (hnone.symm.trans hp) (by simp)
      have hbelow : r ∈ below := by
        have hr'' := (hmem r).mpr ⟨hrlt, h.tid_eq r entry.2, hr'⟩
        simpa [hne, hnot] using hr''
      have hlt' : r < entry.2 :=
        (List.pairwise_cons.mp (List.pairwise_append.mp hpairwise).2.1).1 r hbelow
      exact hparent (le_of_lt hlt') hr' hp
    · intro r hr hr'
      exact hs.start_lt_end r hr (finished_retired.mp hr').1
    · intro r hr hstart hlate
      rw [finished_retired]
      refine ⟨hs.kept r hr hstart hlate, ?_, ?_⟩
      · rintro rfl
        omega
      · intro hmem'
        -- What is above the event is enclosed by it, and ends no later.
        have hr'' : (r : ℕ) < event := hr
        have henc := h.encloses (habove r hmem') (hs.start_lt_end entry.2 hlt hunfinished r hr)
        have := henc.2
        omega

theorem NestedInv.retire (h : WellNested events) (ties : ℕ → ℕ) {event : Fin n} {s : BuildState n}
    (htree : TreeInv events event s) (hqueued : Queued events event s) (hs : NestedInv events event s) :
    ∃ s', popWhile events ties (fun endTime => endTime < (events event).startTimeNs)
        s.unfinishedEvents.length s = .ok s' ∧
      RetireInv events event s.parent s' ∧
      ∀ r < event, s'.finished r = false → (events event).startTimeNs ≤ (events r).endTimeNs := by
  have hstart : RetireInv events event s.parent s :=
    ⟨htree, hqueued, rfl, hs.current, hs.parent_unfinished, fun r hr => (hs.finished_iff r hr).mp,
      fun r hr hlt _ => (hs.finished_iff r hr).mpr hlt⟩
  obtain ⟨s', hwhile, hs', hdone⟩ := popWhile_induct (RetireInv events event s.parent) ties
    (fun endTime => endTime < (events event).startTimeNs) (retire_before (events event).startTimeNs)
    (fun s entry hs hentry hretire => hs.pop h hentry (by simpa using hretire)) hstart le_rfl
  refine ⟨s', hwhile, hs', ?_⟩
  intro r hr hfinished
  have hnot := hdone _ (hs'.queued.mem r hr hfinished)
  simpa using hnot
/-! ### Pushing an event -/

/-- The parent of the next event is the last one that is not finished. -/
theorem RetireInv.findParent (h : WellNested events) {event : Fin n} {parent : Fin n → Option (Fin n)}
    {s : BuildState n} (hs : RetireInv events event parent s) :
    (∃ a, findParent s (events event) = some a ∧ a < event ∧ s.finished a = false ∧
      ∀ q < event, s.finished q = false → q ≤ a) ∨
    findParent s (events event) = none ∧ ∀ q < event, s.finished q = true := by
  obtain ⟨stack, hstack⟩ := hs.tree.exists_stack (events event).tid
  have hmem : ∀ q, q ∈ stack ↔ q < event ∧ s.finished q = false := by
    intro q
    rw [hstack.mem_iff]
    exact ⟨fun hq => ⟨hq.1, hq.2.2⟩, fun hq => ⟨hq.1, h.tid_eq q event, hq.2⟩⟩
  cases stack with
  | nil =>
    have hfinished : ∀ q < event, s.finished q = true := by
      intro q hq
      apply Bool.eq_true_of_not_eq_false
      intro hq'
      exact absurd ((hmem q).mpr ⟨hq, hq'⟩) (by simp)
    -- No thread has a current event, as it would not be finished.
    have hthread : ∀ tid, s.threadEvent tid = none := by
      intro tid
      rw [Option.eq_none_iff_forall_ne_some]
      intro r hr
      have := hfinished r (hs.tree.current_lt hr)
      rw [(hs.current hr).1] at this
      exact absurd this (by simp)
    refine Or.inr ⟨?_, hfinished⟩
    rw [EventTreeParser.findParent, hthread]
    dsimp only
    rw [hthread, ite_self]
  | cons a stack =>
    have hthread := hstack.current (by simp)
    rw [List.head?_cons] at hthread
    obtain ⟨hlt, hfinished⟩ := (hmem a).mp (List.mem_cons_self ..)
    refine Or.inl ⟨a, ?_, hlt, hfinished, ?_⟩
    · rw [EventTreeParser.findParent, hthread]
    · intro q hq hq'
      rcases List.mem_cons.mp ((hmem q).mpr ⟨hq, hq'⟩) with rfl | hq
      · exact le_rfl
      · exact le_of_lt ((List.pairwise_cons.mp (hstack.pairwise hs.tree)).1 q hq)

theorem parentRight_congr {parent parent' : Fin n → Option (Fin n)} {r : Fin n} (h : parent r = parent' r) :
    ParentRight events parent r ↔ ParentRight events parent' r := by
  rw [ParentRight, ParentRight, h]

/-- Where no event ends at the start of the next one, its parent is the smallest event around it. -/
theorem RetireInv.parentRight (h : WellNested events) {event : Fin n} {parent : Fin n → Option (Fin n)}
    {s : BuildState n} (hs : RetireInv events event parent s)
    (hlate : ∀ r < event, s.finished r = false → (events event).startTimeNs ≤ (events r).endTimeNs)
    (hno : ∀ r, (events r).endTimeNs ≠ (events event).startTimeNs) {parent' : Fin n → Option (Fin n)}
    (hparent' : parent' event = EventTreeParser.findParent s (events event)) :
    ParentRight events parent' event := by
  -- What encloses the event is not finished.
  have hunfinished : ∀ q, q ≠ event → Encloses (events q) (events event) →
      q < event ∧ s.finished q = false := by
    intro q hne henc
    have hlt := h.before q event hne henc
    have hend : (events event).startTimeNs < (events q).endTimeNs :=
      lt_of_lt_of_le (h.start_lt event) henc.2
    refine ⟨hlt, hs.kept q hlt ?_ (le_of_lt hend)⟩
    intro q' hq'
    exact lt_of_le_of_lt (h.sorted q' event hq') hend
  rw [ParentRight, hparent']
  rcases hs.findParent h with ⟨a, hfind, hlt, hfinished, hlast⟩ | ⟨hfind, hfinished⟩
  · rw [hfind]
    have hend : (events event).startTimeNs < (events a).endTimeNs :=
      lt_of_le_of_ne (hlate a hlt hfinished) (hno a).symm
    refine ⟨ne_of_lt hlt, h.encloses hlt hend, ?_⟩
    intro q hne henc
    obtain ⟨hq, hq'⟩ := hunfinished q hne henc
    rcases eq_or_lt_of_le (hlast q hq hq') with rfl | hqa
    · exact ⟨le_rfl, le_rfl⟩
    · exact h.encloses hqa (hs.start_lt_end q hq hq' a hlt)
  · rw [hfind]
    intro q hne henc
    obtain ⟨hq, hq'⟩ := hunfinished q hne henc
    rw [hfinished q hq] at hq'
    exact absurd hq' (by simp)

/-- Where an event ends at the start of the next one, an event that ends there becomes its parent. -/
theorem RetireInv.not_parentRight (h : WellNested events) {event : Fin n} {parent : Fin n → Option (Fin n)}
    {s : BuildState n} (hs : RetireInv events event parent s) (hno : NoTouch events event) {r : Fin n}
    (htouch : (events r).endTimeNs = (events event).startTimeNs) {parent' : Fin n → Option (Fin n)}
    (hparent' : parent' event = EventTreeParser.findParent s (events event)) :
    ¬ ParentRight events parent' event := by
  have hlt := h.lt_of_touch htouch
  have hstart : ∀ q < event, (events q).startTimeNs < (events r).endTimeNs := by
    intro q hq
    refine lt_of_le_of_ne ?_ (hno r q hq).symm
    rw [htouch]
    exact h.sorted q event hq
  have hr : s.finished r = false := hs.kept r hlt hstart (le_of_eq htouch.symm)
  rw [ParentRight, hparent']
  rcases hs.findParent h with ⟨a, hfind, ha, hfinished, hlast⟩ | ⟨hfind, hfinished⟩
  · rw [hfind]
    rintro ⟨-, henc, -⟩
    have hend : (events a).endTimeNs ≤ (events r).endTimeNs := by
      rcases eq_or_lt_of_le (hlast r hlt hr) with rfl | hra
      · exact le_rfl
      · exact (h.encloses hra (hstart a ha)).2
    have := henc.2
    have := h.start_lt event
    omega
  · rw [hfinished r hlt] at hr
    exact absurd hr (by simp)
theorem parent_opened {s : BuildState n} {event : Fin n} (h : s.parent event = none) :
    (opened events s event).parent = Function.update s.parent event (findParent s (events event)) :=
  parent_linkParent h _

theorem finished_opened (s : BuildState n) (event : Fin n) : (opened events s event).finished = s.finished :=
  finished_linkParent ..

theorem threadEvent_opened (s : BuildState n) (event : Fin n) :
    (opened events s event).threadEvent = Function.update s.threadEvent (events event).tid (some event) := by
  rw [← threadEvent_linkParent s event (findParent s (events event))]
  rfl

theorem NoTouch.mono {k l : ℕ} (h : NoTouch events l) (hkl : k ≤ l) : NoTouch events k :=
  fun i j hj => h i j (Nat.lt_of_lt_of_le hj hkl)

theorem RetireInv.push (h : WellNested events) {event : Fin n} {s s₁ : BuildState n}
    (hs : NestedInv events event s) (hs₁ : RetireInv events event s.parent s₁)
    (hlate : ∀ r < event, s₁.finished r = false → (events event).startTimeNs ≤ (events r).endTimeNs)
    (hno : ∀ r, (events r).endTimeNs ≠ (events event).startTimeNs) :
    NestedInv events (event + 1) (opened events s₁ event) := by
  obtain ⟨hfresh, hnone, -⟩ := hs₁.tree.fresh event le_rfl
  have hparent : (opened events s₁ event).parent =
      Function.update s₁.parent event (EventTreeParser.findParent s₁ (events event)) := parent_opened hnone
  have hcases : ∀ r : Fin n, (r : ℕ) < event + 1 → r < event ∨ r = event := by
    intro r hr
    rcases Nat.lt_succ_iff_lt_or_eq.mp hr with hr | hr
    · exact Or.inl hr
    · exact Or.inr (Fin.ext hr)
  constructor
  · intro r hr
    rcases hcases r hr with hr | rfl
    · refine (parentRight_congr ?_).mpr (hs.parentRight r hr)
      rw [hparent, Function.update_of_ne (ne_of_lt hr), hs₁.parent_eq]
    · apply hs₁.parentRight h hlate hno
      rw [hparent, Function.update_self]
  · intro r hr
    rw [finished_opened]
    rcases hcases r hr with hr | rfl
    · constructor
      · intro hfinished q hq
        rcases hcases q hq with hq | rfl
        · exact hs₁.start_lt_end r hr hfinished q hq
        · exact lt_of_le_of_ne (hlate r hr hfinished) (hno r).symm
      · intro hstart
        exact hs₁.kept r hr (fun q hq => hstart q (Nat.lt_succ_of_lt hq))
          (le_of_lt (hstart event (Nat.lt_succ_self _)))
    · refine iff_of_true hfresh ?_
      intro q hq
      rcases hcases q hq with hq | rfl
      · exact lt_of_le_of_lt (h.sorted q r hq) (h.start_lt r)
      · exact h.start_lt q
  · intro tid r hr
    rw [threadEvent_opened] at hr
    rw [finished_opened]
    by_cases htid : tid = (events event).tid
    · rw [htid, Function.update_self, Option.some_inj] at hr
      rw [htid, ← hr]
      exact ⟨hfresh, rfl⟩
    · rw [Function.update_of_ne htid] at hr
      exact hs₁.current hr
  · intro r p hr hp
    rw [finished_opened] at hr ⊢
    rw [hparent] at hp
    by_cases hre : r = event
    · rw [hre, Function.update_self] at hp
      rcases hs₁.findParent h with ⟨a, hfind, -, hfinished, -⟩ | ⟨hfind, -⟩
      · rw [hfind, Option.some_inj] at hp
        rwa [← hp]
      · rw [hfind] at hp
        exact absurd hp (by simp)
    · rw [Function.update_of_ne hre] at hp
      exact hs₁.parent_unfinished hr hp

/-! ### The whole run -/

/-- The links are right up to the first event that starts where another ends, and stay wrong from there. -/
def RightAt (events : Fin n → ProfilerEvent) (k : ℕ) (s : BuildState n) : Prop :=
  (NoTouch events k → NestedInv events k s) ∧
    (¬ NoTouch events k → ∃ r : Fin n, (r : ℕ) < k ∧ ¬ ParentRight events s.parent r)

theorem rightAt_start : RightAt events 0 .start := by
  constructor
  · intro _
    exact ⟨fun r hr => by omega, fun r hr => by omega, by simp [BuildState.start], by simp [BuildState.start]⟩
  · intro h
    exact absurd (fun i j hj => by omega) h

theorem replayEvent_rightAt (h : WellNested events) (ties : ℕ → ℕ) {event : Fin n} {s : BuildState n}
    (htree : TreeInv events event s) (hqueued : Queued events event s) (hs : RightAt events event s) :
    ∃ s', replayEvent events ties s event = .ok s' ∧ TreeInv events (event + 1) s' ∧
      Queued events (event + 1) s' ∧ RightAt events (event + 1) s' := by
  -- Every event takes time.
  have hpush : ∀ s₁, TreeInv events event s₁ →
      popWhile events ties (fun endTime => endTime < (events event).startTimeNs)
        s.unfinishedEvents.length s = .ok s₁ → replayEvent events ties s event = .ok (opened events s₁ event) := by
    intro s₁ hs₁ hwhile
    rw [replayEvent, hwhile]
    refine (pushEvent_eq hs₁).trans ?_
    rw [if_pos (h.start_lt event)]
  have hqueued' : ∀ s₁, Queued events event s₁ → Queued events (event + 1) (opened events s₁ event) := by
    intro s₁ hq
    have := queued_pushEvent hq
    rwa [if_pos (h.start_lt event)] at this
  by_cases hno : NoTouch events event
  · obtain ⟨s₁, hwhile, hs₁, hlate⟩ := (hs.1 hno).retire h ties htree hqueued
    refine ⟨_, hpush s₁ hs₁.tree hwhile, treeInv_opened hs₁.tree, hqueued' s₁ hs₁.queued, ?_⟩
    have hnone := (hs₁.tree.fresh event le_rfl).2.1
    by_cases htouch : ∃ r, (events r).endTimeNs = (events event).startTimeNs
    · obtain ⟨r, hr⟩ := htouch
      constructor
      · intro hno'
        exact absurd hr (hno' r event (Nat.lt_succ_self _))
      · intro _
        refine ⟨event, Nat.lt_succ_self _, hs₁.not_parentRight h hno hr ?_⟩
        rw [parent_opened hnone, Function.update_self]
    · push Not at htouch
      constructor
      · intro _
        exact hs₁.push h (hs.1 hno) hlate htouch
      · intro hnot
        refine absurd ?_ hnot
        intro i j hj
        rcases Nat.lt_succ_iff_lt_or_eq.mp hj with hj | hj
        · exact hno i j hj
        · rw [Fin.ext hj]
          exact htouch i
  · obtain ⟨s₁, hwhile, hs₁, hq₁, hparent, -⟩ :=
      popWhile_ok ties _ (retire_before (events event).startTimeNs) htree hqueued
    refine ⟨_, hpush s₁ hs₁ hwhile, treeInv_opened hs₁, hqueued' s₁ hq₁, ?_⟩
    constructor
    · intro hno'
      exact absurd (hno'.mono (Nat.le_succ _)) hno
    · intro _
      obtain ⟨r, hr, hwrong⟩ := hs.2 hno
      have hne : r ≠ event := by
        rintro rfl
        omega
      have hkept : (opened events s₁ event).parent r = s.parent r := by
        rw [parent_opened (hs₁.fresh event le_rfl).2.1, Function.update_of_ne hne, hparent]
      exact ⟨r, Nat.lt_succ_of_lt hr, fun hright => hwrong ((parentRight_congr hkept).mp hright)⟩

theorem buildEventTree_rightAt (ties : ℕ → ℕ) {sortedEvents : List ProfilerEvent}
    (h : WellNested sortedEvents.get) :
    ∃ s, buildEventTree ties sortedEvents = .ok s ∧
      (NoTouch sortedEvents.get sortedEvents.length ↔ ∀ r, ParentRight sortedEvents.get s.parent r) := by
  obtain ⟨s, hreplay, hs, hq, hright⟩ := replayEvent_foldlM
    (P := fun k s => TreeInv sortedEvents.get k s ∧ Queued sortedEvents.get k s ∧
      RightAt sortedEvents.get k s) ties
    (fun event s hs => replayEvent_rightAt h ties hs.1 hs.2.1 hs.2.2)
    ⟨treeInv_start, queued_start, rightAt_start⟩
  obtain ⟨s', hwhile, -, hparent, -⟩ := cleanup_ok ties hs hq
  refine ⟨s', ?_, ?_⟩
  · rw [buildEventTree, replay, hreplay]
    exact hwhile
  · rw [hparent]
    constructor
    · intro hno r
      exact (hright.1 hno).parentRight r r.isLt
    · intro hparents
      by_contra htouch
      obtain ⟨r, -, hwrong⟩ := hright.2 htouch
      exact hwrong (hparents r)

/-- Every event gets the parent that it is to get. -/
def TreeNested (ties : ℕ → ℕ) (sortedEvents : List ProfilerEvent) : Prop :=
  ∃ s, buildEventTree ties sortedEvents = .ok s ∧ ∀ r, ParentRight sortedEvents.get s.parent r

theorem treeNested_iff (ties : ℕ → ℕ) {sortedEvents : List ProfilerEvent}
    (h : WellNested sortedEvents.get) :
    TreeNested ties sortedEvents ↔
      ∀ event ∈ sortedEvents, ∀ event' ∈ sortedEvents, event.endTimeNs ≠ event'.startTimeNs := by
  obtain ⟨s, hbuild, hiff⟩ := buildEventTree_rightAt ties h
  have hno : NoTouch sortedEvents.get sortedEvents.length ↔
      ∀ event ∈ sortedEvents, ∀ event' ∈ sortedEvents, event.endTimeNs ≠ event'.startTimeNs := by
    constructor
    · intro hno event hevent event' hevent'
      obtain ⟨i, rfl⟩ := List.mem_iff_get.mp hevent
      obtain ⟨j, rfl⟩ := List.mem_iff_get.mp hevent'
      exact hno i j j.isLt
    · intro hall i j _
      exact hall _ (List.get_mem sortedEvents i) _ (List.get_mem sortedEvents j)
  rw [← hno, hiff]
  constructor
  · rintro ⟨s', hbuild', hparents⟩
    have he : s' = s := Except.ok.inj (hbuild'.symm.trans hbuild)
    rwa [← he]
  · intro hparents
    exact ⟨s, hbuild, hparents⟩

/-- An event, and two in it, of which the second starts at `start`, and the first ends at 5. -/
def siblingEvents (start : ℤ) : List ProfilerEvent :=
  [{ tid := 1, startTimeNs := 0, extraFields := .torchOp 10 0 [] },
    { tid := 1, startTimeNs := 0, extraFields := .torchOp 5 0 [] },
    { tid := 1, startTimeNs := start, extraFields := .torchOp 8 0 [] }]

instance (outer inner : ProfilerEvent) : Decidable (Encloses outer inner) :=
  inferInstanceAs (Decidable (_ ∧ _))

theorem treeNested_siblingEvents : TreeNested (fun _ => 0) (siblingEvents 6) :=
  (treeNested_iff (fun _ => 0) (by constructor <;> decide)).mpr (by decide)

theorem not_treeNested_touchingSiblings :
    WellNested (siblingEvents 5).get ∧ ∀ ties, ¬ TreeNested ties (siblingEvents 5) := by
  have h : WellNested (siblingEvents 5).get := by
    constructor <;> decide
  refine ⟨h, ?_⟩
  rintro ties ⟨s, hbuild, hparents⟩
  obtain ⟨s', hbuild', hiff⟩ := buildEventTree_rightAt ties h
  rw [Except.ok.inj (hbuild.symm.trans hbuild')] at hparents
  exact hiff.mpr hparents ⟨1, by decide⟩ ⟨2, by decide⟩ (by decide) rfl

end TorchNpu.Profiler.EventTreeParser
