/-
  The builder of the tree of events reaches none of its error returns, and what it builds is a forest in the
  order of the starts.
-/
import Mathlib.Data.Finset.Max
import Mathlib.Data.Fintype.Card
import Mathlib.Data.List.Chain
import TorchNpu.Profiler.EventTree

namespace TorchNpu.Profiler.EventTreeParser

variable {n : ℕ} (events : Fin n → ProfilerEvent)

/-! ### The stacks -/

/-- The stack of a thread: its unfinished events, from its current event on along the parents.  `k` events
were pushed so far. -/
structure IsStack (k : ℕ) (s : BuildState n) (tid : ℤ) (stack : List (Fin n)) : Prop where
  linked : stack.IsChain fun event parent => s.parent event = some parent
  current : stack ≠ [] → s.threadEvent tid = stack.head?
  mem_iff : ∀ r, r ∈ stack ↔ (r : ℕ) < k ∧ (events r).tid = tid ∧ s.finished r = false

/-- What holds of the tree after `k` events. -/
structure TreeInv (k : ℕ) (s : BuildState n) : Prop where
  fresh : ∀ r : Fin n, k ≤ r → s.finished r = false ∧ s.parent r = none ∧ s.children r = []
  parent_lt : ∀ {r p}, s.parent r = some p → p < r
  mem_children : ∀ r p, r ∈ s.children p ↔ s.parent r = some p
  nodup_children : ∀ p, (s.children p).Nodup
  current_lt : ∀ {tid r}, s.threadEvent tid = some r → (r : ℕ) < k
  exists_stack : ∀ tid, ∃ stack, IsStack events k s tid stack

/-- The entries of the queue are of events pushed before, and every unfinished event has one. -/
structure Queued (k : ℕ) (s : BuildState n) : Prop where
  entry : ∀ entry ∈ s.unfinishedEvents, (entry.2 : ℕ) < k ∧ entry.1 = (events entry.2).endTimeNs
  mem : ∀ r : Fin n, (r : ℕ) < k → s.finished r = false → ((events r).endTimeNs, r) ∈ s.unfinishedEvents

variable {events}

/-- A stack goes back in the order of the events. -/
theorem IsStack.pairwise {k : ℕ} {s : BuildState n} {tid : ℤ} {stack : List (Fin n)}
    (h : IsStack events k s tid stack) (hs : TreeInv events k s) : stack.Pairwise fun r r' => r' < r := by
  have hchain : stack.IsChain fun r r' => r' < r := h.linked.imp fun _ _ hp => hs.parent_lt hp
  have : Trans (fun r r' : Fin n => r' < r) (fun r r' => r' < r) (fun r r' => r' < r) :=
    ⟨fun h h' => lt_trans h' h⟩
  exact List.isChain_iff_pairwise.mp hchain

theorem IsStack.nodup {k : ℕ} {s : BuildState n} {tid : ℤ} {stack : List (Fin n)}
    (h : IsStack events k s tid stack) (hs : TreeInv events k s) : stack.Nodup :=
  (h.pairwise hs).imp fun hlt => (ne_of_lt hlt).symm

/-! ### `pop_event` -/

/-- The events of a list are finished. -/
def finishAll (s : BuildState n) (done : List (Fin n)) : BuildState n :=
  { s with finished := fun r => s.finished r || decide (r ∈ done) }

theorem finished_finishAll (s : BuildState n) (done : List (Fin n)) (r : Fin n) :
    (finishAll s done).finished r = false ↔ s.finished r = false ∧ r ∉ done := by
  simp [finishAll]

theorem finishAll_nil (s : BuildState n) : finishAll s [] = s := by
  simp [finishAll]

theorem markFinished_finishAll {s : BuildState n} {done : List (Fin n)} {event : Fin n}
    (h : s.finished event = false) (hdone : event ∉ done) :
    markFinished (finishAll s done) event = .ok (finishAll s (event :: done)) := by
  rw [markFinished, if_neg (by simp [finishAll, h, hdone])]
  have hfinished : Function.update (finishAll s done).finished event true =
      (finishAll s (event :: done)).finished := by
    funext r
    by_cases hr : r = event
    · rw [hr, Function.update_self]
      simp [finishAll]
    · rw [Function.update_of_ne hr]
      simp [finishAll, hr]
  rw [hfinished]
  rfl

/-- The loop of `pop_event` finishes what is above the event on the stack. -/
theorem finishAbove_finishAll {event : Fin n} {below : List (Fin n)} {s : BuildState n}
    (above done : List (Fin n)) {rounds : ℕ} (hrounds : above.length < rounds)
    (hlinked : (above ++ event :: below).IsChain fun event parent => s.parent event = some parent)
    (hnodup : (done ++ (above ++ event :: below)).Nodup)
    (hfinished : ∀ r ∈ above, s.finished r = false) {cur : Fin n}
    (hcur : (above ++ event :: below).head? = some cur) :
    finishAbove event rounds (finishAll s done) cur = .ok (finishAll s (above.reverse ++ done)) := by
  induction above generalizing done rounds cur with
  | nil =>
    obtain ⟨rounds, rfl⟩ := Nat.exists_eq_succ_of_ne_zero (Nat.ne_of_gt hrounds)
    rw [List.nil_append, List.head?_cons, Option.some_inj] at hcur
    rw [finishAbove, if_pos hcur.symm]
    rfl
  | cons top above ih =>
    obtain ⟨rounds, rfl⟩ := Nat.exists_eq_succ_of_ne_zero
      (Nat.ne_of_gt (Nat.lt_of_le_of_lt (Nat.zero_le _) hrounds))
    rw [List.cons_append, List.head?_cons, Option.some_inj] at hcur
    subst hcur
    rw [List.cons_append] at hnodup hlinked
    have hne : top ≠ event := by
      intro he
      have htop := (List.nodup_cons.mp (List.nodup_append.mp hnodup).2.1).1
      rw [he] at htop
      exact htop (by simp)
    have hdone : top ∉ done := by
      intro hmem
      exact (List.nodup_append.mp hnodup).2.2 top hmem top (List.mem_cons_self ..) rfl
    obtain ⟨next, hnext⟩ : ∃ next, (above ++ event :: below).head? = some next := by
      cases above with
      | nil => exact ⟨event, rfl⟩
      | cons next above => exact ⟨next, rfl⟩
    have hparent : s.parent top = some next := List.IsChain.rel_head? hlinked (by rw [hnext]; rfl)
    rw [finishAbove, if_neg hne, markFinished_finishAll (hfinished top (List.mem_cons_self ..)) hdone]
    -- `finishAll` keeps the parents, so the loop goes on with `next`.
    have hparent' : (finishAll s (top :: done)).parent top = some next := hparent
    simp only [bind, Except.bind, hparent']
    rw [ih (top :: done) (by simpa using hrounds) hlinked.tail ?_
      (fun r hr => hfinished r (List.mem_cons_of_mem top hr)) hnext]
    · simp
    · rw [List.cons_append, List.nodup_cons]
      have hperm : (top :: (done ++ (above ++ event :: below))).Perm
          (done ++ top :: (above ++ event :: below)) := List.perm_middle.symm
      exact List.nodup_cons.mp (hperm.nodup_iff.mpr hnodup)
/-- The state after an event with a stack `above` it was popped. -/
def retired (events : Fin n → ProfilerEvent) (s : BuildState n) (above : List (Fin n)) (event : Fin n) :
    BuildState n :=
  { finishAll s (event :: above.reverse) with
    threadEvent := Function.update s.threadEvent (events event).tid (s.parent event) }

theorem popEvent_of_finished {s : BuildState n} {event : Fin n} (h : s.finished event = true) :
    popEvent events s event = .ok s := by
  rw [popEvent, if_pos h]

theorem popEvent_of_stack {k : ℕ} {s : BuildState n} (hs : TreeInv events k s) {event : Fin n}
    {above below : List (Fin n)} (hstack : IsStack events k s (events event).tid (above ++ event :: below)) :
    popEvent events s event = .ok (retired events s above event) := by
  have hnodup := hstack.nodup hs
  have hunfinished : ∀ r ∈ above ++ event :: below, s.finished r = false :=
    fun r hr => ((hstack.mem_iff r).mp hr).2.2
  have hevent : s.finished event = false := hunfinished event (by simp)
  obtain ⟨cur, hcur⟩ : ∃ cur, (above ++ event :: below).head? = some cur := by
    cases above with
    | nil => exact ⟨event, rfl⟩
    | cons top above => exact ⟨top, rfl⟩
  have hthread : s.threadEvent (events event).tid = some cur := by
    rw [hstack.current (by simp), hcur]
  -- The events of the stack are all different, so that the rounds are enough.
  have hlength : above.length < n := by
    have hle := hnodup.length_le_card
    rw [Fintype.card_fin, List.length_append, List.length_cons] at hle
    omega
  have hloop := finishAbove_finishAll above [] hlength hstack.linked (by simpa using hnodup)
    (fun r hr => hunfinished r (List.mem_append_left _ hr)) hcur
  rw [finishAll_nil, List.append_nil] at hloop
  have habove : event ∉ above.reverse := by
    intro hmem
    exact (List.nodup_append.mp hnodup).2.2 event (List.mem_reverse.mp hmem) event (List.mem_cons_self ..) rfl
  rw [popEvent, if_neg (by simp [hevent]), hthread]
  change (do
    let s ← finishAbove event n s cur
    let s ← markFinished s event
    return { s with threadEvent := Function.update s.threadEvent (events event).tid (s.parent event) }) = _
  rw [hloop]
  change (do
    let s ← markFinished (finishAll s above.reverse) event
    return { s with threadEvent := Function.update s.threadEvent (events event).tid (s.parent event) }) = _
  rw [markFinished_finishAll hevent habove]
  rfl

/-- What was finished by a pop is the event and what was above it. -/
theorem finished_retired {s : BuildState n} {above : List (Fin n)} {event r : Fin n} :
    (retired events s above event).finished r = false ↔ s.finished r = false ∧ r ≠ event ∧ r ∉ above := by
  rw [retired, finished_finishAll, List.mem_cons, List.mem_reverse, not_or]

/-- What stays on the stacks after a pop. -/
theorem isStack_retired {k : ℕ} {s : BuildState n} (hs : TreeInv events k s) {event : Fin n}
    {above below : List (Fin n)} (hstack : IsStack events k s (events event).tid (above ++ event :: below)) :
    IsStack events k (retired events s above event) (events event).tid below := by
  have hnodup := hstack.nodup hs
  have hlinked : (event :: below).IsChain fun event parent => s.parent event = some parent :=
    (List.isChain_append.mp hstack.linked).2.1
  constructor
  · exact hlinked.tail
  · intro hne
    obtain ⟨next, below, rfl⟩ := List.exists_cons_of_ne_nil hne
    change Function.update s.threadEvent (events event).tid (s.parent event) (events event).tid = _
    rw [Function.update_self]
    exact hlinked.rel
  · intro r
    rw [finished_retired]
    constructor
    · intro hr
      obtain ⟨hlt, htid, hfinished⟩ := (hstack.mem_iff r).mp (by simp [hr])
      refine ⟨hlt, htid, hfinished, ?_, ?_⟩
      · rintro rfl
        exact (List.nodup_cons.mp (List.nodup_append.mp hnodup).2.1).1 hr
      · intro hmem
        exact (List.nodup_append.mp hnodup).2.2 r hmem r (List.mem_cons_of_mem event hr) rfl
    · rintro ⟨hlt, htid, hfinished, hne, habove⟩
      have hmem := (hstack.mem_iff r).mpr ⟨hlt, htid, hfinished⟩
      simpa [habove, hne] using hmem

theorem isStack_retired_of_ne {k : ℕ} {s : BuildState n} {event : Fin n} {above below : List (Fin n)}
    (hstack : IsStack events k s (events event).tid (above ++ event :: below)) {tid : ℤ}
    {stack : List (Fin n)} (hne : tid ≠ (events event).tid) (h : IsStack events k s tid stack) :
    IsStack events k (retired events s above event) tid stack := by
  constructor
  · exact h.linked
  · intro hstack'
    change Function.update s.threadEvent (events event).tid (s.parent event) tid = _
    rw [Function.update_of_ne hne]
    exact h.current hstack'
  · intro r
    rw [h.mem_iff, finished_retired]
    constructor
    · rintro ⟨hlt, rfl, hfinished⟩
      refine ⟨hlt, rfl, hfinished, ?_, ?_⟩
      · rintro rfl
        exact hne rfl
      · intro hmem
        exact hne ((hstack.mem_iff r).mp (List.mem_append_left _ hmem)).2.1
    · rintro ⟨hlt, htid, hfinished, -, -⟩
      exact ⟨hlt, htid, hfinished⟩

theorem treeInv_retired {k : ℕ} {s : BuildState n} (hs : TreeInv events k s) {event : Fin n}
    {above below : List (Fin n)} (hstack : IsStack events k s (events event).tid (above ++ event :: below)) :
    TreeInv events k (retired events s above event) := by
  have hlt : ∀ r ∈ above ++ event :: below, (r : ℕ) < k := fun r hr => ((hstack.mem_iff r).mp hr).1
  constructor
  · intro r hr
    obtain ⟨hfinished, hrest⟩ := hs.fresh r hr
    refine ⟨?_, hrest⟩
    rw [finished_retired]
    refine ⟨hfinished, ?_, ?_⟩
    · rintro rfl
      exact absurd (hlt r (by simp)) (by omega)
    · intro hmem
      exact absurd (hlt r (List.mem_append_left _ hmem)) (by omega)
  · exact hs.parent_lt
  · exact hs.mem_children
  · exact hs.nodup_children
  · intro tid r hr
    change Function.update s.threadEvent (events event).tid (s.parent event) tid = some r at hr
    by_cases htid : tid = (events event).tid
    · rw [htid, Function.update_self] at hr
      have hr : (r : ℕ) < event := hs.parent_lt hr
      have := hlt event (by simp)
      omega
    · rw [Function.update_of_ne htid] at hr
      exact hs.current_lt hr
  · intro tid
    by_cases htid : tid = (events event).tid
    · rw [htid]
      exact ⟨below, isStack_retired hs hstack⟩
    · obtain ⟨stack, h⟩ := hs.exists_stack tid
      exact ⟨stack, isStack_retired_of_ne hstack htid h⟩

/-- An event that is not finished stands on the stack of its thread. -/
theorem TreeInv.exists_above {k : ℕ} {s : BuildState n} (hs : TreeInv events k s) {event : Fin n}
    (hlt : (event : ℕ) < k) (h : s.finished event = false) :
    ∃ above below, IsStack events k s (events event).tid (above ++ event :: below) := by
  obtain ⟨stack, hstack⟩ := hs.exists_stack (events event).tid
  obtain ⟨above, below, rfl⟩ := List.append_of_mem ((hstack.mem_iff event).mpr ⟨hlt, rfl, h⟩)
  exact ⟨above, below, hstack⟩

/-! ### The priority queue -/

theorem topEvent_eq_none {ties : ℕ → ℕ} {s : BuildState n} (h : topEvent ties s = none) :
    s.unfinishedEvents = [] := by
  by_contra hne
  -- Some entry has the least end time, so that the choice is in range.
  obtain ⟨entry, hentry, hleast⟩ : ∃ entry ∈ s.unfinishedEvents, isLeast s.unfinishedEvents entry = true := by
    obtain ⟨first, rest, hlist⟩ := List.exists_cons_of_ne_nil hne
    obtain ⟨entry, hentry, hmin⟩ := s.unfinishedEvents.toFinset.exists_min_image Prod.fst
      ⟨first, by simp [hlist]⟩
    refine ⟨entry, List.mem_toFinset.mp hentry, ?_⟩
    simpa [isLeast] using hmin
  have hmem : entry ∈ s.unfinishedEvents.filter (isLeast s.unfinishedEvents) :=
    List.mem_filter.mpr ⟨hentry, hleast⟩
  rw [topEvent, List.getElem?_eq_none_iff] at h
  have := Nat.mod_lt (ties s.gets) (List.length_pos_of_mem hmem)
  omega

theorem topEvent_eq_some {ties : ℕ → ℕ} {s : BuildState n} {entry : ℤ × Fin n}
    (h : topEvent ties s = some entry) :
    entry ∈ s.unfinishedEvents ∧ ∀ other ∈ s.unfinishedEvents, entry.1 ≤ other.1 := by
  have hmem := List.mem_filter.mp (List.mem_of_getElem? h)
  refine ⟨hmem.1, ?_⟩
  simpa [isLeast] using hmem.2
/-- What a pop in the loop does: the event was finished before, or it is taken from the stack with what is
above it. -/
def Popped (events : Fin n → ProfilerEvent) (k : ℕ) (s : BuildState n) (event : Fin n) (s' : BuildState n) :
    Prop :=
  s.finished event = true ∧ s' = s ∨
    ∃ above below, IsStack events k s (events event).tid (above ++ event :: below) ∧
      s' = retired events s above event

theorem treeInv_getTop {k : ℕ} {s : BuildState n} (h : TreeInv events k s) (entry : ℤ × Fin n) :
    TreeInv events k (getTop s entry) where
  fresh := h.fresh
  parent_lt := h.parent_lt
  mem_children := h.mem_children
  nodup_children := h.nodup_children
  current_lt := h.current_lt
  exists_stack tid := by
    obtain ⟨stack, hstack⟩ := h.exists_stack tid
    exact ⟨stack, hstack.linked, hstack.current, hstack.mem_iff⟩

/-- An entry is taken from the queue and its event is popped. -/
theorem popEvent_getTop {k : ℕ} {s : BuildState n} (hs : TreeInv events k s) (hq : Queued events k s)
    {entry : ℤ × Fin n} (hentry : entry ∈ s.unfinishedEvents) :
    ∃ s', popEvent events (getTop s entry) entry.2 = .ok s' ∧ TreeInv events k s' ∧ Queued events k s' ∧
      s'.unfinishedEvents = s.unfinishedEvents.erase entry ∧ Popped events k (getTop s entry) entry.2 s' := by
  have hs' := treeInv_getTop hs entry
  have hlt := (hq.entry entry hentry).1
  -- The entries of the other events are still there.
  have hmem : ∀ r : Fin n, (r : ℕ) < k → s.finished r = false → r ≠ entry.2 →
      ((events r).endTimeNs, r) ∈ s.unfinishedEvents.erase entry := by
    intro r hr hfinished hne
    refine (List.mem_erase_of_ne ?_).mpr (hq.mem r hr hfinished)
    rintro rfl
    exact hne rfl
  have hentries : ∀ other ∈ s.unfinishedEvents.erase entry, (other.2 : ℕ) < k ∧
      other.1 = (events other.2).endTimeNs := fun other hother => hq.entry other (List.mem_of_mem_erase hother)
  cases hfinished : s.finished entry.2 with
  | true =>
    refine ⟨_, popEvent_of_finished hfinished, hs', ⟨hentries, ?_⟩, rfl, Or.inl ⟨hfinished, rfl⟩⟩
    intro r hr hr'
    apply hmem r hr hr'
    rintro rfl
    exact absurd (hfinished.symm.trans hr') (by simp)
  | false =>
    obtain ⟨above, below, hstack⟩ := hs'.exists_above hlt hfinished
    refine ⟨_, popEvent_of_stack hs' hstack, treeInv_retired hs' hstack, ⟨hentries, ?_⟩, rfl,
      Or.inr ⟨above, below, hstack, rfl⟩⟩
    intro r hr hr'
    rw [finished_retired] at hr'
    exact hmem r hr hr'.1 hr'.2.1

/-- The rule for a loop of pops, where every entry that ends before one that is taken is taken too. -/
theorem popWhile_induct (P : BuildState n → Prop) (ties : ℕ → ℕ) (retire : ℤ → Bool)
    (hretire : ∀ e e', e ≤ e' → retire e' = true → retire e = true)
    (hstep : ∀ s entry, P s → entry ∈ s.unfinishedEvents → retire entry.1 = true →
      ∃ s', popEvent events (getTop s entry) entry.2 = .ok s' ∧ P s' ∧
        s'.unfinishedEvents = s.unfinishedEvents.erase entry)
    {rounds : ℕ} {s : BuildState n} (hs : P s) (hrounds : s.unfinishedEvents.length ≤ rounds) :
    ∃ s', popWhile events ties retire rounds s = .ok s' ∧ P s' ∧
      ∀ entry ∈ s'.unfinishedEvents, retire entry.1 = false := by
  induction rounds generalizing s with
  | zero =>
    refine ⟨s, rfl, hs, ?_⟩
    rw [List.length_eq_zero_iff.mp (Nat.le_zero.mp hrounds)]
    simp
  | succ rounds ih =>
    rw [popWhile]
    cases htop : topEvent ties s with
    | none =>
      refine ⟨s, rfl, hs, ?_⟩
      rw [topEvent_eq_none htop]
      simp
    | some entry =>
      obtain ⟨hentry, hleast⟩ := topEvent_eq_some htop
      dsimp only
      cases hret : retire entry.1 with
      | false =>
        refine ⟨s, rfl, hs, ?_⟩
        intro other hother
        apply Bool.eq_false_of_not_eq_true
        intro hother'
        rw [hretire _ _ (hleast other hother) hother'] at hret
        exact absurd hret (by simp)
      | true =>
        obtain ⟨s', hpop, hs', hqueue⟩ := hstep s entry hs hentry hret
        have hlength := List.length_erase_of_mem hentry
        have hpos := List.length_pos_of_mem hentry
        obtain ⟨s'', hwhile, hs'', hdone⟩ := ih hs' (by rw [hqueue]; omega)
        refine ⟨s'', ?_, hs'', hdone⟩
        rw [if_pos rfl, hpop]
        exact hwhile

/-- A loop of pops goes through, and leaves the links as they are. -/
theorem popWhile_ok (ties : ℕ → ℕ) (retire : ℤ → Bool)
    (hretire : ∀ e e', e ≤ e' → retire e' = true → retire e = true) {k : ℕ} {s : BuildState n}
    (hs : TreeInv events k s) (hq : Queued events k s) :
    ∃ s', popWhile events ties retire s.unfinishedEvents.length s = .ok s' ∧ TreeInv events k s' ∧
      Queued events k s' ∧ s'.parent = s.parent ∧ ∀ entry ∈ s'.unfinishedEvents, retire entry.1 = false := by
  have hstep : ∀ s₁ entry, (TreeInv events k s₁ ∧ Queued events k s₁ ∧ s₁.parent = s.parent) →
      entry ∈ s₁.unfinishedEvents → retire entry.1 = true →
      ∃ s', popEvent events (getTop s₁ entry) entry.2 = .ok s' ∧
        (TreeInv events k s' ∧ Queued events k s' ∧ s'.parent = s.parent) ∧
        s'.unfinishedEvents = s₁.unfinishedEvents.erase entry := by
    rintro s₁ entry ⟨hs, hq, hparent⟩ hentry -
    obtain ⟨s', hpop, hs', hq', hqueue, hpopped⟩ := popEvent_getTop hs hq hentry
    refine ⟨s', hpop, ⟨hs', hq', ?_⟩, hqueue⟩
    rcases hpopped with ⟨-, rfl⟩ | ⟨above, below, -, rfl⟩
    · exact hparent
    · exact hparent
  obtain ⟨s', hwhile, ⟨hs', hq', hparent⟩, hdone⟩ :=
    popWhile_induct _ ties retire hretire hstep ⟨hs, hq, rfl⟩ le_rfl
  exact ⟨s', hwhile, hs', hq', hparent, hdone⟩

/-- What ends before a time is retired before it. -/
theorem retire_before (time e e' : ℤ) (h : e ≤ e') (h' : decide (e' < time) = true) :
    decide (e < time) = true := by
  rw [decide_eq_true_iff] at h' ⊢
  omega

/-! ### `push_event` -/

section Linking

variable {s : BuildState n} {event : Fin n}

theorem finished_linkParent (s : BuildState n) (event : Fin n) (p : Option (Fin n)) :
    (linkParent s event p).finished = s.finished := by
  cases p <;> rfl

theorem threadEvent_linkParent (s : BuildState n) (event : Fin n) (p : Option (Fin n)) :
    (linkParent s event p).threadEvent = s.threadEvent := by
  cases p <;> rfl

theorem unfinishedEvents_linkParent (s : BuildState n) (event : Fin n) (p : Option (Fin n)) :
    (linkParent s event p).unfinishedEvents = s.unfinishedEvents := by
  cases p <;> rfl

theorem parent_linkParent (h : s.parent event = none) (p : Option (Fin n)) :
    (linkParent s event p).parent = Function.update s.parent event p := by
  cases p with
  | none =>
    rw [Function.update_eq_self_iff.mpr h.symm]
    rfl
  | some p => rfl

theorem children_linkParent (s : BuildState n) (event : Fin n) (p : Option (Fin n)) (q : Fin n) :
    (linkParent s event p).children q = s.children q ++ if p = some q then [event] else [] := by
  cases p with
  | none => simp [linkParent]
  | some p =>
    change Function.update s.children p (s.children p ++ [event]) q = _
    by_cases hq : q = p
    · rw [hq, Function.update_self, if_pos rfl]
    · rw [Function.update_of_ne hq, if_neg (fun h => hq (Option.some_inj.mp h).symm), List.append_nil]

end Linking

/-- The parent of an event was pushed before it. -/
theorem findParent_lt {k : ℕ} {s : BuildState n} (hs : TreeInv events k s) {event : ProfilerEvent} {p : Fin n}
    (h : findParent s event = some p) : (p : ℕ) < k := by
  rw [findParent] at h
  cases hthread : s.threadEvent event.tid with
  | some parent =>
    rw [hthread] at h
    exact hs.current_lt (hthread.trans h)
  | none =>
    rw [hthread] at h
    dsimp only at h
    split at h
    · exact hs.current_lt h
    · exact absurd h (by simp)

/-- The links after the push of an event that had none. -/
theorem treeInv_links {s : BuildState n} (s' : BuildState n) {event : Fin n} (hs : TreeInv events event s)
    (hparent : s'.parent = (linkParent s event (findParent s (events event))).parent)
    (hchildren : s'.children = (linkParent s event (findParent s (events event))).children) :
    (∀ {r p}, s'.parent r = some p → p < r) ∧ (∀ r p, r ∈ s'.children p ↔ s'.parent r = some p) ∧
      (∀ p, (s'.children p).Nodup) ∧
      ∀ r : Fin n, (event : ℕ) + 1 ≤ r → s'.parent r = none ∧ s'.children r = [] := by
  obtain ⟨-, hnone, -⟩ := hs.fresh event le_rfl
  rw [parent_linkParent hnone] at hparent
  have hnot : ∀ p, event ∉ s.children p := by
    intro p hmem
    rw [hs.mem_children, hnone] at hmem
    exact absurd hmem (by simp)
  refine ⟨?_, ?_, ?_, ?_⟩
  · intro r p hp
    rw [hparent] at hp
    by_cases hr : r = event
    · rw [hr, Function.update_self] at hp
      rw [hr]
      exact findParent_lt hs hp
    · rw [Function.update_of_ne hr] at hp
      exact hs.parent_lt hp
  · intro r p
    rw [hparent, hchildren, children_linkParent, List.mem_append, hs.mem_children]
    by_cases hr : r = event
    · rw [hr, Function.update_self, hnone]
      split <;> simp [*]
    · rw [Function.update_of_ne hr]
      split <;> simp [hr]
  · intro p
    rw [hchildren, children_linkParent]
    split
    · exact List.nodup_append.mpr ⟨hs.nodup_children p, List.nodup_singleton event, fun a ha b hb he =>
        hnot p (List.mem_singleton.mp hb ▸ he ▸ ha)⟩
    · rw [List.append_nil]
      exact hs.nodup_children p
  · intro r hr
    obtain ⟨-, hparent', hchildren'⟩ := hs.fresh r (by omega)
    have hne : r ≠ event := by
      rintro rfl
      omega
    rw [hparent, hchildren, children_linkParent, Function.update_of_ne hne, hchildren']
    refine ⟨hparent', ?_⟩
    rw [if_neg]
    · rfl
    · intro hfind
      have := findParent_lt hs hfind
      omega
/-- The state after a push of an event that ends after its start. -/
def opened (events : Fin n → ProfilerEvent) (s : BuildState n) (event : Fin n) : BuildState n :=
  let linked := linkParent s event (findParent s (events event))
  { linked with
    threadEvent := Function.update linked.threadEvent (events event).tid (some event)
    unfinishedEvents := linked.unfinishedEvents ++ [((events event).endTimeNs, event)] }

/-- The state after a push of an event that is over at once. -/
def closed (events : Fin n → ProfilerEvent) (s : BuildState n) (event : Fin n) : BuildState n :=
  let linked := linkParent s event (findParent s (events event))
  { linked with finished := Function.update linked.finished event true }

theorem pushEvent_eq {s : BuildState n} {event : Fin n} (hs : TreeInv events event s) :
    pushEvent events s event = .ok
      (if (events event).startTimeNs < (events event).endTimeNs then opened events s event
        else closed events s event) := by
  obtain ⟨hfinished, hparent, hchildren⟩ := hs.fresh event le_rfl
  rw [pushEvent, if_neg (by simp [hparent]), if_neg (by simp [hchildren]), if_neg (by simp [hfinished])]
  dsimp only
  split
  · rfl
  · rw [markFinished, finished_linkParent, if_neg (by simp [hfinished]), closed, finished_linkParent]

/-- The links of a stack are among events pushed before. -/
theorem isChain_linkParent {k : ℕ} {s : BuildState n} {tid : ℤ} {stack : List (Fin n)}
    (h : IsStack events k s tid stack) {event : Fin n} (hk : k ≤ event) (hparent : s.parent event = none)
    (p : Option (Fin n)) :
    stack.IsChain fun r r' => (linkParent s event p).parent r = some r' := by
  have hne : ∀ r ∈ stack, r ≠ event := by
    rintro r hr rfl
    have := ((h.mem_iff _).mp hr).1
    omega
  rw [parent_linkParent hparent]
  refine h.linked.imp_of_mem_imp ?_
  intro r r' hr _ hrr'
  rw [Function.update_of_ne (hne r hr)]
  exact hrr'

theorem treeInv_opened {s : BuildState n} {event : Fin n} (hs : TreeInv events event s) :
    TreeInv events (event + 1) (opened events s event) := by
  obtain ⟨hfinished, hparent, -⟩ := hs.fresh event le_rfl
  obtain ⟨hlt, hmem, hnodup, hfresh⟩ := treeInv_links (opened events s event) hs rfl rfl
  have hfinished' : (opened events s event).finished = s.finished := finished_linkParent ..
  have hthread : (opened events s event).threadEvent =
      Function.update s.threadEvent (events event).tid (some event) := by
    rw [← threadEvent_linkParent s event (findParent s (events event))]
    rfl
  refine ⟨?_, hlt, hmem, hnodup, ?_, ?_⟩
  · intro r hr
    rw [hfinished']
    exact ⟨(hs.fresh r (by omega)).1, hfresh r hr⟩
  · intro tid r hr
    rw [hthread] at hr
    by_cases htid : tid = (events event).tid
    · rw [htid, Function.update_self, Option.some_inj] at hr
      rw [← hr]
      exact Nat.lt_succ_self _
    · rw [Function.update_of_ne htid] at hr
      exact Nat.lt_succ_of_lt (hs.current_lt hr)
  · intro tid
    obtain ⟨stack, hstack⟩ := hs.exists_stack tid
    have hchain := isChain_linkParent hstack le_rfl hparent (findParent s (events event))
    by_cases htid : tid = (events event).tid
    · -- The event comes on top of the stack of its thread.
      refine ⟨event :: stack, ?_, ?_, ?_⟩
      · apply List.isChain_cons.mpr
        refine ⟨?_, hchain⟩
        intro top htop
        have hne : stack ≠ [] := by
          rintro rfl
          simp at htop
        have hcur := hstack.current hne
        rw [Option.mem_def] at htop
        rw [htop, htid] at hcur
        change (linkParent s event (findParent s (events event))).parent event = some top
        rw [parent_linkParent hparent, Function.update_self, findParent, hcur]
      · intro _
        rw [hthread, htid, Function.update_self, List.head?_cons]
      · intro r
        rw [List.mem_cons, hstack.mem_iff, hfinished']
        constructor
        · rintro (rfl | ⟨hr, hrest⟩)
          · exact ⟨Nat.lt_succ_self _, htid.symm, hfinished⟩
          · exact ⟨Nat.lt_succ_of_lt hr, hrest⟩
        · rintro ⟨hr, hrest⟩
          rcases Nat.lt_succ_iff_lt_or_eq.mp hr with hr | hr
          · exact Or.inr ⟨hr, hrest⟩
          · exact Or.inl (Fin.ext hr)
    · refine ⟨stack, hchain, ?_, ?_⟩
      · intro hne
        rw [hthread, Function.update_of_ne htid]
        exact hstack.current hne
      · intro r
        rw [hstack.mem_iff, hfinished']
        constructor
        · rintro ⟨hr, hrest⟩
          exact ⟨Nat.lt_succ_of_lt hr, hrest⟩
        · rintro ⟨hr, hrest⟩
          refine ⟨?_, hrest⟩
          rcases Nat.lt_succ_iff_lt_or_eq.mp hr with hr | hr
          · exact hr
          · rw [← Fin.ext hr] at htid
            exact absurd hrest.1.symm htid

theorem treeInv_closed {s : BuildState n} {event : Fin n} (hs : TreeInv events event s) :
    TreeInv events (event + 1) (closed events s event) := by
  obtain ⟨hfinished, hparent, -⟩ := hs.fresh event le_rfl
  obtain ⟨hlt, hmem, hnodup, hfresh⟩ := treeInv_links (closed events s event) hs rfl rfl
  have hfinished' : (closed events s event).finished = Function.update s.finished event true := by
    rw [← finished_linkParent s event (findParent s (events event))]
    rfl
  have hthread : (closed events s event).threadEvent = s.threadEvent := threadEvent_linkParent ..
  refine ⟨?_, hlt, hmem, hnodup, ?_, ?_⟩
  · intro r hr
    have hne : r ≠ event := by
      rintro rfl
      omega
    rw [hfinished', Function.update_of_ne hne]
    exact ⟨(hs.fresh r (by omega)).1, hfresh r hr⟩
  · intro tid r hr
    rw [hthread] at hr
    exact Nat.lt_succ_of_lt (hs.current_lt hr)
  · intro tid
    obtain ⟨stack, hstack⟩ := hs.exists_stack tid
    refine ⟨stack, isChain_linkParent hstack le_rfl hparent (findParent s (events event)), ?_, ?_⟩
    · rw [hthread]
      exact hstack.current
    · intro r
      rw [hstack.mem_iff, hfinished']
      by_cases hr : r = event
      · rw [hr, Function.update_self]
        simp
      · have hne : (r : ℕ) ≠ event := fun h => hr (Fin.ext h)
        rw [Function.update_of_ne hr]
        exact and_congr_left fun _ => ⟨fun h => Nat.lt_succ_of_lt h, fun h => by omega⟩

/-- What was put into the queue. -/
theorem queued_pushEvent {s : BuildState n} {event : Fin n} (hq : Queued events event s) :
    Queued events (event + 1)
      (if (events event).startTimeNs < (events event).endTimeNs then opened events s event
        else closed events s event) := by
  split
  · have hqueue : (opened events s event).unfinishedEvents =
        s.unfinishedEvents ++ [((events event).endTimeNs, event)] := by
      rw [← unfinishedEvents_linkParent s event (findParent s (events event))]
      rfl
    have hfinished : (opened events s event).finished = s.finished := finished_linkParent ..
    constructor
    · intro entry hentry
      rw [hqueue, List.mem_append, List.mem_singleton] at hentry
      rcases hentry with hentry | rfl
      · obtain ⟨hlt, hend⟩ := hq.entry entry hentry
        exact ⟨Nat.lt_succ_of_lt hlt, hend⟩
      · exact ⟨Nat.lt_succ_self _, rfl⟩
    · intro r hr hr'
      rw [hfinished] at hr'
      rw [hqueue, List.mem_append, List.mem_singleton]
      rcases Nat.lt_succ_iff_lt_or_eq.mp hr with hr | hr
      · exact Or.inl (hq.mem r hr hr')
      · rw [Fin.ext hr]
        exact Or.inr rfl
  · have hqueue : (closed events s event).unfinishedEvents = s.unfinishedEvents :=
      unfinishedEvents_linkParent ..
    have hfinished : (closed events s event).finished = Function.update s.finished event true := by
      rw [← finished_linkParent s event (findParent s (events event))]
      rfl
    constructor
    · intro entry hentry
      rw [hqueue] at hentry
      obtain ⟨hlt, hend⟩ := hq.entry entry hentry
      exact ⟨Nat.lt_succ_of_lt hlt, hend⟩
    · intro r hr hr'
      rw [hfinished] at hr'
      rw [hqueue]
      by_cases hne : r = event
      · rw [hne, Function.update_self] at hr'
        exact absurd hr' (by simp)
      · rw [Function.update_of_ne hne] at hr'
        have : (r : ℕ) ≠ event := fun h => hne (Fin.ext h)
        exact hq.mem r (by omega) hr'
/-! ### The whole run -/

/-- The rule for the replay loop: what every round keeps holds after all of them. -/
theorem replayEvent_foldlM {P : ℕ → BuildState n → Prop} (ties : ℕ → ℕ)
    (hstep : ∀ (event : Fin n) s, P event s → ∃ s', replayEvent events ties s event = .ok s' ∧ P (event + 1) s')
    {s : BuildState n} (hs : P 0 s) :
    ∃ s', (List.finRange n).foldlM (replayEvent events ties) s = .ok s' ∧ P n s' := by
  -- The events of `rest` are still to come.
  have hrest : ∀ (rest before : List (Fin n)) (s : BuildState n), List.finRange n = before ++ rest →
      P before.length s → ∃ s', rest.foldlM (replayEvent events ties) s = .ok s' ∧ P n s' := by
    intro rest
    induction rest with
    | nil =>
      intro before s hlist hs
      have hlength := congrArg List.length hlist
      rw [List.length_finRange, List.append_nil] at hlength
      exact ⟨s, rfl, hlength ▸ hs⟩
    | cons event rest ih =>
      intro before s hlist hs
      have hevent : (event : ℕ) = before.length := by
        have hget : (List.finRange n)[before.length]? = some event := by
          rw [hlist, List.getElem?_append_right le_rfl, Nat.sub_self, List.getElem?_cons_zero]
        obtain ⟨hlt, he⟩ := List.getElem?_eq_some_iff.mp hget
        rw [← he, List.getElem_finRange]
        rfl
      obtain ⟨s', hreplay, hs'⟩ := hstep event s (by rwa [hevent])
      obtain ⟨s'', hrun, hs''⟩ := ih (before ++ [event]) s' (by rw [hlist]; simp) (by simpa [hevent] using hs')
      refine ⟨s'', ?_, hs''⟩
      rw [List.foldlM_cons, hreplay]
      exact hrun
  exact hrest (List.finRange n) [] s rfl hs

/-- One round of the replay loop. -/
theorem replayEvent_ok (ties : ℕ → ℕ) {event : Fin n} {s : BuildState n} (hs : TreeInv events event s)
    (hq : Queued events event s) :
    ∃ s', replayEvent events ties s event = .ok s' ∧ TreeInv events (event + 1) s' ∧
      Queued events (event + 1) s' := by
  obtain ⟨s', hwhile, hs', hq', -, -⟩ := popWhile_ok ties _ (retire_before (events event).startTimeNs) hs hq
  refine ⟨_, ?_, ?_, queued_pushEvent hq'⟩
  · rw [replayEvent, hwhile]
    exact pushEvent_eq hs'
  · split
    · exact treeInv_opened hs'
    · exact treeInv_closed hs'

theorem treeInv_start : TreeInv events 0 .start where
  fresh _ _ := ⟨rfl, rfl, rfl⟩
  parent_lt h := by simp [BuildState.start] at h
  mem_children := by simp [BuildState.start]
  nodup_children _ := List.nodup_nil
  current_lt h := by simp [BuildState.start] at h
  exists_stack tid := ⟨[], by simp, by simp, by simp⟩

theorem queued_start : Queued events 0 .start where
  entry := by simp [BuildState.start]
  mem _ h := by omega

/-- The clean up leaves no event unfinished. -/
theorem cleanup_ok (ties : ℕ → ℕ) {s : BuildState n} (hs : TreeInv events n s) (hq : Queued events n s) :
    ∃ s', popWhile events ties (fun _ => true) s.unfinishedEvents.length s = .ok s' ∧ TreeInv events n s' ∧
      s'.parent = s.parent ∧ ∀ r, s'.finished r = true := by
  obtain ⟨s', hwhile, hs', hq', hparent, hdone⟩ := popWhile_ok ties (fun _ => true) (fun _ _ _ _ => rfl) hs hq
  refine ⟨s', hwhile, hs', hparent, ?_⟩
  intro r
  apply Bool.eq_true_of_not_eq_false
  intro hr
  exact absurd (hdone _ (hq'.mem r r.isLt hr)) (by simp)

/-! ### The tree -/

/-- A tree built as it should be. -/
structure Built (sortedEvents : List ProfilerEvent) (s : BuildState sortedEvents.length) : Prop where
  finished : ∀ r, s.finished r = true
  /-- The links in the two directions say the same. -/
  mem_children : ∀ r p, r ∈ s.children p ↔ s.parent r = some p
  /-- No event stands twice in the lists of children. -/
  nodup_children : ∀ p, (s.children p).Nodup
  disjoint_children : ∀ p q, p ≠ q → (s.children p).Disjoint (s.children q)
  acyclic : ∀ r, ¬ Relation.TransGen (fun r p => s.parent r = some p) r r
  start_le : ∀ r p, s.parent r = some p →
    (sortedEvents.get p).startTimeNs ≤ (sortedEvents.get r).startTimeNs

theorem exists_buildEventTree (ties : ℕ → ℕ) {sortedEvents : List ProfilerEvent}
    (hsorted : sortedEvents.Pairwise fun event event' => event.startTimeNs ≤ event'.startTimeNs) :
    ∃ s, buildEventTree ties sortedEvents = .ok s ∧ Built sortedEvents s := by
  obtain ⟨s, hreplay, hs, hq⟩ := replayEvent_foldlM
    (P := fun k s => TreeInv sortedEvents.get k s ∧ Queued sortedEvents.get k s) ties
    (fun event s hs => replayEvent_ok ties hs.1 hs.2) ⟨treeInv_start, queued_start⟩
  obtain ⟨s', hwhile, hs', -, hfinished⟩ := cleanup_ok ties hs hq
  refine ⟨s', ?_, hfinished, hs'.mem_children, hs'.nodup_children, ?_, ?_, ?_⟩
  · rw [buildEventTree, replay, hreplay]
    exact hwhile
  · intro p q hne r hp hq
    rw [hs'.mem_children] at hp hq
    exact hne (Option.some_inj.mp (hp.symm.trans hq))
  · -- A parent comes before its children in the list.
    intro r hr
    have hlt : ∀ {a b}, Relation.TransGen (fun r p => s'.parent r = some p) a b → b < a := by
      intro a b h
      induction h with
      | single h => exact hs'.parent_lt h
      | tail _ h ih => exact lt_trans (hs'.parent_lt h) ih
    exact lt_irrefl r (hlt hr)
  · intro r p hp
    exact List.pairwise_iff_get.mp hsorted p r (hs'.parent_lt hp)

/-- Two threads, where the second runs backward for the first, with an event that is over at once and one
that ends before its start. -/
def forwardedEvents : List ProfilerEvent :=
  [{ tid := 1, startTimeNs := 0, extraFields := .torchOp 10 0 [] },
    { tid := 2, startTimeNs := 4, extraFields := .torchOp 20 1 [] },
    { tid := 1, startTimeNs := 5, extraFields := .allocation 4096 512 20 0 },
    { tid := 2, startTimeNs := 12, extraFields := .torchOp 11 1 [] },
    { tid := 1, startTimeNs := 12, extraFields := .pyCall 15 none none none }]

theorem exists_buildEventTree_forwarded :
    ∃ s, buildEventTree (fun _ => 0) forwardedEvents = .ok s ∧ Built forwardedEvents s :=
  exists_buildEventTree (fun _ => 0) (by decide)

end TorchNpu.Profiler.EventTreeParser
