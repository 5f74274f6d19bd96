/-
  Freeing blocks and processing events, as moves.

  `Reaches L m₀ m` says that moves lead from `m₀`, the moment before the operation, to `m`.  A
  specification starts from a moment that has been reached and names the one that is reached by the
  computation.  `Ends L m₀` is for the exceptions: after a bad pointer or an answer that does not fit
  there is nothing to say, and any other exception is thrown at a moment at which the operation has
  nothing in its hands.
-/
import TorchNpu.Allocator.Spec.Base
import TorchNpu.Allocator.Spec.Inward

namespace TorchNpu.Allocator

open Tiling

def Reaches (L : Licence) (m₀ m : Moment) : Prop :=
  Moves L m₀ m ∧ Base m

/-- How an operation that has started at `m₀` may be cut off. -/
def Ends (L : Licence) (m₀ : Moment) (err : Exception) (s : State) : Prop :=
  err = .badPointer ∨ err = .unanswered ∨ Reaches L m₀ s.rest

variable {L : Licence} {m₀ m : Moment} {s s' : State} {b : BlockId} {blk : Block} {pool : PoolId}

theorem ends_badPointer (s : State) : Ends L m₀ .badPointer s :=
  .inl rfl

theorem ends_unanswered : Ends L m₀ .unanswered s :=
  .inr (.inl rfl)

theorem Reaches.ends {err : Exception} (R : Reaches L m₀ s.rest) : Ends L m₀ err s :=
  .inr (.inr R)

theorem Reaches.move {m' : Moment} (R : Reaches L m₀ m) (h : Move L m m') : Reaches L m₀ m' :=
  ⟨R.1.tail h, h.base R.2⟩

theorem Reaches.quiet (R : Reaches L m₀ m) (h : m.state.Quiet s') :
    Reaches L m₀ { m with state := s' } :=
  R.move (.quiet h)

theorem wp_derefPool {Q : Option (MempoolId × PrivatePool) → State → Prop}
    (h : s.HasPool pool → Q (s.privatePool pool) s) : wp (derefPool pool) s Q (Ends L m₀) := by
  unfold derefPool
  cases howner : pool.owner with
  | none =>
    refine wp_pure ?_
    have hnone : s.privatePool pool = none := by rw [State.privatePool, howner, Option.bind_none]
    rw [hnone] at h
    refine h ?_
    intro id hid
    rw [howner] at hid
    cases hid
  | some id =>
    refine wp_bind (wp_get ?_)
    cases hpool : s.graphPools id with
    | none => exact wp_throw (ends_badPointer s)
    | some pp =>
      refine wp_pure ?_
      have hsome : s.privatePool pool = some (id, pp) := by
        rw [State.privatePool, howner, Option.bind_some, hpool, Option.map_some]
      rw [hsome] at h
      refine h ?_
      intro id' hid'
      obtain rfl : id = id' := Option.some_inj.mp (howner.symm.trans hid')
      rw [hpool]
      rfl

theorem wp_updateStats {f : Stats → Stats} {Q : Unit → State → Prop}
    (h : s.HasPool pool → Q () (s.updateStats pool f)) :
    wp (updateStats pool f) s Q (Ends L m₀) :=
  wp_bind (wp_derefPool fun hpool => wp_modify (h hpool))

/-! ### `free_block` -/

/-- If `x` is still there, its size, stream and pool are those it had. -/
def Untouched (x : BlockId) (s s' : State) : Prop :=
  ∀ y', s'.heap x = some y' → ∃ y, s.heap x = some y ∧ y'.size = y.size ∧ y'.tag = y.tag

theorem Untouched.of_heap {x : BlockId} (h : s'.heap = s.heap) : Untouched x s s' :=
  fun y hy => ⟨y, h ▸ hy, rfl, rfl⟩

theorem Untouched.trans {x : BlockId} {s'' : State} (h : Untouched x s s')
    (h' : Untouched x s' s'') : Untouched x s s'' := by
  intro y'' hy''
  obtain ⟨y', hy', hsize', htag'⟩ := h' y'' hy''
  obtain ⟨y, hy, hsize, htag⟩ := h y' hy'
  exact ⟨y, hy, hsize'.trans hsize, htag'.trans htag⟩

theorem Untouched.put {x : BlockId} {blk' : Block} (hb : s.heap b = some blk)
    (hsize : blk'.size = blk.size) (htag : blk'.tag = blk.tag) : Untouched x s (s.put b blk') := by
  intro y' hy'
  rw [State.put, State.withHeap_heap] at hy'
  by_cases hxb : x = b
  · rw [hxb, Function.update_self, Option.some_inj] at hy'
    subst hy'
    exact ⟨blk, hxb ▸ hb, hsize, htag⟩
  · rw [Function.update_of_ne hxb] at hy'
    exact ⟨y', hy', rfl, rfl⟩

theorem MergePrev.untouched {n : ℕ} {x : BlockId} (h : MergePrev b blk s n s') (hxb : x ≠ b) :
    Untouched x s s' := by
  intro y' hy'
  cases h with
  | kept hlive hk => exact ⟨y', hy', rfl, rfl⟩
  | joined c src hprev hc hm hlive =>
    rw [State.merge_heap, mergePrevHeap] at hy'
    split_ifs at hy'
    rw [linkNext] at hy'
    split_ifs at hy'
    · obtain ⟨y, hy, rfl⟩ := Option.map_eq_some_iff.mp hy'
      exact ⟨y, hy, rfl, rfl⟩
    · exact ⟨y', hy', rfl, rfl⟩

theorem MergeNext.untouched {n : ℕ} {x : BlockId} (h : MergeNext b blk s n s') (hxb : x ≠ b) :
    Untouched x s s' := by
  intro y' hy'
  cases h with
  | kept hlive hk => exact ⟨y', hy', rfl, rfl⟩
  | joined c src hprev hc hm hlive =>
    rw [State.merge_heap, mergeNextHeap] at hy'
    split_ifs at hy'
    rw [linkPrev] at hy'
    split_ifs at hy'
    · obtain ⟨y, hy, rfl⟩ := Option.map_eq_some_iff.mp hy'
      exact ⟨y, hy, rfl, rfl⟩
    · exact ⟨y', hy', rfl, rfl⟩

theorem Freed.untouched {x : BlockId} (h : Freed b blk s s') (hxb : x ≠ b) : Untouched x s s' := by
  obtain ⟨n₁, n₂, s₁, s₂, blk₁, merged, hprev, -, hnext, -, -⟩ := h
  exact (hprev.untouched hxb).trans (hnext.untouched hxb)

/-- Nothing has happened to the block that has been found, nor to the captures. -/
structure FoundUntouched (found : Option BlockId) (s s' : State) : Prop where
  found : ∀ x, found = some x → Untouched x s s'
  captures : s'.capturesUnderway = s.capturesUnderway

theorem FoundUntouched.of_heap {found : Option BlockId} (h : s'.heap = s.heap)
    (hcaptures : s'.capturesUnderway = s.capturesUnderway) : FoundUntouched found s s' :=
  ⟨fun _ _ => .of_heap h, hcaptures⟩

theorem FoundUntouched.trans {found : Option BlockId} {s'' : State} (h : FoundUntouched found s s')
    (h' : FoundUntouched found s' s'') : FoundUntouched found s s'' :=
  ⟨fun x hx => (h.found x hx).trans (h'.found x hx), h'.captures.trans h.captures⟩

theorem FoundUntouched.then {found : Option BlockId} {s₁ s₂ s'' : State}
    (h : FoundUntouched found s s₁) (h' : FoundUntouched found s₂ s'') (hheap : s₂.heap = s₁.heap)
    (hcaptures : s₂.capturesUnderway = s₁.capturesUnderway) : FoundUntouched found s s'' :=
  (h.trans (.of_heap hheap hcaptures)).trans h'

theorem FoundUntouched.put {found : Option BlockId} (blk' : Block) (hb : s.heap b = some blk)
    (hsize : blk'.size = blk.size) (htag : blk'.tag = blk.tag) :
    FoundUntouched found s (s.put b blk') :=
  ⟨fun _ _ => Untouched.put hb hsize htag, rfl⟩

theorem wp_freeBlock (R : Reaches L m₀ m) (hheld : m.held = some b)
    (huses : ∀ blk, m.state.heap b = some blk → blk.streamUses = [] ∨ L.uses)
    (hlazy : m.found = none ∨ L.lazy) :
    wp (freeBlock b) m.state
      (fun _ s' => Reaches L m₀ { m with state := s', held := none } ∧
        FoundUntouched m.found m.state s') (Ends L m₀) := by
  have B := R.2
  refine wp_bind (wp_deref ends_badPointer fun blk hb => ?_)
  obtain ⟨halloc, hevents, -⟩ := Info.kind_eq_some.mp (B.held_kind hheld hb)
  refine wp_bind (wp_assert (fun _ => ?_) fun hfalse => ?_)
  swap
  · have halloc : blk.allocated = false := halloc
    have hevents : blk.eventCount = 0 := hevents
    simp [halloc, hevents] at hfalse
  refine wp_bind (wp_tryMergePrev ends_badPointer B.sound.linked hb fun n₁ s₁ hprev => ?_)
  obtain ⟨S₁, M₁⟩ := B.sound.mergePrev hb hprev
  obtain ⟨blk₁, hb₁, -, htag₁, -⟩ := M₁.block
  have hnext₁ : blk₁.next = blk.next := by
    cases hprev with
    | kept hlive hk => rw [Option.some_inj.mp (hb₁.symm.trans hb)]
    | joined c src hprev hc hm hlive =>
      have hcb : c ≠ b := fun h => B.sound.linked.prev_ne (State.view_eq_some hb) (h ▸ hprev)
      rw [State.merge_heap, mergePrevHeap_self hcb, Option.some_inj] at hb₁
      rw [← hb₁]
  have hpool₁ : blk₁.pool = blk.pool := congrArg Tag.pool htag₁
  rw [← hnext₁, ← hpool₁]
  refine wp_bind (wp_tryMergeNext ends_badPointer S₁.linked hb₁ fun n₂ s₂ hnext => ?_)
  rw [hpool₁]
  refine wp_bind (wp_modify (wp_bind (wp_modify (wp_bind (wp_deref ends_badPointer
    fun merged hmerged => wp_updateStats fun hpool => ?_)))))
  have hfreed := Freed.intro n₁ n₂ s₁ s₂ blk₁ merged hprev hb₁ hnext hmerged hpool
  refine ⟨R.move (.free b blk hheld hb (huses blk hb) hlazy hfreed), fun x hx => ?_, ?_⟩
  · refine hfreed.untouched ?_
    rintro rfl
    exact (B.held x hheld).1 hx
  · exact (congrArg State.capturesUnderway hfreed.eq :)

/-! ### Events -/

/-- An event is over. -/
theorem wp_finishEvent {pend : Multiset BlockId} (R : Reaches L m₀ m) (hheld : m.held = none)
    (hpend : m.pend = b ::ₘ pend) (hlazy : m.found = none ∨ L.lazy) :
    wp (finishEvent b) m.state
      (fun _ s' => Reaches L m₀ { m with state := s', pend } ∧ FoundUntouched m.found m.state s')
      (Ends L m₀) := by
  refine wp_bind (wp_store ends_badPointer fun blk hb => ?_)
  have hcount := R.2.sound.count hb
  rw [hpend, Multiset.count_cons_self] at hcount
  refine wp_bind (wp_deref ends_badPointer fun blk' hb' => ?_)
  obtain rfl : { blk with eventCount := blk.eventCount - 1 } = blk' := by
    simpa using hb'
  by_cases hlast : blk.eventCount = 1
  · refine wp_ite (fun _ => ?_) fun hne => absurd (by simp [hlast]) hne
    have R₁ := R.move (.lastEvent b blk pend hheld hpend hb hlast)
    have hput : m.state.withHeap (Function.update m.state.heap b
        (some { blk with eventCount := blk.eventCount - 1 })) =
        m.state.put b { blk with eventCount := 0 } := by
      rw [State.put, hlast]
    rw [hput]
    refine (wp_freeBlock R₁ rfl ?_ hlazy).post fun _ s' h => ?_
    · intro y hy
      rw [State.put_heap_self, Option.some_inj] at hy
      subst hy
      left
      apply (R.2.sound.flags hb).uses
      change 0 < blk.eventCount
      omega
    · obtain ⟨R₂, huntouched⟩ := h
      have hput : FoundUntouched m.found m.state (m.state.put b { blk with eventCount := 0 }) :=
        .put _ hb rfl rfl
      refine ⟨?_, hput.trans huntouched⟩
      rw [hheld]
      exact R₂
  · refine wp_ite (fun h => ?_) fun _ => ?_
    · simp only at h
      omega
    · exact wp_pure ⟨R.move (.event b blk pend hpend hb (by omega)), .put _ hb rfl rfl⟩

/-- The moment between two operations, or inside a `malloc` that has found a block. -/
def State.holding (s : State) (found : Option BlockId) : Moment :=
  { s.rest with found }

variable {found : Option BlockId}

theorem pending_of_queues (h : s'.queues = s.queues) : s'.pending = s.pending :=
  congrArg (List.flatMap Prod.snd) (Prod.mk.inj h).1

theorem Reaches.holding (R : Reaches L m₀ { s.holding found with state := s' })
    (hqueues : s'.queues = s.queues) : Reaches L m₀ (s'.holding found) := by
  have hdeferred : s'.needsEventsDeferredUntilNoCapture = s.needsEventsDeferredUntilNoCapture :=
    (Prod.mk.inj hqueues).2
  simpa only [State.holding, State.rest, pending_of_queues hqueues, hdeferred] using R

theorem Reaches.silent (R : Reaches L m₀ (s.holding found)) (h : s.Quiet s')
    (hqueues : s'.queues = s.queues) : Reaches L m₀ (s'.holding found) :=
  (R.quiet h).holding hqueues

/-- Another answer of the driver. -/
theorem quiet_answers (as : List Answer) : s.Quiet { s with answers := as } := by
  constructor <;> rfl

theorem quiet_npuEvents (events : List (Stream × List BlockId)) :
    s.Quiet { s with npuEvents := events } := by
  constructor <;> rfl

theorem wp_answer {Q : Answer → State → Prop} (h : ∀ a as, Q a { s with answers := as }) :
    wp answer s Q (Ends L m₀) := by
  refine wp_bind (wp_get ?_)
  cases s.answers with
  | nil => exact wp_throw ends_unanswered
  | cons a as => exact wp_bind (wp_set (wp_pure (h a as)))

theorem wp_queryEvent {Q : Bool → State → Prop} (h : ∀ complete as, Q complete { s with answers := as }) :
    wp queryEvent s Q (Ends L m₀) := by
  refine wp_bind (wp_answer fun a as => ?_)
  cases a with
  | event complete => exact wp_pure (h complete as)
  | address ptr => exact wp_throw ends_unanswered
  | reserved ptr n => exact wp_throw ends_unanswered
  | physical handle => exact wp_throw ends_unanswered
  | done => exact wp_throw ends_unanswered
  | memoryAllocation => exact wp_throw ends_unanswered
  | failure => exact wp_throw ends_unanswered

theorem pending_cons {done rest : List (Stream × List BlockId)} {stream : Stream}
    {queue : List BlockId} (hevents : s.npuEvents = done ++ (stream, b :: queue) :: rest) :
    (s.pending : Multiset BlockId) =
      b ::ₘ (({ s with npuEvents := done ++ (stream, queue) :: rest } : State).pending :
        Multiset BlockId) := by
  simp only [State.pending, hevents, List.flatMap_append, List.flatMap_cons, List.cons_append]
  rw [Multiset.cons_coe, Multiset.coe_eq_coe]
  exact List.perm_middle

/-- The inner loop of `process_events`. -/
theorem wp_processQueue {done rest : List (Stream × List BlockId)} {stream : Stream}
    (hlazy : found = none ∨ L.lazy) (queue : List BlockId) (R : Reaches L m₀ (s.holding found))
    (hevents : s.npuEvents = done ++ (stream, queue) :: rest) :
    wp (processQueue done stream rest queue) s
      (fun left s' => Reaches L m₀ (s'.holding found) ∧
        s'.npuEvents = done ++ (stream, left) :: rest ∧ FoundUntouched found s s') (Ends L m₀) := by
  induction queue generalizing s with
  | nil => exact wp_pure ⟨R, hevents, .of_heap rfl rfl⟩
  | cons b queue ih =>
    refine wp_bind (wp_queryEvent fun complete as => ?_)
    have R₁ := R.silent (quiet_answers as) rfl
    refine wp_ite (fun _ => ?_) fun _ => wp_pure ⟨R₁, hevents, .of_heap rfl rfl⟩
    have hfinish := wp_finishEvent R₁ rfl (pending_cons hevents) hlazy
    refine (inward_finishEvent.and hfinish).bind fun _ s₁ ⟨⟨R₂, hfound⟩, hqueues⟩ => ?_
    obtain ⟨-, hdeferred⟩ := Prod.mk.inj hqueues
    have hfound₁ : FoundUntouched found s s₁ := ⟨hfound.found, hfound.captures⟩
    refine wp_bind (wp_modify ((ih ?_ rfl).post fun left s' ⟨R', hevents', hfound'⟩ =>
      ⟨R', hevents', hfound₁.then hfound' rfl rfl⟩))
    have R₃ := R₂.quiet (quiet_npuEvents (done ++ (stream, queue) :: rest))
    simpa only [State.holding, State.rest, State.pending, hdeferred] using R₃

/-- The outer loop of `process_events`. -/
theorem wp_processStreams (hlazy : found = none ∨ L.lazy) (rest : List (Stream × List BlockId))
    {done : List (Stream × List BlockId)} (R : Reaches L m₀ (s.holding found))
    (hevents : s.npuEvents = done ++ rest) :
    wp (processStreams done rest) s
      (fun _ s' => Reaches L m₀ (s'.holding found) ∧ FoundUntouched found s s') (Ends L m₀) := by
  induction rest generalizing s done with
  | nil => exact wp_pure ⟨R, .of_heap rfl rfl⟩
  | cons entry rest ih =>
    obtain ⟨stream, queue⟩ := entry
    refine (wp_processQueue hlazy queue R hevents).bind fun left s₁ ⟨R₁, hevents₁, hfound₁⟩ => ?_
    refine wp_ite (fun hleft => ?_) fun _ => ?_
    · subst hleft
      refine wp_bind (wp_modify ((ih ?_ rfl).post fun _ s' ⟨R', hfound'⟩ =>
        ⟨R', hfound₁.then hfound' rfl rfl⟩))
      -- an empty queue has no events
      have hpending : s₁.pending = ({ s₁ with npuEvents := done ++ rest } : State).pending := by
        simp only [State.pending, hevents₁, List.flatMap_append, List.flatMap_cons, List.nil_append]
      have R₂ := R₁.quiet (quiet_npuEvents (done ++ rest))
      simpa only [State.holding, State.rest, hpending] using R₂
    · refine (ih R₁ ?_).post fun _ s' ⟨R', hfound'⟩ => ⟨R', hfound₁.trans hfound'⟩
      rw [hevents₁, List.append_assoc, List.singleton_append]

/-! ### New events -/

theorem pushEvent_pending {stream : Stream} {events : List (Stream × List BlockId)} :
    ((pushEvent stream b events).flatMap Prod.snd).Perm (b :: events.flatMap Prod.snd) := by
  induction events with
  | nil => exact .refl _
  | cons entry events ih =>
    obtain ⟨st, queue⟩ := entry
    rw [pushEvent]
    split_ifs
    · simp only [List.flatMap_cons, List.append_assoc, List.singleton_append]
      exact List.perm_middle
    · simp only [List.flatMap_cons]
      exact (ih.append_left queue).trans List.perm_middle

/-- `npu_events` after one event of `b` for each of the streams. -/
def pushEvents (b : BlockId) (streams : List Stream) (events : List (Stream × List BlockId)) :
    List (Stream × List BlockId) :=
  streams.foldl (fun events stream => pushEvent stream b events) events

theorem pushEvents_pending {streams : List Stream} {events : List (Stream × List BlockId)} :
    ((pushEvents b streams events).flatMap Prod.snd).Perm
      (events.flatMap Prod.snd ++ List.replicate streams.length b) := by
  induction streams generalizing events with
  | nil => simp [pushEvents]
  | cons stream streams ih =>
    refine (@ih (pushEvent stream b events)).trans ?_
    refine (pushEvent_pending.append_right _).trans ?_
    rw [List.length_cons, List.replicate_succ, List.cons_append]
    exact List.perm_middle.symm

theorem wp_recordEvents {streams : List Stream} {Q : Unit → State → Prop}
    (hb : s.heap b = some blk)
    (h : Q () { s.put b { blk with eventCount := blk.eventCount + streams.length } with
      npuEvents := pushEvents b streams s.npuEvents }) :
    wp (recordEvents b streams) s Q (Ends L m₀) := by
  induction streams generalizing s blk with
  | nil =>
    refine wp_pure ?_
    have heq : s.put b { blk with eventCount := blk.eventCount + ([] : List Stream).length } = s := by
      rw [State.put, List.length_nil, Nat.add_zero, ← hb, Function.update_eq_self]
      rfl
    rw [heq] at h
    exact h
  | cons stream streams ih =>
    refine wp_bind (wp_store ends_badPointer fun blk' hb' => ?_)
    obtain rfl : blk' = blk := Option.some_inj.mp (hb'.symm.trans hb)
    refine wp_bind (wp_modify (ih (State.put_heap_self s b _) ?_))
    rw [List.length_cons] at h
    simpa only [State.put, State.withHeap, Function.update_idem, Nat.add_right_comm _ 1, Nat.add_assoc,
      pushEvents, List.foldl_cons] using h

/-- The state after `insert_events`. -/
def State.insertEvents (s : State) (b : BlockId) (blk : Block) : State :=
  { s.put b { blk with streamUses := [], eventCount := blk.eventCount + blk.streamUses.length } with
    npuEvents := pushEvents b blk.streamUses s.npuEvents }

theorem wp_insertEvents {Q : Unit → State → Prop}
    (h : ∀ blk, s.heap b = some blk → Q () (s.insertEvents b blk)) :
    wp (insertEvents b) s Q (Ends L m₀) := by
  refine wp_bind (wp_deref ends_badPointer fun blk hb => ?_)
  refine wp_bind (wp_store ends_badPointer fun blk' hb' => ?_)
  obtain rfl : blk' = blk := Option.some_inj.mp (hb'.symm.trans hb)
  refine wp_recordEvents (State.put_heap_self s b _) ?_
  simpa only [State.insertEvents, State.put, State.withHeap, Function.update_idem] using h blk' hb

/-- A block on its way to become free gets an event for each stream that has used it. -/
theorem Reaches.insertEvents (R : Reaches L m₀ m) (hheld : m.held = some b)
    (hb : m.state.heap b = some blk) (huses : blk.streamUses ≠ [])
    (hpend : m.pend = (m.state.pending : Multiset BlockId)) :
    Reaches L m₀ { m with
      state := m.state.insertEvents b blk, held := none
      pend := ((m.state.insertEvents b blk).pending : Multiset BlockId) } := by
  have hcount : blk.eventCount = 0 := (Info.kind_eq_some.mp (R.2.held_kind hheld hb)).2.1
  have R₁ := (R.move (.events b blk hheld hb huses)).quiet
    (quiet_npuEvents (pushEvents b blk.streamUses m.state.npuEvents))
  have hpend' : m.pend + Multiset.replicate blk.streamUses.length b =
      ((m.state.insertEvents b blk).pending : Multiset BlockId) := by
    rw [hpend, ← Multiset.coe_replicate, Multiset.coe_add, Multiset.coe_eq_coe]
    exact pushEvents_pending.symm
  rw [← hpend']
  simpa only [State.insertEvents, hcount, Nat.zero_add] using R₁

theorem insertEvents_nil (hb : s.heap b = some blk) (huses : blk.streamUses = []) :
    s.insertEvents b blk = s := by
  have hblk : { blk with streamUses := [], eventCount := blk.eventCount + 0 } = blk := by
    rw [Nat.add_zero, ← huses]
  rw [State.insertEvents, huses, List.length_nil, hblk, State.put, ← hb, Function.update_eq_self]
  rfl

theorem wp_removeNpugraphStreamUses (R : Reaches L m₀ m) (hheld : m.held = some b) :
    wp (removeNpugraphStreamUses b) m.state
      (fun _ s' => Reaches L m₀ { m with state := s' } ∧ s'.queues = m.state.queues ∧
        FoundUntouched m.found m.state s') (Ends L m₀) := by
  refine wp_bind (wp_get ?_)
  cases m.state.blockToNpugraphStreamUses b with
  | none => exact wp_pure ⟨R, rfl, .of_heap rfl rfl⟩
  | some uses =>
    refine wp_bind (wp_store ends_badPointer fun blk hb => wp_modify ⟨?_, rfl,
      fun _ _ => Untouched.put hb rfl rfl, rfl⟩)
    refine (R.move (.uses b blk (blk.streamUses.filter (· ∉ uses)) hb (.inr hheld))).quiet ?_
    constructor <;> rfl

/-- The loop of `insert_events_deferred_until_no_capture`: `bs` are the blocks that still wait. -/
theorem wp_insertDeferred (hlazy : found = none ∨ L.lazy) (bs : List BlockId)
    (R : Reaches L m₀ { s.holding found with deferred := bs }) :
    wp (insertDeferred bs) s
      (fun _ s' => Reaches L m₀ { s'.holding found with deferred := [] } ∧ FoundUntouched found s s')
      (Ends L m₀) := by
  induction bs generalizing s with
  | nil => exact wp_pure ⟨R, .of_heap rfl rfl⟩
  | cons b bs ih =>
    refine wp_bind (wp_deref ends_badPointer fun blk hb => ?_)
    obtain ⟨-, i, hi, -, huses⟩ := R.2.sound.sets.waits b (List.mem_cons_self ..)
    obtain rfl : blk.info = i := Option.some_inj.mp ((State.info_eq_some hb).symm.trans hi)
    refine wp_bind (wp_assert (fun _ => ?_) fun hempty => ?_)
    swap
    · simp only [Bool.not_eq_false', List.isEmpty_iff] at hempty
      exact absurd hempty huses
    have R₁ := R.move (.undefer b bs rfl rfl)
    refine (wp_removeNpugraphStreamUses R₁ rfl).bind fun _ s₁ ⟨R₂, hqueues, hfound₁⟩ => ?_
    have hpend : (s.pending : Multiset BlockId) = (s₁.pending : Multiset BlockId) := by
      rw [pending_of_queues hqueues]
      rfl
    refine wp_bind (wp_insertEvents fun blk₁ hb₁ => ?_)
    refine wp_bind (wp_deref ends_badPointer fun blk₂ hb₂ => ?_)
    by_cases huses₁ : blk₁.streamUses = []
    · -- all streams were of the capture: the block is free at once
      rw [insertEvents_nil hb₁ huses₁] at hb₂ ⊢
      obtain rfl : blk₂ = blk₁ := Option.some_inj.mp (hb₂.symm.trans hb₁)
      have hcount : blk₂.eventCount = 0 := (Info.kind_eq_some.mp (R₂.2.held_kind rfl hb₁)).2.1
      refine wp_ite (fun _ => ?_) fun hne => absurd hcount hne
      have hfree := wp_freeBlock R₂ rfl (fun y hy => .inl ?_) hlazy
      · refine (inward_freeBlock.and hfree).bind fun _ s₂ ⟨⟨R₃, hfound₂⟩, hqueues₂⟩ =>
          (ih ?_).post fun _ s' ⟨R', hfound'⟩ => ⟨R', (hfound₁.trans hfound₂).trans hfound'⟩
        have hpend₂ : s₂.pending = s.pending := pending_of_queues (hqueues₂.trans hqueues)
        simpa only [State.holding, State.rest, hpend₂] using R₃
      · rw [Option.some_inj.mp (hy.symm.trans hb₁), huses₁]
    · have R₃ := R₂.insertEvents rfl hb₁ huses₁ hpend
      have hput : FoundUntouched found s₁ (s₁.insertEvents b blk₁) :=
        (FoundUntouched.put { blk₁ with
          streamUses := [], eventCount := blk₁.eventCount + blk₁.streamUses.length } hb₁ rfl rfl).trans
          (.of_heap rfl rfl)
      refine wp_ite (fun hzero => ?_) fun _ => wp_bind (wp_pure ((ih R₃).post
        fun _ s' ⟨R', hfound'⟩ => ⟨R', (hfound₁.trans hput).trans hfound'⟩))
      obtain rfl : _ = blk₂ := Option.some_inj.mp ((State.put_heap_self s₁ b _).symm.trans hb₂)
      have hlen := List.length_pos_iff.mpr huses₁
      simp only at hzero
      omega

theorem wp_insertEventsDeferredUntilNoCapture (hlazy : found = none ∨ L.lazy)
    (R : Reaches L m₀ (s.holding found)) :
    wp insertEventsDeferredUntilNoCapture s
      (fun _ s' => Reaches L m₀ (s'.holding found) ∧ FoundUntouched found s s') (Ends L m₀) := by
  refine wp_bind (wp_get ((wp_insertDeferred hlazy _ R).bind fun _ s₁ ⟨R₁, hfound⟩ =>
    wp_modify ⟨?_, hfound.trans (.of_heap rfl rfl)⟩))
  refine R₁.quiet ?_
  constructor <;> rfl

theorem wp_processEvents (hlazy : found = none ∨ L.lazy) (R : Reaches L m₀ (s.holding found)) :
    wp processEvents s (fun _ s' => Reaches L m₀ (s'.holding found) ∧ FoundUntouched found s s')
      (Ends L m₀) := by
  refine (wp_insertEventsDeferredUntilNoCapture hlazy R).bind fun _ s₁ ⟨R₁, hfound₁⟩ => ?_
  refine wp_bind (wp_get ((wp_processStreams hlazy s₁.npuEvents R₁ rfl).post ?_))
  exact fun _ s' ⟨R', hfound'⟩ => ⟨R', hfound₁.trans hfound'⟩

/-- The loop of `synchronize_and_free_events`: `bs` are the blocks whose events are still to come. -/
theorem wp_finishAll (bs : List BlockId)
    (R : Reaches L m₀ { s.rest with pend := (bs : Multiset BlockId) }) :
    wp (finishAll bs) s (fun _ s' => Reaches L m₀ { s'.rest with pend := 0 }) (Ends L m₀) := by
  induction bs generalizing s with
  | nil => exact wp_pure R
  | cons b bs ih =>
    have hfinish := wp_finishEvent R rfl (Multiset.cons_coe b bs).symm (.inl rfl)
    refine (inward_finishEvent.and hfinish).bind fun _ s₁ ⟨⟨R₁, _⟩, hqueues⟩ => ih ?_
    simpa only [State.rest, (Prod.mk.inj hqueues).2] using R₁

theorem wp_synchronizeAndFreeEvents (R : Reaches L m₀ s.rest) :
    wp synchronizeAndFreeEvents s (fun _ s' => Reaches L m₀ s'.rest) (Ends L m₀) := by
  refine wp_bind (wp_get (wp_bind (wp_assert (fun _ => ?_) fun _ => R.ends)))
  refine (wp_insertEventsDeferredUntilNoCapture (.inl rfl) R).bind fun _ s₁ ⟨R₁, _⟩ => ?_
  refine wp_bind (wp_get ((wp_finishAll s₁.pending R₁).bind fun _ s₂ R₂ => wp_modify ?_))
  exact R₂.quiet (quiet_npuEvents [])

/-! ### The operations on one block -/

theorem wp_free {initFlag : Bool} (R : Reaches L m₀ s.rest) (hb : s.heap b = some blk)
    (halloc : blk.allocated = true) (huses : blk.streamUses = [] ∨ initFlag = true ∨ L.uses) :
    wp (free b initFlag) s (fun _ s' => Reaches L m₀ s'.rest) (Ends L m₀) := by
  refine wp_bind (wp_store ends_badPointer fun blk' hb' => ?_)
  obtain rfl : blk' = blk := Option.some_inj.mp (hb'.symm.trans hb)
  refine wp_bind (wp_deref ends_badPointer fun blk₁ hb₁ => ?_)
  obtain rfl : { blk' with allocated := false } = blk₁ :=
    Option.some_inj.mp ((State.put_heap_self s b _).symm.trans hb₁)
  refine wp_bind (wp_updateStats fun hpool => ?_)
  have R₁ := R.move (.deallocate b blk' rfl rfl hb halloc hpool)
  have hb₂ : (s.deallocate b blk').heap b = some { blk' with allocated := false } :=
    State.put_heap_self s b _
  refine wp_ite (fun hcond => ?_) fun hcond => ?_
  · simp only [Bool.and_eq_true, Bool.not_eq_true', List.isEmpty_eq_false_iff] at hcond
    refine wp_bind (wp_get (wp_ite (fun _ => ?_) fun _ => ?_))
    · refine wp_insertEvents fun y hy => ?_
      obtain rfl := Option.some_inj.mp (hb₂.symm.trans hy)
      exact R₁.insertEvents rfl hb₂ hcond.1 rfl
    · refine wp_modify ((R₁.move (.defer b _ rfl hb₂ hcond.1)).quiet ?_)
      constructor <;> rfl
  · have hfree := wp_freeBlock R₁ rfl (fun y hy => ?_) (.inl rfl)
    · exact (inward_freeBlock.and hfree).post fun _ s₂ ⟨⟨R₂, _⟩, hqueues⟩ => R₂.holding hqueues
    · obtain rfl := Option.some_inj.mp (hb₂.symm.trans hy)
      simp only [Bool.and_eq_true, Bool.not_eq_true', List.isEmpty_eq_false_iff, not_and,
        Bool.not_eq_true] at hcond
      rcases huses with huses | hinit | huses
      · exact .inl huses
      · left
        by_contra hne
        rw [hcond hne] at hinit
        cases hinit
      · exact .inr huses

theorem wp_recordStream {stream : Stream} (R : Reaches L m₀ s.rest) (hb : s.heap b = some blk)
    (halloc : blk.allocated = true) :
    wp (recordStream b stream) s (fun _ s' => Reaches L m₀ s'.rest) (Ends L m₀) := by
  refine wp_bind (wp_store ends_badPointer fun blk' hb' => ?_)
  obtain rfl : blk' = blk := Option.some_inj.mp (hb'.symm.trans hb)
  have R₁ := R.move (.uses b blk' (insertStream stream blk'.streamUses) hb (.inl halloc))
  refine wp_bind (wp_get (wp_ite (fun _ => ?_) fun _ => wp_pure R₁))
  refine wp_modify (R₁.quiet ?_)
  constructor <;> rfl

/-- A block without events is in no queue, and the loop of `eraseStream` passes every entry. -/
theorem wp_eraseEvents {done rest : List (Stream × List BlockId)} {stream : Stream}
    {Q : Unit → State → Prop} (queue kept : List BlockId) (hnot : b ∉ queue) (h : Q () s) :
    wp (eraseEvents b done stream rest kept queue) s Q (Ends L m₀) := by
  induction queue generalizing kept with
  | nil => exact wp_pure h
  | cons x queue ih =>
    rw [List.mem_cons, not_or] at hnot
    rw [eraseEvents]
    exact wp_ite (fun _ => ih (kept ++ [x]) hnot.2) fun hx => absurd (Ne.symm hnot.1) hx

theorem wp_eraseFromQueue {stream : Stream} (rest : List (Stream × List BlockId))
    {done : List (Stream × List BlockId)} (R : Reaches L m₀ s.rest)
    (hevents : s.npuEvents = done ++ rest) (hnot : b ∉ s.pending) :
    wp (eraseFromQueue b stream done rest) s (fun _ s' => Reaches L m₀ s'.rest) (Ends L m₀) := by
  induction rest generalizing done with
  | nil =>
    rw [eraseFromQueue]
    have hpending : s.pending = ({ s with npuEvents := done ++ [(stream, [])] } : State).pending := by
      simp [State.pending, hevents]
    refine wp_modify ?_
    have R₁ := R.quiet (quiet_npuEvents (done ++ [(stream, [])]))
    simpa only [State.rest, hpending] using R₁
  | cons entry rest ih =>
    obtain ⟨st, queue⟩ := entry
    rw [eraseFromQueue]
    refine wp_ite (fun _ => wp_eraseEvents queue [] ?_ R) fun _ => ih ?_
    · intro hmem
      apply hnot
      rw [State.pending, hevents, List.flatMap_append, List.flatMap_cons]
      exact List.mem_append_right _ (List.mem_append_left _ hmem)
    · rw [hevents, List.append_assoc, List.singleton_append]

theorem wp_eraseStream {stream : Stream} (R : Reaches L m₀ s.rest) (hb : s.heap b = some blk)
    (halloc : blk.allocated = true) :
    wp (eraseStream b stream) s (fun _ s' => Reaches L m₀ s'.rest) (Ends L m₀) := by
  refine wp_bind (wp_store ends_badPointer fun blk' hb' => ?_)
  obtain rfl : blk' = blk := Option.some_inj.mp (hb'.symm.trans hb)
  have R₁ := R.move (.uses b blk' (blk'.streamUses.filter (· ≠ stream)) hb (.inl halloc))
  refine wp_bind (wp_get (wp_eraseFromQueue _ R₁ rfl ?_))
  have hcount : (s.pending : Multiset BlockId).count b = 0 := by
    rw [← (R.2.sound.flags hb).events halloc]
    exact R.2.sound.count hb
  exact Multiset.count_eq_zero.mp hcount

end TorchNpu.Allocator
