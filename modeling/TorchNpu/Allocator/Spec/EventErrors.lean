/-
  What a failing device leaves in the queues of events.

  When the device throws, the event of the entry in question has been moved out and nobody puts it back:
  it is a local variable of the loop.  So the entry stays in its queue with a null event, whatever the
  state was and wherever in the queues the entry stands, and the next look at it follows a null pointer.
  `synchronize_and_free_events` in addition has counted down the events before it without removing
  their entries.
-/
import TorchNpu.Allocator.EventErrors
import TorchNpu.Allocator.Spec.Inward

namespace TorchNpu.Allocator

/-- What makes a second try possible: no event is null, and the blocks have as many events as there are
entries for them. -/
structure EventState.Retryable (es : EventState) : Prop where
  event : ∀ stream queue, (stream, queue) ∈ es.state.npuEvents →
    ∀ i < queue.length, (stream, i) ∉ es.moved
  count : ∀ b blk, es.state.heap b = some blk → blk.eventCount = es.state.pending.count b

/-- An entry whose event is null. -/
def EventState.HasNull (es : EventState) : Prop :=
  ∃ stream queue i, (stream, queue) ∈ es.state.npuEvents ∧ i < queue.length ∧
    (stream, i) ∈ es.moved

theorem EventState.HasNull.not_retryable {es : EventState} (h : es.HasNull) : ¬es.Retryable := by
  obtain ⟨stream, queue, i, hqueue, hi, hmoved⟩ := h
  intro hretry
  exact hretry.event stream queue hqueue i hi hmoved

/-! ### The parts that do not talk to the device -/

variable {s : State} {b : BlockId} {α : Type}

/-- What comes before the loops throws no error of the device either. -/
abbrev NoAclError {α : Type} (x : M α) : Prop :=
  Keeps (fun _ => ()) (· ≠ .aclError) x

theorem Inward.noAclError {x : M α} (h : Inward x) : NoAclError x :=
  fun s => (h s).mono (fun _ _ _ => rfl) fun _ _ herr => ⟨herr.1, rfl⟩

theorem noAclError_recordEvents {streams : List Stream} : NoAclError (recordEvents b streams) := by
  induction streams with
  | nil => exact keeps_pure
  | cons stream streams ih =>
    have hstore : NoAclError (store b fun blk => { blk with eventCount := blk.eventCount + 1 }) :=
      Inward.noAclError inward_store
    refine hstore.bind fun _ => Keeps.bind (keeps_modify ?_) fun _ => ih
    intro s
    rfl

theorem noAclError_removeNpugraphStreamUses : NoAclError (removeNpugraphStreamUses b) := by
  refine keeps_get.bind fun s => ?_
  cases s.blockToNpugraphStreamUses b with
  | none => exact keeps_pure
  | some uses => exact (Inward.noAclError inward_store).bind fun _ => keeps_modify fun _ => rfl

theorem noAclError_insertDeferred {bs : List BlockId} : NoAclError (insertDeferred bs) := by
  induction bs with
  | nil => exact keeps_pure
  | cons b bs ih =>
    have hderef : NoAclError (deref b) := Inward.noAclError inward_deref
    refine hderef.bind fun blk => (Inward.noAclError inward_assert).bind fun _ =>
      noAclError_removeNpugraphStreamUses.bind fun _ => Keeps.bind ?_ fun _ => hderef.bind fun _ => ?_
    · exact hderef.bind fun _ => (Inward.noAclError inward_store).bind fun _ =>
        noAclError_recordEvents
    · exact keeps_ite ((Inward.noAclError inward_freeBlock).bind fun _ => ih) ih

theorem noAclError_insertEventsDeferredUntilNoCapture :
    NoAclError insertEventsDeferredUntilNoCapture :=
  keeps_get.bind fun _ => noAclError_insertDeferred.bind fun _ => keeps_modify fun _ => rfl

/-! ### The loops -/

namespace EventM

variable {es : EventState} {stream : Stream} {E : Exception → EventState → Prop}

/-- An error of the device finds a null event. -/
def Broken (err : Exception) (es : EventState) : Prop :=
  err = .aclError → es.HasNull

theorem wp_lift {x : M α} {Q : α → EventState → Prop}
    (h : wp x es.state (fun a s' => Q a { es with state := s' })
      fun err s' => E err { es with state := s' }) : wp (lift x) es Q E := by
  unfold wp lift at *
  cases hx : x es.state with
  | ok a s' => simpa [hx] using h
  | error err s' => simpa [hx] using h

/-- Past `takeEvent` the event is null. -/
theorem wp_takeEvent {i : ℕ} {Q : Unit → EventState → Prop}
    (h : ∀ moved, (stream, i) ∈ moved → Q () { es with moved }) :
    wp (takeEvent stream i) es Q Broken := by
  refine wp_bind (wp_get ?_)
  refine wp_ite (fun _ => wp_throw nofun) fun _ => ?_
  exact wp_modify (h _ (List.mem_cons_self ..))

theorem wp_lift_answer {Q : Answer → EventState → Prop}
    (h : ∀ a as, Q a { es with state := { es.state with answers := as } }) :
    wp (lift answer) es Q Broken := by
  refine wp_lift (wp_bind (wp_get ?_))
  cases hanswers : es.state.answers with
  | nil => exact wp_throw nofun
  | cons a as => exact wp_bind (wp_set (h a as))

theorem wp_query {Q : Bool → EventState → Prop} (hnull : es.HasNull)
    (h : ∀ complete as, Q complete { es with state := { es.state with answers := as } }) :
    wp query es Q Broken := by
  refine wp_bind (wp_lift_answer fun a as => ?_)
  cases a with
  | event complete => exact h complete as
  | memoryAllocation => exact wp_throw fun _ => hnull
  | failure => exact wp_throw fun _ => hnull
  | address ptr => exact wp_throw nofun
  | reserved ptr maxHandles => exact wp_throw nofun
  | physical handle => exact wp_throw nofun
  | done => exact wp_throw nofun

theorem wp_synchronizeEvent {checkError : Bool} {Q : Unit → EventState → Prop} (hnull : es.HasNull)
    (h : ∀ as, Q () { es with state := { es.state with answers := as } }) :
    wp (synchronizeEvent checkError) es Q Broken := by
  refine wp_bind (wp_lift_answer fun a as => ?_)
  cases a with
  | done => exact h as
  | memoryAllocation => exact wp_ite (fun _ => wp_throw fun _ => hnull) fun _ => wp_pure (h as)
  | failure => exact wp_ite (fun _ => wp_throw fun _ => hnull) fun _ => wp_pure (h as)
  | address ptr => exact wp_throw nofun
  | reserved ptr maxHandles => exact wp_throw nofun
  | physical handle => exact wp_throw nofun
  | event complete => exact wp_throw nofun

theorem wp_lift_inward {x : M α} {Q : α → EventState → Prop} (hx : Inward x)
    (h : ∀ a s', s'.npuEvents = es.state.npuEvents → Q a { es with state := s' }) :
    wp (lift x) es Q Broken :=
  wp_lift ((hx es.state).mono (fun a s' hs' => h a s' (congrArg Prod.fst hs')) fun _ _ herr heq => absurd heq herr.1)

theorem wp_lift_noAclError {x : M α} {Q : α → EventState → Prop} (hx : NoAclError x)
    (h : ∀ a s', Q a { es with state := s' }) : wp (lift x) es Q Broken :=
  wp_lift ((hx es.state).mono (fun a s' _ => h a s') fun _ _ herr heq => absurd heq herr.1)

/-- The loop over one queue: when the device throws, the entry it is at has a null event. -/
theorem processQueue_broken {done rest : List (Stream × List BlockId)} {queue : List BlockId}
    (hqueues : es.state.npuEvents = done ++ (stream, queue) :: rest) :
    wp (processQueue done stream rest queue) es
      (fun left es' => es'.state.npuEvents = done ++ (stream, left) :: rest) Broken := by
  induction queue generalizing es with
  | nil => exact wp_pure hqueues
  | cons b queue ih =>
    refine wp_bind (wp_takeEvent fun moved hmoved => ?_)
    have hnull : EventState.HasNull { es with moved } :=
      ⟨stream, b :: queue, 0, by simp [hqueues], by simp, hmoved⟩
    refine wp_bind (wp_query hnull fun complete as => ?_)
    refine wp_ite (fun _ => ?_) fun _ => ?_
    · refine wp_bind (wp_lift_inward inward_finishEvent fun _ s' _ => ?_)
      refine wp_bind (wp_modify ?_)
      refine wp_bind (wp_lift (wp_modify ?_))
      exact ih rfl
    · exact wp_bind (wp_modify (wp_pure hqueues))

theorem processStreams_broken {done rest : List (Stream × List BlockId)}
    (hqueues : es.state.npuEvents = done ++ rest) :
    wp (processStreams done rest) es (fun _ _ => True) Broken := by
  induction rest generalizing es done with
  | nil => exact wp_pure trivial
  | cons entry rest ih =>
    obtain ⟨stream, queue⟩ := entry
    refine (processQueue_broken hqueues).bind fun left es' hleft => ?_
    refine wp_ite (fun _ => ?_) fun _ => ?_
    · exact wp_bind (wp_lift (wp_modify (ih rfl)))
    · exact ih (by simp [hleft])

theorem processEvents_broken : wp processEvents es (fun _ _ => True) Broken := by
  refine wp_bind (wp_lift_noAclError noAclError_insertEventsDeferredUntilNoCapture fun _ s' => ?_)
  exact wp_bind (wp_get (processStreams_broken rfl))

/-- The loop over one queue from place `i` on; the queues are not touched before the very end. -/
theorem synchronizeQueue_broken {checkError : Bool} (done : List BlockId) {queue : List BlockId}
    {queues : List (Stream × List BlockId)} (hqueues : es.state.npuEvents = queues)
    (hqueue : (stream, done ++ queue) ∈ queues) :
    wp (synchronizeQueue checkError stream done.length queue) es
      (fun _ es' => es'.state.npuEvents = queues) Broken := by
  induction queue generalizing es done with
  | nil => exact wp_pure hqueues
  | cons b queue ih =>
    refine wp_bind (wp_takeEvent fun moved hmoved => ?_)
    have hnull : EventState.HasNull { es with moved } :=
      ⟨stream, done ++ b :: queue, done.length, hqueues ▸ hqueue, by simp, hmoved⟩
    refine wp_bind (wp_synchronizeEvent hnull fun as => ?_)
    refine wp_bind (wp_lift_inward inward_finishEvent fun _ s' hs' => ?_)
    have hnext : wp (synchronizeQueue checkError stream (done ++ [b]).length queue) ⟨s', moved⟩
        (fun _ es' => es'.state.npuEvents = queues) Broken :=
      ih (done ++ [b]) (hs'.trans hqueues) (by simpa using hqueue)
    rwa [List.length_append, List.length_singleton] at hnext

theorem synchronizeStreams_broken {checkError : Bool} {queues rest : List (Stream × List BlockId)}
    (hqueues : es.state.npuEvents = queues) (hrest : rest ⊆ queues) :
    wp (synchronizeStreams checkError rest) es (fun _ _ => True) Broken := by
  induction rest generalizing es with
  | nil => exact wp_pure trivial
  | cons entry rest ih =>
    obtain ⟨stream, queue⟩ := entry
    rw [List.cons_subset] at hrest
    exact (synchronizeQueue_broken [] hqueues hrest.1).bind fun _ es' hes' =>
      ih hes' hrest.2

theorem synchronizeAndFreeEvents_broken {checkError : Bool} :
    wp (synchronizeAndFreeEvents checkError) es (fun _ _ => True) Broken := by
  refine wp_bind (wp_get ?_)
  refine wp_bind (wp_lift_inward inward_assert fun _ s' _ => ?_)
  refine wp_bind (wp_lift_noAclError noAclError_insertEventsDeferredUntilNoCapture fun _ s' => ?_)
  refine wp_bind (wp_get ?_)
  refine (synchronizeStreams_broken rfl (List.Subset.refl _)).bind fun _ es' _ => ?_
  exact wp_bind (wp_lift (wp_modify (wp_modify trivial)))

/-! ### Errors of the device -/

/-- Whenever the device throws in one of the two loops, the state that is left is not one in which the
operation can be tried again. -/
theorem not_retryable_of_aclError (es es' : EventState) :
    (processEvents es = .error .aclError es' → ¬es'.Retryable) ∧
      (synchronizeAndFreeEvents true es = .error .aclError es' → ¬es'.Retryable) := by
  constructor
  · intro h
    have hbroken : wp processEvents es (fun _ _ => True) Broken := processEvents_broken
    rw [wp, h] at hbroken
    exact (hbroken rfl).not_retryable
  · intro h
    have hbroken : wp (synchronizeAndFreeEvents true) es (fun _ _ => True) Broken :=
      synchronizeAndFreeEvents_broken
    rw [wp, h] at hbroken
    exact (hbroken rfl).not_retryable

/-- A block that is used on a second stream and freed: the event is outstanding. -/
def sideStream : List Label :=
  [.malloc {} 0 [] 1000 1 [.address 1048576], .recordStream 1 2, .free 1 true]

/-- The state a computation throws an error of the device in, after a run. -/
def thrown (ls : List Label) (x : EventM Unit) (answers : List Answer) : Option EventState :=
  (runFromInit ls).bind fun s =>
    match x ⟨{ s with answers }, []⟩ with
    | .error .aclError es => some es
    | _ => none

theorem exists_of_thrown {ls : List Label} {x : EventM Unit} {answers : List Answer}
    (h : (thrown ls x answers).isSome = true) :
    ∃ s es, runFromInit ls = some s ∧ x ⟨{ s with answers }, []⟩ = .error .aclError es := by
  obtain ⟨es, hes⟩ := Option.isSome_iff_exists.mp h
  obtain ⟨s, hs, hx⟩ := Option.bind_eq_some_iff.mp hes
  refine ⟨s, es, hs, ?_⟩
  split at hx
  · rename_i heq
    rw [heq, Option.some_inj.mp hx]
  · cases hx

/-- Both loops can meet an error of the device. -/
theorem not_retryable_of_aclError_sideStream :
    (∃ es es', processEvents es = .error .aclError es' ∧ ¬es'.Retryable) ∧
      ∃ es es', synchronizeAndFreeEvents true es = .error .aclError es' ∧ ¬es'.Retryable := by
  constructor
  · obtain ⟨s, es, -, hx⟩ := exists_of_thrown
      (show (thrown sideStream processEvents [.failure]).isSome = true by decide +kernel)
    exact ⟨_, es, hx, (not_retryable_of_aclError _ es).1 hx⟩
  · obtain ⟨s, es, -, hx⟩ := exists_of_thrown
      (show (thrown sideStream (synchronizeAndFreeEvents true) [.failure]).isSome = true by
        decide +kernel)
    exact ⟨_, es, hx, (not_retryable_of_aclError _ es).2 hx⟩

/-- After the run `sideStream`, an error of the device in `process_events` leaves a null event. -/
theorem not_retryable_sideStream :
    ¬∀ ls s answers es, runFromInit ls = some s →
      processEvents ⟨{ s with answers }, []⟩ = .error .aclError es → es.Retryable := by
  intro h
  obtain ⟨s, es, hs, hx⟩ := exists_of_thrown
    (show (thrown sideStream processEvents [.failure]).isSome = true by decide +kernel)
  have hbroken : wp processEvents ⟨{ s with answers := [.failure] }, []⟩ (fun _ _ => True) Broken :=
    processEvents_broken
  rw [wp, hx] at hbroken
  exact (hbroken rfl).not_retryable (h _ _ _ _ hs hx)

end EventM

end TorchNpu.Allocator
