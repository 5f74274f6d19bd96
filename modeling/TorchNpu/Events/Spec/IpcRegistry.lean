/-
  The registry of IPC events and the events of the runtime.

  An event that has been given up is in exactly one place until it is destroyed, and the registry has the
  IPC events of the runtime, and entries that a thread of the pool is about to remove.  Both hold as long
  as no handle is added while a thread that has destroyed an event with that handle is about to remove it.
-/
import TorchNpu.Events.IpcRegistry
import Mathlib.Data.List.Nodup
import Mathlib.Data.List.Perm.Basic

namespace TorchNpu.Events.IpcRegistry

variable {s s' : IpcRegistry} {event : Event} {ipc ok : Bool} {runtimeEvent : RuntimeEvent}

/-! ### What is claimed -/

/-- The handles of the events that have been given up and are still to be destroyed. -/
def awaiting (s : IpcRegistry) : List Event :=
  s.testing ++ s.destroyingAtOnce ++ s.pushing ++ s.npuEvents ++ s.tasks ++ s.destroying

/-- The numbers of the events with these handles. -/
def numbers (s : IpcRegistry) (events : List Event) : List ℕ :=
  events.filterMap fun event => (s.live event).map RuntimeEvent.number

/-- No `AddIpcEvent` has failed; the registry is the set of the IPC events, apart from those that are being
added or removed; each event that has been given up has been destroyed once, or is still to be destroyed
once. -/
structure Registered (s : IpcRegistry) : Prop where
  added : s.failed = []
  listed : ∀ event runtimeEvent, s.live event = some runtimeEvent → runtimeEvent.ipc = true →
    event ∉ s.adding → event ∈ s.ipcEvents
  current : ∀ event ∈ s.ipcEvents, event ∉ s.removing →
    ∃ runtimeEvent, s.live event = some runtimeEvent ∧ runtimeEvent.ipc = true
  once : (s.destroyed ++ s.numbers s.awaiting).Perm s.retired ∧ s.retired.Nodup

/-- The condition on a step: no handle is added while a thread is about to remove it, and
`aclrtDestroyEvent` does not fail. -/
def Careful (s : IpcRegistry) : IpcLabel → Prop
  | .addIpcEvent event => event ∉ s.removing
  | .destroyAtOnce _ ok | .destroy _ ok => ok = true
  | _ => True

instance (s : IpcRegistry) : DecidablePred s.Careful
  | .addIpcEvent _ => inferInstanceAs (Decidable (_ ∉ _))
  | .destroyAtOnce _ _ | .destroy _ _ => inferInstanceAs (Decidable (_ = _))
  | .create .. | .openHandle _ | .lazyDestroy _ | .test _ | .pushBack _ | .dispatch | .take
  | .removeIpcEvent _ => isTrue trivial

/-! ### The invariant -/

/-- The registry and the events of the runtime. -/
structure Listed (s : IpcRegistry) : Prop where
  failed : s.failed = []
  adding : ∀ event ∈ s.adding,
    ∃ runtimeEvent, s.live event = some runtimeEvent ∧ runtimeEvent.ipc = true ∧
      runtimeEvent.number ∉ s.retired
  nodup : s.adding.Nodup
  listed : ∀ event runtimeEvent, s.live event = some runtimeEvent → runtimeEvent.ipc = true →
    event ∉ s.adding → event ∈ s.ipcEvents ∧ event ∉ s.removing
  current : ∀ event ∈ s.ipcEvents, event ∉ s.removing →
    event ∉ s.adding ∧ ∃ runtimeEvent, s.live event = some runtimeEvent ∧ runtimeEvent.ipc = true

/-- The events that are given up. -/
structure Retired (s : IpcRegistry) : Prop where
  lt : ∀ event runtimeEvent, s.live event = some runtimeEvent → runtimeEvent.number < s.created
  injective : ∀ event event' runtimeEvent runtimeEvent', s.live event = some runtimeEvent →
    s.live event' = some runtimeEvent' → runtimeEvent.number = runtimeEvent'.number → event = event'
  retired_lt : ∀ number ∈ s.retired, number < s.created
  retired_nodup : s.retired.Nodup
  awaiting : ∀ event ∈ s.awaiting,
    ∃ runtimeEvent, s.live event = some runtimeEvent ∧ runtimeEvent.number ∈ s.retired
  nodup : s.awaiting.Nodup
  /-- Only events that are no IPC events are destroyed at once. -/
  atOnce : ∀ event ∈ s.destroyingAtOnce, ∀ runtimeEvent, s.live event = some runtimeEvent →
    runtimeEvent.ipc = false
  once : (s.destroyed ++ s.numbers s.awaiting).Perm s.retired

theorem Listed.registered (h : s.Listed) (hretired : s.Retired) : s.Registered where
  added := h.failed
  listed event runtimeEvent hlive hipc hadding := (h.listed event runtimeEvent hlive hipc hadding).1
  current event hevent hremoving := (h.current event hevent hremoving).2
  once := ⟨hretired.once, hretired.retired_nodup⟩

/-- An event that is given up is not being added. -/
theorem Listed.notMem_adding (h : s.Listed) (hretired : s.Retired) (hevent : event ∈ s.awaiting) :
    event ∉ s.adding := by
  intro hadding
  obtain ⟨runtimeEvent, hlive, hmem⟩ := hretired.awaiting event hevent
  obtain ⟨runtimeEvent', hlive', -, hnotMem⟩ := h.adding event hadding
  rw [hlive, Option.some_inj] at hlive'
  rw [hlive'] at hmem
  exact hnotMem hmem

/-! ### Events that are given up -/

theorem numbers_perm {events events' : List Event} (h : events.Perm events') :
    (s.numbers events).Perm (s.numbers events') :=
  h.filterMap _

theorem numbers_congr {events : List Event} (h : ∀ event ∈ events, s'.live event = s.live event) :
    s'.numbers events = s.numbers events := by
  unfold numbers
  apply List.filterMap_congr
  intro event hevent
  rw [h event hevent]

/-- An event that goes from one place to another. -/
theorem Retired.move (h : s.Retired) (hlive : s'.live = s.live) (hcreated : s'.created = s.created)
    (hretired : s'.retired = s.retired) (hdestroyed : s'.destroyed = s.destroyed)
    (hatOnce : ∀ event ∈ s'.destroyingAtOnce, ∀ runtimeEvent, s.live event = some runtimeEvent →
      runtimeEvent.ipc = false)
    (hawaiting : s'.awaiting.Perm s.awaiting) : s'.Retired where
  lt := by
    rw [hlive, hcreated]
    exact h.lt
  injective := by
    rw [hlive]
    exact h.injective
  retired_lt := by
    rw [hretired, hcreated]
    exact h.retired_lt
  retired_nodup := by
    rw [hretired]
    exact h.retired_nodup
  awaiting event hevent := by
    rw [hlive, hretired]
    exact h.awaiting event (hawaiting.mem_iff.mp hevent)
  nodup := hawaiting.nodup_iff.mpr h.nodup
  atOnce := by
    rw [hlive]
    exact hatOnce
  once := by
    have hnumbers : (s'.numbers s'.awaiting).Perm (s.numbers s.awaiting) := by
      rw [numbers_congr (s := s) fun event _ => by rw [hlive]]
      exact numbers_perm hawaiting
    rw [hretired, hdestroyed]
    exact (hnumbers.append_left _).trans h.once

/-- The event is destroyed, and it is not to be destroyed again. -/
theorem Retired.destroy (h : s.Retired) (hlive : s.live event = some runtimeEvent)
    (hlive' : s'.live = Function.update s.live event none) (hcreated : s'.created = s.created)
    (hretired : s'.retired = s.retired) (hdestroyed : s'.destroyed = s.destroyed ++ [runtimeEvent.number])
    (hatOnce : ∀ e ∈ s'.destroyingAtOnce, e ∈ s.destroyingAtOnce)
    (hawaiting : s.awaiting.Perm (event :: s'.awaiting)) : s'.Retired := by
  have hnodup := hawaiting.nodup_iff.mp h.nodup
  rw [List.nodup_cons] at hnodup
  have hkept : ∀ e, e ≠ event → s'.live e = s.live e := by
    intro e he
    rw [hlive', Function.update_of_ne he]
  -- What is live after the step is another event than `event`.
  have hother : ∀ e r, s'.live e = some r → s.live e = some r := by
    intro e r hr
    rw [hlive'] at hr
    by_cases he : e = event
    · rw [he, Function.update_self] at hr
      cases hr
    · rwa [Function.update_of_ne he] at hr
  have hne : ∀ e ∈ s'.awaiting, e ≠ event := by
    rintro e he rfl
    exact hnodup.1 he
  refine ⟨?_, ?_, ?_, ?_, ?_, hnodup.2, ?_, ?_⟩
  · intro e r hr
    rw [hcreated]
    exact h.lt e r (hother e r hr)
  · intro e e' r r' hr hr'
    exact h.injective e e' r r' (hother e r hr) (hother e' r' hr')
  · rw [hretired, hcreated]
    exact h.retired_lt
  · rw [hretired]
    exact h.retired_nodup
  · intro e he
    rw [hkept e (hne e he), hretired]
    exact h.awaiting e (hawaiting.mem_iff.mpr (List.mem_cons_of_mem _ he))
  · intro e he r hr
    exact h.atOnce e (hatOnce e he) r (hother e r hr)
  · have hnumbers : (s.numbers s.awaiting).Perm (runtimeEvent.number :: s'.numbers s'.awaiting) := by
      rw [numbers_congr (s := s) fun e he => hkept e (hne e he)]
      apply (numbers_perm hawaiting).trans
      simp [numbers, hlive]
    rw [hretired, hdestroyed, List.append_assoc]
    exact (hnumbers.symm.append_left _).trans h.once

theorem Retired.create (h : s.Retired) (hstep : s.aclrtCreateEvent event ipc = some s') : s'.Retired := by
  rw [aclrtCreateEvent, Option.ite_none_right_eq_some, Option.isNone_iff_eq_none] at hstep
  obtain ⟨hnone, hstep⟩ := hstep
  cases hstep
  have hlive : ∀ e r, Function.update s.live event (some ⟨s.created, ipc⟩) e = some r →
      e = event ∧ r.number = s.created ∨ e ≠ event ∧ s.live e = some r := by
    intro e r hr
    by_cases he : e = event
    · rw [he, Function.update_self] at hr
      cases hr
      exact .inl ⟨he, rfl⟩
    · rw [Function.update_of_ne he] at hr
      exact .inr ⟨he, hr⟩
  have hne : ∀ e ∈ s.awaiting, e ≠ event := by
    rintro e he rfl
    obtain ⟨r, hr, -⟩ := h.awaiting e he
    rw [hnone] at hr
    cases hr
  refine ⟨?_, ?_, ?_, h.retired_nodup, ?_, h.nodup, ?_, ?_⟩
  · intro e r hr
    show r.number < s.created + 1
    rcases hlive e r hr with ⟨-, hnumber⟩ | ⟨-, hr⟩
    · omega
    · have hlt := h.lt e r hr
      omega
  · intro e e' r r' hr hr' hnumber
    rcases hlive e r hr with ⟨he, hr⟩ | ⟨-, hr⟩
    · rcases hlive e' r' hr' with ⟨he', -⟩ | ⟨-, hr'⟩
      · rw [he, he']
      · have hlt := h.lt e' r' hr'
        omega
    · rcases hlive e' r' hr' with ⟨-, hr'⟩ | ⟨-, hr'⟩
      · have hlt := h.lt e r hr
        omega
      · exact h.injective e e' r r' hr hr' hnumber
  · intro number hnumber
    exact Nat.lt_succ_of_lt (h.retired_lt number hnumber)
  · intro e he
    show ∃ r, Function.update s.live event (some ⟨s.created, ipc⟩) e = some r ∧ r.number ∈ s.retired
    rw [Function.update_of_ne (hne e he)]
    exact h.awaiting e he
  · intro e he r hr
    have hawaiting : e ∈ s.awaiting := by simp [IpcRegistry.awaiting, he]
    rcases hlive e r hr with ⟨he, -⟩ | ⟨-, hr⟩
    · exact absurd he (hne e hawaiting)
    · exact h.atOnce e ‹_› r hr
  · apply (List.Perm.of_eq _).trans h.once
    apply congrArg (s.destroyed ++ ·)
    apply numbers_congr
    intro e he
    exact Function.update_of_ne (hne e he) ..

theorem Retired.retire (h : s.Retired) (hlive : s.live event = some runtimeEvent)
    (hnotMem : runtimeEvent.number ∉ s.retired) :
    ({ s with
      testing := event :: s.testing
      retired := runtimeEvent.number :: s.retired }).Retired := by
  have hevent : event ∉ s.awaiting := by
    intro hevent
    obtain ⟨r, hr, hmem⟩ := h.awaiting event hevent
    rw [hlive, Option.some_inj] at hr
    rw [← hr] at hmem
    exact hnotMem hmem
  refine ⟨h.lt, h.injective, ?_, ?_, ?_, ?_, h.atOnce, ?_⟩
  · intro number hnumber
    rcases List.mem_cons.mp hnumber with hnumber | hnumber
    · rw [hnumber]
      exact h.lt event runtimeEvent hlive
    · exact h.retired_lt number hnumber
  · exact List.nodup_cons.mpr ⟨hnotMem, h.retired_nodup⟩
  · intro e he
    rcases List.mem_cons.mp he with he | he
    · rw [he]
      exact ⟨runtimeEvent, hlive, List.mem_cons_self⟩
    · obtain ⟨r, hr, hmem⟩ := h.awaiting e he
      exact ⟨r, hr, List.mem_cons_of_mem _ hmem⟩
  · exact List.nodup_cons.mpr ⟨hevent, h.nodup⟩
  · show (s.destroyed ++ s.numbers (event :: s.awaiting)).Perm (runtimeEvent.number :: s.retired)
    have hnumbers : s.numbers (event :: s.awaiting) = runtimeEvent.number :: s.numbers s.awaiting := by
      simp [numbers, hlive]
    rw [hnumbers]
    exact List.perm_middle.trans (h.once.cons _)

/-! ### Places -/

theorem count_erase_add {events : List Event} (h : event ∈ events) (e : Event) :
    (events.erase event).count e + (if event = e then 1 else 0) = events.count e := by
  rw [(List.perm_cons_erase h).count_eq e, List.count_cons]
  simp only [beq_iff_eq]

theorem count_awaiting (s : IpcRegistry) (e : Event) :
    s.awaiting.count e = s.testing.count e + s.destroyingAtOnce.count e + s.pushing.count e +
      s.npuEvents.count e + s.tasks.count e + s.destroying.count e := by
  simp only [awaiting, List.count_append]

/-- The places that matter for the registry are as they were. -/
theorem Listed.frame (h : s.Listed) (hlive : s'.live = s.live) (hipcEvents : s'.ipcEvents = s.ipcEvents)
    (hadding : s'.adding = s.adding) (hfailed : s'.failed = s.failed)
    (hremoving : s'.removing = s.removing) (hretired : s'.retired = s.retired) : s'.Listed := by
  obtain ⟨hfailed', hadding', hnodup, hlisted, hcurrent⟩ := h
  rw [← hlive, ← hipcEvents, ← hremoving, ← hadding] at hcurrent
  rw [← hlive, ← hipcEvents, ← hremoving, ← hadding] at hlisted
  rw [← hlive, ← hretired, ← hadding] at hadding'
  rw [← hadding] at hnodup
  rw [← hfailed] at hfailed'
  exact ⟨hfailed', hadding', hnodup, hlisted, hcurrent⟩

/-! ### One step -/

theorem Listed.create (h : s.Listed) (hretired : s.Retired)
    (hstep : s.aclrtCreateEvent event ipc = some s') : s'.Listed := by
  rw [aclrtCreateEvent, Option.ite_none_right_eq_some, Option.isNone_iff_eq_none] at hstep
  obtain ⟨hnone, hstep⟩ := hstep
  cases hstep
  have hnotMem : event ∉ s.adding := by
    intro hadding
    obtain ⟨r, hr, -⟩ := h.adding event hadding
    rw [hnone] at hr
    cases hr
  have hnumber : s.created ∉ s.retired := fun hmem => Nat.lt_irrefl _ (hretired.retired_lt _ hmem)
  -- Only an IPC event goes into the list.
  have hmem : ∀ e, e ∈ (if ipc then event :: s.adding else s.adding) ↔
      (ipc = true ∧ e = event) ∨ e ∈ s.adding := by
    intro e
    cases ipc <;> simp
  refine ⟨h.failed, ?_, ?_, ?_, ?_⟩
  · intro e he
    show ∃ r, Function.update s.live event (some ⟨s.created, ipc⟩) e = some r ∧ r.ipc = true ∧
      r.number ∉ s.retired
    rcases (hmem e).mp he with ⟨hipc, rfl⟩ | hadding
    · rw [Function.update_self]
      exact ⟨_, rfl, hipc, hnumber⟩
    · have hne : e ≠ event := by
        rintro rfl
        exact hnotMem hadding
      rw [Function.update_of_ne hne]
      exact h.adding e hadding
  · show (if ipc then event :: s.adding else s.adding).Nodup
    split_ifs
    · exact List.nodup_cons.mpr ⟨hnotMem, h.nodup⟩
    · exact h.nodup
  · intro e r hr hipc hadding
    replace hr : Function.update s.live event (some ⟨s.created, ipc⟩) e = some r := hr
    replace hadding := fun he => hadding ((hmem e).mpr he)
    by_cases he : e = event
    · rw [he, Function.update_self] at hr
      cases hr
      exact absurd (.inl ⟨hipc, he⟩) hadding
    · rw [Function.update_of_ne he] at hr
      exact h.listed e r hr hipc fun hmem => hadding (.inr hmem)
  · intro e he hremoving
    obtain ⟨hadding, r, hr, hipc⟩ := h.current e he hremoving
    have hne : e ≠ event := by
      rintro rfl
      rw [hnone] at hr
      cases hr
    refine ⟨?_, r, ?_, hipc⟩
    · rw [hmem]
      rintro (⟨-, heq⟩ | hmem)
      · exact hne heq
      · exact hadding hmem
    · show Function.update s.live event (some ⟨s.created, ipc⟩) e = some r
      rwa [Function.update_of_ne hne]

/-- A handle that is added while no thread is about to remove it is not in the set. -/
theorem Listed.add (h : s.Listed) (hevent : event ∈ s.adding) (hcareful : event ∉ s.removing) :
    (s.addIpcEvent event).Listed := by
  have hnotMem : event ∉ s.ipcEvents := fun hmem => (h.current event hmem hcareful).1 hevent
  rw [addIpcEvent, if_neg hnotMem]
  have hmem : ∀ e, e ∈ s.adding.erase event ↔ e ≠ event ∧ e ∈ s.adding := fun e => h.nodup.mem_erase_iff
  refine ⟨h.failed, ?_, h.nodup.erase _, ?_, ?_⟩
  · intro e he
    exact h.adding e ((hmem e).mp he).2
  · intro e r hr hipc hadding
    show e ∈ insert event s.ipcEvents ∧ e ∉ s.removing
    by_cases he : e = event
    · rw [he]
      exact ⟨Finset.mem_insert_self .., hcareful⟩
    · obtain ⟨hlisted, hremoving⟩ := h.listed e r hr hipc fun hadd => hadding ((hmem e).mpr ⟨he, hadd⟩)
      exact ⟨Finset.mem_insert_of_mem hlisted, hremoving⟩
  · intro e he hremoving
    show e ∉ s.adding.erase event ∧ _
    rw [hmem]
    by_cases heq : e = event
    · obtain ⟨r, hr, hipc, -⟩ := h.adding event hevent
      rw [heq]
      exact ⟨fun hadd => hadd.1 rfl, r, hr, hipc⟩
    · obtain ⟨hadding, hlive⟩ := h.current e (Finset.mem_of_mem_insert_of_ne he heq) hremoving
      exact ⟨fun hadd => hadding hadd.2, hlive⟩

theorem Listed.remove (h : s.Listed) (hevent : event ∈ s.removing) :
    ({ s.removeIpcEvent event with removing := s.removing.erase event }).Listed := by
  refine ⟨h.failed, h.adding, h.nodup, ?_, ?_⟩
  · intro e r hr hipc hadding
    obtain ⟨hlisted, hremoving⟩ := h.listed e r hr hipc hadding
    have hne : e ≠ event := by
      rintro rfl
      exact hremoving hevent
    exact ⟨Finset.mem_erase.mpr ⟨hne, hlisted⟩, fun hmem => hremoving (List.mem_of_mem_erase hmem)⟩
  · intro e he hremoving
    obtain ⟨hne, hlisted⟩ := Finset.mem_erase.mp he
    exact h.current e hlisted fun hmem => hremoving ((List.mem_erase_of_ne hne).mpr hmem)

/-- The event is destroyed, and a thread is going to remove it if it may be in the set. -/
theorem Listed.destroy (h : s.Listed) (hadding : event ∉ s.adding)
    (hlive : s'.live = Function.update s.live event none) (hipcEvents : s'.ipcEvents = s.ipcEvents)
    (hadding' : s'.adding = s.adding) (hfailed : s'.failed = s.failed)
    (hretired : s'.retired = s.retired) (hremoving : ∀ e ∈ s.removing, e ∈ s'.removing)
    (hremoving' : ∀ e ∈ s'.removing, e = event ∨ e ∈ s.removing)
    (hevent : event ∈ s'.ipcEvents → event ∈ s'.removing) : s'.Listed := by
  refine ⟨by rw [hfailed, h.failed], ?_, by rw [hadding']; exact h.nodup, ?_, ?_⟩
  · intro e he
    rw [hadding'] at he
    have hne : e ≠ event := by
      rintro rfl
      exact hadding he
    rw [hlive, hretired, Function.update_of_ne hne]
    exact h.adding e he
  · intro e r hr hipc hnotMem
    rw [hadding'] at hnotMem
    rw [hlive] at hr
    have hne : e ≠ event := by
      rintro rfl
      rw [Function.update_self] at hr
      cases hr
    rw [Function.update_of_ne hne] at hr
    obtain ⟨hlisted, hnotRemoving⟩ := h.listed e r hr hipc hnotMem
    rw [hipcEvents]
    refine ⟨hlisted, fun hmem => ?_⟩
    rcases hremoving' e hmem with heq | hmem
    · exact hne heq
    · exact hnotRemoving hmem
  · intro e he hnotRemoving
    have hne : e ≠ event := by
      rintro rfl
      exact hnotRemoving (hevent he)
    rw [hipcEvents] at he
    rw [hadding', hlive, Function.update_of_ne hne]
    exact h.current e he fun hmem => hnotRemoving (hremoving e hmem)

theorem inv_lazyDestroy (hlisted : s.Listed) (hretired : s.Retired)
    (hnext : s.next (.lazyDestroy event) = some s') : s'.Listed ∧ s'.Retired := by
  rw [next, Option.ite_none_right_eq_some] at hnext
  obtain ⟨howned, hnext⟩ := hnext
  cases hlive : s.live event with
  | none => simp [owned, hlive] at howned
  | some runtimeEvent =>
    simp only [owned, hlive, Bool.and_eq_true, decide_eq_true_eq] at howned
    obtain ⟨⟨hadding, -⟩, hnotMem⟩ := howned
    rw [hlive] at hnext
    cases hnext
    refine ⟨⟨hlisted.failed, ?_, hlisted.nodup, hlisted.listed, hlisted.current⟩,
      hretired.retire hlive hnotMem⟩
    intro e he
    obtain ⟨r, hr, hipc, hnumber⟩ := hlisted.adding e he
    refine ⟨r, hr, hipc, ?_⟩
    show r.number ∉ runtimeEvent.number :: s.retired
    rw [List.mem_cons, not_or]
    refine ⟨fun heq => ?_, hnumber⟩
    -- Events that are being added have numbers of their own.
    rw [hretired.injective e event r runtimeEvent hr hlive heq] at he
    exact hadding he

theorem inv_test (hlisted : s.Listed) (hretired : s.Retired)
    (hnext : s.next (.test event) = some s') : s'.Listed ∧ s'.Retired := by
  rw [next, Option.ite_none_right_eq_some] at hnext
  obtain ⟨hevent, hnext⟩ := hnext
  have hcount := count_erase_add hevent
  split_ifs at hnext with hatOnce
  · cases hnext
    refine ⟨hlisted.frame rfl rfl rfl rfl rfl rfl, hretired.move rfl rfl rfl rfl ?_ ?_⟩
    · intro e he r hr
      rcases List.mem_cons.mp he with heq | he
      · -- An IPC event would be in the set.
        subst heq
        have hnotAdding : e ∉ s.adding := by
          apply hlisted.notMem_adding hretired
          simp [awaiting, hevent]
        by_contra hipc
        rw [Bool.not_eq_false] at hipc
        have hmem := (hlisted.listed e r hr hipc hnotAdding).1
        simp [isIpcEvent, hmem] at hatOnce
      · exact hretired.atOnce e he r hr
    · rw [List.perm_iff_count]
      intro e
      have hcount := hcount e
      simp only [count_awaiting, List.count_cons, beq_iff_eq]
      omega
  · cases hnext
    refine ⟨hlisted.frame rfl rfl rfl rfl rfl rfl, hretired.move rfl rfl rfl rfl hretired.atOnce ?_⟩
    rw [List.perm_iff_count]
    intro e
    have hcount := hcount e
    simp only [count_awaiting, List.count_cons, beq_iff_eq]
    omega

theorem inv_destroyAtOnce (hlisted : s.Listed) (hretired : s.Retired)
    (hnext : s.next (.destroyAtOnce event true) = some s') : s'.Listed ∧ s'.Retired := by
  rw [next, Option.ite_none_right_eq_some] at hnext
  obtain ⟨hevent, hnext⟩ := hnext
  have hcount := count_erase_add hevent
  have hawaiting : event ∈ s.awaiting := by simp [awaiting, hevent]
  obtain ⟨runtimeEvent, hlive, -⟩ := hretired.awaiting event hawaiting
  simp only [if_true, aclrtDestroyEvent, hlive] at hnext
  cases hnext
  constructor
  · refine hlisted.destroy (hlisted.notMem_adding hretired hawaiting) rfl rfl rfl rfl rfl
      (fun _ => id) (fun _ => .inr) fun hmem => ?_
    by_contra hremoving
    obtain ⟨-, r, hr, hipc⟩ := hlisted.current event hmem hremoving
    rw [hretired.atOnce event hevent r hr] at hipc
    cases hipc
  · refine hretired.destroy hlive rfl rfl rfl rfl (fun _ => List.mem_of_mem_erase) ?_
    rw [List.perm_iff_count]
    intro e
    have hcount := hcount e
    simp only [count_awaiting, List.count_cons, beq_iff_eq]
    omega

theorem inv_destroy (hlisted : s.Listed) (hretired : s.Retired)
    (hnext : s.next (.destroy event true) = some s') : s'.Listed ∧ s'.Retired := by
  rw [next, Option.ite_none_right_eq_some] at hnext
  obtain ⟨hevent, hnext⟩ := hnext
  have hcount := count_erase_add hevent
  have hawaiting : event ∈ s.awaiting := by simp [awaiting, hevent]
  obtain ⟨runtimeEvent, hlive, -⟩ := hretired.awaiting event hawaiting
  simp only [if_true, aclrtDestroyEvent, hlive] at hnext
  cases hnext
  constructor
  · exact hlisted.destroy (hlisted.notMem_adding hretired hawaiting) rfl rfl rfl rfl rfl
      (fun _ => List.mem_cons_of_mem _) (fun _ => List.mem_cons.mp) fun _ => List.mem_cons_self
  · refine hretired.destroy hlive rfl rfl rfl rfl (fun _ => id) ?_
    rw [List.perm_iff_count]
    intro e
    have hcount := hcount e
    simp only [count_awaiting, List.count_cons, beq_iff_eq]
    omega

/-- What is kept by every careful step. -/
theorem inv_next {l : IpcLabel} (h : s.Listed ∧ s.Retired) (hcareful : s.Careful l)
    (hnext : s.next l = some s') : s'.Listed ∧ s'.Retired := by
  obtain ⟨hlisted, hretired⟩ := h
  cases l with
  | create event ipc => exact ⟨hlisted.create hretired hnext, hretired.create hnext⟩
  | openHandle event => exact ⟨hlisted.create hretired hnext, hretired.create hnext⟩
  | addIpcEvent event =>
    rw [next, Option.ite_none_right_eq_some] at hnext
    obtain ⟨hevent, hnext⟩ := hnext
    cases hnext
    refine ⟨hlisted.add hevent hcareful, ?_⟩
    rw [addIpcEvent]
    split_ifs
    · exact hretired.move rfl rfl rfl rfl hretired.atOnce (List.Perm.refl _)
    · exact hretired.move rfl rfl rfl rfl hretired.atOnce (List.Perm.refl _)
  | lazyDestroy event => exact inv_lazyDestroy hlisted hretired hnext
  | test event => exact inv_test hlisted hretired hnext
  | destroyAtOnce event ok =>
    replace hcareful : ok = true := hcareful
    rw [hcareful] at hnext
    exact inv_destroyAtOnce hlisted hretired hnext
  | pushBack event =>
    rw [next, Option.ite_none_right_eq_some] at hnext
    obtain ⟨hevent, hnext⟩ := hnext
    have hcount := count_erase_add hevent
    cases hnext
    refine ⟨hlisted.frame rfl rfl rfl rfl rfl rfl, hretired.move rfl rfl rfl rfl hretired.atOnce ?_⟩
    rw [List.perm_iff_count]
    intro e
    have hcount := hcount e
    simp only [count_awaiting, List.count_append, List.count_singleton, beq_iff_eq]
    omega
  | dispatch =>
    unfold next at hnext
    cases hevents : s.npuEvents with
    | nil => simp [hevents] at hnext
    | cons event events =>
      simp only [hevents] at hnext
      cases hnext
      refine ⟨hlisted.frame rfl rfl rfl rfl rfl rfl, hretired.move rfl rfl rfl rfl hretired.atOnce ?_⟩
      rw [List.perm_iff_count]
      intro e
      simp only [count_awaiting, hevents, List.count_append, List.count_cons, List.count_nil]
      omega
  | take =>
    unfold next at hnext
    cases htasks : s.tasks with
    | nil => simp [htasks] at hnext
    | cons event tasks =>
      simp only [htasks, Option.ite_none_right_eq_some] at hnext
      obtain ⟨-, hnext⟩ := hnext
      cases hnext
      refine ⟨hlisted.frame rfl rfl rfl rfl rfl rfl, hretired.move rfl rfl rfl rfl hretired.atOnce ?_⟩
      rw [List.perm_iff_count]
      intro e
      simp only [count_awaiting, htasks, List.count_cons]
      omega
  | destroy event ok =>
    replace hcareful : ok = true := hcareful
    rw [hcareful] at hnext
    exact inv_destroy hlisted hretired hnext
  | removeIpcEvent event =>
    rw [next, Option.ite_none_right_eq_some] at hnext
    obtain ⟨hevent, hnext⟩ := hnext
    cases hnext
    exact ⟨hlisted.remove hevent,
      hretired.move rfl rfl rfl rfl hretired.atOnce (List.Perm.refl _)⟩

theorem inv_start (existCreateEventExWithFlag perStreamQueue : Bool) :
    ({ existCreateEventExWithFlag, perStreamQueue } : IpcRegistry).Listed ∧
      ({ existCreateEventExWithFlag, perStreamQueue } : IpcRegistry).Retired := by
  constructor
  · exact ⟨rfl, nofun, List.nodup_nil, nofun, nofun⟩
  · exact ⟨nofun, nofun, nofun, List.nodup_nil, nofun, List.nodup_nil, nofun, List.Perm.refl _⟩

/-! ### Whole runs -/

/-- In a run whose steps are careful the registry is right in every state. -/
theorem registered_of_careful (existCreateEventExWithFlag perStreamQueue : Bool) (ls : List IpcLabel)
    (hcareful : Machine.Guarded next Careful { existCreateEventExWithFlag, perStreamQueue } ls)
    (hrun : runFromStart existCreateEventExWithFlag perStreamQueue ls = some s) : s.Registered := by
  obtain ⟨hlisted, hretired⟩ := Machine.guarded_run_induction (fun _ _ _ => inv_next)
    (inv_start existCreateEventExWithFlag perStreamQueue) hcareful hrun
  exact hlisted.registered hretired

/-- An event is created, given up and destroyed. -/
def destroySteps (event : Event) : List IpcLabel :=
  [.lazyDestroy event, .test event, .pushBack event, .dispatch, .take, .destroy event true]

/-- The handle of an IPC event is used again after it has been removed. -/
def reused : List IpcLabel :=
  [IpcLabel.create 7 true, .addIpcEvent 7, .openHandle 8, .addIpcEvent 8] ++ destroySteps 7 ++
    [IpcLabel.removeIpcEvent 7, .create 7 true, .addIpcEvent 7]

theorem registered_reused : ∃ s, runFromStart true false reused = some s ∧
    s.ipcEvents = {7, 8} ∧ s.Registered := by
  have hrun : ((runFromStart true false reused).any fun s => decide (s.ipcEvents = {7, 8})) = true := by
    decide +kernel
  obtain ⟨s, hs, hevents⟩ := (Option.any_eq_true _ _).mp hrun
  refine ⟨s, hs, of_decide_eq_true hevents, registered_of_careful true false reused ?_ hs⟩
  decide +kernel

/-- The runtime returns the handle again before it has been removed. -/
def reusedEarly : List IpcLabel :=
  [IpcLabel.create 7 true, .addIpcEvent 7] ++ destroySteps 7 ++ [IpcLabel.create 7 true, .addIpcEvent 7]

theorem not_registered_reusedEarly :
    ∃ s, runFromStart true false reusedEarly = some s ∧ ¬ s.Registered := by
  have hrun : ((runFromStart true false reusedEarly).any fun s => decide (s.failed = [1])) = true := by
    decide +kernel
  obtain ⟨s, hs, hfailed⟩ := (Option.any_eq_true _ _).mp hrun
  refine ⟨s, hs, fun hregistered => ?_⟩
  have hadded := hregistered.added
  rw [of_decide_eq_true hfailed] at hadded
  cases hadded

end TorchNpu.Events.IpcRegistry
