/-
  When the rendezvous of the workers completes.

  `WaitWorkers` tests `workersReady_` before it takes the mutex, and the handler sets the flag and
  notifies without the mutex, so a notification between the test and the wait is lost; `notify_one`
  wakes one thread only; and once an instance has been signalled, `notifiedWaitWorkers` keeps every
  later instance of the process from being signalled at all.  `Allowed` rules out the three.

  * `rendezvous_of_run`: in runs whose steps are all allowed, every instance whose counter has reached
    the number of workers is ready or about to be, and nobody waits without a notification to come;
  * `not_rendezvous_second`: a process with two instances, of which the second is never ready.
-/
import TorchNpu.Store.Spec.Handlers
import TorchNpu.Store.Workers

namespace TorchNpu.Store.Rendezvous

/-! ### The counter -/

theorem reaches_of_le {v : ℤ} {n : ℕ} (hle : (n : ℤ) ≤ wrapInt64 v) :
    reaches (wrapInt64 v) (some n) = true := by
  obtain ⟨-, hhi⟩ := wrapInt64_range v
  simp only [reaches, decide_eq_true_eq]
  rw [Int.emod_eq_of_lt (by omega) (by omega)]
  exact hle

/-! ### The property -/

/-- A handler on its way to `notify_one`, having found the counter at its goal. -/
def HandlerPc.Coming (numWorkers : Option ℕ) : HandlerPc → Prop
  | .added newValue => reaches newValue numWorkers = true
  | .signalling => True
  | _ => False

/-- The counter has reached the number of workers. -/
def Instance.Reached (i : Instance) : Prop :=
  ∃ n ∈ i.numWorkers, ∃ c ∈ i.counter, (n : ℤ) ≤ c

/-- Once the counter has reached the number of workers, and no handler of the instance is still on
its way, the flag is set; and whoever waits has a notification to come. -/
structure Instance.Complete (i : Instance) : Prop where
  ready : i.Reached → (∀ t, i.handlers t = .idle) → i.workersReady = true
  notified : i.Reached → i.waitQueue ≠ [] →
    ∃ t, (i.handlers t).Coming i.numWorkers ∨ i.handlers t = .notifying

/-- The steps that do no harm: a handler that finds the counter at its goal is not kept from
signalling by another instance, and `WaitWorkers` does not begin to wait when somebody waits already
or when the flag has been set and the notification has been made. -/
def Instance.Allowed (notified : Bool) (i : Instance) : Action → Prop
  | .check t => (i.handlers t).Coming i.numWorkers → notified = false ∨ i.workersReady = true
  | .block _ => i.waitQueue = [] ∧
    (i.workersReady = false ∨ ∃ t < threadNum i.numWorkers, i.handlers t = .notifying)
  | _ => True

def Allowed (p : Process) : Label → Prop
  | .create _ _ => True
  | .act i action => ∀ inst ∈ p.instances i, inst.Allowed p.notifiedWaitWorkers action

instance (numWorkers : Option ℕ) : ∀ pc : HandlerPc, Decidable (pc.Coming numWorkers)
  | .added newValue => inferInstanceAs (Decidable (reaches newValue numWorkers = true))
  | .signalling => isTrue trivial
  | .idle => isFalse id
  | .notifying => isFalse id
  | .recording => isFalse id

instance (notified : Bool) (i : Instance) : ∀ a : Action, Decidable (i.Allowed notified a)
  | .check _ => inferInstanceAs (Decidable (_ → _))
  | .block _ => inferInstanceAs (Decidable (_ ∧ _))
  | .add _ _ => isTrue trivial
  | .signal _ => isTrue trivial
  | .notify _ _ => isTrue trivial
  | .record _ => isTrue trivial
  | .call _ => isTrue trivial
  | .test _ => isTrue trivial
  | .wake _ => isTrue trivial

instance (p : Process) : ∀ l : Label, Decidable (Allowed p l)
  | .create _ _ => isTrue trivial
  | .act i action =>
    inferInstanceAs (Decidable (∀ inst ∈ p.instances i, inst.Allowed p.notifiedWaitWorkers action))

/-! ### The invariant -/

structure Instance.Inv (i : Instance) : Prop where
  reached : i.Reached → i.workersReady = true ∨ ∃ t, (i.handlers t).Coming i.numWorkers
  waiting : i.waitQueue ≠ [] → i.workersReady = false ∨ ∃ t, i.handlers t = .notifying
  single : i.waitQueue.length ≤ 1

theorem Instance.Inv.complete {i : Instance} (h : i.Inv) : i.Complete where
  ready hreached hidle := by
    rcases h.reached hreached with hready | ⟨t, ht⟩
    · exact hready
    · rw [hidle t] at ht
      exact ht.elim
  notified hreached hwait := by
    rcases h.waiting hwait with hready | ⟨t, ht⟩
    · rcases h.reached hreached with hready' | ⟨t, ht⟩
      · rw [hready] at hready'
        cases hready'
      · exact ⟨t, .inl ht⟩
    · exact ⟨t, .inr ht⟩

variable {i i' : Instance} {t w : ℕ} {pc : HandlerPc}

/-- Another handler's place stays the same. -/
theorem setHandler_of_ne {t' : ℕ} (h : t' ≠ t) : (i.setHandler t pc).handlers t' = i.handlers t' :=
  Function.update_of_ne h ..

theorem setHandler_self : (i.setHandler t pc).handlers t = pc :=
  Function.update_self ..

/-- What holds at another handler is not lost when one moves. -/
theorem exists_setHandler {P : HandlerPc → Prop} (h : ∃ t', P (i.handlers t'))
    (ht : P (i.handlers t) → P pc) : ∃ t', P ((i.setHandler t pc).handlers t') := by
  obtain ⟨t', ht'⟩ := h
  by_cases htt : t' = t
  · subst htt
    refine ⟨t', ?_⟩
    rw [setHandler_self]
    exact ht ht'
  · refine ⟨t', ?_⟩
    rw [setHandler_of_ne htt]
    exact ht'

theorem erase_eq_nil {l : List ℕ} (h : l.length ≤ 1) (hw : w ∈ l) : l.erase w = [] := by
  rw [← List.length_eq_zero_iff, List.length_erase_of_mem hw]
  omega

/-- The invariant looks at the handlers, the flag and the queue only. -/
theorem Instance.Inv.of_waiter (h : i.Inv) (hn : i'.numWorkers = i.numWorkers)
    (hcounter : i'.counter = i.counter) (hready : i'.workersReady = i.workersReady)
    (hhandlers : i'.handlers = i.handlers) (hqueue : i'.waitQueue = i.waitQueue) : i'.Inv := by
  constructor
  · rw [Instance.Reached, hn, hcounter, hready, hhandlers]
    exact h.reached
  · rw [hqueue, hready, hhandlers]
    exact h.waiting
  · rw [hqueue]
    exact h.single

theorem Instance.Inv.stopWaiting (h : i.Inv) (hw : w ∈ i.waitQueue) : (i.stopWaiting w).Inv where
  reached := h.reached
  waiting hne := absurd (erase_eq_nil h.single hw) hne
  single := by
    show (i.waitQueue.erase w).length ≤ 1
    rw [erase_eq_nil h.single hw]
    exact Nat.zero_le _

/-- A handler moves on; it may give up its signal only when the flag is set. -/
theorem Instance.Inv.setHandler (h : i.Inv)
    (hcoming : (i.handlers t).Coming i.numWorkers →
      pc.Coming i.numWorkers ∨ i.workersReady = true)
    (hnotify : i.handlers t ≠ .notifying) : (i.setHandler t pc).Inv where
  reached hreached := by
    rcases h.reached hreached with hready | hex
    · exact .inl hready
    · by_cases hready : i.workersReady = true
      · exact .inl hready
      · refine .inr (exists_setHandler hex fun hc => ?_)
        exact (hcoming hc).resolve_right hready
  waiting hne :=
    (h.waiting hne).imp_right fun hex =>
      exists_setHandler (P := fun pc => pc = .notifying) hex fun heq => absurd heq hnotify
  single := h.single

theorem Instance.Inv.exec {notified notified' : Bool} {a : Action} (h : i.Inv)
    (hallowed : i.Allowed notified a) (hexec : i.exec notified a = some (i', notified')) :
    i'.Inv := by
  cases a with
  | add t delta =>
    simp only [Instance.exec] at hexec
    split_ifs at hexec with hidle
    obtain ⟨rfl, rfl⟩ := Prod.mk.inj (Option.some.inj hexec)
    constructor
    · -- the handler that has brought the counter to its goal is itself on its way
      rintro ⟨n, hn, c, hc, hle⟩
      refine .inr ⟨t, ?_⟩
      show ((i.setHandler t _).handlers t).Coming i.numWorkers
      rw [setHandler_self]
      show reaches _ i.numWorkers = true
      rw [show i.numWorkers = some n from hn]
      obtain rfl := Option.some.inj hc
      exact reaches_of_le hle
    · intro hne
      refine (h.waiting hne).imp_right fun hex => ?_
      exact exists_setHandler (P := fun pc => pc = .notifying) hex fun heq => by
        rw [hidle.2] at heq
        cases heq
    · exact h.single
  | check t =>
    simp only [Instance.exec] at hexec
    split at hexec
    next newValue hpc =>
      split_ifs at hexec with hcond
      · obtain ⟨rfl, rfl⟩ := Prod.mk.inj (Option.some.inj hexec)
        exact h.setHandler (fun _ => .inl trivial) (by rw [hpc]; simp)
      · obtain ⟨rfl, rfl⟩ := Prod.mk.inj (Option.some.inj hexec)
        refine h.setHandler (fun hc => .inr ?_) (by rw [hpc]; simp)
        -- the handler gives up, so it must have been another one that has signalled
        rcases hallowed hc with hnot | hready
        · rw [hpc] at hc
          have hr : reaches newValue i.numWorkers = true := hc
          rw [hnot, hr] at hcond
          exact absurd rfl hcond
        · exact hready
    next => cases hexec
  | signal t =>
    simp only [Instance.exec] at hexec
    split_ifs at hexec with hpc
    obtain ⟨rfl, rfl⟩ := Prod.mk.inj (Option.some.inj hexec)
    exact ⟨fun _ => .inl rfl, fun _ => .inr ⟨t, setHandler_self⟩, h.single⟩
  | notify t woken =>
    -- whoever was waiting is woken: the queue is empty afterwards
    have hreached : i.handlers t = .notifying → i.Reached → i.workersReady = true ∨
        ∃ t', ((i.setHandler t .recording).handlers t').Coming i.numWorkers := by
      intro hpc hr
      refine (h.reached hr).imp_right fun hex => exists_setHandler hex fun hc => ?_
      rw [hpc] at hc
      exact hc.elim
    cases woken with
    | none =>
      simp only [Instance.exec] at hexec
      split_ifs at hexec with hpc hqueue
      obtain ⟨rfl, rfl⟩ := Prod.mk.inj (Option.some.inj hexec)
      exact ⟨hreached hpc, fun hne => absurd hqueue hne, h.single⟩
    | some w =>
      simp only [Instance.exec] at hexec
      split_ifs at hexec with hpc hw
      obtain ⟨rfl, rfl⟩ := Prod.mk.inj (Option.some.inj hexec)
      exact ⟨hreached hpc, fun hne => absurd (erase_eq_nil h.single hw) hne,
        (h.stopWaiting hw).single⟩
  | record t =>
    simp only [Instance.exec] at hexec
    split_ifs at hexec with hpc
    obtain ⟨rfl, rfl⟩ := Prod.mk.inj (Option.some.inj hexec)
    refine h.setHandler (fun hc => ?_) (by rw [hpc]; simp)
    rw [hpc] at hc
    exact hc.elim
  | call w =>
    simp only [Instance.exec] at hexec
    split_ifs at hexec
    · obtain ⟨rfl, rfl⟩ := Prod.mk.inj (Option.some.inj hexec)
      exact h
    · obtain ⟨rfl, rfl⟩ := Prod.mk.inj (Option.some.inj hexec)
      exact h.of_waiter rfl rfl rfl rfl rfl
  | test w =>
    simp only [Instance.exec] at hexec
    split_ifs at hexec
    all_goals
      obtain ⟨rfl, rfl⟩ := Prod.mk.inj (Option.some.inj hexec)
      exact h.of_waiter rfl rfl rfl rfl rfl
  | block w =>
    simp only [Instance.exec] at hexec
    split_ifs at hexec
    obtain ⟨rfl, rfl⟩ := Prod.mk.inj (Option.some.inj hexec)
    obtain ⟨hqueue, hwait⟩ := hallowed
    refine ⟨h.reached, fun _ => hwait.imp_right fun ⟨t, _, ht⟩ => ⟨t, ht⟩, ?_⟩
    show (w :: i.waitQueue).length ≤ 1
    rw [hqueue]
    exact le_rfl
  | wake w =>
    simp only [Instance.exec] at hexec
    split_ifs at hexec with hw
    obtain ⟨rfl, rfl⟩ := Prod.mk.inj (Option.some.inj hexec)
    exact h.stopWaiting hw

/-! ### Runs -/

theorem inv_new (numWorkers : Option ℕ) : ({ numWorkers } : Instance).Inv where
  reached := by
    rintro ⟨n, -, c, hc, -⟩
    cases hc
  waiting hne := absurd rfl hne
  single := Nat.zero_le _

/-- Every instance of the process keeps the invariant. -/
def Process.Inv (p : Process) : Prop :=
  ∀ k inst, p.instances k = some inst → inst.Inv

theorem Process.Inv.next {p p' : Process} {l : Label} (h : p.Inv) (hallowed : Allowed p l)
    (hnext : p.next l = some p') : p'.Inv := by
  cases l with
  | create k numWorkers =>
    simp only [Process.next] at hnext
    split at hnext
    · cases hnext
    · obtain rfl := Option.some.inj hnext
      intro j inst hinst
      by_cases hjk : j = k
      · subst hjk
        simp only [Function.update_self, Option.some_inj] at hinst
        exact hinst ▸ inv_new numWorkers
      · simp only [Function.update_of_ne hjk] at hinst
        exact h j inst hinst
  | act k action =>
    simp only [Process.next, Option.bind_eq_some_iff, Option.map_eq_some_iff] at hnext
    obtain ⟨old, hold, ⟨new, notified⟩, hexec, rfl⟩ := hnext
    intro j inst hinst
    by_cases hjk : j = k
    · subst hjk
      simp only [Function.update_self, Option.some_inj] at hinst
      exact hinst ▸ (h j old hold).exec (hallowed old hold) hexec
    · simp only [Function.update_of_ne hjk] at hinst
      exact h j inst hinst

/-- In a run whose steps are all allowed, the rendezvous of every instance completes. -/
theorem rendezvous_of_run {ls : List Label} {p : Process} (h : runFromStart ls = some p)
    (hallowed : Machine.Guarded Process.next Allowed {} ls) :
    ∀ k inst, p.instances k = some inst → inst.Complete := by
  have hinv : p.Inv := by
    refine Machine.guarded_run_induction (fun s l s' hs hl hstep => hs.next hl hstep) ?_ hallowed h
    intro k inst hinst
    cases hinst
  intro k inst hinst
  exact (hinv k inst hinst).complete

/-- Two workers and a `WaitWorkers` that begins to wait between them. -/
def twoWorkers : List Label :=
  [.create 0 (some 2), .act 0 (.add 0 1), .act 0 (.check 0), .act 0 (.call 0), .act 0 (.test 0),
    .act 0 (.block 0), .act 0 (.add 1 1), .act 0 (.check 1), .act 0 (.signal 1),
    .act 0 (.notify 1 (some 0)), .act 0 (.record 1), .act 0 (.test 0)]

theorem rendezvous_twoWorkers :
    ∃ p inst, runFromStart twoWorkers = some p ∧ p.instances 0 = some inst ∧
      inst.waiters 0 = .idle ∧ inst.Complete := by
  have hallowed : Machine.Guarded Process.next Allowed {} twoWorkers := by decide +kernel
  have hrun : (runFromStart twoWorkers).isSome = true := by decide +kernel
  obtain ⟨p, hp⟩ := Option.isSome_iff_exists.mp hrun
  have hidle : (((runFromStart twoWorkers).bind fun p => p.instances 0).map
      fun inst => inst.waiters 0) = some .idle := by decide +kernel
  rw [hp, Option.bind_some, Option.map_eq_some_iff] at hidle
  obtain ⟨inst, hinst, hwaiter⟩ := hidle
  exact ⟨p, inst, hp, hinst, hwaiter, rendezvous_of_run hp hallowed 0 inst hinst⟩

/-- One instance is signalled, and then another counts its only worker. -/
def secondInstance : List Label :=
  [.create 0 (some 1), .act 0 (.add 0 1), .act 0 (.check 0), .act 0 (.signal 0),
    .act 0 (.notify 0 none), .act 0 (.record 0), .create 1 (some 1), .act 1 (.add 0 1),
    .act 1 (.check 0)]

/-- `WaitWorkers` has tested the flag when the only worker is counted and the instance is signalled,
and waits afterwards. -/
def lateWait : List Label :=
  [.create 0 (some 1), .act 0 (.call 0), .act 0 (.test 0), .act 0 (.add 0 1), .act 0 (.check 0),
    .act 0 (.signal 0), .act 0 (.notify 0 none), .act 0 (.record 0), .act 0 (.block 0)]

/-- The flag of the second instance is never set, and the late wait is never notified. -/
theorem not_rendezvous_second :
    (∃ p inst, runFromStart secondInstance = some p ∧ p.instances 1 = some inst ∧ ¬inst.Complete) ∧
      ∃ p inst, runFromStart lateWait = some p ∧ p.instances 0 = some inst ∧ ¬inst.Complete := by
  constructor
  · refine ⟨_, _, rfl, rfl, fun h => ?_⟩
    have hready := h.ready ⟨1, rfl, 1, rfl, le_rfl⟩ fun t => ?_
    · cases hready
    · simp [Instance.setHandler]
  · refine ⟨_, _, rfl, rfl, fun h => ?_⟩
    obtain ⟨t, ht⟩ := h.notified ⟨1, rfl, 1, rfl, le_rfl⟩ (by simp [Instance.setWaiter])
    simp [Instance.setHandler, Instance.setWaiter, HandlerPc.Coming] at ht

end TorchNpu.Store.Rendezvous
