/-
  What the success of `MakeSureQueueEmpty` means.

  A failing task leaves a trace: until `CheckDeviceError` has stored a status the consumer is at one
  of a few points (`ConsumerPc.Failing`), and from then on the status is one of those that no step of
  the queue turns back into a good one (`RepoStatus.Faulted`).  As long as neither is the case
  everything that was read has succeeded.

  * `succeeded_of_drain`: a call that finds the ring settled and returns without a throw, in a status
    other than `CAN_EXIT`, comes after the success of every task accepted before it.
  * `drain_after_report`: in the status `CAN_EXIT`, where the error has been reported before, a call
    returns although a task has failed.
-/
import TorchNpu.Queue.Spec.Ring

namespace TorchNpu.Queue

variable {n : ℕ}

/-- An error has been stored, or reported and stored as `CAN_EXIT`. -/
def RepoStatus.Faulted (status : RepoStatus) : Prop :=
  (deviceErrorMap status).isSome ∨ status = .errorExit ∨ status = .canExit

instance : DecidablePred RepoStatus.Faulted := fun status =>
  inferInstanceAs (Decidable ((deviceErrorMap status).isSome ∨ status = .errorExit
    ∨ status = .canExit))

/-- A task has failed and `CheckDeviceError` has not stored a status yet. -/
def ConsumerPc.failing : ConsumerPc → Bool
  | .drain _ | .drainRelease _ | .drainAdvance _ | .checkDevice _ | .setError => true
  | _ => false

/-- The return code `CheckDeviceError` is about to look at. -/
def ConsumerPc.checking : ConsumerPc → Option ℤ
  | .checkDevice ret => some ret
  | _ => none

/-- The read index in the test that ends the loop of `MakeSureQueueEmpty`. -/
def ThreadPc.testing : ThreadPc → Option ℕ
  | .emptyWrite _ read => some read
  | _ => none

/-- If `CheckDeviceError` is about to look for a memory error it will find one to store. -/
def Publishes (a : Answer) (s : Repository n) (pc : ConsumerPc) : Prop :=
  ∀ ret ∈ pc.checking, deviceFault ret (currentAclError a s ret) = some .uceExit → a.uce

/-- If the test is about to succeed then the ring is empty and the consumer is not in the middle of a
failure. -/
def FindsSettled (s : State n) (pc : ThreadPc) : Prop :=
  ∀ read ∈ pc.testing, read = s.repo.writeIdx.idx →
    s.repo.isEmptyQueue ∧ s.consumer.failing = false

/-- The steps of the runs below.  Nobody outside the queue sets the status back to a good one. -/
def Settled (s : State n) : Label n → Prop
  | .setStatus desired => desired.Faulted
  | .changeStatus expected desired => expected = .init ∧ desired = .run ∨ desired.Faulted
  | .consumer a => Publishes a s.repo s.consumer
  | .thread t _ => FindsSettled s (s.threads t)
  | _ => True

instance (a : Answer) (s : Repository n) (pc : ConsumerPc) : Decidable (Publishes a s pc) :=
  inferInstanceAs (Decidable (∀ ret ∈ pc.checking, _ → _))

instance (s : State n) (pc : ThreadPc) : Decidable (FindsSettled s pc) :=
  inferInstanceAs (Decidable (∀ read ∈ pc.testing, _ → _))

instance (s : State n) : DecidablePred (Settled s) := fun l =>
  match l with
  | .setStatus desired => inferInstanceAs (Decidable desired.Faulted)
  | .changeStatus expected desired =>
    inferInstanceAs (Decidable (expected = .init ∧ desired = .run ∨ desired.Faulted))
  | .consumer a => inferInstanceAs (Decidable (Publishes a s.repo s.consumer))
  | .thread t _ => inferInstanceAs (Decidable (FindsSettled s (s.threads t)))
  | .enqueue _ _ | .makeSureQueueEmpty _ _ | .escapeWait => isTrue trivial

/-! ### The status -/

/-- The status values of `CheckDeviceError` are device errors. -/
theorem faulted_of_deviceFault {ret : ℤ} {aclError : String} {status : RepoStatus}
    (h : deviceFault ret aclError = some status) : status.Faulted := by
  rw [deviceFault, Option.map_eq_some_iff] at h
  obtain ⟨fault, hfind, rfl⟩ := h
  have hmem : fault ∈ deviceFaults := List.mem_of_find?_eq_some hfind
  have hall : ∀ fault ∈ deviceFaults, fault.1.Faulted := by decide
  exact hall fault hmem

theorem checkDeviceError_status (a : Answer) (s : Repository n) (ret : ℤ) :
    (checkDeviceError a s ret).1.repoStatus = s.repoStatus
      ∨ (checkDeviceError a s ret).1.repoStatus.Faulted := by
  simp only [checkDeviceError]
  split
  · dsimp only
    split_ifs
    · exact Or.inr (Or.inl rfl)
    · exact Or.inl rfl
  · rename_i hfault
    exact Or.inr (faulted_of_deviceFault hfault)
  · exact Or.inl rfl

/-- After `CheckDeviceError` an error is stored, or `ERROR_EXIT` is about to be. -/
theorem checkDeviceError_publishes {a : Answer} {s : Repository n} {ret : ℤ}
    (huce : deviceFault ret (currentAclError a s ret) = some .uceExit → a.uce) :
    (checkDeviceError a s ret).1.repoStatus.Faulted
      ∨ (checkDeviceError a s ret).2 = .setError := by
  simp only [checkDeviceError]
  split
  · rename_i hfault
    left
    rw [if_pos (huce hfault)]
    exact Or.inl rfl
  · rename_i hfault
    exact Or.inl (faulted_of_deviceFault hfault)
  · dsimp only
    split_ifs with hstop
    · exact Or.inr rfl
    · left
      rw [not_not.mp hstop]
      exact Or.inl rfl

/-- The consumer leaves the status alone, or stores a fault. -/
theorem status_of_consumerStep {a : Answer} {s s' : Repository n} {pc pc' : ConsumerPc}
    (h : consumerStep a s pc = some (s', pc')) :
    s'.repoStatus = s.repoStatus ∨ s'.repoStatus.Faulted := by
  cases pc with
  | checkDevice ret =>
    have hstatus := checkDeviceError_status a s ret
    rw [consumerStep, Option.some.injEq] at h
    rw [h] at hstatus
    exact hstatus
  | failChange =>
    cases h
    rw [Repository.changeStatus]
    split_ifs
    · exact Or.inr (Or.inr (Or.inr rfl))
    · exact Or.inl rfl
  | setError =>
    cases h
    exact Or.inr (Or.inr (Or.inl rfl))
  | left => cases h
  | _ =>
    left
    simp only [consumerStep] at h
    first
      | (cases h; rfl)
      | (split_ifs at h <;> cases h <;> rfl)

/-- A failure ends with a fault in the status. -/
theorem faulted_of_failing {a : Answer} {s s' : Repository n} {pc pc' : ConsumerPc}
    (h : consumerStep a s pc = some (s', pc')) (hpublishes : Publishes a s pc)
    (hpc : pc.failing) : s'.repoStatus.Faulted ∨ pc'.failing := by
  cases pc with
  | drain ret =>
    simp only [consumerStep] at h
    split_ifs at h <;> cases h <;> exact Or.inr rfl
  | drainRelease ret | drainAdvance ret =>
    cases h
    exact Or.inr rfl
  | checkDevice ret =>
    rw [consumerStep, Option.some.injEq] at h
    rcases checkDeviceError_publishes (hpublishes ret rfl) with hfaulted | hpc
    · rw [h] at hfaulted
      exact Or.inl hfaulted
    · rw [h] at hpc
      right
      rw [show pc' = .setError from hpc]
      rfl
  | setError =>
    cases h
    exact Or.inl (Or.inr (Or.inl rfl))
  | _ => cases hpc

/-! ### The invariant -/

/-- The first `count` accepted tasks have been executed and returned 0. -/
def Succeeded (s : Repository n) (count : ℕ) : Prop :=
  count ≤ s.accepted.length ∧ ∀ task ∈ s.accepted.take count, (task, 0) ∈ s.executed

/-- What holds of a thread inside `MakeSureQueueEmpty`, and after its return. -/
def DrainInv (s : Repository n) : ThreadPc → Prop
  | .emptyRead drain | .emptyWrite drain _ | .lockEmpty drain | .needEmptyOn drain
  | .recheckRead drain | .recheckWrite drain _ | .waitEmpty drain | .needEmptyOff drain =>
    drain.began ≤ s.accepted.length
  | .drainStatus drain => s.repoStatus.Faulted ∨ Succeeded s drain.began
  | .idle (some (.drain drain status none)) =>
    drain.checkError → status ≠ .canExit → Succeeded s drain.began
  | _ => True

structure DrainsInv (s : State n) : Prop where
  /-- Every task read has succeeded, or there is a trace of a failure. -/
  clean : s.repo.repoStatus.Faulted ∨ s.consumer.failing
    ∨ Orderly s ∧ ∀ e ∈ s.repo.executed, e.2 = 0
  threads : ∀ t, DrainInv s.repo (s.threads t)

/-- What happens only adds to the record and to the faults. -/
structure Grows (s s' : Repository n) : Prop where
  accepted : s.accepted <+: s'.accepted
  executed : s.executed ⊆ s'.executed
  faulted : s.repoStatus.Faulted → s'.repoStatus.Faulted

theorem SameRing.grows {s s' : Repository n} (h : SameRing s s')
    (hfaulted : s.repoStatus.Faulted → s'.repoStatus.Faulted) : Grows s s' where
  accepted := by
    rw [h.accepted]
  executed := by
    rw [h.executed]
    exact List.Subset.refl _
  faulted := hfaulted

theorem Succeeded.mono {s s' : Repository n} {count : ℕ} (h : Succeeded s count)
    (hgrows : Grows s s') : Succeeded s' count := by
  obtain ⟨new, hnew⟩ := hgrows.accepted
  refine ⟨h.1.trans hgrows.accepted.length_le, fun task hmem => hgrows.executed (h.2 task ?_)⟩
  rwa [← hnew, List.take_append_of_le_length h.1] at hmem

theorem DrainInv.mono {s s' : Repository n} {pc : ThreadPc} (h : DrainInv s pc)
    (hgrows : Grows s s') : DrainInv s' pc := by
  cases pc with
  | emptyRead drain | emptyWrite drain read | lockEmpty drain | needEmptyOn drain
  | recheckRead drain | recheckWrite drain read | waitEmpty drain | needEmptyOff drain =>
    exact Nat.le_trans h hgrows.accepted.length_le
  | drainStatus drain => exact h.imp hgrows.faulted (·.mono hgrows)
  | idle ended =>
    match ended, h with
    | some (.drain drain status none), h =>
      exact fun hcheck hstatus => (h hcheck hstatus).mono hgrows
    | none, _ | some (.enqueue _), _ | some (.drain _ _ (some _)), _ => exact trivial
  | _ => exact trivial

/-! ### Steps of the threads -/

theorem Grows.thread {s : State n} {t : Fin n} {interrupted : Bool} {s' : Repository n}
    {pc' : ThreadPc} (hring : RingInv s)
    (h : threadStep t interrupted s.repo (s.threads t) = some (s', pc')) : Grows s.repo s' := by
  obtain ⟨new, -, haccepted, hexecuted, -⟩ := hring.appends_of_threadRing (threadRing_of_step h)
  refine ⟨⟨new, haccepted.symm⟩, ?_, fun hfaulted => ?_⟩
  · rw [hexecuted]
    exact List.Subset.refl _
  · rcases repoStatus_of_threadStep h with heq | ⟨heq, -⟩
    · rw [heq]
      exact hfaulted
    · rw [heq]
      exact Or.inr (Or.inr rfl)

/-- A call that found an error returns only if it was not to check. -/
theorem drainInv_thrown (s : Repository n) (drain : Drain) (status : RepoStatus) (thrown : Thrown) :
    DrainInv s (.idle (some (.drain drain status
      (if drain.checkError then some thrown else none)))) := by
  by_cases hcheck : drain.checkError
  · rw [if_pos hcheck]
    exact trivial
  · rw [if_neg hcheck]
    exact fun hcheck' => absurd hcheck' hcheck

theorem DrainInv.threadStep {t : Fin n} {interrupted : Bool} {s s' : Repository n}
    {pc pc' : ThreadPc} (h : threadStep t interrupted s pc = some (s', pc')) (hpc : DrainInv s pc)
    (hempty : ∀ drain, pc = .emptyWrite drain s.writeIdx.idx →
      s.repoStatus.Faulted ∨ Succeeded s drain.began) : DrainInv s' pc' := by
  cases pc with
  | emptyWrite drain read =>
    simp only [Queue.threadStep] at h
    split_ifs at h with hread
    · cases h
      exact hempty drain (by rw [hread])
    · cases h
      exact hpc
  | recheckWrite drain read =>
    simp only [Queue.threadStep] at h
    split_ifs at h <;> cases h <;> exact hpc
  | lockEmpty drain | waitEmpty drain =>
    simp only [Queue.threadStep] at h
    split_ifs at h <;> cases h <;> exact hpc
  | emptyRead drain | needEmptyOn drain | recheckRead drain | needEmptyOff drain =>
    cases h
    exact hpc
  | drainStatus drain =>
    simp only [Queue.threadStep] at h
    split at h
    · cases h
      exact drainInv_thrown s drain _ _
    · rename_i hdevice
      split_ifs at h with herror
      · cases h
        exact trivial
      · cases h
        intro _ hcan
        refine hpc.resolve_left fun hfaulted => ?_
        rcases hfaulted with hsome | hexit | hexit
        · rw [hdevice] at hsome
          cases hsome
        · exact herror hexit
        · exact hcan hexit
  | drainReport drain =>
    cases h
    exact drainInv_thrown _ drain _ _
  | idle ended => cases h
  | enqueueStatus paras =>
    simp only [Queue.threadStep] at h
    split at h
    · cases h
      exact trivial
    · split at h <;> cases h <;> exact trivial
  | writeStatus paras =>
    simp only [Queue.threadStep] at h
    split at h <;> cases h <;> exact trivial
  | loopRun paras | loopInit paras | fullRead paras write | checkRead | lockEnqueue paras
  | writeFull paras | waitWrite paras =>
    simp only [Queue.threadStep] at h
    split_ifs at h <;> cases h <;> exact trivial
  | enqueueReport | writeWorkingOn paras | writeWorkingOff paras | fullWrite paras | wakeRead
  | enqueueEnd | writeCopy paras | writePublish paras =>
    cases h
    exact trivial

theorem DrainInv.update {s : State n} {s' : Repository n} {t : Fin n} {pc : ThreadPc}
    (hs : ∀ t', DrainInv s.repo (s.threads t')) (hgrows : Grows s.repo s') (hpc : DrainInv s' pc) :
    ∀ t', DrainInv s' (Function.update s.threads t pc t') :=
  (Function.forall_update_iff s.threads fun _ pc => DrainInv s' pc).mpr ⟨hpc, fun t' _ => (hs t').mono hgrows⟩

/-- An empty ring in a clean state: everything accepted has been executed. -/
theorem Orderly.succeeded {s : State n} (hs : Orderly s) (hzero : ∀ e ∈ s.repo.executed, e.2 = 0)
    (hempty : s.repo.isEmptyQueue) {count : ℕ} (hcount : count ≤ s.repo.accepted.length) :
    Succeeded s.repo count := by
  have hheld : s.repo.held = [] := by
    rw [Repository.held, Repository.heldSlots, of_decide_eq_true hempty, Ring.slots_self]
    rfl
  have hrest : s.repo.rest s.consumer.called = [] := by
    rw [Repository.rest, hheld]
    split_ifs <;> rfl
  have haccepted := hs.accepted
  rw [hrest, List.append_nil] at haccepted
  refine ⟨hcount, fun task hmem => ?_⟩
  have hmem' := List.mem_of_mem_take hmem
  rw [← haccepted, List.mem_map] at hmem'
  obtain ⟨⟨task', ret⟩, hexecuted, rfl⟩ := hmem'
  rw [← hzero _ hexecuted]
  exact hexecuted

/-! ### Steps of the consumer -/

/-- Without a failure the step is one in which the task returns 0. -/
theorem consumerStep_zero {a : Answer} {s s' : Repository n} {pc pc' : ConsumerPc}
    (h : consumerStep a s pc = some (s', pc')) (hfailing : ¬ pc'.failing) :
    consumerStep { a with ret := 0 } s pc = some (s', pc') := by
  cases pc with
  | call =>
    by_cases hret : a.ret = 0
    · rw [← h]
      simp only [consumerStep, hret]
    · simp only [consumerStep, if_pos hret] at h
      cases h
      exact absurd rfl hfailing
  | _ => exact h

theorem ConsumerRing.record {s s' : Repository n} {pc pc' : ConsumerPc}
    (h : ConsumerRing s pc s' pc') :
    s'.accepted = s.accepted ∧ (s'.executed = s.executed
      ∨ pc = .call ∧ ∃ ret, s' = s.call ret ∧ (ret ≠ 0 → pc'.failing)) := by
  cases h with
  | outside hpc hpc' hsame hmu => exact ⟨hsame.accepted, Or.inl hsame.executed⟩
  | call ret =>
    refine ⟨rfl, Or.inr ⟨rfl, ret, rfl, fun hret => ?_⟩⟩
    rw [if_pos hret]
    rfl
  | found | release | advance | drain | drainRelease | drainAdvance | clearLoad | clearStore =>
    exact ⟨rfl, Or.inl rfl⟩

theorem Grows.consumer {a : Answer} {s s' : Repository n} {pc pc' : ConsumerPc}
    (h : consumerStep a s pc = some (s', pc')) : Grows s s' := by
  obtain ⟨haccepted, hexecuted⟩ := (consumerRing_of_step h).record
  refine ⟨by rw [haccepted], ?_, fun hfaulted => ?_⟩
  · rcases hexecuted with heq | ⟨-, ret, rfl, -⟩
    · rw [heq]
      exact List.Subset.refl _
    · exact List.subset_append_left _ _
  · rcases status_of_consumerStep h with heq | hfaulted'
    · rw [heq]
      exact hfaulted
    · exact hfaulted'

theorem DrainsInv.clean_consumer {s : State n} {a : Answer} {s' : Repository n} {pc' : ConsumerPc}
    (hring : RingInv s) (hs : DrainsInv s) (hpublishes : Publishes a s.repo s.consumer)
    (hstep : consumerStep a s.repo s.consumer = some (s', pc')) :
    s'.repoStatus.Faulted ∨ pc'.failing
      ∨ Orderly { s with repo := s', consumer := pc' } ∧ ∀ e ∈ s'.executed, e.2 = 0 := by
  rcases hs.clean with hfaulted | hfailing | ⟨horderly, hzero⟩
  · exact Or.inl ((Grows.consumer hstep).faulted hfaulted)
  · exact (faulted_of_failing hstep hpublishes hfailing).imp_right Or.inl
  · by_cases hfailing : pc'.failing
    · exact Or.inr (Or.inl hfailing)
    have hnext : s.next (.consumer { a with ret := 0 })
        = some { s with repo := s', consumer := pc' } := by
      rw [State.next, consumerStep_zero hstep hfailing]
      rfl
    refine Or.inr (Or.inr ⟨horderly.next hring hnext rfl, fun e hmem => ?_⟩)
    rcases (consumerRing_of_step hstep).record.2 with heq | ⟨-, ret, rfl, hret⟩
    · rw [heq] at hmem
      exact hzero e hmem
    · -- the task just called has not failed
      rcases List.mem_append.mp hmem with hmem | hmem
      · exact hzero e hmem
      · rw [List.mem_singleton] at hmem
        rw [hmem]
        by_contra hne
        exact hfailing (hret hne)

/-! ### Runs -/

theorem DrainsInv.clean_of_status {s s' : State n} (hs : DrainsInv s)
    (hpc : s'.consumer = s.consumer) (hexecuted : s'.repo.executed = s.repo.executed)
    (hfaulted : s.repo.repoStatus.Faulted → s'.repo.repoStatus.Faulted)
    (horderly : Orderly s → s'.repo.repoStatus.Faulted ∨ Orderly s') :
    s'.repo.repoStatus.Faulted ∨ s'.consumer.failing
      ∨ Orderly s' ∧ ∀ e ∈ s'.repo.executed, e.2 = 0 := by
  rw [hpc, hexecuted]
  rcases hs.clean with hfault | hfailing | ⟨horder, hzero⟩
  · exact Or.inl (hfaulted hfault)
  · exact Or.inr (Or.inl hfailing)
  · exact (horderly horder).imp_right fun horder' => Or.inr ⟨horder', hzero⟩

theorem DrainsInv.next {s s' : State n} {l : Label n} (hring : RingInv s) (hs : DrainsInv s)
    (hl : Settled s l) (h : s.next l = some s') : DrainsInv s' := by
  cases move_of_next h with
  | enqueue hidle =>
    exact ⟨hs.clean_of_status rfl rfl id fun horderly => Or.inr (horderly.next hring h trivial),
      DrainInv.update hs.threads ((SameRing.refl _).grows id) trivial⟩
  | makeSureQueueEmpty hidle =>
    exact ⟨hs.clean_of_status rfl rfl id fun horderly => Or.inr (horderly.next hring h trivial),
      DrainInv.update hs.threads ((SameRing.refl _).grows id) le_rfl⟩
  | @thread t interrupted repo pc hstep =>
    have hgrows := Grows.thread hring hstep
    obtain ⟨new, -, -, hexecuted, -⟩ := hring.appends_of_threadRing (threadRing_of_step hstep)
    refine ⟨hs.clean_of_status rfl hexecuted hgrows.faulted
      fun horderly => Or.inr (horderly.next hring h trivial),
      DrainInv.update hs.threads hgrows ((hs.threads _).threadStep hstep fun drain hpc => ?_)⟩
    -- the loop ends: the ring is empty and no failure is under way
    have hfinds : FindsSettled s (s.threads t) := hl
    have hbegan := hs.threads t
    rw [hpc] at hfinds hbegan
    obtain ⟨hempty, hfailing⟩ := hfinds _ rfl rfl
    rcases hs.clean with hfaulted | hfailing' | ⟨horderly, hzero⟩
    · exact Or.inl hfaulted
    · rw [hfailing] at hfailing'
      cases hfailing'
    · exact Or.inr (horderly.succeeded hzero hempty hbegan)
  | consumer hstep =>
    exact ⟨hs.clean_consumer hring hl hstep, fun t => (hs.threads t).mono (Grows.consumer hstep)⟩
  | setStatus =>
    exact ⟨Or.inl hl,
      fun t => (hs.threads t).mono ⟨List.prefix_refl _, List.Subset.refl _, fun _ => hl⟩⟩
  | @changeStatus expected desired =>
    obtain ⟨hsame, -⟩ := sameRing_changeStatus s.repo expected desired
    have hfaulted : s.repo.repoStatus.Faulted →
        (s.repo.changeStatus expected desired).repoStatus.Faulted := by
      intro hfault
      rw [Repository.changeStatus]
      split_ifs with heq
      · rcases hl with ⟨rfl, rfl⟩ | hl
        · rw [heq] at hfault
          exact absurd hfault (by decide)
        · exact hl
      · exact hfault
    refine ⟨hs.clean_of_status rfl hsame.executed hfaulted fun horderly => ?_,
      fun t => (hs.threads t).mono (hsame.grows hfaulted)⟩
    rcases hl with ⟨rfl, rfl⟩ | hl
    · exact Or.inr (horderly.next hring h rfl)
    · dsimp only [Repository.changeStatus]
      split_ifs
      · exact Or.inl hl
      · exact Or.inr horderly
  | escapeWait =>
    exact ⟨hs.clean_of_status rfl rfl id fun horderly => Or.inr (horderly.next hring h trivial),
      hs.threads⟩

/-- In a run of settled steps, a call of `MakeSureQueueEmpty` that checks for errors and returns
without a throw, having found a status other than `CAN_EXIT`, comes after the successful execution of
every task accepted before it began. -/
theorem succeeded_of_drain {ls : List (Label n)} {s : State n} {t : Fin n} {drain : Drain}
    {status : RepoStatus} (hguard : Machine.Guarded State.next Settled {} ls)
    (h : runFromInit ls = some s)
    (hended : s.threads t = .idle (some (.drain drain status none)))
    (hcheck : drain.checkError) (hstatus : status ≠ .canExit) :
    ∀ task ∈ s.repo.accepted.take drain.began, (task, 0) ∈ s.repo.executed := by
  have hinv : RingInv s ∧ DrainsInv s :=
    Machine.guarded_run_induction (P := fun s => RingInv s ∧ DrainsInv s)
      (fun _ _ _ hs hl hnext => ⟨hs.1.next hnext, hs.2.next hs.1 hl hnext⟩)
      ⟨ringInv_init, ⟨Or.inr (Or.inr ⟨⟨rfl, trivial, rfl⟩, fun _ hmem => absurd hmem
        List.not_mem_nil⟩), fun _ => trivial⟩⟩ hguard h
  have hthread := hinv.2.threads t
  rw [hended] at hthread
  exact (hthread hcheck hstatus).2

local instance someDrainer : NeZero 1 := inferInstance

/-- A caller waits for the only task, which succeeds. -/
def drainedQueue : List (Label 1) :=
  Label.enqueue 0 {} :: List.replicate 12 (Label.thread 0 false)
    ++ Label.makeSureQueueEmpty 0 true :: List.replicate 6 (Label.thread 0 false)
    ++ List.replicate 12 (Label.consumer {}) ++ List.replicate 5 (Label.thread 0 false)

theorem succeeded_drainedQueue :
    Machine.Guarded State.next Settled {} drainedQueue ∧ ∃ s, runFromInit drainedQueue = some s
      ∧ s.threads 0 = .idle (some (.drain { checkError := true, began := 1 } .init none))
      ∧ s.repo.accepted.length = 1
      ∧ ∀ task ∈ s.repo.accepted.take 1, (task, 0) ∈ s.repo.executed := by
  have hguard : Machine.Guarded State.next Settled {} drainedQueue := by decide +kernel
  have hrun : (runFromInit drainedQueue).map (fun s => (s.threads 0, s.repo.accepted.length))
      = some (.idle (some (.drain { checkError := true, began := 1 } .init none)), 1) := by
    decide +kernel
  rw [Option.map_eq_some_iff] at hrun
  obtain ⟨s, hs, hended⟩ := hrun
  rw [Prod.mk.injEq] at hended
  exact ⟨hguard, s, hs, hended.1, hended.2,
    succeeded_of_drain hguard hs hended.1 rfl (by decide)⟩

/-- A task fails; the next `Enqueue` reports the error and throws; then a caller drains the queue. -/
def reportedError : List (Label 1) :=
  Label.enqueue 0 {} :: List.replicate 12 (Label.thread 0 false)
    ++ List.replicate 6 (Label.consumer {}) ++ Label.consumer { ret := 507015 }
    :: List.replicate 15 (Label.consumer {})
    ++ Label.enqueue 0 {} :: List.replicate 2 (Label.thread 0 false)
    ++ Label.makeSureQueueEmpty 0 true :: List.replicate 3 (Label.thread 0 false)

theorem drain_after_report :
    ∃ s, runFromInit reportedError = some s
      ∧ s.threads 0 = .idle (some (.drain { checkError := true, began := 1 } .canExit none))
      ∧ ¬ ∀ task ∈ s.repo.accepted.take 1, (task, 0) ∈ s.repo.executed := by
  have hrun : (runFromInit reportedError).map
      (fun s => (s.threads 0, s.repo.accepted, s.repo.executed))
      = some (.idle (some (.drain { checkError := true, began := 1 } .canExit none)), [{}],
        [({}, 507015)]) := by
    decide +kernel
  rw [Option.map_eq_some_iff] at hrun
  obtain ⟨s, hs, hended⟩ := hrun
  simp only [Prod.mk.injEq] at hended
  obtain ⟨hended, haccepted, hexecuted⟩ := hended
  refine ⟨s, hs, hended, fun hall => ?_⟩
  have hmem : (({} : Task), (0 : ℤ)) ∈ s.repo.executed := hall {} (by simp [haccepted])
  simp [hexecuted] at hmem

end TorchNpu.Queue
