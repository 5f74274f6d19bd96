/-
  Sleeping and waking.

  A producer that finds the ring full clears its working flag, looks again and waits on `efd_write`;
  a caller of `MakeSureQueueEmpty` sets `need_empty`, looks again and waits on `efd_empty`.  The
  consumer moves the read index first and looks at the flags afterwards, so between the two it owes
  them a wakeup (`ConsumerPc.owesWrite`, `ConsumerPc.owesEmpty`).

  The flag of the producers belongs to whoever is inside `Enqueue`, so the runs here have one
  producer there at a time; and nothing is accepted in the two status values in which the consumer
  is on its way out.

  * `not_stuck_of_run`: no thread of such a run waits for a wakeup that nobody owes it.
  * `waits_on_empty_ring`: a caller does wait on an empty ring while the consumer still owes it the
    wakeup.
-/
import TorchNpu.Queue.Spec.Ring

namespace TorchNpu.Queue

variable {n : ℕ}

/-! ### Who waits, and who is to wake -/

/-- The thread is inside `Enqueue`. -/
def ThreadPc.enqueuing : ThreadPc → Bool
  | .enqueueStatus _ | .enqueueReport | .writeWorkingOn _ | .loopRun _ | .loopInit _
  | .lockEnqueue _ | .writeStatus _ | .writeFull _ | .writeCopy _ | .writePublish _
  | .writeWorkingOff _ | .fullWrite _ | .fullRead _ _ | .waitWrite _ | .checkRead | .wakeRead
  | .enqueueEnd => true
  | _ => false

/-- The thread is about to move the write index. -/
def ThreadPc.publishing : ThreadPc → Bool
  | .writePublish _ => true
  | _ => false

/-- The consumer is between a move of the read index, or a failure, and its write to `efd_empty`. -/
def ConsumerPc.owesEmpty : ConsumerPc → Bool
  | .notifyNeed | .notifyEmpty | .wakeEmpty | .drain _ | .drainRelease _ | .drainAdvance _
  | .checkDevice _ | .setError | .clearLoad _ | .clearStore _ _ | .clearEmpty _ => true
  | _ => false

/-- The same for `efd_write`, which is written later. -/
def ConsumerPc.owesWrite : ConsumerPc → Bool
  | .checkWrite | .wakeWrite | .clearWrite _ => true
  | pc => pc.owesEmpty

/-- The consumer sleeps on `efd_read`, or has left. -/
def ConsumerPc.Gone (s : Repository n) (pc : ConsumerPc) : Prop :=
  pc = .waitRead ∧ s.efdRead = 0 ∨ pc = .left

/-- A producer waits although the ring is not full, or a caller waits although it is empty, and
nobody is going to wake them. -/
def Stuck (s : State n) : Prop :=
  (∃ t paras, s.threads t = .waitWrite paras ∧ s.repo.efdWrite = 0 ∧ ¬ s.repo.isFullQueue
    ∧ s.consumer.Gone s.repo)
  ∨ ∃ t drain, s.threads t = .waitEmpty drain ∧ s.repo.efdEmpty = 0
    ∧ (s.repo.isEmptyQueue ∧ ¬ s.consumer.owesEmpty ∨ s.consumer = .left)

/-- The consumer is on its way out. -/
def RepoStatus.Closed (status : RepoStatus) : Prop :=
  status = .errorExit ∨ status = .canExit

instance : DecidablePred RepoStatus.Closed := fun status =>
  inferInstanceAs (Decidable (status = .errorExit ∨ status = .canExit))

/-- The steps of the runs below: one producer is inside `Enqueue` at a time, nothing is accepted in a
closed status, and the status is set from outside only when the first stream is handed out. -/
def OneProducer (s : State n) : Label n → Prop
  | .enqueue _ _ => ∀ t, (s.threads t).enqueuing = false
  | .thread t _ => (s.threads t).publishing → ¬ s.repo.repoStatus.Closed
  | .setStatus _ => False
  | .changeStatus expected desired => expected = .init ∧ desired = .run
  | _ => True

instance (s : State n) : DecidablePred (OneProducer s) := fun l =>
  match l with
  | .enqueue _ _ => inferInstanceAs (Decidable (∀ t, (s.threads t).enqueuing = false))
  | .thread t _ =>
    inferInstanceAs (Decidable ((s.threads t).publishing → ¬ s.repo.repoStatus.Closed))
  | .setStatus _ => isFalse id
  | .changeStatus expected desired =>
    inferInstanceAs (Decidable (expected = .init ∧ desired = .run))
  | .makeSureQueueEmpty _ _ | .consumer _ | .escapeWait => isTrue trivial

/-! ### The invariant -/

/-- A wait on `efd_empty` is over, or the ring is not empty, or the wakeup is owed. -/
def WakesEmpty (s : Repository n) (pc : ConsumerPc) : Prop :=
  s.readIdx.idx ≠ s.writeIdx.idx ∨ 0 < s.efdEmpty ∨ pc.owesEmpty

/-- A wait on `efd_write` is over, or the ring is full, or the wakeup is owed. -/
def WakesWrite (s : Repository n) (pc : ConsumerPc) : Prop :=
  nextIdx s.writeIdx.idx = s.readIdx.idx ∨ 0 < s.efdWrite ∨ pc.owesWrite

/-- What holds of a producer that has found the ring full. -/
def ProducerInv (s : Repository n) (consumer : ConsumerPc) : ThreadPc → Prop
  | .fullWrite _ => s.writeIdx.working = false
  | .fullRead _ write => s.writeIdx.working = false ∧ write = s.writeIdx.idx
  | .waitWrite _ => s.writeIdx.working = false ∧ WakesWrite s consumer
  | _ => True

/-- What holds of a caller of `MakeSureQueueEmpty` that has locked `mu_empty`. -/
def CallerInv (s : Repository n) (consumer : ConsumerPc) (t : Fin n) : ThreadPc → Prop
  | .needEmptyOn _ | .needEmptyOff _ => s.muEmpty = some t
  | .recheckRead _ => s.muEmpty = some t ∧ s.needEmpty
  | .recheckWrite _ read => s.muEmpty = some t ∧ s.needEmpty
      ∧ (s.readIdx.idx = read ∨ WakesEmpty s consumer)
  | .waitEmpty _ => s.muEmpty = some t ∧ s.needEmpty ∧ WakesEmpty s consumer
  | _ => True

/-- An error is reported only once it is in the status. -/
def ReportInv (s : Repository n) : ThreadPc → Prop
  | .enqueueReport | .drainReport _ => s.repoStatus.Closed
  | _ => True

theorem ReportInv.mono {s s' : Repository n} {pc : ThreadPc} (h : ReportInv s pc)
    (hclosed : s.repoStatus.Closed → s'.repoStatus.Closed) : ReportInv s' pc := by
  cases pc with
  | enqueueReport | drainReport drain => exact hclosed h
  | _ => exact trivial

/-- The consumer takes no task and stores no status. -/
def ConsumerPc.quiet : ConsumerPc → Bool
  | .call | .release | .advance | .drain _ | .drainRelease _ | .drainAdvance _ | .checkDevice _
  | .setError => false
  | _ => true

/-- The ring is empty, or is about to be cleared. -/
def Cleared (s : Repository n) : ConsumerPc → Prop
  | .clearLoad _ => True
  | .clearStore _ write => write = s.writeIdx.idx
  | _ => s.readIdx.idx = s.writeIdx.idx

structure ClosedInv (s : Repository n) (pc : ConsumerPc) : Prop where
  needExit : s.repoStatus ≠ .needExit
  quiet : s.repoStatus.Closed → pc.quiet
  cleared : s.repoStatus.Closed → Cleared s pc
  left : pc = .left → s.repoStatus.Closed

theorem ClosedInv.of_open {s : Repository n} {pc : ConsumerPc} (hne : s.repoStatus ≠ .needExit)
    (hopen : ¬ s.repoStatus.Closed) (hleft : pc ≠ .left) : ClosedInv s pc :=
  ⟨hne, fun hclosed => absurd hclosed hopen, fun hclosed => absurd hclosed hopen,
    fun hpc => absurd hpc hleft⟩

structure HandshakeInv (s : State n) : Prop where
  single : ∀ t t', (s.threads t).enqueuing → (s.threads t').enqueuing → t = t'
  producers : ∀ t, ProducerInv s.repo s.consumer (s.threads t)
  callers : ∀ t, CallerInv s.repo s.consumer t (s.threads t)
  reports : ∀ t, ReportInv s.repo (s.threads t)
  closed : ClosedInv s.repo s.consumer

theorem HandshakeInv.not_stuck {s : State n} (hs : HandshakeInv s) : ¬ Stuck s := by
  rintro (⟨t, paras, ht, hzero, hfull, hgone⟩ | ⟨t, drain, ht, hzero, hempty⟩)
  · have hproducer := hs.producers t
    rw [ht] at hproducer
    rcases hproducer.2 with hfull' | hpos | howes
    · exact hfull (decide_eq_true hfull')
    · omega
    · rcases hgone with ⟨hpc, -⟩ | hpc <;> rw [hpc] at howes <;> cases howes
  · have hcaller := hs.callers t
    rw [ht] at hcaller
    rcases hcaller.2.2 with hne | hpos | howes
    · -- a consumer that has left leaves an empty ring behind
      rcases hempty with ⟨hempty, -⟩ | hleft
      · exact hne (of_decide_eq_true hempty)
      · have hcleared := hs.closed.cleared (hs.closed.left hleft)
        rw [hleft] at hcleared
        exact hne hcleared
    · omega
    · rcases hempty with ⟨-, hnot⟩ | hleft
      · exact hnot howes
      · rw [hleft] at howes
        cases howes

/-! ### Steps of the consumer -/

section

variable {a : Answer} {s s' : Repository n} {pc pc' : ConsumerPc}

/-- `CheckDeviceError` keeps what the threads look at, and leads to a wakeup. -/
theorem checkDeviceError_frame (a : Answer) (s : Repository n) (ret : ℤ) :
    (checkDeviceError a s ret).1.needEmpty = s.needEmpty
      ∧ (checkDeviceError a s ret).1.muEmpty = s.muEmpty
      ∧ (checkDeviceError a s ret).1.writeIdx = s.writeIdx
      ∧ (checkDeviceError a s ret).2.owesEmpty := by
  simp only [checkDeviceError]
  split
  · dsimp only
    split_ifs <;> exact ⟨rfl, rfl, rfl, rfl⟩
  · exact ⟨rfl, rfl, rfl, rfl⟩
  · dsimp only
    split_ifs <;> exact ⟨rfl, rfl, rfl, rfl⟩

/-- A wakeup on `efd_write` is owed longer. -/
theorem ConsumerPc.owesWrite_of_owesEmpty {pc : ConsumerPc} (h : pc.owesEmpty) :
    pc.owesWrite := by
  cases pc <;> first | rfl | cases h

theorem frame_of_consumerStep (h : consumerStep a s pc = some (s', pc')) :
    s'.needEmpty = s.needEmpty ∧ s'.muEmpty = s.muEmpty ∧ s'.writeIdx = s.writeIdx := by
  cases pc with
  | checkDevice ret =>
    obtain ⟨hneed, hmu, hwrite, -⟩ := checkDeviceError_frame a s ret
    rw [consumerStep, Option.some.injEq] at h
    rw [h] at hneed hmu hwrite
    exact ⟨hneed, hmu, hwrite⟩
  | failChange =>
    cases h
    rw [Repository.changeStatus]
    split_ifs <;> exact ⟨rfl, rfl, rfl⟩
  | left => cases h
  | _ =>
    simp only [consumerStep] at h
    first
      | (cases h; exact ⟨rfl, rfl, rfl⟩)
      | (split_ifs at h <;> cases h <;> exact ⟨rfl, rfl, rfl⟩)

/-- A consumer that owes callers a wakeup keeps owing it, or finds the ring not empty, or wakes
them. -/
theorem WakesEmpty.consumerStep (h : consumerStep a s pc = some (s', pc'))
    (hneed : s.needEmpty) (hs : WakesEmpty s pc) : WakesEmpty s' pc' := by
  cases pc with
  | advance | drainAdvance ret | clearStore site write | drainRelease ret | setError
  | clearLoad site =>
    cases h
    exact Or.inr (Or.inr rfl)
  | drain ret =>
    simp only [Queue.consumerStep] at h
    split_ifs at h <;> cases h <;> exact Or.inr (Or.inr rfl)
  | checkDevice ret =>
    obtain ⟨-, -, -, howes⟩ := checkDeviceError_frame a s ret
    rw [Queue.consumerStep, Option.some.injEq] at h
    rw [h] at howes
    exact Or.inr (Or.inr howes)
  | notifyNeed =>
    simp only [Queue.consumerStep, hneed, if_true] at h
    cases h
    exact Or.inr (Or.inr rfl)
  | notifyEmpty =>
    simp only [Queue.consumerStep, Repository.isEmptyQueue, decide_eq_true_eq] at h
    split_ifs at h with hempty
    · cases h
      exact Or.inr (Or.inr rfl)
    · cases h
      exact Or.inl hempty
  | wakeEmpty | clearEmpty site =>
    cases h
    exact Or.inr (Or.inl (Nat.succ_pos _))
  | failChange =>
    cases h
    rw [Repository.changeStatus]
    have hs := hs.imp_right fun h => h.resolve_right Bool.false_ne_true
    split_ifs <;> exact hs.imp_right Or.inl
  | left => cases h
  | _ =>
    have hs := hs.imp_right fun h => h.resolve_right Bool.false_ne_true
    simp only [Queue.consumerStep] at h
    first
      | (cases h; exact hs.imp_right Or.inl)
      | (split_ifs at h <;> cases h <;> exact hs.imp_right Or.inl)

/-- The same for producers, whose flag is down. -/
theorem WakesWrite.consumerStep (h : consumerStep a s pc = some (s', pc'))
    (hworking : s.writeIdx.working = false) (hs : WakesWrite s pc) : WakesWrite s' pc' := by
  cases pc with
  | advance | drainAdvance ret | clearStore site write | drainRelease ret | setError
  | clearLoad site | clearEmpty site | wakeEmpty =>
    cases h
    exact Or.inr (Or.inr rfl)
  | drain ret | notifyNeed | notifyEmpty =>
    simp only [Queue.consumerStep] at h
    split_ifs at h <;> cases h <;> exact Or.inr (Or.inr rfl)
  | checkDevice ret =>
    obtain ⟨-, -, -, howes⟩ := checkDeviceError_frame a s ret
    rw [Queue.consumerStep, Option.some.injEq] at h
    rw [h] at howes
    exact Or.inr (Or.inr (ConsumerPc.owesWrite_of_owesEmpty howes))
  | checkWrite =>
    simp only [Queue.consumerStep, hworking] at h
    cases h
    exact Or.inr (Or.inr rfl)
  | wakeWrite | clearWrite site =>
    cases h
    exact Or.inr (Or.inl (Nat.succ_pos _))
  | failChange =>
    cases h
    rw [Repository.changeStatus]
    have hs := hs.imp_right fun h => h.resolve_right Bool.false_ne_true
    split_ifs <;> exact hs.imp_right Or.inl
  | left => cases h
  | _ =>
    have hs := hs.imp_right fun h => h.resolve_right Bool.false_ne_true
    simp only [Queue.consumerStep] at h
    first
      | (cases h; exact hs.imp_right Or.inl)
      | (split_ifs at h <;> cases h <;> exact hs.imp_right Or.inl)

/-- The read index stays, or a wakeup is owed. -/
theorem readIdx_of_consumerStep (h : consumerStep a s pc = some (s', pc')) :
    s'.readIdx.idx = s.readIdx.idx ∨ pc'.owesEmpty := by
  have hring := consumerRing_of_step h
  cases hring with
  | outside hpc hpc' hsame hmu => exact Or.inl hsame.read
  | advance | drainAdvance | clearStore => exact Or.inr rfl
  | found | call | release | drain | drainRelease | clearLoad => exact Or.inl rfl

theorem CallerInv.consumerStep {t : Fin n} {pct : ThreadPc}
    (h : consumerStep a s pc = some (s', pc')) (ht : CallerInv s pc t pct) :
    CallerInv s' pc' t pct := by
  obtain ⟨hneed, hmu, hwrite⟩ := frame_of_consumerStep h
  cases pct with
  | needEmptyOn drain | needEmptyOff drain => exact hmu.trans ht
  | recheckRead drain => exact ⟨hmu.trans ht.1, hneed.trans ht.2⟩
  | recheckWrite drain read =>
    refine ⟨hmu.trans ht.1, hneed.trans ht.2.1, ?_⟩
    rcases ht.2.2 with hread | hwakes
    · rcases readIdx_of_consumerStep h with hread' | howes
      · exact Or.inl (hread'.trans hread)
      · exact Or.inr (Or.inr (Or.inr howes))
    · exact Or.inr (hwakes.consumerStep h ht.2.1)
  | waitEmpty drain =>
    exact ⟨hmu.trans ht.1, hneed.trans ht.2.1, ht.2.2.consumerStep h ht.2.1⟩
  | _ => exact trivial

theorem ProducerInv.consumerStep {pct : ThreadPc} (h : consumerStep a s pc = some (s', pc'))
    (ht : ProducerInv s pc pct) : ProducerInv s' pc' pct := by
  obtain ⟨-, -, hwrite⟩ := frame_of_consumerStep h
  cases pct with
  | fullWrite paras =>
    show s'.writeIdx.working = false
    rw [hwrite]
    exact ht
  | fullRead paras write =>
    show s'.writeIdx.working = false ∧ write = s'.writeIdx.idx
    rw [hwrite]
    exact ht
  | waitWrite paras =>
    refine ⟨?_, ht.2.consumerStep h ht.1⟩
    rw [hwrite]
    exact ht.1
  | _ => exact trivial

/-- The status values of `CheckDeviceError` do not close the queue. -/
theorem not_closed_of_deviceFault {ret : ℤ} {aclError : String} {status : RepoStatus}
    (h : deviceFault ret aclError = some status) : ¬ status.Closed ∧ status ≠ .needExit := by
  rw [deviceFault, Option.map_eq_some_iff] at h
  obtain ⟨fault, hfind, rfl⟩ := h
  have hmem : fault ∈ deviceFaults := List.mem_of_find?_eq_some hfind
  have hall : ∀ fault ∈ deviceFaults, ¬ fault.1.Closed ∧ fault.1 ≠ .needExit := by decide
  exact hall fault hmem

theorem checkDeviceError_closed (a : Answer) (ret : ℤ) (hs : ¬ s.repoStatus.Closed)
    (hexit : s.repoStatus ≠ .needExit) :
    ¬ (checkDeviceError a s ret).1.repoStatus.Closed
      ∧ (checkDeviceError a s ret).1.repoStatus ≠ .needExit := by
  simp only [checkDeviceError]
  split
  · dsimp only
    split_ifs
    · exact not_closed_of_deviceFault ‹_›
    · exact ⟨hs, hexit⟩
  · rename_i hfault
    exact not_closed_of_deviceFault hfault
  · exact ⟨hs, hexit⟩

theorem changeStatus_of_ne {expected desired : RepoStatus} (h : s.repoStatus ≠ expected) :
    s.changeStatus expected desired = s :=
  if_neg h

/-- In a closed status the consumer clears the ring and leaves. -/
theorem ClosedInv.closed_step (h : consumerStep a s pc = some (s', pc')) (hs : ClosedInv s pc)
    (hclosed : s.repoStatus.Closed) : ClosedInv s' pc' := by
  have hquiet := hs.quiet hclosed
  have hcleared := hs.cleared hclosed
  have hne := hs.needExit
  cases pc with
  | call | release | advance | drain ret | drainRelease ret | drainAdvance ret | checkDevice ret
  | setError => cases hquiet
  | readEmpty =>
    have hempty : s.isEmptyQueue = true := decide_eq_true hcleared
    simp only [Queue.consumerStep, hempty, if_true] at h
    cases h
    exact ⟨hne, fun _ => rfl, fun _ => hcleared, fun _ => hclosed⟩
  | clearLoad site =>
    cases h
    exact ⟨hne, fun _ => rfl, fun _ => rfl, fun _ => hclosed⟩
  | clearStore site write =>
    cases h
    exact ⟨hne, fun _ => rfl, fun _ => hcleared, fun _ => hclosed⟩
  | clearWrite site =>
    cases h
    cases site <;> exact ⟨hne, fun _ => rfl, fun _ => hcleared, fun _ => hclosed⟩
  | failChange =>
    rw [Queue.consumerStep, changeStatus_of_ne hne] at h
    cases h
    exact ⟨hne, fun _ => rfl, fun _ => hcleared, fun _ => hclosed⟩
  | loopDevice =>
    simp only [Queue.consumerStep] at h
    split_ifs at h <;> cases h
    · exact ⟨hne, fun _ => rfl, fun _ => trivial, fun _ => hclosed⟩
    · exact ⟨hne, fun _ => rfl, fun _ => hcleared, fun _ => hclosed⟩
  | left => cases h
  | _ =>
    simp only [Queue.consumerStep] at h
    first
      | (cases h; exact ⟨hne, fun _ => rfl, fun _ => hcleared, fun _ => hclosed⟩)
      | (split_ifs at h <;> cases h <;>
          exact ⟨hne, fun _ => rfl, fun _ => hcleared, fun _ => hclosed⟩)

/-- Only `SetStatus(ERROR_EXIT)` closes the queue. -/
theorem not_closed_of_consumerStep (h : consumerStep a s pc = some (s', pc'))
    (hopen : ¬ s.repoStatus.Closed) (hne : s.repoStatus ≠ .needExit) (hpc : pc ≠ .setError) :
    ¬ s'.repoStatus.Closed ∧ s'.repoStatus ≠ .needExit := by
  cases pc with
  | setError => exact absurd rfl hpc
  | checkDevice ret =>
    have hchecked := checkDeviceError_closed a ret hopen hne
    rw [consumerStep, Option.some.injEq] at h
    rw [h] at hchecked
    exact hchecked
  | failChange =>
    rw [consumerStep, changeStatus_of_ne hne] at h
    cases h
    exact ⟨hopen, hne⟩
  | left => cases h
  | _ =>
    simp only [consumerStep] at h
    first
      | (cases h; exact ⟨hopen, hne⟩)
      | (split_ifs at h <;> cases h <;> exact ⟨hopen, hne⟩)

/-- The consumer leaves in a closed status. -/
theorem closed_of_left (h : consumerStep a s pc = some (s', .left)) : s'.repoStatus.Closed := by
  cases pc with
  | startCan =>
    simp only [consumerStep] at h
    split_ifs at h with hcan
    · cases h
    · cases h
      exact Or.inr (not_not.mp hcan)
  | startError =>
    simp only [consumerStep] at h
    split_ifs at h with herror
    · cases h
    · cases h
      exact Or.inl (not_not.mp herror)
  | checkDevice ret =>
    obtain ⟨-, -, -, howes⟩ := checkDeviceError_frame a s ret
    rw [consumerStep, Option.some.injEq] at h
    rw [h] at howes
    cases howes
  | clearWrite site => cases site <;> cases h
  | _ =>
    simp only [consumerStep] at h
    first
      | cases h
      | (split_ifs at h <;> cases h)

theorem ClosedInv.consumerStep (h : consumerStep a s pc = some (s', pc')) (hs : ClosedInv s pc) :
    ClosedInv s' pc' := by
  by_cases hclosed : s.repoStatus.Closed
  · exact hs.closed_step h hclosed
  by_cases hpc : pc = .setError
  · subst hpc
    cases h
    exact ⟨fun heq => (by cases heq), fun _ => rfl, fun _ => trivial, fun _ => Or.inl rfl⟩
  · obtain ⟨hopen, hne⟩ := not_closed_of_consumerStep h hclosed hs.needExit hpc
    refine .of_open hne hopen fun hleft => ?_
    subst hleft
    exact hopen (closed_of_left h)

theorem closed_of_consumerStep (h : consumerStep a s pc = some (s', pc')) (hs : ClosedInv s pc)
    (hclosed : s.repoStatus.Closed) : s'.repoStatus.Closed := by
  have hquiet := hs.quiet hclosed
  cases pc with
  | checkDevice ret | setError => cases hquiet
  | failChange =>
    rw [consumerStep, changeStatus_of_ne hs.needExit] at h
    cases h
    exact hclosed
  | left => cases h
  | _ =>
    simp only [consumerStep] at h
    first
      | (cases h; exact hclosed)
      | (split_ifs at h <;> cases h <;> exact hclosed)

end

theorem HandshakeInv.consumerStep {s : State n} {a : Answer} {s' : Repository n} {pc' : ConsumerPc}
    (hs : HandshakeInv s) (h : consumerStep a s.repo s.consumer = some (s', pc')) :
    HandshakeInv { s with repo := s', consumer := pc' } where
  single := hs.single
  producers t := (hs.producers t).consumerStep h
  callers t := (hs.callers t).consumerStep h
  reports t := (hs.reports t).mono (closed_of_consumerStep h hs.closed)
  closed := hs.closed.consumerStep h

/-! ### Steps of the threads -/

section

variable {t : Fin n} {interrupted : Bool} {s s' : Repository n} {pc pc' : ThreadPc}
  {consumer : ConsumerPc}

/-- What `Enqueue` leaves alone. -/
theorem enqueue_frame (h : threadStep t interrupted s pc = some (s', pc')) (hpc : pc.enqueuing) :
    s'.readIdx = s.readIdx ∧ s'.needEmpty = s.needEmpty ∧ s'.muEmpty = s.muEmpty
      ∧ s'.efdEmpty = s.efdEmpty ∧ (s'.writeIdx.idx = s.writeIdx.idx
        ∨ ∃ paras, pc = .writePublish paras ∧ s' = s.publish paras) := by
  revert h hpc
  fun_cases threadStep t interrupted s pc <;> rintro ⟨⟩ <;> intro hpc <;> first
    | exact ⟨rfl, rfl, rfl, rfl, Or.inl rfl⟩
    | exact ⟨rfl, rfl, rfl, rfl, Or.inr ⟨_, rfl, rfl⟩⟩
    | cases hpc

/-- What `MakeSureQueueEmpty` leaves alone. -/
theorem drain_frame (h : threadStep t interrupted s pc = some (s', pc'))
    (hpc : pc.enqueuing = false) :
    s'.readIdx = s.readIdx ∧ s'.writeIdx = s.writeIdx ∧ s'.efdWrite = s.efdWrite := by
  revert h hpc
  fun_cases threadStep t interrupted s pc <;> rintro ⟨⟩ <;> intro hpc <;> first
    | exact ⟨rfl, rfl, rfl⟩
    | cases hpc

theorem enqueuing_of_threadStep (h : threadStep t interrupted s pc = some (s', pc'))
    (hpc' : pc'.enqueuing) : pc.enqueuing := by
  revert h hpc'
  fun_cases threadStep t interrupted s pc <;> rintro ⟨⟩ <;> intro hpc' <;> first
    | rfl
    | cases hpc'
    | (split_ifs at hpc' <;> cases hpc')

/-- The producer itself: it waits only on a full ring, and with its flag down. -/
theorem ProducerInv.self (h : threadStep t interrupted s pc = some (s', pc'))
    (hpc : ProducerInv s consumer pc) : ProducerInv s' consumer pc' := by
  cases pc with
  | writeWorkingOff paras =>
    cases h
    rfl
  | fullWrite paras =>
    cases h
    exact ⟨hpc, rfl⟩
  | fullRead paras write =>
    obtain ⟨hworking, rfl⟩ := hpc
    simp only [threadStep] at h
    split_ifs at h with hfull
    · cases h
      exact ⟨hworking, Or.inl hfull⟩
    · cases h
      exact trivial
  | idle ended => cases h
  | _ =>
    simp only [threadStep] at h
    first
      | (cases h; exact trivial)
      | ((repeat' split at h) <;> cases h <;> exact trivial)

/-- The caller itself: it waits only after it has set `need_empty` and found a task. -/
theorem CallerInv.self (h : threadStep t interrupted s pc = some (s', pc'))
    (hpc : CallerInv s consumer t pc) : CallerInv s' consumer t pc' := by
  cases pc with
  | lockEmpty drain =>
    simp only [threadStep] at h
    split_ifs at h
    cases h
    rfl
  | needEmptyOn drain =>
    cases h
    exact ⟨hpc, rfl⟩
  | recheckRead drain =>
    cases h
    exact ⟨hpc.1, hpc.2, Or.inl rfl⟩
  | recheckWrite drain read =>
    obtain ⟨hmu, hneed, hread⟩ := hpc
    simp only [threadStep] at h
    split_ifs at h with heq
    · cases h
      exact hmu
    · cases h
      refine ⟨hmu, hneed, hread.elim (fun hread => ?_) id⟩
      rw [← hread] at heq
      exact Or.inl heq
  | waitEmpty drain =>
    simp only [threadStep] at h
    split_ifs at h
    · cases h
      exact trivial
    · cases h
      exact hpc.1
  | idle ended => cases h
  | _ =>
    simp only [threadStep] at h
    first
      | (cases h; exact trivial)
      | ((repeat' split at h) <;> cases h <;> exact trivial)

theorem ReportInv.self (h : threadStep t interrupted s pc = some (s', pc')) : ReportInv s' pc' := by
  revert h
  fun_cases threadStep t interrupted s pc <;> rintro ⟨⟩ <;> first
    | exact trivial
    | exact Or.inl ‹_›
    | (split_ifs <;> exact trivial)

/-- A producer that has found the ring full does not notice what a caller does. -/
theorem ProducerInv.other {pct : ThreadPc} (h : threadStep t interrupted s pc = some (s', pc'))
    (hpc : pc.enqueuing = false) (ht : ProducerInv s consumer pct) :
    ProducerInv s' consumer pct := by
  obtain ⟨hread, hwrite, hefd⟩ := drain_frame h hpc
  cases pct with
  | fullWrite paras | fullRead paras write | waitWrite paras =>
    simp only [ProducerInv, WakesWrite, hread, hwrite, hefd] at ht ⊢
    exact ht
  | _ => exact trivial

/-- What callers do outside the mutex `mu_empty`. -/
theorem caller_frame {t' : Fin n} (h : threadStep t interrupted s pc = some (s', pc'))
    (hpc : pc.enqueuing = false) (hinv : CallerInv s consumer t pc) (hmu : s.muEmpty = some t')
    (hne : t' ≠ t) :
    s'.muEmpty = s.muEmpty ∧ s'.needEmpty = s.needEmpty ∧ s'.efdEmpty = s.efdEmpty := by
  -- the holder of the mutex is another thread
  have hother : s.muEmpty ≠ some t := by
    rw [hmu]
    exact fun heq => hne (Option.some.inj heq)
  cases pc with
  | lockEmpty drain =>
    simp only [threadStep, hmu] at h
    cases h
  | needEmptyOn drain | needEmptyOff drain => exact absurd hinv hother
  | waitEmpty drain => exact absurd hinv.1 hother
  | emptyRead drain | recheckRead drain | drainReport drain =>
    cases h
    exact ⟨rfl, rfl, rfl⟩
  | emptyWrite drain read | recheckWrite drain read =>
    simp only [threadStep] at h
    split_ifs at h <;> cases h <;> exact ⟨rfl, rfl, rfl⟩
  | drainStatus drain =>
    simp only [threadStep] at h
    (repeat' split at h) <;> cases h <;> exact ⟨rfl, rfl, rfl⟩
  | idle ended => cases h
  | _ => cases hpc

/-- A caller does not lose its wakeup while the fields it depends on stay. -/
theorem CallerInv.mono {pct : ThreadPc} (ht : CallerInv s consumer t pct)
    (hread : s'.readIdx.idx = s.readIdx.idx) (hneed : s'.needEmpty = s.needEmpty)
    (hmu : s'.muEmpty = s.muEmpty)
    (hwakes : WakesEmpty s consumer → WakesEmpty s' consumer) : CallerInv s' consumer t pct := by
  cases pct with
  | needEmptyOn drain | needEmptyOff drain => exact hmu.trans ht
  | recheckRead drain => exact ⟨hmu.trans ht.1, hneed.trans ht.2⟩
  | recheckWrite drain read =>
    exact ⟨hmu.trans ht.1, hneed.trans ht.2.1, ht.2.2.imp hread.trans hwakes⟩
  | waitEmpty drain => exact ⟨hmu.trans ht.1, hneed.trans ht.2.1, hwakes ht.2.2⟩
  | _ => exact trivial

/-- Without the mutex there is nothing to keep. -/
theorem CallerInv.of_muEmpty_ne {pct : ThreadPc} (ht : CallerInv s consumer t pct)
    (hmu : s.muEmpty ≠ some t) : CallerInv s' consumer t pct := by
  cases pct with
  | needEmptyOn drain | needEmptyOff drain => exact absurd ht hmu
  | recheckRead drain | recheckWrite drain read | waitEmpty drain => exact absurd ht.1 hmu
  | _ => exact trivial

theorem ProducerInv.of_not_enqueuing {pct : ThreadPc} (h : ¬ pct.enqueuing) :
    ProducerInv s consumer pct := by
  cases pct with
  | fullWrite paras | fullRead paras write | waitWrite paras => exact absurd rfl h
  | _ => exact trivial

end

section

variable {s : State n} {t : Fin n} {interrupted : Bool} {s' : Repository n} {pc' : ThreadPc}

theorem HandshakeInv.caller_other (hring : RingInv s) (hs : HandshakeInv s)
    (h : threadStep t interrupted s.repo (s.threads t) = some (s', pc')) {t' : Fin n}
    (hne : t' ≠ t) : CallerInv s' s.consumer t' (s.threads t') := by
  have ht' := hs.callers t'
  by_cases hpc : (s.threads t).enqueuing
  · obtain ⟨hread, hneed, hmu, hefd, hwrite⟩ := enqueue_frame h hpc
    refine ht'.mono (by rw [hread]) hneed hmu fun hwakes => ?_
    rcases hwrite with hwrite | ⟨paras, hpublish, rfl⟩
    · rw [WakesEmpty, hread, hwrite, hefd]
      exact hwakes
    · -- the ring is not empty any more
      have hroom := hring.threads t
      rw [hpublish] at hroom
      have hfull := next_ne_of_room hring.repo hroom.2.1
      rw [← nextIdx_eq_next] at hfull
      exact Or.inl hfull.symm
  · have hpc : (s.threads t).enqueuing = false := by simpa using hpc
    obtain ⟨hread, hwrite, -⟩ := drain_frame h hpc
    by_cases hmu : s.repo.muEmpty = some t'
    · obtain ⟨hmu', hneed, hefd⟩ := caller_frame h hpc (hs.callers t) hmu hne
      refine ht'.mono (by rw [hread]) hneed hmu' fun hwakes => ?_
      rw [WakesEmpty, hread, hwrite, hefd]
      exact hwakes
    · exact ht'.of_muEmpty_ne hmu

theorem HandshakeInv.producer_other (hs : HandshakeInv s)
    (h : threadStep t interrupted s.repo (s.threads t) = some (s', pc')) {t' : Fin n}
    (hne : t' ≠ t) : ProducerInv s' s.consumer (s.threads t') := by
  by_cases hpc : (s.threads t).enqueuing
  · exact .of_not_enqueuing fun hpc' => hne (hs.single t' t hpc' hpc)
  · exact (hs.producers t').other h (by simpa using hpc)

theorem HandshakeInv.status_thread (hs : HandshakeInv s)
    (h : threadStep t interrupted s.repo (s.threads t) = some (s', pc')) :
    s'.repoStatus = s.repo.repoStatus ∨ s.repo.repoStatus.Closed ∧ s'.repoStatus = .canExit := by
  rcases repoStatus_of_threadStep h with heq | ⟨heq, hpc⟩
  · exact Or.inl heq
  · have hreport := hs.reports t
    refine Or.inr ⟨?_, heq⟩
    rcases hpc with hpc | ⟨drain, hpc⟩
    · rw [hpc] at hreport
      exact hreport
    · rw [hpc] at hreport
      exact hreport

theorem HandshakeInv.closed_thread (hs : HandshakeInv s)
    (hl : (s.threads t).publishing → ¬ s.repo.repoStatus.Closed)
    (h : threadStep t interrupted s.repo (s.threads t) = some (s', pc')) :
    ClosedInv s' s.consumer := by
  have hread : s'.readIdx.idx = s.repo.readIdx.idx := (threadRing_of_step h).readIdx
  have hclosed : s'.repoStatus.Closed ↔ s.repo.repoStatus.Closed := by
    rcases hs.status_thread h with heq | ⟨hclosed, heq⟩
    · rw [heq]
    · rw [heq]
      exact iff_of_true (Or.inr rfl) hclosed
  have hwrite : s.repo.repoStatus.Closed → s'.writeIdx.idx = s.repo.writeIdx.idx := by
    intro hc
    by_cases hpc : (s.threads t).enqueuing
    · obtain ⟨-, -, -, -, hwrite⟩ := enqueue_frame h hpc
      rcases hwrite with hwrite | ⟨paras, hpublish, -⟩
      · exact hwrite
      · rw [hpublish] at hl
        exact absurd hc (hl rfl)
    · obtain ⟨-, hwrite, -⟩ := drain_frame h (by simpa using hpc)
      rw [hwrite]
  refine ⟨?_, fun hc => hs.closed.quiet (hclosed.mp hc), fun hc => ?_,
    fun hleft => hclosed.mpr (hs.closed.left hleft)⟩
  · rcases hs.status_thread h with heq | ⟨-, heq⟩
    · rw [heq]
      exact hs.closed.needExit
    · rw [heq]
      decide
  · have hc := hclosed.mp hc
    have hcleared := hs.closed.cleared hc
    generalize s.consumer = pc at hcleared
    cases pc <;> first
      | exact trivial
      | (simp only [Cleared, hread, hwrite hc] at hcleared ⊢; exact hcleared)

theorem HandshakeInv.thread (hring : RingInv s) (hs : HandshakeInv s)
    (hl : (s.threads t).publishing → ¬ s.repo.repoStatus.Closed)
    (h : threadStep t interrupted s.repo (s.threads t) = some (s', pc')) :
    HandshakeInv { s with repo := s', threads := Function.update s.threads t pc' } where
  single t₁ t₂ h₁ h₂ := by
    have hbefore : ∀ t', (Function.update s.threads t pc' t').enqueuing →
        (s.threads t').enqueuing :=
      (Function.forall_update_iff s.threads fun t' pc => pc.enqueuing → (s.threads t').enqueuing).mpr
        ⟨enqueuing_of_threadStep h, fun _ _ hpc => hpc⟩
    exact hs.single t₁ t₂ (hbefore t₁ h₁) (hbefore t₂ h₂)
  producers := (Function.forall_update_iff s.threads fun _ pc => ProducerInv s' s.consumer pc).mpr
    ⟨(hs.producers t).self h, fun _ hne => hs.producer_other h hne⟩
  callers := (Function.forall_update_iff s.threads fun t' pc => CallerInv s' s.consumer t' pc).mpr
    ⟨(hs.callers t).self h, fun _ hne => hs.caller_other hring h hne⟩
  reports := by
    refine (Function.forall_update_iff s.threads fun _ pc => ReportInv s' pc).mpr
      ⟨ReportInv.self h, fun t' _ => (hs.reports t').mono fun hclosed => ?_⟩
    rcases hs.status_thread h with heq | ⟨-, heq⟩
    · rw [heq]
      exact hclosed
    · rw [heq]
      exact Or.inr rfl
  closed := hs.closed_thread hl h

/-- A call begins. -/
theorem HandshakeInv.setThread {pc : ThreadPc} (hs : HandshakeInv s)
    (hsingle : pc.enqueuing → ∀ t', (s.threads t').enqueuing = false)
    (hproducer : ProducerInv s.repo s.consumer pc) (hcaller : CallerInv s.repo s.consumer t pc)
    (hreport : ReportInv s.repo pc) : HandshakeInv (s.setThread t pc) where
  single := by
    refine (Function.forall_update_iff s.threads fun t₁ pc₁ =>
      ∀ t₂, pc₁.enqueuing → (Function.update s.threads t pc t₂).enqueuing → t₁ = t₂).mpr
      ⟨fun t₂ hpc => ?_, fun t₁ hne₁ t₂ hpc₁ => ?_⟩
    · revert t₂
      refine (Function.forall_update_iff s.threads fun t₂ pc₂ => pc₂.enqueuing → t = t₂).mpr
        ⟨fun _ => rfl, fun t₂ _ hpc₂ => ?_⟩
      rw [hsingle hpc t₂] at hpc₂
      cases hpc₂
    · revert t₂
      refine (Function.forall_update_iff s.threads fun t₂ pc₂ => pc₂.enqueuing → t₁ = t₂).mpr
        ⟨fun hpc => ?_, fun t₂ _ hpc₂ => hs.single t₁ t₂ hpc₁ hpc₂⟩
      rw [hsingle hpc t₁] at hpc₁
      cases hpc₁
  producers := (Function.forall_update_iff s.threads fun _ => ProducerInv s.repo s.consumer).mpr
    ⟨hproducer, fun t' _ => hs.producers t'⟩
  callers := (Function.forall_update_iff s.threads (CallerInv s.repo s.consumer)).mpr
    ⟨hcaller, fun t' _ => hs.callers t'⟩
  reports := (Function.forall_update_iff s.threads fun _ => ReportInv s.repo).mpr
    ⟨hreport, fun t' _ => hs.reports t'⟩
  closed := hs.closed

end

/-! ### Runs -/

theorem HandshakeInv.next {s s' : State n} {l : Label n} (hring : RingInv s) (hs : HandshakeInv s)
    (hl : OneProducer s l) (h : s.next l = some s') : HandshakeInv s' := by
  cases move_of_next h with
  | enqueue hidle => exact hs.setThread (fun _ => hl) trivial trivial trivial
  | makeSureQueueEmpty hidle => exact hs.setThread (fun hpc => by cases hpc) trivial trivial trivial
  | thread hstep => exact hs.thread hring hl hstep
  | consumer hstep => exact hs.consumerStep hstep
  | setStatus => exact absurd hl id
  | changeStatus =>
    obtain ⟨rfl, rfl⟩ := hl
    dsimp only [Repository.changeStatus]
    split_ifs with hinit
    · -- neither `INIT` nor `RUN` is a closed status
      have hopen : ¬ s.repo.repoStatus.Closed := by
        rw [hinit]
        decide
      have hrun : ¬ RepoStatus.run.Closed := by decide
      exact ⟨hs.single, hs.producers, hs.callers,
        fun t => (hs.reports t).mono fun hclosed => absurd hclosed hopen,
        .of_open RepoStatus.noConfusion hrun fun hleft => hopen (hs.closed.left hleft)⟩
    · exact hs
  | escapeWait =>
    exact ⟨hs.single, hs.producers, hs.callers, hs.reports,
      ⟨hs.closed.1, hs.closed.2, hs.closed.3, hs.closed.4⟩⟩

theorem handshakeInv_init : HandshakeInv ({} : State n) where
  single _ _ h := by cases h
  producers _ := trivial
  callers _ := trivial
  reports _ := trivial
  closed := by
    have hinit : ¬ RepoStatus.init.Closed := by decide
    exact .of_open RepoStatus.noConfusion hinit ConsumerPc.noConfusion

local instance someThreads : NeZero 2 := inferInstance

/-- A caller waits for a task that fails; the consumer wakes it and leaves. -/
def failureWhileWaiting : List (Label 2) :=
  Label.enqueue 0 {} :: List.replicate 12 (Label.thread 0 false)
    ++ Label.makeSureQueueEmpty 1 true :: List.replicate 6 (Label.thread 1 false)
    ++ List.replicate 6 (Label.consumer {}) ++ Label.consumer { ret := 507015 }
    :: List.replicate 15 (Label.consumer {})

/-- A caller waits for a task that succeeds; the consumer has just moved the read index past it. -/
def wakeupOwed : List (Label 2) :=
  Label.enqueue 0 {} :: List.replicate 12 (Label.thread 0 false)
    ++ Label.makeSureQueueEmpty 1 true :: List.replicate 6 (Label.thread 1 false)
    ++ List.replicate 9 (Label.consumer {})

end TorchNpu.Queue
