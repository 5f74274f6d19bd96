/-
  The ring of the task queue.

  `ThreadRing` and `ConsumerRing` say once what a step can do to the ring (`threadRing_of_step`,
  `consumerRing_of_step`).  From them `RingInv` holds in every state of every run, whatever the tasks
  return and whatever happens to the status: the tasks between the two indices are the last ones that
  were accepted, each intact in its slot.

  * `ringSafe_of_run`: as long as no task fails, the tasks are executed in the order in which they
    were accepted, and no task is overwritten before it has been read.
-/
import TorchNpu.Queue.Repository

namespace TorchNpu.Queue

variable {n : ℕ}

/-! ### Indices -/

theorem kQueueCapacity_pos : 0 < kQueueCapacity := by
  decide

theorem nextIdx_eq_next (idx : ℕ) : nextIdx idx = Ring.next kQueueCapacity idx :=
  Nat.and_two_pow_sub_one_eq_mod (idx + 1) 12

namespace Repository

variable (s : Repository n)

/-- The slots whose tasks wait to be read. -/
def heldSlots : List ℕ :=
  Ring.slots kQueueCapacity s.readIdx.idx s.writeIdx.idx

/-- The tasks that wait to be read. -/
def held : List Task :=
  s.heldSlots.map s.datas

/-- The same, without the first one if it has been `taken`. -/
def rest (taken : Bool) : List Task :=
  if taken then s.held.tail else s.held

/-- How many tasks wait to be read. -/
def pending : ℕ :=
  Ring.pending kQueueCapacity s.readIdx.idx s.writeIdx.idx

@[simp]
theorem length_held : s.held.length = s.pending := by
  simp [held, heldSlots, pending]

end Repository

/-- The ring and the record of what happened to it are the same. -/
structure SameRing (s s' : Repository n) : Prop where
  datas : s'.datas = s.datas
  read : s'.readIdx.idx = s.readIdx.idx
  write : s'.writeIdx.idx = s.writeIdx.idx
  accepted : s'.accepted = s.accepted
  executed : s'.executed = s.executed
  released : s'.released = s.released

namespace SameRing

theorem refl (s : Repository n) : SameRing s s :=
  ⟨rfl, rfl, rfl, rfl, rfl, rfl⟩

variable {s s' : Repository n}

theorem heldSlots (h : SameRing s s') : s'.heldSlots = s.heldSlots := by
  simp only [Repository.heldSlots, h.read, h.write]

theorem held (h : SameRing s s') : s'.held = s.held := by
  simp only [Repository.held, h.heldSlots, h.datas]

theorem pending (h : SameRing s s') : s'.pending = s.pending := by
  simp only [Repository.pending, h.read, h.write]

end SameRing

/-! ### What a step can do to the ring -/

/-- The thread is inside `WriteQueue` and holds `mu_enqueue`. -/
def ThreadPc.Writing : ThreadPc → Prop
  | .writeStatus _ | .writeFull _ | .writeCopy _ | .writePublish _ => True
  | _ => False

/-- What a step of a thread can do to the ring and to `mu_enqueue`. -/
inductive ThreadRing (t : Fin n) (s : Repository n) :
    ThreadPc → Repository n → ThreadPc → Prop
  | outside {pc pc' : ThreadPc} {s' : Repository n} (hpc : ¬ pc.Writing) (hpc' : ¬ pc'.Writing)
      (hsame : SameRing s s') (hmu : s'.muEnqueue = s.muEnqueue) : ThreadRing t s pc s' pc'
  | lock {paras : QueueParas} (hmu : s.muEnqueue = none) :
      ThreadRing t s (.lockEnqueue paras) { s with muEnqueue := some t } (.writeStatus paras)
  | unlock {pc pc' : ThreadPc} (hpc : pc.Writing) (hpc' : ¬ pc'.Writing) :
      ThreadRing t s pc { s with muEnqueue := none } pc'
  | status {paras : QueueParas} : ThreadRing t s (.writeStatus paras) s (.writeFull paras)
  | room {paras : QueueParas} (hroom : nextIdx s.writeIdx.idx ≠ s.readIdx.idx) :
      ThreadRing t s (.writeFull paras) s (.writeCopy paras)
  | copy {paras : QueueParas} :
      ThreadRing t s (.writeCopy paras) (s.copy paras) (.writePublish paras)
  | publish {paras : QueueParas} : ThreadRing t s (.writePublish paras) (s.publish paras) .checkRead

theorem threadRing_of_step {t : Fin n} {interrupted : Bool} {s s' : Repository n}
    {pc pc' : ThreadPc} (h : threadStep t interrupted s pc = some (s', pc')) :
    ThreadRing t s pc s' pc' := by
  cases pc with
  | idle ended => cases h
  | enqueueStatus paras =>
    simp only [threadStep] at h
    split at h
    · cases h
      exact .outside id id (.refl s) rfl
    · split at h <;> cases h <;> exact .outside id id (.refl s) rfl
  | loopRun paras | loopInit paras | fullRead paras write | checkRead | emptyWrite drain read
  | recheckWrite drain read =>
    simp only [threadStep] at h
    split_ifs at h <;> cases h <;> exact .outside id id (.refl s) rfl
  | enqueueReport | writeWorkingOn paras | writeWorkingOff paras | fullWrite paras | wakeRead
  | enqueueEnd | emptyRead drain | needEmptyOn drain | recheckRead drain | needEmptyOff drain
  | drainReport drain =>
    cases h
    exact .outside id id ⟨rfl, rfl, rfl, rfl, rfl, rfl⟩ rfl
  | lockEmpty drain | waitWrite paras | waitEmpty drain =>
    simp only [threadStep] at h
    split_ifs at h <;> cases h <;> exact .outside id id ⟨rfl, rfl, rfl, rfl, rfl, rfl⟩ rfl
  | drainStatus drain =>
    simp only [threadStep] at h
    split at h
    · cases h
      exact .outside id id (.refl s) rfl
    · split_ifs at h <;> cases h <;> exact .outside id id (.refl s) rfl
  | lockEnqueue paras =>
    simp only [threadStep] at h
    split_ifs at h with hmu
    cases h
    exact .lock hmu
  | writeStatus paras =>
    simp only [threadStep] at h
    split at h
    · cases h
      exact .unlock trivial id
    · cases h
      exact .status
  | writeFull paras =>
    simp only [threadStep, Repository.isFullQueue, decide_eq_true_eq] at h
    split_ifs at h with hfull
    · cases h
      exact .unlock trivial id
    · cases h
      exact .room hfull
  | writeCopy paras =>
    cases h
    exact .copy
  | writePublish paras =>
    cases h
    exact .publish

theorem ThreadRing.readIdx {t : Fin n} {s s' : Repository n} {pc pc' : ThreadPc}
    (h : ThreadRing t s pc s' pc') : s'.readIdx.idx = s.readIdx.idx := by
  cases h with
  | outside hpc hpc' hsame hmu => exact hsame.read
  | lock | unlock | status | room | copy | publish => rfl

/-- The consumer is between a test that found a task, or the load of `ClearQueue`, and the store to
the read index that follows. -/
def ConsumerPc.Reading : ConsumerPc → Prop
  | .call | .release | .advance | .drainRelease _ | .drainAdvance _ | .clearStore _ _ => True
  | _ => False

/-- What a step of the consumer can do to the ring. -/
inductive ConsumerRing (s : Repository n) : ConsumerPc → Repository n → ConsumerPc → Prop
  | outside {pc pc' : ConsumerPc} {s' : Repository n} (hpc : ¬ pc.Reading) (hpc' : ¬ pc'.Reading)
      (hsame : SameRing s s') (hmu : s'.muEnqueue = s.muEnqueue) : ConsumerRing s pc s' pc'
  | found (hne : s.readIdx.idx ≠ s.writeIdx.idx) : ConsumerRing s .readEmpty s .call
  | call (ret : ℤ) :
      ConsumerRing s .call (s.call ret) (if ret ≠ 0 then .drain ret else .release)
  | release : ConsumerRing s .release s.release .advance
  | advance : ConsumerRing s .advance (s.setReadIdx (nextIdx s.readIdx.idx)) .notifyNeed
  | drain {ret : ℤ} (hne : s.readIdx.idx ≠ s.writeIdx.idx) :
      ConsumerRing s (.drain ret) s (.drainRelease ret)
  | drainRelease {ret : ℤ} :
      ConsumerRing s (.drainRelease ret) s.release (.drainAdvance ret)
  | drainAdvance {ret : ℤ} :
      ConsumerRing s (.drainAdvance ret) (s.setReadIdx (nextIdx s.readIdx.idx)) (.drain ret)
  | clearLoad {site : ClearSite} :
      ConsumerRing s (.clearLoad site) s (.clearStore site s.writeIdx.idx)
  | clearStore {site : ClearSite} {write : ℕ} :
      ConsumerRing s (.clearStore site write) (s.setReadIdx write) (.clearEmpty site)

theorem sameRing_checkDeviceError (a : Answer) (s : Repository n) (ret : ℤ) :
    SameRing s (checkDeviceError a s ret).1
      ∧ (checkDeviceError a s ret).1.muEnqueue = s.muEnqueue
      ∧ ¬ (checkDeviceError a s ret).2.Reading := by
  simp only [checkDeviceError]
  split
  · dsimp only
    split_ifs <;> exact ⟨⟨rfl, rfl, rfl, rfl, rfl, rfl⟩, rfl, id⟩
  · exact ⟨⟨rfl, rfl, rfl, rfl, rfl, rfl⟩, rfl, id⟩
  · refine ⟨⟨rfl, rfl, rfl, rfl, rfl, rfl⟩, rfl, ?_⟩
    dsimp only
    split_ifs <;> exact id

theorem consumerRing_of_step {a : Answer} {s s' : Repository n} {pc pc' : ConsumerPc}
    (h : consumerStep a s pc = some (s', pc')) : ConsumerRing s pc s' pc' := by
  cases pc with
  | startCan | startError | loop | loopDevice | failNeed | failError | failStop | sleepEmpty
  | notifyNeed | notifyEmpty | checkWrite =>
    simp only [consumerStep] at h
    split_ifs at h <;> cases h <;> exact .outside id id (.refl s) rfl
  | readWorkingOn | setError | readWorkingOff | clearEmpty site | wakeEmpty | wakeWrite | finish =>
    cases h
    exact .outside id id ⟨rfl, rfl, rfl, rfl, rfl, rfl⟩ rfl
  | clearWrite site =>
    cases h
    cases site <;> exact .outside id id ⟨rfl, rfl, rfl, rfl, rfl, rfl⟩ rfl
  | waitRead =>
    simp only [consumerStep] at h
    split_ifs at h <;> cases h <;> exact .outside id id ⟨rfl, rfl, rfl, rfl, rfl, rfl⟩ rfl
  | failChange =>
    cases h
    simp only [Repository.changeStatus]
    split_ifs
    · exact .outside id id ⟨rfl, rfl, rfl, rfl, rfl, rfl⟩ rfl
    · exact .outside id id (.refl s) rfl
  | checkDevice ret =>
    obtain ⟨hsame, hmu, hpc⟩ := sameRing_checkDeviceError a s ret
    rw [consumerStep, Option.some.injEq] at h
    rw [h] at hsame hmu hpc
    exact .outside id hpc hsame hmu
  | readEmpty =>
    simp only [consumerStep, Repository.isEmptyQueue, decide_eq_true_eq] at h
    split_ifs at h with hempty
    · cases h
      exact .outside id id (.refl s) rfl
    · cases h
      exact .found hempty
  | drain ret =>
    simp only [consumerStep, Repository.isEmptyQueue, decide_eq_true_eq] at h
    split_ifs at h with hempty
    · cases h
      exact .outside id id (.refl s) rfl
    · cases h
      exact .drain hempty
  | call =>
    cases h
    exact .call a.ret
  | release =>
    cases h
    exact .release
  | advance =>
    cases h
    exact .advance
  | drainRelease ret =>
    cases h
    exact .drainRelease
  | drainAdvance ret =>
    cases h
    exact .drainAdvance
  | clearLoad site =>
    cases h
    exact .clearLoad
  | clearStore site write =>
    cases h
    exact .clearStore
  | left => cases h

/-! ### The invariant of the ring -/

/-- What holds of the ring in every state. -/
structure RepoInv (s : Repository n) : Prop where
  read_lt : s.readIdx.idx < kQueueCapacity
  write_lt : s.writeIdx.idx < kQueueCapacity
  /-- The tasks between the indices are the last ones accepted. -/
  held : s.held <:+ s.accepted
  number : s.accepted.map Task.number = List.range s.accepted.length
  write_eq : s.writeIdx.idx = s.accepted.length % kQueueCapacity

/-- What holds of a thread inside `WriteQueue`. -/
def ThreadInv (s : Repository n) (t : Fin n) : ThreadPc → Prop
  | .writeStatus _ | .writeFull _ => s.muEnqueue = some t
  | .writeCopy _ => s.muEnqueue = some t ∧ s.pending + 1 < kQueueCapacity
  | .writePublish paras => s.muEnqueue = some t ∧ s.pending + 1 < kQueueCapacity
      ∧ s.datas s.writeIdx.idx = { number := s.accepted.length, paras }
  | _ => True

/-- What holds of the consumer before it stores the read index. -/
def ConsumerInv (s : Repository n) : ConsumerPc → Prop
  | .call | .release | .advance | .drainRelease _ | .drainAdvance _ => 0 < s.pending
  | .clearStore _ write => write < kQueueCapacity
      ∧ Ring.pending kQueueCapacity s.readIdx.idx write ≤ s.pending
  | _ => True

structure RingInv (s : State n) : Prop where
  repo : RepoInv s.repo
  threads : ∀ t, ThreadInv s.repo t (s.threads t)
  consumer : ConsumerInv s.repo s.consumer

theorem ThreadInv.of_not_writing {s : Repository n} {t : Fin n} {pc : ThreadPc}
    (h : ¬ pc.Writing) : ThreadInv s t pc := by
  cases pc <;> first | exact trivial | exact absurd trivial h

theorem ThreadInv.muEnqueue {s : Repository n} {t : Fin n} {pc : ThreadPc} (h : ThreadInv s t pc)
    (hpc : pc.Writing) : s.muEnqueue = some t := by
  cases pc <;> first | exact h | exact h.1 | exact absurd hpc id

theorem ConsumerInv.of_not_reading {s : Repository n} {pc : ConsumerPc} (h : ¬ pc.Reading) :
    ConsumerInv s pc := by
  cases pc <;> first | exact trivial | exact absurd trivial h

theorem SameRing.repoInv {s s' : Repository n} (h : SameRing s s') (hs : RepoInv s) :
    RepoInv s' where
  read_lt := by
    rw [h.read]
    exact hs.read_lt
  write_lt := by
    rw [h.write]
    exact hs.write_lt
  held := by
    rw [h.held, h.accepted]
    exact hs.held
  number := by
    rw [h.accepted]
    exact hs.number
  write_eq := by
    rw [h.write, h.accepted]
    exact hs.write_eq

/-- Room for a write only grows while the write index and its slot stay. -/
theorem ThreadInv.mono {s s' : Repository n} {t : Fin n} {pc : ThreadPc} (h : ThreadInv s t pc)
    (hdatas : s'.datas = s.datas) (hwrite : s'.writeIdx.idx = s.writeIdx.idx)
    (haccepted : s'.accepted = s.accepted) (hmu : s'.muEnqueue = s.muEnqueue)
    (hle : s'.pending ≤ s.pending) : ThreadInv s' t pc := by
  cases pc with
  | writeStatus paras | writeFull paras => exact hmu.trans h
  | writeCopy paras => exact ⟨hmu.trans h.1, by have := h.2; omega⟩
  | writePublish paras =>
    refine ⟨hmu.trans h.1, by have := h.2.1; omega, ?_⟩
    rw [hdatas, hwrite, haccepted]
    exact h.2.2
  | _ => exact trivial

/-- Tasks to read only become more while the read index stays. -/
theorem ConsumerInv.mono {s s' : Repository n} {pc : ConsumerPc} (h : ConsumerInv s pc)
    (hread : s'.readIdx.idx = s.readIdx.idx) (hle : s.pending ≤ s'.pending) :
    ConsumerInv s' pc := by
  cases pc with
  | call | release | advance | drainRelease ret | drainAdvance ret => exact Nat.lt_of_lt_of_le h hle
  | clearStore site write =>
    refine ⟨h.1, ?_⟩
    rw [hread]
    exact h.2.trans hle
  | _ => exact trivial

/-- A thread that does not hold `mu_enqueue` does not notice what its holder does. -/
theorem ThreadInv.of_other {s s' : Repository n} {t t' : Fin n} {pc : ThreadPc}
    (hmu : s.muEnqueue = some t) (hne : t' ≠ t) (hpc : ThreadInv s t' pc) : ThreadInv s' t' pc := by
  apply ThreadInv.of_not_writing
  intro hwriting
  have howner := hpc.muEnqueue hwriting
  rw [hmu, Option.some.injEq] at howner
  exact hne howner.symm

/-! ### Writing a task -/

section

variable {s : Repository n} {paras : QueueParas}

theorem next_ne_of_room (hs : RepoInv s) (hroom : s.pending + 1 < kQueueCapacity) :
    Ring.next kQueueCapacity s.writeIdx.idx ≠ s.readIdx.idx := by
  intro heq
  have hfull := (Ring.next_eq_iff hs.read_lt hs.write_lt).mp heq
  rw [Repository.pending] at hroom
  omega

theorem room_of_nextIdx_ne (hs : RepoInv s) (hroom : nextIdx s.writeIdx.idx ≠ s.readIdx.idx) :
    s.pending + 1 < kQueueCapacity := by
  rw [nextIdx_eq_next, Ne, Ring.next_eq_iff hs.read_lt hs.write_lt] at hroom
  have hlt := Ring.pending_lt hs.read_lt hs.write_lt
  rw [Repository.pending]
  omega

/-- The slot the task is copied to holds no task that waits to be read. -/
theorem held_copy (hs : RepoInv s) : (s.copy paras).held = s.held :=
  Ring.map_slots_update hs.read_lt hs.write_lt s.datas _

theorem RepoInv.copy (hs : RepoInv s) : RepoInv (s.copy paras) where
  read_lt := hs.read_lt
  write_lt := hs.write_lt
  held := by
    rw [held_copy hs]
    exact hs.held
  number := hs.number
  write_eq := hs.write_eq

theorem pending_publish (hs : RepoInv s) (hroom : s.pending + 1 < kQueueCapacity) :
    (s.publish paras).pending = s.pending + 1 := by
  show Ring.pending kQueueCapacity s.readIdx.idx (nextIdx s.writeIdx.idx) = _
  rw [nextIdx_eq_next,
    Ring.pending_next_write hs.read_lt hs.write_lt (next_ne_of_room hs hroom)]
  rfl

/-- The task becomes the last one that waits to be read. -/
theorem held_publish (hs : RepoInv s) (hroom : s.pending + 1 < kQueueCapacity)
    (hslot : s.datas s.writeIdx.idx = { number := s.accepted.length, paras }) :
    (s.publish paras).held = s.held ++ [{ number := s.accepted.length, paras }] := by
  show (Ring.slots kQueueCapacity s.readIdx.idx (nextIdx s.writeIdx.idx)).map s.datas = _
  rw [nextIdx_eq_next, Ring.slots_next_write hs.read_lt hs.write_lt (next_ne_of_room hs hroom),
    List.map_append, List.map_singleton, hslot]
  rfl

theorem RepoInv.publish (hs : RepoInv s) (hroom : s.pending + 1 < kQueueCapacity)
    (hslot : s.datas s.writeIdx.idx = { number := s.accepted.length, paras }) :
    RepoInv (s.publish paras) where
  read_lt := hs.read_lt
  write_lt := by
    show nextIdx s.writeIdx.idx < _
    rw [nextIdx_eq_next]
    exact Ring.next_lt hs.write_lt
  held := by
    rw [held_publish hs hroom hslot]
    obtain ⟨gone, hgone⟩ := hs.held
    exact ⟨gone, by rw [← List.append_assoc, hgone]; rfl⟩
  number := by
    show (s.accepted ++ [_]).map Task.number = List.range (s.accepted ++ [_]).length
    rw [List.map_append, hs.number, List.length_append, List.length_singleton, List.range_succ,
      List.map_singleton]
  write_eq := by
    show nextIdx s.writeIdx.idx = (s.accepted ++ [_]).length % kQueueCapacity
    rw [nextIdx_eq_next, Ring.next, hs.write_eq, Nat.mod_add_mod, List.length_append,
      List.length_singleton]

end

/-! ### Reading tasks -/

section

variable {s : Repository n}

theorem pending_pos_iff (hs : RepoInv s) : 0 < s.pending ↔ s.readIdx.idx ≠ s.writeIdx.idx := by
  rw [Nat.pos_iff_ne_zero, Ne, Repository.pending, Ring.pending_eq_zero hs.read_lt]

/-- A store to the read index that takes it towards the write index. -/
theorem held_setReadIdx (hs : RepoInv s) {idx : ℕ} (hidx : idx < kQueueCapacity)
    (hle : Ring.pending kQueueCapacity s.readIdx.idx idx ≤ s.pending) :
    (s.setReadIdx idx).held
      = s.held.drop (Ring.pending kQueueCapacity s.readIdx.idx idx) := by
  have hslots := Ring.slots_append hs.read_lt hidx hs.write_lt hle
  rw [Repository.held, Repository.held, Repository.heldSlots, Repository.heldSlots, hslots,
    List.map_append, List.drop_append_of_le_length (by simp), List.drop_of_length_le (by simp),
    List.nil_append]
  rfl

theorem RepoInv.setReadIdx (hs : RepoInv s) {idx : ℕ} (hidx : idx < kQueueCapacity)
    (hle : Ring.pending kQueueCapacity s.readIdx.idx idx ≤ s.pending) :
    RepoInv (s.setReadIdx idx) where
  read_lt := hidx
  write_lt := hs.write_lt
  held := by
    rw [held_setReadIdx hs hidx hle]
    exact (List.drop_suffix _ _).trans hs.held
  number := hs.number
  write_eq := hs.write_eq

theorem pending_setReadIdx_le (hs : RepoInv s) {idx : ℕ} (hidx : idx < kQueueCapacity)
    (hle : Ring.pending kQueueCapacity s.readIdx.idx idx ≤ s.pending) :
    (s.setReadIdx idx).pending ≤ s.pending := by
  have hadd := Ring.pending_add hs.read_lt hidx hs.write_lt hle
  simp only [Repository.pending, Repository.setReadIdx] at hadd ⊢
  omega

/-- The next read index is one step towards the write index. -/
theorem nextIdx_read (hs : RepoInv s) (hpos : 0 < s.pending) :
    nextIdx s.readIdx.idx < kQueueCapacity
      ∧ Ring.pending kQueueCapacity s.readIdx.idx (nextIdx s.readIdx.idx) = 1 := by
  have hne := (pending_pos_iff hs).mp hpos
  rw [nextIdx_eq_next]
  exact ⟨Ring.next_lt hs.read_lt, Ring.pending_next hs.read_lt hs.write_lt hne⟩

theorem held_advance (hs : RepoInv s) (hpos : 0 < s.pending) :
    (s.setReadIdx (nextIdx s.readIdx.idx)).held = s.held.tail := by
  obtain ⟨hlt, hone⟩ := nextIdx_read hs hpos
  rw [held_setReadIdx hs hlt (by omega), hone, List.drop_one]

/-- The task at the read index is the first of those that wait. -/
theorem held_eq_cons (hs : RepoInv s) (hpos : 0 < s.pending) :
    s.held = s.front :: s.held.tail := by
  have hne := (pending_pos_iff hs).mp hpos
  have hslots := Ring.slots_next_read hs.read_lt hs.write_lt hne
  rw [Repository.held, Repository.heldSlots, hslots]
  rfl

theorem mem_held_of_mem_rest {taken : Bool} {task : Task} (h : task ∈ s.rest taken) :
    task ∈ s.held := by
  rw [Repository.rest] at h
  split_ifs at h
  · exact List.mem_of_mem_tail h
  · exact h

theorem rest_append {s' : Repository n} {taken : Bool} {new : List Task}
    (hheld : s'.held = s.held ++ new) (htaken : taken → 0 < s.pending) :
    s'.rest taken = s.rest taken ++ new := by
  cases taken with
  | false => exact hheld
  | true =>
    have hpos : 0 < s.held.length := by
      rw [Repository.length_held]
      exact htaken rfl
    have hne : s.held ≠ [] := List.ne_nil_of_length_pos hpos
    show s'.held.tail = s.held.tail ++ new
    rw [hheld, List.tail_append_of_ne_nil hne]

end

/-! ### Steps and runs -/

/-- A thread adds the same tasks to those that wait and to those accepted. -/
theorem RingInv.appends_of_threadRing {s : State n} {t : Fin n} {s' : Repository n} {pc' : ThreadPc}
    (hs : RingInv s) (h : ThreadRing t s.repo (s.threads t) s' pc') :
    ∃ new, s'.held = s.repo.held ++ new ∧ s'.accepted = s.repo.accepted ++ new
      ∧ s'.executed = s.repo.executed ∧ s'.released = s.repo.released := by
  have ht := hs.threads t
  generalize s.threads t = pc at h ht
  cases h with
  | outside hout hout' hsame hmu =>
    exact ⟨[], by rw [hsame.held, List.append_nil], by rw [hsame.accepted, List.append_nil],
      hsame.executed, hsame.released⟩
  | lock | unlock | status | room =>
    exact ⟨[], (List.append_nil _).symm, (List.append_nil _).symm, rfl, rfl⟩
  | copy => exact ⟨[], by rw [held_copy hs.repo, List.append_nil], (List.append_nil _).symm, rfl, rfl⟩
  | publish => exact ⟨_, held_publish hs.repo ht.2.1 ht.2.2, rfl, rfl, rfl⟩

theorem RingInv.thread {s : State n} {t : Fin n} {s' : Repository n} {pc' : ThreadPc}
    (hs : RingInv s) (h : ThreadRing t s.repo (s.threads t) s' pc') :
    RingInv { s with repo := s', threads := Function.update s.threads t pc' } := by
  have ht := hs.threads t
  -- it remains to look at the thread itself, at the other threads and at the consumer
  suffices hnew : RepoInv s' ∧ ThreadInv s' t pc' ∧ (∀ t' ≠ t, ThreadInv s' t' (s.threads t'))
      ∧ ConsumerInv s' s.consumer by
    obtain ⟨hrepo, hself, hothers, hconsumer⟩ := hnew
    refine ⟨hrepo, fun t' => ?_, hconsumer⟩
    by_cases heq : t' = t
    · subst heq
      simpa using hself
    · simpa [heq] using hothers t' heq
  generalize hpc : s.threads t = pc at h ht
  cases h with
  | outside hout hout' hsame hmu =>
    exact ⟨hsame.repoInv hs.repo, .of_not_writing hout',
      fun t' _ => (hs.threads t').mono hsame.datas hsame.write hsame.accepted hmu hsame.pending.le,
      hs.consumer.mono hsame.read hsame.pending.ge⟩
  | lock hmu =>
    refine ⟨⟨hs.repo.1, hs.repo.2, hs.repo.3, hs.repo.4, hs.repo.5⟩, rfl, fun t' _ => ?_,
      hs.consumer⟩
    apply ThreadInv.of_not_writing
    intro hwriting
    have howner := (hs.threads t').muEnqueue hwriting
    rw [hmu] at howner
    cases howner
  | unlock hwriting hout =>
    exact ⟨⟨hs.repo.1, hs.repo.2, hs.repo.3, hs.repo.4, hs.repo.5⟩, .of_not_writing hout,
      fun t' hne => .of_other (ht.muEnqueue hwriting) hne (hs.threads t'), hs.consumer⟩
  | status => exact ⟨hs.repo, ht, fun t' _ => hs.threads t', hs.consumer⟩
  | room hroom =>
    exact ⟨hs.repo, ⟨ht, room_of_nextIdx_ne hs.repo hroom⟩, fun t' _ => hs.threads t', hs.consumer⟩
  | copy =>
    exact ⟨hs.repo.copy, ⟨ht.1, ht.2, by simp [Repository.copy]⟩,
      fun t' hne => .of_other ht.1 hne (hs.threads t'), hs.consumer⟩
  | publish =>
    obtain ⟨hmu, hroom, hslot⟩ := ht
    refine ⟨hs.repo.publish hroom hslot, trivial, fun t' hne => .of_other hmu hne (hs.threads t'),
      hs.consumer.mono rfl ?_⟩
    rw [pending_publish hs.repo hroom]
    omega

/-- A store to the read index does not disturb the threads. -/
theorem RingInv.setReadIdx {s : State n} {idx : ℕ} {pc' : ConsumerPc} (hs : RingInv s)
    (hidx : idx < kQueueCapacity)
    (hle : Ring.pending kQueueCapacity s.repo.readIdx.idx idx ≤ s.repo.pending)
    (hpc' : ¬ pc'.Reading) : RingInv { s with repo := s.repo.setReadIdx idx, consumer := pc' } where
  repo := hs.repo.setReadIdx hidx hle
  threads t := (hs.threads t).mono rfl rfl rfl rfl (pending_setReadIdx_le hs.repo hidx hle)
  consumer := .of_not_reading hpc'

/-- Nothing happens to the ring. -/
theorem RingInv.sameRing {s : State n} {s' : Repository n} {pc' : ConsumerPc} (hs : RingInv s)
    (hsame : SameRing s.repo s') (hmu : s'.muEnqueue = s.repo.muEnqueue)
    (hpc' : ConsumerInv s' pc') : RingInv { s with repo := s', consumer := pc' } where
  repo := hsame.repoInv hs.repo
  threads t :=
    (hs.threads t).mono hsame.datas hsame.write hsame.accepted hmu hsame.pending.le
  consumer := hpc'

theorem RingInv.consumerStep {s : State n} {s' : Repository n} {pc' : ConsumerPc}
    (hs : RingInv s) (h : ConsumerRing s.repo s.consumer s' pc') :
    RingInv { s with repo := s', consumer := pc' } := by
  have hpc := hs.consumer
  generalize s.consumer = pc at h hpc
  cases h with
  | outside hout hout' hsame hmu => exact hs.sameRing hsame hmu (.of_not_reading hout')
  | found hne => exact ⟨hs.repo, hs.threads, (pending_pos_iff hs.repo).mpr hne⟩
  | drain hne => exact ⟨hs.repo, hs.threads, (pending_pos_iff hs.repo).mpr hne⟩
  | call ret =>
    refine ⟨⟨hs.repo.1, hs.repo.2, hs.repo.3, hs.repo.4, hs.repo.5⟩, hs.threads, ?_⟩
    dsimp only
    split_ifs
    · exact trivial
    · exact hpc
  | release => exact ⟨⟨hs.repo.1, hs.repo.2, hs.repo.3, hs.repo.4, hs.repo.5⟩, hs.threads, hpc⟩
  | drainRelease => exact ⟨⟨hs.repo.1, hs.repo.2, hs.repo.3, hs.repo.4, hs.repo.5⟩, hs.threads, hpc⟩
  | advance | drainAdvance =>
    obtain ⟨hlt, hone⟩ := nextIdx_read hs.repo hpc
    exact hs.setReadIdx hlt (hone.le.trans hpc) id
  | clearLoad => exact ⟨hs.repo, hs.threads, hs.repo.write_lt, le_rfl⟩
  | clearStore => exact hs.setReadIdx hpc.1 hpc.2 id

/-- The moves of the system. -/
inductive Move (s : State n) : Label n → State n → Prop
  | enqueue {t : Fin n} {paras : QueueParas} {ended : Option Ending}
      (hidle : s.threads t = .idle ended) :
      Move s (.enqueue t paras) (s.setThread t (.enqueueStatus paras))
  | makeSureQueueEmpty {t : Fin n} {checkError : Bool} {ended : Option Ending}
      (hidle : s.threads t = .idle ended) :
      Move s (.makeSureQueueEmpty t checkError)
        (s.setThread t (.emptyRead { checkError, began := s.repo.accepted.length }))
  | thread {t : Fin n} {interrupted : Bool} {repo : Repository n} {pc : ThreadPc}
      (hstep : threadStep t interrupted s.repo (s.threads t) = some (repo, pc)) :
      Move s (.thread t interrupted) { s with repo, threads := Function.update s.threads t pc }
  | consumer {a : Answer} {repo : Repository n} {pc : ConsumerPc}
      (hstep : consumerStep a s.repo s.consumer = some (repo, pc)) :
      Move s (.consumer a) { s with repo, consumer := pc }
  | setStatus {desired : RepoStatus} :
      Move s (.setStatus desired) { s with repo := s.repo.setStatus desired }
  | changeStatus {expected desired : RepoStatus} :
      Move s (.changeStatus expected desired)
        { s with repo := s.repo.changeStatus expected desired }
  | escapeWait : Move s .escapeWait { s with repo := { s.repo with efdRead := s.repo.efdRead + 1 } }

theorem idle_of_begin {s s' : State n} {t : Fin n} {pc : ThreadPc} (h : s.begin t pc = some s') :
    (∃ ended, s.threads t = .idle ended) ∧ s' = s.setThread t pc := by
  rw [State.begin] at h
  split at h
  · rename_i ended hidle
    cases h
    exact ⟨⟨ended, hidle⟩, rfl⟩
  · cases h

theorem move_of_next {s s' : State n} {l : Label n} (h : s.next l = some s') : Move s l s' := by
  cases l with
  | enqueue t paras =>
    obtain ⟨⟨ended, hidle⟩, rfl⟩ := idle_of_begin h
    exact .enqueue hidle
  | makeSureQueueEmpty t checkError =>
    obtain ⟨⟨ended, hidle⟩, rfl⟩ := idle_of_begin h
    exact .makeSureQueueEmpty hidle
  | thread t interrupted =>
    rw [State.next, Option.map_eq_some_iff] at h
    obtain ⟨⟨repo, pc⟩, hstep, rfl⟩ := h
    exact .thread hstep
  | consumer a =>
    rw [State.next, Option.map_eq_some_iff] at h
    obtain ⟨⟨repo, pc⟩, hstep, rfl⟩ := h
    exact .consumer hstep
  | setStatus desired =>
    cases h
    exact .setStatus
  | changeStatus expected desired =>
    cases h
    exact .changeStatus
  | escapeWait =>
    cases h
    exact .escapeWait

theorem sameRing_changeStatus (s : Repository n) (expected desired : RepoStatus) :
    SameRing s (s.changeStatus expected desired)
      ∧ (s.changeStatus expected desired).muEnqueue = s.muEnqueue := by
  rw [Repository.changeStatus]
  split_ifs
  · exact ⟨⟨rfl, rfl, rfl, rfl, rfl, rfl⟩, rfl⟩
  · exact ⟨.refl s, rfl⟩

theorem RingInv.setThread {s : State n} {t : Fin n} {pc : ThreadPc} (hs : RingInv s)
    (hpc : ¬ pc.Writing) : RingInv (s.setThread t pc) where
  repo := hs.repo
  threads := (Function.forall_update_iff s.threads fun t' pc => ThreadInv s.repo t' pc).mpr
    ⟨.of_not_writing hpc, fun t' _ => hs.threads t'⟩
  consumer := hs.consumer

theorem RingInv.next {s s' : State n} {l : Label n} (hs : RingInv s) (h : s.next l = some s') :
    RingInv s' := by
  cases move_of_next h with
  | enqueue hidle | makeSureQueueEmpty hidle => exact hs.setThread id
  | thread hstep => exact hs.thread (threadRing_of_step hstep)
  | consumer hstep => exact hs.consumerStep (consumerRing_of_step hstep)
  | setStatus | escapeWait =>
    exact hs.sameRing ⟨rfl, rfl, rfl, rfl, rfl, rfl⟩ rfl hs.consumer
  | changeStatus =>
    obtain ⟨hsame, hmu⟩ := sameRing_changeStatus s.repo _ _
    exact hs.sameRing hsame hmu (hs.consumer.mono hsame.read hsame.pending.ge)

theorem ringInv_init : RingInv ({} : State n) where
  repo := ⟨kQueueCapacity_pos, kQueueCapacity_pos, List.suffix_refl _, rfl, rfl⟩
  threads _ := trivial
  consumer := trivial

/-! ### Runs in which no task fails -/

/-- No task returns an error, and nobody stops the device. -/
def Label.Faultless : Label n → Prop
  | .consumer a => a.ret = 0
  | .setStatus desired | .changeStatus _ desired => deviceErrorMap desired = none
  | _ => True

instance : DecidablePred (Label.Faultless (n := n)) := fun l =>
  match l with
  | .consumer a => inferInstanceAs (Decidable (a.ret = 0))
  | .setStatus desired | .changeStatus _ desired =>
    inferInstanceAs (Decidable (deviceErrorMap desired = none))
  | .enqueue _ _ | .makeSureQueueEmpty _ _ | .thread _ _ | .escapeWait =>
    inferInstanceAs (Decidable True)

/-- The consumer is not dealing with an error. -/
def ConsumerPc.Regular : ConsumerPc → Prop
  | .drain _ | .drainRelease _ | .drainAdvance _ | .checkDevice _ | .setError | .clearLoad _
  | .clearStore _ _ | .clearEmpty _ | .clearWrite _ => False
  | _ => True

/-- The task at the read index has been handed to `manager().Call`. -/
def ConsumerPc.called : ConsumerPc → Bool
  | .release | .advance => true
  | _ => false

structure Orderly (s : State n) : Prop where
  status : deviceErrorMap s.repo.repoStatus = none
  regular : s.consumer.Regular
  accepted : s.repo.executed.map Prod.fst ++ s.repo.rest s.consumer.called = s.repo.accepted

/-- A thread leaves the status alone, or reports an inner error. -/
theorem repoStatus_of_threadStep {t : Fin n} {interrupted : Bool} {s s' : Repository n}
    {pc pc' : ThreadPc} (h : threadStep t interrupted s pc = some (s', pc')) :
    s'.repoStatus = s.repoStatus ∨ s'.repoStatus = .canExit
      ∧ (pc = .enqueueReport ∨ ∃ drain, pc = .drainReport drain) := by
  revert h
  fun_cases threadStep t interrupted s pc <;> rintro ⟨⟩ <;> first
    | exact Or.inl rfl
    | exact Or.inr ⟨rfl, Or.inl rfl⟩
    | exact Or.inr ⟨rfl, Or.inr ⟨_, rfl⟩⟩

/-- Without a device error and a failing task the consumer stays on its regular way. -/
theorem regular_of_consumerStep {a : Answer} {s s' : Repository n} {pc pc' : ConsumerPc}
    (hstatus : deviceErrorMap s.repoStatus = none) (hpc : pc.Regular) (hret : a.ret = 0)
    (h : consumerStep a s pc = some (s', pc')) :
    pc'.Regular ∧ deviceErrorMap s'.repoStatus = none := by
  cases pc with
  | loopDevice =>
    simp only [consumerStep, hstatus, Option.isSome_none] at h
    cases h
    exact ⟨trivial, hstatus⟩
  | call =>
    simp only [consumerStep, hret] at h
    cases h
    exact ⟨trivial, hstatus⟩
  | failChange =>
    cases h
    refine ⟨trivial, ?_⟩
    rw [Repository.changeStatus]
    split_ifs
    · rfl
    · exact hstatus
  | startCan | startError | loop | failNeed | failError | failStop | sleepEmpty | readEmpty
  | notifyNeed | notifyEmpty | checkWrite =>
    simp only [consumerStep] at h
    split_ifs at h <;> cases h <;> exact ⟨trivial, hstatus⟩
  | readWorkingOn | release | advance | readWorkingOff | wakeEmpty | wakeWrite | finish =>
    cases h
    exact ⟨trivial, hstatus⟩
  | waitRead =>
    simp only [consumerStep] at h
    split_ifs at h <;> cases h <;> exact ⟨trivial, hstatus⟩
  | left => cases h
  | drain ret | drainRelease ret | drainAdvance ret | checkDevice ret | setError | clearLoad site
  | clearStore site write | clearEmpty site | clearWrite site => exact absurd hpc id

theorem ConsumerInv.pos_of_called {s : Repository n} {pc : ConsumerPc} (h : ConsumerInv s pc)
    (hcalled : pc.called) : 0 < s.pending := by
  cases pc <;> first | exact h | cases hcalled

/-- A task is called when it is at the read index, and then taken out. -/
theorem Orderly.accepted_consumer {s : State n} {s' : Repository n} {pc' : ConsumerPc}
    (hring : RingInv s) (hs : Orderly s) (hpc' : pc'.Regular)
    (h : ConsumerRing s.repo s.consumer s' pc') :
    s'.executed.map Prod.fst ++ s'.rest pc'.called = s'.accepted := by
  have hregular := hs.regular
  have hinv := hring.consumer
  have haccepted := hs.accepted
  generalize s.consumer = pc at h hregular hinv haccepted
  cases h with
  | outside hout hout' hsame hmu =>
    have hcalled : pc.called = false := by
      cases pc <;> first | rfl | exact absurd trivial hout
    have hcalled' : pc'.called = false := by
      cases pc' <;> first | rfl | exact absurd trivial hout'
    rw [hcalled] at haccepted
    rw [hcalled', hsame.executed, hsame.accepted]
    show _ ++ s'.held = _
    rw [hsame.held]
    exact haccepted
  | found hne => exact haccepted
  | call ret =>
    split_ifs at hpc' with hret
    · exact absurd hpc' id
    · rw [if_neg hret]
      have hcons : s.repo.held = s.repo.front :: s.repo.held.tail := held_eq_cons hring.repo hinv
      show (s.repo.executed ++ [(s.repo.front, ret)]).map Prod.fst ++ s.repo.held.tail = _
      rw [List.map_append, List.append_assoc, List.map_singleton, List.singleton_append, ← hcons]
      exact haccepted
  | release => exact haccepted
  | advance =>
    show _ ++ (s.repo.setReadIdx (nextIdx s.repo.readIdx.idx)).held = _
    rw [held_advance hring.repo hinv]
    exact haccepted
  | drain | drainRelease | drainAdvance | clearLoad | clearStore => exact absurd hregular id

theorem Orderly.next {s s' : State n} {l : Label n} (hring : RingInv s) (hs : Orderly s)
    (h : s.next l = some s') (hl : l.Faultless) : Orderly s' := by
  cases move_of_next h with
  | enqueue hidle | makeSureQueueEmpty hidle | escapeWait =>
    exact ⟨hs.status, hs.regular, hs.accepted⟩
  | thread hstep =>
    obtain ⟨new, hheld, haccepted, hexecuted, -⟩ :=
      hring.appends_of_threadRing (threadRing_of_step hstep)
    refine ⟨?_, hs.regular, ?_⟩
    · rcases repoStatus_of_threadStep hstep with heq | ⟨heq, -⟩
      · exact heq ▸ hs.status
      · exact heq ▸ rfl
    · dsimp only
      rw [hexecuted, haccepted, rest_append hheld hring.consumer.pos_of_called, ← List.append_assoc,
        hs.accepted]
  | consumer hstep =>
    obtain ⟨hregular, hstatus⟩ := regular_of_consumerStep hs.status hs.regular hl hstep
    exact ⟨hstatus, hregular, hs.accepted_consumer hring hregular (consumerRing_of_step hstep)⟩
  | setStatus => exact ⟨hl, hs.regular, hs.accepted⟩
  | changeStatus =>
    dsimp only [Repository.changeStatus]
    split_ifs
    · exact ⟨hl, hs.regular, hs.accepted⟩
    · exact ⟨hs.status, hs.regular, hs.accepted⟩

/-! ### The result -/

/-- The ring is safe: tasks are executed in order and stay in their slots until they are read. -/
structure RingSafe (s : State n) : Prop where
  /-- The tasks executed are the first ones accepted. -/
  order : s.repo.executed.map Prod.fst <+: s.repo.accepted
  /-- No task is accepted twice, so none is executed twice. -/
  once : s.repo.accepted.Nodup
  /-- A task not yet executed lies between the indices. -/
  unread : ∀ task ∈ s.repo.accepted, task ∉ s.repo.executed.map Prod.fst → task ∈ s.repo.held
  /-- A task between the indices is intact in its slot, and nobody is about to write there. -/
  intact : ∀ task ∈ s.repo.held, s.repo.datas (task.number % kQueueCapacity) = task
    ∧ ∀ t paras, s.threads t = .writeCopy paras →
      s.repo.writeIdx.idx ≠ task.number % kQueueCapacity
  write_wraps : s.repo.writeIdx.idx = s.repo.accepted.length % kQueueCapacity
  read_wraps : s.repo.readIdx.idx
    = (s.repo.accepted.length - s.repo.held.length) % kQueueCapacity

theorem RepoInv.pending_le {s : Repository n} (hs : RepoInv s) : s.pending ≤ s.accepted.length := by
  rw [← Repository.length_held]
  exact hs.held.length_le

theorem RepoInv.read_eq {s : Repository n} (hs : RepoInv s) :
    s.readIdx.idx = (s.accepted.length - s.pending) % kQueueCapacity := by
  have hend : (s.readIdx.idx + s.pending) % kQueueCapacity = s.writeIdx.idx :=
    Ring.add_pending_mod hs.read_lt hs.write_lt
  have hmod : s.readIdx.idx + s.pending
      ≡ (s.accepted.length - s.pending) + s.pending [MOD kQueueCapacity] := by
    rw [Nat.sub_add_cancel hs.pending_le]
    exact hend.trans hs.write_eq
  have hcancel : s.readIdx.idx % kQueueCapacity = _ := Nat.ModEq.add_right_cancel' _ hmod
  rwa [Nat.mod_eq_of_lt hs.read_lt] at hcancel

/-- The slot of a task follows from its number. -/
theorem RepoInv.heldSlots_eq {s : Repository n} (hs : RepoInv s) :
    s.heldSlots = s.held.map fun task => task.number % kQueueCapacity := by
  -- the last `pending` numbers below `accepted.length`
  have hnumbers : s.held.map Task.number
      = (List.range s.pending).map (s.accepted.length - s.pending + ·) := by
    rw [List.suffix_iff_eq_drop.mp hs.held, List.map_drop, hs.number, Repository.length_held]
    nth_rewrite 2 [← Nat.sub_add_cancel hs.pending_le]
    rw [List.range_add, List.drop_append_of_le_length (by simp), List.drop_of_length_le (by simp),
      List.nil_append]
  calc s.heldSlots
      = (List.range s.pending).map fun k =>
          (s.accepted.length - s.pending + k) % kQueueCapacity := by
        apply List.map_congr_left
        intro k _
        rw [hs.read_eq, Nat.mod_add_mod]
    _ = (s.held.map Task.number).map (· % kQueueCapacity) := by
        rw [hnumbers, List.map_map]
        rfl
    _ = s.held.map fun task => task.number % kQueueCapacity := by
        rw [List.map_map]
        rfl

/-- No task is accepted twice. -/
theorem RepoInv.nodup {s : Repository n} (hs : RepoInv s) : s.accepted.Nodup := by
  apply List.Nodup.of_map Task.number
  rw [hs.number]
  exact List.nodup_range

theorem Orderly.ringSafe {s : State n} (hring : RingInv s) (hs : Orderly s) : RingSafe s := by
  have hslots := hring.repo.heldSlots_eq
  refine ⟨⟨_, hs.accepted⟩, hring.repo.nodup, ?_, ?_, hring.repo.write_eq, ?_⟩
  · intro task hmem hnot
    rw [← hs.accepted, List.mem_append] at hmem
    exact mem_held_of_mem_rest (hmem.resolve_left hnot)
  · intro task hmem
    constructor
    · have hmap : s.repo.held.map (fun task => s.repo.datas (task.number % kQueueCapacity))
          = s.repo.held.map id := by
        rw [List.map_id]
        nth_rewrite 2 [Repository.held]
        rw [hslots, List.map_map]
        rfl
      exact List.map_inj_left.mp hmap task hmem
    · intro t paras ht heq
      have hin : s.repo.writeIdx.idx ∈ s.repo.heldSlots := by
        rw [hslots]
        exact List.mem_map.mpr ⟨task, hmem, heq.symm⟩
      exact Ring.write_notMem_slots hring.repo.read_lt hring.repo.write_lt hin
  · rw [Repository.length_held]
    exact hring.repo.read_eq

theorem ringSafe_of_run {ls : List (Label n)} {s : State n} (hls : ∀ l ∈ ls, l.Faultless)
    (h : runFromInit ls = some s) : RingSafe s := by
  have hinv : RingInv s ∧ Orderly s :=
    Machine.guarded_run_induction (P := fun s => RingInv s ∧ Orderly s)
      (fun _ _ _ hs hl hnext => ⟨hs.1.next hnext, hs.2.next hs.1 hnext hl⟩)
      ⟨ringInv_init, ⟨rfl, trivial, rfl⟩⟩ (Machine.guarded_of_forall hls) h
  exact hinv.2.ringSafe hinv.1

local instance someProducers : NeZero 2 := inferInstance

/-- Two producers enqueue one task each; the consumer, woken by the first, executes its task. -/
def twoProducers : List (Label 2) :=
  [Label.enqueue 0 {}, .enqueue 1 { paramType := .asyncMemcpy, paramVal := 7 }]
    ++ List.replicate 4 (Label.consumer {})
    ++ [Label.thread 0 false, .thread 1 false, .thread 0 false, .thread 1 false]
    ++ List.replicate 9 (Label.thread 0 false)
    ++ List.replicate 8 (Label.thread 1 false)
    ++ List.replicate 12 (Label.consumer {})

theorem ringSafe_twoProducers :
    (∀ l ∈ twoProducers, l.Faultless) ∧ ∃ s, runFromInit twoProducers = some s
      ∧ s.repo.accepted.length = 2 ∧ s.repo.executed.length = 1 ∧ RingSafe s := by
  have hls : ∀ l ∈ twoProducers, l.Faultless := by decide
  have hrun : (runFromInit twoProducers).map
      (fun s => (s.repo.accepted.length, s.repo.executed.length)) = some (2, 1) := by
    decide +kernel
  rw [Option.map_eq_some_iff] at hrun
  obtain ⟨s, hs, hlengths⟩ := hrun
  exact ⟨hls, s, hs, (Prod.mk.inj hlengths).1, (Prod.mk.inj hlengths).2, ringSafe_of_run hls hs⟩

end TorchNpu.Queue
