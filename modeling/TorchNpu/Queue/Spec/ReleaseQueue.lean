/-
  What the release queue releases.

  In every run the parameters are released in the order in which they were pushed, each at most once, and no
  push writes to a slot that still holds something: `Filled` is the invariant.  What may be missed is the
  end.  The release thread finds the queue empty, then a last push comes in, the consumer is joined and the
  status is set, and then the thread reads `NEED_EXIT`.  `settled_next` says that this is the only way in
  which the thread can leave something behind.
-/
import TorchNpu.Queue.ReleaseQueue

namespace TorchNpu.Queue.ReleaseQueue

variable {α : Type*} {s s' t : ReleaseQueue α}

/-! ### What is claimed -/

/-- Parameters are released at most once and in order, none is overwritten before it has been released, and
all of them have been released when the storage is freed. -/
structure Drains (s : ReleaseQueue α) : Prop where
  ordered : s.released <+: s.pushed.map some
  kept : s.overwritten = []
  drained : s.destroyer = .freed → s.released = s.pushed.map some

/-- The condition on a step: when the release thread reads `NEED_EXIT` after it has found the queue empty,
the queue is still empty. -/
def Careful (s : ReleaseQueue α) : ReleaseLabel α → Prop
  | .releaser => s.releaser = .testExit → s.repoStatus = .needExit → s.isEmptyQueue = true
  | .push _ | .consumer | .destroy => True

instance (s : ReleaseQueue α) : DecidablePred s.Careful
  | .releaser => inferInstanceAs (Decidable (_ → _ → _))
  | .push _ | .consumer | .destroy => isTrue trivial

/-! ### The ring -/

theorem nextReleaseIdx_eq_next (idx : ℕ) : nextReleaseIdx idx = Ring.next kReleaseQueueCapacity idx :=
  Nat.and_two_pow_sub_one_eq_mod (idx + 1) 13

/-- The first slot that has not been released. -/
def readFrom (s : ReleaseQueue α) : ℕ :=
  if s.releaser = .advance then nextReleaseIdx s.readIdx else s.readIdx

/-- The slots that wait to be released. -/
def waitingSlots (s : ReleaseQueue α) : List ℕ :=
  Ring.slots kReleaseQueueCapacity s.readFrom s.writeIdx

structure Filled (s : ReleaseQueue α) : Prop where
  read_lt : s.readIdx < kReleaseQueueCapacity
  write_lt : s.writeIdx < kReleaseQueueCapacity
  /-- What has been pushed has been released or waits. -/
  pushed : s.pushed.map some = s.released ++ s.waitingSlots.map s.datas
  reading : s.releaser = .release ∨ s.releaser = .advance → s.readIdx ≠ s.writeIdx
  room : ∀ a, s.consumer = .copy a ∨ s.consumer = .publish a → nextReleaseIdx s.writeIdx ≠ s.readIdx
  written : ∀ a, s.consumer = .publish a → s.datas s.writeIdx = some a
  vacant : ∀ i < kReleaseQueueCapacity, i ∉ s.waitingSlots →
    (i = s.writeIdx → ∀ a, s.consumer ≠ .publish a) → s.datas i = none
  overwritten : s.overwritten = []

namespace Filled

theorem readFrom_lt (h : s.Filled) : s.readFrom < kReleaseQueueCapacity := by
  rw [readFrom]
  split_ifs
  · rw [nextReleaseIdx_eq_next]
    exact Ring.next_lt h.read_lt
  · exact h.read_lt

theorem writeIdx_notMem (h : s.Filled) : s.writeIdx ∉ s.waitingSlots :=
  Ring.write_notMem_slots h.readFrom_lt h.write_lt

/-- A step that leaves the ring as it is. -/
theorem frame (h : s.Filled) (hdatas : s'.datas = s.datas) (hread : s'.readIdx = s.readIdx)
    (hwrite : s'.writeIdx = s.writeIdx) (hpushed : s'.pushed = s.pushed)
    (hreleased : s'.released = s.released) (hoverwritten : s'.overwritten = s.overwritten)
    (hfrom : s'.readFrom = s.readFrom)
    (hreading : s'.releaser = .release ∨ s'.releaser = .advance → s.readIdx ≠ s.writeIdx)
    (hroom : ∀ a, s'.consumer = .copy a ∨ s'.consumer = .publish a →
      nextReleaseIdx s.writeIdx ≠ s.readIdx)
    (hconsumer : ∀ a, s'.consumer = .publish a ↔ s.consumer = .publish a) : s'.Filled := by
  have hslots : s'.waitingSlots = s.waitingSlots := by rw [waitingSlots, hfrom, hwrite, waitingSlots]
  refine ⟨?_, ?_, ?_, ?_, ?_, ?_, ?_, ?_⟩
  · rw [hread]
    exact h.read_lt
  · rw [hwrite]
    exact h.write_lt
  · rw [hpushed, hreleased, hslots, hdatas]
    exact h.pushed
  · rw [hread, hwrite]
    exact hreading
  · rw [hread, hwrite]
    exact hroom
  · intro a ha
    rw [hdatas, hwrite]
    exact h.written a ((hconsumer a).mp ha)
  · intro i hi hmem hfree
    rw [hdatas]
    apply h.vacant i hi
    · rwa [hslots] at hmem
    · intro heq a ha
      exact hfree (by rw [hwrite, heq]) a ((hconsumer a).mpr ha)
  · rw [hoverwritten]
    exact h.overwritten

/-! ### One step of each thread -/

/-- `CopyRealseParam` writes to a slot that holds nothing. -/
theorem copy {a : α} (h : s.Filled) (hpc : s.consumer = .copy a) (hstep : s.stepConsumer = some s') :
    s'.Filled := by
  simp only [stepConsumer, hpc] at hstep
  cases hstep
  have hvacant : s.datas s.writeIdx = none := by
    apply h.vacant _ h.write_lt h.writeIdx_notMem
    intro _ b hb
    rw [hpc] at hb
    cases hb
  refine ⟨h.read_lt, h.write_lt, ?_, h.reading, ?_, ?_, ?_, ?_⟩
  · show s.pushed.map some = s.released ++ s.waitingSlots.map (Function.update s.datas s.writeIdx (some a))
    rw [waitingSlots, Ring.map_slots_update h.readFrom_lt h.write_lt]
    exact h.pushed
  · intro _ _
    exact h.room a (.inl hpc)
  · intro b hb
    cases hb
    exact Function.update_self ..
  · intro i hi hmem hfree
    have hne : i ≠ s.writeIdx := fun heq => hfree heq a rfl
    show Function.update s.datas s.writeIdx (some a) i = none
    rw [Function.update_of_ne hne]
    exact h.vacant i hi hmem fun heq => absurd heq hne
  · show s.overwritten ++ (s.datas s.writeIdx).toList = []
    rw [hvacant, h.overwritten]
    rfl

theorem next_writeIdx_ne_readFrom (h : s.Filled) (hroom : nextReleaseIdx s.writeIdx ≠ s.readIdx) :
    Ring.next kReleaseQueueCapacity s.writeIdx ≠ s.readFrom := by
  rw [readFrom]
  split_ifs with hpc
  · rw [nextReleaseIdx_eq_next]
    exact Ring.next_ne_next h.write_lt h.read_lt (h.reading (.inr hpc)).symm
  · rwa [← nextReleaseIdx_eq_next]

theorem publish {a : α} (h : s.Filled) (hpc : s.consumer = .publish a)
    (hstep : s.stepConsumer = some s') : s'.Filled := by
  simp only [stepConsumer, hpc] at hstep
  cases hstep
  have hroom := h.room a (.inr hpc)
  -- The slot that has been written to is the last one to wait.
  have hslots : Ring.slots kReleaseQueueCapacity s.readFrom (nextReleaseIdx s.writeIdx) =
      s.waitingSlots ++ [s.writeIdx] := by
    rw [nextReleaseIdx_eq_next]
    exact Ring.slots_next_write h.readFrom_lt h.write_lt (h.next_writeIdx_ne_readFrom hroom)
  refine ⟨h.read_lt, ?_, ?_, ?_, nofun, nofun, ?_, h.overwritten⟩
  · show nextReleaseIdx s.writeIdx < kReleaseQueueCapacity
    rw [nextReleaseIdx_eq_next]
    exact Ring.next_lt h.write_lt
  · show (s.pushed ++ [a]).map some = s.released ++
      (Ring.slots kReleaseQueueCapacity s.readFrom (nextReleaseIdx s.writeIdx)).map s.datas
    rw [hslots, List.map_append, List.map_append, h.pushed, List.map_singleton, List.map_singleton,
      h.written a hpc, List.append_assoc]
  · intro _
    exact hroom.symm
  · intro i hi hmem _
    replace hmem : i ∉ Ring.slots kReleaseQueueCapacity s.readFrom (nextReleaseIdx s.writeIdx) := hmem
    rw [hslots, List.mem_append, List.mem_singleton, not_or] at hmem
    exact h.vacant i hi hmem.1 fun heq => absurd heq hmem.2

theorem stepConsumer (h : s.Filled) (hstep : s.stepConsumer = some s') : s'.Filled := by
  cases hpc : s.consumer with
  | idle =>
    simp only [ReleaseQueue.stepConsumer, hpc] at hstep
    cases hstep
  | testFull a =>
    simp only [ReleaseQueue.stepConsumer, hpc, isFullQueue, decide_eq_true_eq] at hstep
    split_ifs at hstep with hfull
    · cases hstep
      exact h.frame rfl rfl rfl rfl rfl rfl rfl h.reading nofun fun b => by simp [hpc]
    · cases hstep
      exact h.frame rfl rfl rfl rfl rfl rfl rfl h.reading (fun _ _ => hfull) fun b => by simp [hpc]
  | copy a => exact h.copy hpc hstep
  | publish a => exact h.publish hpc hstep

/-- `ReleaseParam` releases what is in the first slot that waits. -/
theorem release (h : s.Filled) (hpc : s.releaser = .release) (hstep : s.stepReleaser = some s') :
    s'.Filled := by
  simp only [stepReleaser, hpc] at hstep
  cases hstep
  have hne := h.reading (.inl hpc)
  have hfrom : s.readFrom = s.readIdx := if_neg (by simp [hpc])
  have hslots : s.waitingSlots =
      s.readIdx :: Ring.slots kReleaseQueueCapacity (nextReleaseIdx s.readIdx) s.writeIdx := by
    rw [waitingSlots, hfrom, nextReleaseIdx_eq_next]
    exact Ring.slots_next_read h.read_lt h.write_lt hne
  have hnotMem : s.readIdx ∉ Ring.slots kReleaseQueueCapacity (nextReleaseIdx s.readIdx) s.writeIdx := by
    rw [nextReleaseIdx_eq_next]
    exact Ring.read_notMem_slots h.read_lt h.write_lt hne
  refine ⟨h.read_lt, h.write_lt, ?_, fun _ => hne, h.room, ?_, ?_, h.overwritten⟩
  · show s.pushed.map some = s.released ++ [s.datas s.readIdx] ++
      (Ring.slots kReleaseQueueCapacity (nextReleaseIdx s.readIdx) s.writeIdx).map
        (Function.update s.datas s.readIdx none)
    have hmap : (Ring.slots kReleaseQueueCapacity (nextReleaseIdx s.readIdx) s.writeIdx).map
        (Function.update s.datas s.readIdx none) =
          (Ring.slots kReleaseQueueCapacity (nextReleaseIdx s.readIdx) s.writeIdx).map s.datas := by
      apply List.map_congr_left
      intro i hi
      apply Function.update_of_ne
      rintro rfl
      exact hnotMem hi
    rw [hmap, h.pushed, hslots, List.map_cons, List.append_assoc, List.singleton_append]
  · intro a ha
    show Function.update s.datas s.readIdx none s.writeIdx = some a
    rw [Function.update_of_ne hne.symm]
    exact h.written a ha
  · intro i hi hmem hfree
    show Function.update s.datas s.readIdx none i = none
    by_cases heq : i = s.readIdx
    · rw [heq]
      exact Function.update_self ..
    · rw [Function.update_of_ne heq]
      apply h.vacant i hi _ hfree
      rw [hslots, List.mem_cons, not_or]
      exact ⟨heq, hmem⟩

theorem advance (h : s.Filled) (hpc : s.releaser = .advance) (hstep : s.stepReleaser = some s') :
    s'.Filled := by
  simp only [stepReleaser, hpc] at hstep
  cases hstep
  have hne := h.reading (.inr hpc)
  have hfrom : s.readFrom = nextReleaseIdx s.readIdx := if_pos hpc
  have hslots : s.waitingSlots =
      Ring.slots kReleaseQueueCapacity (nextReleaseIdx s.readIdx) s.writeIdx := by
    rw [waitingSlots, hfrom]
  refine ⟨?_, h.write_lt, ?_, nofun, ?_, h.written, ?_, h.overwritten⟩
  · show nextReleaseIdx s.readIdx < kReleaseQueueCapacity
    rw [nextReleaseIdx_eq_next]
    exact Ring.next_lt h.read_lt
  · rw [h.pushed, hslots]
    rfl
  · intro a ha
    show nextReleaseIdx s.writeIdx ≠ nextReleaseIdx s.readIdx
    rw [nextReleaseIdx_eq_next, nextReleaseIdx_eq_next]
    exact Ring.next_ne_next h.write_lt h.read_lt hne.symm
  · intro i hi hmem hfree
    apply h.vacant i hi _ hfree
    rw [hslots]
    exact hmem

theorem changeStatus (h : s.Filled) (expected desired : RepoStatus) :
    (s.changeStatus expected desired).Filled := by
  rw [ReleaseQueue.changeStatus]
  split_ifs
  · exact h.frame rfl rfl rfl rfl rfl rfl rfl h.reading h.room fun _ => Iff.rfl
  · exact h

/-- The release thread goes on to another place without touching the ring. -/
theorem goTo {pc : ReleasePc} (h : s.Filled) (hpc : s.releaser ≠ .advance) (hpc' : pc ≠ .advance)
    (hrelease : pc = .release → s.readIdx ≠ s.writeIdx) : ({ s with releaser := pc }).Filled := by
  refine h.frame rfl rfl rfl rfl rfl rfl ?_ ?_ h.room fun _ => Iff.rfl
  · rw [readFrom, readFrom, if_neg hpc, if_neg hpc']
  · rintro (hreleaser | hreleaser)
    · exact hrelease hreleaser
    · exact absurd hreleaser hpc'

theorem stepReleaser (h : s.Filled) (hstep : s.stepReleaser = some s') : s'.Filled := by
  cases hpc : s.releaser with
  | start =>
    simp only [ReleaseQueue.stepReleaser, hpc] at hstep
    cases hstep
    apply h.goTo (by simp [hpc])
    · split_ifs <;> simp
    · split_ifs <;> simp
  | pop =>
    simp only [ReleaseQueue.stepReleaser, hpc] at hstep
    cases hstep
    apply h.goTo (by simp [hpc])
    · split_ifs <;> simp
    · split_ifs <;> simp
  | testEmpty =>
    simp only [ReleaseQueue.stepReleaser, hpc, isEmptyQueue, decide_eq_true_eq] at hstep
    cases hstep
    apply h.goTo (by simp [hpc])
    · split_ifs <;> simp
    · split_ifs with hempty
      · simp
      · exact fun _ => hempty
  | release => exact h.release hpc hstep
  | advance => exact h.advance hpc hstep
  | testExit =>
    simp only [ReleaseQueue.stepReleaser, hpc] at hstep
    cases hstep
    apply h.goTo (by simp [hpc])
    · split_ifs <;> simp
    · split_ifs <;> simp
  | change =>
    simp only [ReleaseQueue.stepReleaser, hpc] at hstep
    cases hstep
    apply (h.changeStatus .needExit .canExit).goTo _ (by simp) (by simp)
    rw [ReleaseQueue.changeStatus]
    split_ifs <;> simp [hpc]
  | done =>
    simp only [ReleaseQueue.stepReleaser, hpc] at hstep
    cases hstep

theorem stepDestroy (h : s.Filled) (hstep : s.stepDestroy = some s') : s'.Filled := by
  unfold ReleaseQueue.stepDestroy at hstep
  split at hstep
  · rw [Option.ite_none_right_eq_some] at hstep
    obtain ⟨-, hstep⟩ := hstep
    cases hstep
    exact h.frame rfl rfl rfl rfl rfl rfl rfl h.reading h.room fun _ => Iff.rfl
  · cases hstep
    exact h.frame rfl rfl rfl rfl rfl rfl rfl h.reading h.room fun _ => Iff.rfl
  · rw [Option.ite_none_right_eq_some] at hstep
    obtain ⟨-, hstep⟩ := hstep
    cases hstep
    exact h.frame rfl rfl rfl rfl rfl rfl rfl h.reading h.room fun _ => Iff.rfl
  · cases hstep
    exact h.frame rfl rfl rfl rfl rfl rfl rfl h.reading h.room fun _ => Iff.rfl
  · cases hstep

theorem next {l : ReleaseLabel α} (h : s.Filled) (hnext : s.next l = some s') : s'.Filled := by
  cases l with
  | push a =>
    rw [ReleaseQueue.next, Option.ite_none_right_eq_some] at hnext
    obtain ⟨⟨hidle, -⟩, hnext⟩ := hnext
    cases hnext
    refine h.frame rfl rfl rfl rfl rfl rfl rfl h.reading (by simp) fun b => ?_
    cases hpc : s.consumer <;> simp [PushPc.isIdle, hpc] at hidle ⊢
  | consumer => exact h.stepConsumer hnext
  | releaser => exact h.stepReleaser hnext
  | destroy => exact h.stepDestroy hnext

theorem init : ({} : ReleaseQueue α).Filled where
  read_lt := show 0 < kReleaseQueueCapacity by decide
  write_lt := show 0 < kReleaseQueueCapacity by decide
  pushed := by simp [waitingSlots, readFrom]
  reading := by simp
  room := nofun
  written := nofun
  vacant _ _ _ _ := rfl
  overwritten := rfl

end Filled

/-! ### The end -/

/-- How the status, the release thread and the destruction follow each other. -/
structure Phased (s : ReleaseQueue α) : Prop where
  running : s.destroyer = .alive ∨ s.destroyer = .joined → s.repoStatus = .init
  exiting : s.repoStatus = .init ∨ s.repoStatus = .needExit ∨ s.repoStatus = .canExit
  idle : s.destroyer ≠ .alive → s.consumer.isIdle = true
  change : s.releaser = .change → s.repoStatus = .needExit
  canExit : s.repoStatus = .canExit → s.releaser = .start ∨ s.releaser = .done
  done : s.releaser = .done → s.repoStatus = .canExit
  joined : s.destroyer = .releaserJoined ∨ s.destroyer = .freed → s.releaser = .done

namespace Phased

theorem ne_alive (h : s.Phased) (hstatus : s.repoStatus ≠ .init) : s.destroyer ≠ .alive :=
  fun halive => hstatus (h.running (.inl halive))

theorem stepReleaser (h : s.Phased) (hstep : s.stepReleaser = some s') : s'.Phased := by
  obtain ⟨hrunning, hexiting, hidle, hchange, hcanExit, hdone, hjoined⟩ := h
  cases hpc : s.releaser with
  | start | pop | testEmpty | testExit =>
    simp only [ReleaseQueue.stepReleaser, hpc] at hstep
    cases hstep
    constructor <;> simp_all <;> split_ifs <;> simp_all
  | release | advance =>
    simp only [ReleaseQueue.stepReleaser, hpc] at hstep
    cases hstep
    constructor <;> simp_all
  | done =>
    simp only [ReleaseQueue.stepReleaser, hpc] at hstep
    cases hstep
  | change =>
    simp only [ReleaseQueue.stepReleaser, hpc, changeStatus, if_pos (hchange hpc)] at hstep
    cases hstep
    constructor <;> simp_all

theorem stepDestroy (h : s.Phased) (hstep : s.stepDestroy = some s') : s'.Phased := by
  obtain ⟨hrunning, hexiting, hidle, hchange, hcanExit, hdone, hjoined⟩ := h
  cases hpc : s.destroyer with
  | alive | needExit =>
    simp only [ReleaseQueue.stepDestroy, hpc, Option.ite_none_right_eq_some] at hstep
    obtain ⟨hcond, hstep⟩ := hstep
    cases hstep
    constructor <;> simp_all
  | joined | releaserJoined =>
    simp only [ReleaseQueue.stepDestroy, hpc] at hstep
    cases hstep
    constructor <;> simp_all
  | freed =>
    simp only [ReleaseQueue.stepDestroy, hpc] at hstep
    cases hstep

theorem stepConsumer (h : s.Phased) (hstep : s.stepConsumer = some s') : s'.Phased := by
  have halive : s.destroyer = .alive := by
    by_contra hne
    have hidle := h.idle hne
    cases hpc : s.consumer <;> simp [hpc, ReleaseQueue.stepConsumer, PushPc.isIdle] at hstep hidle
  have hframe : s'.destroyer = s.destroyer ∧ s'.releaser = s.releaser ∧ s'.repoStatus = s.repoStatus := by
    unfold ReleaseQueue.stepConsumer at hstep
    split at hstep
    · cases hstep
    · split_ifs at hstep <;> cases hstep <;> exact ⟨rfl, rfl, rfl⟩
    · cases hstep
      exact ⟨rfl, rfl, rfl⟩
    · cases hstep
      exact ⟨rfl, rfl, rfl⟩
  obtain ⟨hdestroyer, hreleaser, hstatus⟩ := hframe
  obtain ⟨hrunning, hexiting, hidle, hchange, hcanExit, hdone, hjoined⟩ := h
  constructor <;> simp_all

theorem next {l : ReleaseLabel α} (h : s.Phased) (hnext : s.next l = some s') : s'.Phased := by
  cases l with
  | push a =>
    rw [ReleaseQueue.next, Option.ite_none_right_eq_some] at hnext
    obtain ⟨⟨-, halive⟩, hnext⟩ := hnext
    cases hnext
    exact ⟨h.running, h.exiting, fun hne => absurd halive hne, h.change, h.canExit, h.done, h.joined⟩
  | consumer => exact h.stepConsumer hnext
  | releaser => exact h.stepReleaser hnext
  | destroy => exact h.stepDestroy hnext

theorem init : ({} : ReleaseQueue α).Phased := by
  constructor <;> simp

end Phased

/-- The release thread is going to leave without looking at the queue again. -/
def Leaving (s : ReleaseQueue α) : Prop :=
  s.releaser = .change ∨ s.repoStatus = .canExit

/-- Nothing is left when the release thread leaves. -/
def Settled (s : ReleaseQueue α) : Prop :=
  s.Leaving → s.readIdx = s.writeIdx

theorem Leaving.status (h : s.Leaving) (hphased : s.Phased) :
    s.repoStatus = .needExit ∨ s.repoStatus = .canExit := by
  rcases h with hchange | hcanExit
  · exact .inl (hphased.change hchange)
  · exact .inr hcanExit

/-- Once the release thread is leaving, it leaves, and neither index moves. -/
theorem Leaving.next {l : ReleaseLabel α} (h : s.Leaving) (hphased : s.Phased)
    (hnext : s.next l = some s') :
    s'.Leaving ∧ s'.readIdx = s.readIdx ∧ s'.writeIdx = s.writeIdx := by
  have hstatus := h.status hphased
  have halive : s.destroyer ≠ .alive := hphased.ne_alive (by rcases hstatus with h | h <;> simp [h])
  cases l with
  | push a =>
    rw [ReleaseQueue.next, Option.ite_none_right_eq_some] at hnext
    exact absurd hnext.1.2 halive
  | consumer =>
    -- The consumer has been joined.
    have hidle := hphased.idle halive
    cases hpc : s.consumer <;>
      simp [hpc, ReleaseQueue.next, ReleaseQueue.stepConsumer, PushPc.isIdle] at hnext hidle
  | releaser =>
    rw [ReleaseQueue.next] at hnext
    rcases h with hchange | hcanExit
    · simp only [stepReleaser, hchange, changeStatus, if_pos (hphased.change hchange)] at hnext
      cases hnext
      exact ⟨.inr rfl, rfl, rfl⟩
    · rcases hphased.canExit hcanExit with hpc | hpc
      · simp only [stepReleaser, hpc, if_pos hcanExit] at hnext
        cases hnext
        exact ⟨.inr hcanExit, rfl, rfl⟩
      · simp only [stepReleaser, hpc] at hnext
        cases hnext
  | destroy =>
    rw [ReleaseQueue.next] at hnext
    cases hpc : s.destroyer with
    | alive => exact absurd hpc halive
    | joined =>
      have hinit := hphased.running (.inr hpc)
      rcases hstatus with h | h <;> simp [hinit] at h
    | needExit =>
      simp only [stepDestroy, hpc, Option.ite_none_right_eq_some] at hnext
      obtain ⟨-, hnext⟩ := hnext
      cases hnext
      exact ⟨h, rfl, rfl⟩
    | releaserJoined =>
      simp only [stepDestroy, hpc] at hnext
      cases hnext
      exact ⟨h, rfl, rfl⟩
    | freed =>
      simp only [stepDestroy, hpc] at hnext
      cases hnext

/-- The only step with which the release thread starts to leave. -/
theorem exists_testExit {l : ReleaseLabel α} (h : ¬ s.Leaving) (hnext : s.next l = some s')
    (hleaving : s'.Leaving) :
    l = .releaser ∧ s.releaser = .testExit ∧ s.repoStatus = .needExit ∧
      s' = { s with releaser := .change } := by
  rw [Leaving, not_or] at h
  cases l with
  | push a =>
    rw [ReleaseQueue.next, Option.ite_none_right_eq_some] at hnext
    obtain ⟨-, hnext⟩ := hnext
    cases hnext
    exact absurd hleaving (not_or.mpr h)
  | consumer =>
    rw [ReleaseQueue.next, stepConsumer] at hnext
    split at hnext
    · cases hnext
    · split_ifs at hnext <;> cases hnext <;> exact absurd hleaving (not_or.mpr h)
    · cases hnext
      exact absurd hleaving (not_or.mpr h)
    · cases hnext
      exact absurd hleaving (not_or.mpr h)
  | releaser =>
    rw [ReleaseQueue.next] at hnext
    cases hpc : s.releaser with
    | testExit =>
      simp only [stepReleaser, hpc] at hnext
      cases hnext
      by_cases hneed : s.repoStatus = .needExit
      · exact ⟨rfl, rfl, hneed, by rw [if_pos hneed]⟩
      · simp [Leaving, h.2, hneed] at hleaving
    | change => exact absurd hpc h.1
    | start | pop | testEmpty =>
      simp only [stepReleaser, hpc] at hnext
      cases hnext
      simp only [Leaving, h.2, or_false] at hleaving
      split_ifs at hleaving
    | release | advance =>
      simp only [stepReleaser, hpc] at hnext
      cases hnext
      simp [Leaving, h.2] at hleaving
    | done =>
      simp only [stepReleaser, hpc] at hnext
      cases hnext
  | destroy =>
    rw [ReleaseQueue.next, stepDestroy] at hnext
    split at hnext
    · rw [Option.ite_none_right_eq_some] at hnext
      obtain ⟨-, hnext⟩ := hnext
      cases hnext
      exact absurd hleaving (not_or.mpr h)
    · cases hnext
      simp [Leaving, h.1] at hleaving
    · rw [Option.ite_none_right_eq_some] at hnext
      obtain ⟨-, hnext⟩ := hnext
      cases hnext
      exact absurd hleaving (not_or.mpr h)
    · cases hnext
      exact absurd hleaving (not_or.mpr h)
    · cases hnext

/-- A step settles the queue exactly when it is careful. -/
theorem settled_next {l : ReleaseLabel α} (h : s.Settled) (hphased : s.Phased)
    (hnext : s.next l = some s') : s'.Settled ↔ s.Careful l := by
  by_cases hleaving : s.Leaving
  · obtain ⟨-, hread, hwrite⟩ := hleaving.next hphased hnext
    apply iff_of_true
    · intro _
      rw [hread, hwrite]
      exact h hleaving
    · cases l with
      | releaser =>
        intro _ _
        exact decide_eq_true (h hleaving)
      | push _ | consumer | destroy => trivial
  · by_cases htest : l = .releaser ∧ s.releaser = .testExit ∧ s.repoStatus = .needExit
    · obtain ⟨rfl, hpc, hneed⟩ := htest
      simp only [ReleaseQueue.next, stepReleaser, hpc, if_pos hneed] at hnext
      cases hnext
      simp [Settled, Leaving, Careful, hpc, hneed, isEmptyQueue]
    · apply iff_of_true
      · intro hleaving'
        obtain ⟨hl, hpc, hneed, -⟩ := exists_testExit hleaving hnext hleaving'
        exact absurd ⟨hl, hpc, hneed⟩ htest
      · cases l with
        | releaser => exact fun hpc hneed => absurd ⟨rfl, hpc, hneed⟩ htest
        | push _ | consumer | destroy => trivial

/-! ### Whole runs -/

theorem filled_of_run {ls : List (ReleaseLabel α)} (h : runFromInit ls = some s) : s.Filled :=
  Machine.run_induction (fun _ _ _ hs hnext => hs.next hnext) Filled.init h

theorem phased_of_run {ls : List (ReleaseLabel α)} (h : runFromInit ls = some s) : s.Phased :=
  Machine.run_induction (fun _ _ _ hs hnext => hs.next hnext) Phased.init h

/-- A release thread that leaves something behind does so for good. -/
theorem left_of_run {ls : List (ReleaseLabel α)} (hphased : s.Phased) (hleaving : s.Leaving)
    (hne : s.readIdx ≠ s.writeIdx) (h : Machine.run next s ls = some t) :
    t.Leaving ∧ t.readIdx ≠ t.writeIdx := by
  have hall : t.Phased ∧ t.Leaving ∧ t.readIdx ≠ t.writeIdx := by
    apply Machine.run_induction (P := fun s => s.Phased ∧ s.Leaving ∧ s.readIdx ≠ s.writeIdx) _ _ h
    · rintro s l s' ⟨hphased, hleaving, hne⟩ hnext
      obtain ⟨hleaving', hread, hwrite⟩ := hleaving.next hphased hnext
      rw [hread, hwrite]
      exact ⟨hphased.next hnext, hleaving', hne⟩
    · exact ⟨hphased, hleaving, hne⟩
  exact hall.2

theorem freed_of_run {ls : List (ReleaseLabel α)} (hfreed : s.destroyer = .freed) (hphased : s.Phased)
    (h : Machine.run next s ls = some t) : t.destroyer = .freed := by
  cases ls with
  | nil =>
    cases h
    exact hfreed
  | cons l ls =>
    -- Nothing happens after the end of the destruction.
    obtain ⟨s', hnext, -⟩ := Machine.run_cons.mp h
    have hdone := hphased.joined (.inr hfreed)
    have hidle := hphased.idle (by simp [hfreed])
    cases l with
    | push a => simp [next, hfreed] at hnext
    | consumer =>
      cases hpc : s.consumer <;> simp [hpc, next, stepConsumer, PushPc.isIdle] at hnext hidle
    | releaser => simp [next, stepReleaser, hdone] at hnext
    | destroy => simp [next, stepDestroy, hfreed] at hnext

/-- What has been pushed when the storage is freed has been released exactly if the ring is empty. -/
theorem released_eq_iff (hfilled : s.Filled) (hpc : s.releaser ≠ .advance) :
    s.released = s.pushed.map some ↔ s.readIdx = s.writeIdx := by
  have hfrom : s.readFrom = s.readIdx := if_neg hpc
  have hlength : s.waitingSlots.length = 0 ↔ s.readIdx = s.writeIdx := by
    rw [waitingSlots, Ring.length_slots, hfrom]
    exact Ring.pending_eq_zero hfilled.read_lt
  rw [hfilled.pushed, ← hlength]
  constructor
  · intro heq
    have hcount := congrArg List.length heq
    rw [List.length_append, List.length_map] at hcount
    omega
  · intro hnil
    rw [List.length_eq_zero_iff.mp hnil, List.map_nil, List.append_nil]

/-- In every run the queue drains in every state exactly when all steps of the run are careful, unless the
run ends before the storage is freed. -/
theorem drains_iff_careful (ls : List (ReleaseLabel α)) (hrun : runFromInit ls = some s) :
    (∀ k t, runFromInit (ls.take k) = some t → t.Drains) ↔
      (s.destroyer = .freed → Machine.Guarded next Careful {} ls) := by
  -- Being careful is the same as being settled all the way through.
  have hsettled : (∀ k t, runFromInit (ls.take k) = some t → t.Phased ∧ t.Settled) ↔
      Machine.Guarded next Careful ({} : ReleaseQueue α) ls := by
    apply Machine.forall_take_iff_guarded _ _ hrun
    · rintro s l s' ⟨hphased, hs⟩ hnext
      rw [← settled_next hs hphased hnext]
      exact and_iff_right (hphased.next hnext)
    · exact ⟨Phased.init, by simp [Settled]⟩
  rw [← hsettled]
  have hrest : ∀ {k : ℕ} {t : ReleaseQueue α}, runFromInit (ls.take k) = some t →
      Machine.run next t (ls.drop k) = some s := by
    intro k t ht
    rw [runFromInit, ← List.take_append_drop k ls, Machine.run_append] at hrun
    obtain ⟨u, hu, hs⟩ := hrun
    obtain rfl : t = u := Option.some_inj.mp (ht.symm.trans hu)
    exact hs
  constructor
  · intro hall hfreed k t ht
    refine ⟨phased_of_run ht, fun hleaving => ?_⟩
    by_contra hne
    have hphased := phased_of_run hrun
    obtain ⟨-, hne'⟩ := left_of_run (phased_of_run ht) hleaving hne (hrest ht)
    have hdone := hphased.joined (.inr hfreed)
    apply hne'
    rw [← released_eq_iff (filled_of_run hrun) (by simp [hdone])]
    exact (hall ls.length s (by rwa [List.take_length])).drained hfreed
  · intro hall k t ht
    have hfilled := filled_of_run ht
    have hphased := phased_of_run ht
    refine ⟨⟨_, hfilled.pushed.symm⟩, hfilled.overwritten, fun hfreed => ?_⟩
    have hdone := hphased.joined (.inr hfreed)
    rw [released_eq_iff hfilled (by simp [hdone])]
    have hfreed' := freed_of_run hfreed hphased (hrest ht)
    exact (hall hfreed' k t ht).2 (.inr (hphased.done hdone))

/-- Two parameters are pushed and released, and the queue is destroyed. -/
def twoParameters : List (ReleaseLabel ℕ) :=
  [.push 1, .consumer, .consumer, .consumer, .push 2, .releaser, .releaser, .releaser, .releaser,
    .consumer, .consumer, .consumer, .releaser, .releaser, .releaser, .releaser, .releaser, .releaser,
    .releaser, .releaser, .releaser, .releaser, .destroy, .destroy, .releaser, .releaser, .releaser,
    .releaser, .releaser, .destroy, .destroy]

theorem drains_twoParameters :
    ((runFromInit twoParameters).any fun s => decide (s.destroyer = .freed)) = true ∧
      ∀ k t, runFromInit (twoParameters.take k) = some t → t.Drains := by
  have hrun : ((runFromInit twoParameters).any fun s => decide (s.destroyer = .freed)) = true := by
    decide +kernel
  refine ⟨hrun, ?_⟩
  obtain ⟨s, hs, -⟩ := (Option.any_eq_true _ _).mp hrun
  rw [drains_iff_careful twoParameters hs]
  intro _
  decide +kernel

/-- The last push comes after the release thread has found the queue empty, and the status is set before
the thread reads it. -/
def lastPush : List (ReleaseLabel ℕ) :=
  [.releaser, .releaser, .releaser, .push 1, .consumer, .consumer, .consumer, .destroy, .destroy,
    .releaser, .releaser, .releaser, .destroy, .destroy]

theorem not_drains_lastPush : ∃ s, runFromInit lastPush = some s ∧ ¬ s.Drains := by
  have hrun : ((runFromInit lastPush).any fun s =>
      decide (s.destroyer = .freed ∧ s.released = [] ∧ s.pushed = [1])) = true := by
    decide +kernel
  obtain ⟨s, hs, h⟩ := (Option.any_eq_true _ _).mp hrun
  obtain ⟨hfreed, hreleased, hpushed⟩ := of_decide_eq_true h
  refine ⟨s, hs, fun hdrains => ?_⟩
  have hdrained := hdrains.drained hfreed
  rw [hreleased, hpushed] at hdrained
  cases hdrained

end TorchNpu.Queue.ReleaseQueue
