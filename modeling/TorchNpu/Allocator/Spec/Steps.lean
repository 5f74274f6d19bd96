/-
  The steps of the allocator as sequences of moves.

  `Allows L s l` says that the licence `L` covers what the step `l` does from the state `s`; most steps need
  none.  `moves_of_next` is the refinement: a step that is covered goes from one state between operations
  to the next by moves of `L`, also when it ends with an exception.  `invariant_of_moves` is how a property
  of all runs follows from a property of all moves.
-/
import TorchNpu.Allocator.Spec.Refinement

namespace TorchNpu.Allocator

open Tiling

variable {L : Licence} {m₀ m m' : Moment} {s s' : State} {cfg : Config} {p : AllocParams} {t : Thread}

/-! ### `malloc` -/

theorem Base.reaches (B : Base s.rest) : Reaches L s.rest s.rest :=
  ⟨.refl, B⟩

theorem wp_of_still {α : Type} {x : M α} {Q : α → State → Prop}
    (h : wp x s Q (Ends L.still m₀)) : wp x s Q (Ends L m₀) :=
  h.mono (fun _ _ h => h) fun _ _ => ends_of_still

theorem Searched.of_still {o : Option BlockId}
    (S : Searched L.still m₀ p.stream p.pool p.size o s) :
    Searched L m₀ p.stream p.pool p.size o s :=
  ⟨S.1.of_still, S.2⟩

/-- The request of a `malloc`. -/
def State.request (s : State) (cfg : Config) (captured : List MempoolId) (origSize : ℕ)
    (stream : Stream) : AllocParams :=
  { size := roundSize cfg origSize, stream, pool := s.poolFor captured (roundSize cfg origSize)
    allocSize := Allocator.allocSize cfg (roundSize cfg origSize) }

theorem request_wellSized {captured : List MempoolId} {origSize : ℕ} {stream : Stream} :
    (s.request cfg captured origSize stream).WellSized :=
  le_allocSize (roundSize_lt cfg origSize)

/-- `malloc` once it knows its request; nothing has been allocated since `s₀`. -/
theorem wp_serve {s₀ : State} (R : Reaches L.still s₀.rest s.rest)
    (hlazy : cfg.multiStreamLazyReclaim = true → s.Crowded → L.lazy)
    (hmay : MayMalloc L cfg p s₀) (hp : p.WellSized) :
    wp (do
      match ← findFree cfg p with
      | some b => finishMalloc cfg p b
      | none =>
        match ← collectionStage cfg with
        | some stage => unlock t ⟨p, stage⟩
        | none => allocate cfg t p : M Unit) s
      (fun _ s' => Reaches L s₀.rest s'.rest) (Ends L s₀.rest) := by
  refine (wp_of_still (wp_findFree R hlazy)).bind fun o s₁ S => ?_
  cases o with
  | some b => exact wp_finishMalloc hmay S.of_still
  | none =>
    have hstayed := S.1.stayed
    have R₁ : Reaches L s₀.rest s₁.rest := S.1.of_still
    refine wp_bind (wp_collectionStage fun stage => ?_)
    cases stage with
    | some stage => exact wp_unlock R₁ hp
    | none => exact wp_allocate hmay hp R₁ hstayed.total hstayed.maximum

theorem wp_malloc {captured : List MempoolId} {origSize : ℕ} {stream : Stream} (B : Base s.rest)
    (hlazy : cfg.multiStreamLazyReclaim = true → s.Crowded → L.lazy)
    (hmay : MayMalloc L cfg (s.request cfg captured origSize stream) s) :
    wp (malloc cfg t captured origSize stream) s (fun _ s' => Reaches L s.rest s'.rest)
      (Ends L s.rest) := by
  have hgo : ∀ s₁, Reaches L.still s.rest s₁.rest → s₁.capturesUnderway = s.capturesUnderway →
      (cfg.multiStreamLazyReclaim = true → s₁.Crowded → L.lazy) →
      wp (do
        let size := roundSize cfg origSize
        let pool ← getPool captured size
        let p : AllocParams := ⟨size, stream, pool, Allocator.allocSize cfg size⟩
        match ← findFree cfg p with
        | some b => finishMalloc cfg p b
        | none =>
          match ← collectionStage cfg with
          | some stage => unlock t ⟨p, stage⟩
          | none => allocate cfg t p : M Unit) s₁
        (fun _ s' => Reaches L s.rest s'.rest) (Ends L s.rest) := by
    intro s₁ R₁ hcaptures hlazy₁
    refine wp_bind (wp_getPool R₁.of_still ?_)
    have hpool : s₁.poolFor captured (roundSize cfg origSize) =
        s.poolFor captured (roundSize cfg origSize) := by
      rw [State.poolFor, State.poolFor, hcaptures]
    rw [hpool]
    exact wp_serve R₁ hlazy₁ hmay request_wellSized
  refine wp_bind (wp_get (wp_ite (fun hcond => ?_) fun _ => hgo s B.reaches rfl hlazy))
  rw [Bool.and_eq_true, Bool.not_eq_true'] at hcond
  refine (wp_of_still (wp_processEvents (.inl rfl) B.reaches)).bind fun _ s₁ ⟨R₁, hfound⟩ => ?_
  exact hgo s₁ R₁ hfound.captures fun htrue => absurd (hcond.1.symm.trans htrue) (by decide)

/-- The last part of `malloc` after blocks have been released; `retry` is what it does when there is
still no memory. -/
theorem wp_tryAgain {s₀ : State} {retry : Exception → M Unit}
    (R : Reaches L.still s₀.rest s.rest) (hmay : MayMalloc L cfg p s₀) (hp : p.WellSized)
    (hretry : ∀ err s', Reaches L s₀.rest s'.rest →
      wp (retry err) s' (fun _ s'' => Reaches L s₀.rest s''.rest) (Ends L s₀.rest)) :
    wp (do
      match ← allocBlock cfg p with
      | .ok b => finishMalloc cfg p b
      | .error err => retry err : M Unit) s
      (fun _ s' => Reaches L s₀.rest s'.rest) (Ends L s₀.rest) := by
  have hstayed := R.stayed
  refine (wp_allocBlock hmay hp R.of_still hstayed.total hstayed.maximum).bind fun r s₁ O => ?_
  cases r with
  | ok b => exact wp_finishMalloc hmay O
  | error err => exact hretry err s₁ O

theorem MayRelease.still {it : Option Iterator} (h : MayRelease L cfg p it s) :
    MayRelease L.still cfg p it s :=
  h

theorem wp_resumeMalloc {pending : Pending} (B : Base s.rest)
    (hpending : s.mallocs t = some pending) (hmay : MayMalloc L cfg pending.params s)
    (hrelease : ∀ it err, pending.stage = .available it err → MayRelease L cfg pending.params it s) :
    wp (resumeMalloc cfg t pending) s (fun _ s' => Reaches L s.rest s'.rest) (Ends L s.rest) := by
  have hp : pending.params.WellSized := B.waiting t pending hpending
  refine wp_bind (wp_modify ?_)
  have R : Reaches L.still s.rest
      ({ s with mallocs := Function.update s.mallocs t none } : State).rest :=
    ((B.reaches).move (.wait t none nofun)).holding rfl
  obtain ⟨params, stage⟩ := pending
  cases stage with
  | collect targetSize totalAge freeableBlockCount =>
    refine (wp_of_still (wp_garbageCollectCachedBlocks R)).bind fun _ s₁ R₁ => ?_
    exact wp_allocate hmay hp R₁.of_still R₁.stayed.total R₁.stayed.maximum
  | available it err =>
    have hrelease' := (hrelease it err rfl).still
    refine (wp_of_still (wp_releaseAvailableCachedBlocks R hrelease')).bind fun released s₁ R₁ => ?_
    refine wp_ite (fun _ => ?_) fun _ => wp_fallBack R₁.of_still hp
    exact wp_tryAgain R₁ hmay hp fun err s₂ R₂ => wp_fallBack R₂ hp
  | cached =>
    refine (wp_of_still (wp_releaseCachedBlocks R)).bind fun _ s₁ R₁ => ?_
    exact wp_tryAgain R₁ hmay hp fun err s₂ R₂ => wp_throw R₂.ends

/-! ### Graph captures -/

theorem wp_beginAllocateToPool {id : MempoolId} (R : Reaches L m₀ s.rest) :
    wp (beginAllocateToPool id) s (fun _ s' => Reaches L m₀ s'.rest) (Ends L m₀) := by
  have hlast : ∀ s₁, Reaches L m₀ s₁.rest →
      wp (do
        assert (!(← get).capturesUnderway.contains id)
        modify fun s => { s with capturesUnderway := s.capturesUnderway ++ [id] } : M Unit) s₁
        (fun _ s' => Reaches L m₀ s'.rest) (Ends L m₀) := by
    intro s₁ R₁
    refine wp_bind (wp_get (wp_bind (wp_assert (fun _ => wp_modify ?_) fun _ => R₁.ends)))
    refine R₁.silent (?_ : s₁.Quiet _) rfl
    constructor <;> rfl
  refine wp_bind (wp_get ?_)
  cases hpool : s.graphPools id with
  | none =>
    exact wp_bind (wp_modify (hlast _ ((R.move (.pool id {} (.inl ⟨hpool, rfl⟩))).holding rfl)))
  | some pp =>
    refine wp_bind (wp_assert (fun _ => wp_bind (wp_modify (hlast _ ?_))) fun _ => R.ends)
    exact (R.move (.pool id { pp with useCount := pp.useCount + 1 }
      (.inr ⟨pp, hpool, rfl⟩))).holding rfl

theorem wp_endAllocateToPool {id : MempoolId} (R : Reaches L m₀ s.rest) :
    wp (endAllocateToPool id) s (fun _ s' => Reaches L m₀ s'.rest) (Ends L m₀) := by
  refine wp_bind (wp_get (wp_bind (wp_assert (fun _ => wp_modify ?_) fun _ => R.ends)))
  refine R.silent (?_ : s.Quiet _) rfl
  constructor <;> rfl

theorem wp_releasePool {id : MempoolId} (R : Reaches L m₀ s.rest) :
    wp (releasePool id) s (fun _ s' => Reaches L m₀ s'.rest) (Ends L m₀) := by
  refine wp_bind (wp_get ?_)
  cases hpool : s.graphPools id with
  | none => exact wp_throw R.ends
  | some pp =>
    have R₁ : Reaches L m₀ (s.setPool id { pp with useCount := pp.useCount - 1 }).rest :=
      (R.move (.pool id { pp with useCount := pp.useCount - 1 } (.inr ⟨pp, hpool, rfl⟩))).holding rfl
    refine wp_bind (wp_modify (wp_bind (wp_assert (fun _ => ?_) fun _ => R₁.ends)))
    refine wp_ite (fun _ => ?_) fun _ => wp_pure R₁
    refine wp_bind (wp_get (wp_bind (wp_assert (fun _ => wp_modify ?_) fun _ => R₁.ends)))
    exact (R₁.move (.freeable id)).holding rfl

/-! ### Steps -/

/-- The licence `L` covers the step `l` from the state `s`. -/
def Allows (L : Licence) (s : State) : Label → Prop
  | .malloc cfg _ captured origSize stream _ =>
    (cfg.multiStreamLazyReclaim = true → s.Crowded → L.lazy) ∧
      MayMalloc L cfg (s.request cfg captured origSize stream) s
  | .resumeMalloc cfg t _ =>
    ∀ pending, s.mallocs t = some pending → MayMalloc L cfg pending.params s ∧
      ∀ it err, pending.stage = .available it err → MayRelease L cfg pending.params it s
  | .free b initFlag =>
    ∀ blk, s.heap b = some blk → blk.streamUses = [] ∨ initFlag = true ∨ L.uses
  | .setMemoryFraction _ => L.limit
  | _ => True

theorem reaches_of_after {x : M Unit}
    (h : wp x s (fun _ s' => Reaches L m₀ s'.rest) (Ends L m₀)) (hafter : s.after x = some s') :
    Reaches L m₀ s'.rest := by
  unfold State.after at hafter
  unfold wp at h
  cases hx : x s with
  | ok a s₁ =>
    rw [hx] at h hafter
    cases hafter
    exact h
  | error err s₁ =>
    rw [hx] at h hafter
    rcases h with rfl | rfl | h
    · cases hafter
    · cases hafter
    · cases err with
      | badPointer => cases hafter
      | unanswered => cases hafter
      | internalAssert | outOfMemory | aclError =>
        cases hafter
        exact h

theorem exists_of_isAllocated {b : BlockId} (h : s.isAllocated b = true) :
    ∃ blk, s.heap b = some blk ∧ blk.allocated = true := by
  unfold State.isAllocated at h
  cases hb : s.heap b with
  | none => simp [hb] at h
  | some blk => exact ⟨blk, rfl, by simpa [hb] using h⟩

/-- A step of a new `malloc` or of a suspended one, with the driver's answers to it. -/
theorem reaches_of_answered {x : M Unit} (answers : List Answer) (B : Base s.rest)
    (h : Base ({ s with answers } : State).rest →
      wp x { s with answers } (fun _ s' => Reaches L ({ s with answers } : State).rest s'.rest)
        (Ends L ({ s with answers } : State).rest))
    (hafter : ({ s with answers } : State).after x = some s') : Reaches L s.rest s'.rest := by
  have R : Reaches L s.rest ({ s with answers } : State).rest :=
    B.reaches.silent (quiet_answers answers) rfl
  obtain ⟨hmoves, B'⟩ := reaches_of_after (h R.2) hafter
  exact ⟨R.1.trans hmoves, B'⟩

theorem MayMalloc.answered {answers : List Answer} (h : MayMalloc L cfg p s) :
    MayMalloc L cfg p { s with answers } :=
  ⟨h.size, h.align, h.segment, h.expand⟩

theorem pending_of_perm {events : List (Stream × List BlockId)} (h : events.Perm s.npuEvents) :
    (({ s with npuEvents := events } : State).pending : Multiset BlockId) = s.pending :=
  Multiset.coe_eq_coe.mpr (h.flatMap_right _)

/-- Every step of the allocator is a sequence of moves. -/
theorem reaches_of_next {l : Label} (B : Base s.rest) (hallows : Allows L s l)
    (h : s.next l = some s') : Reaches L s.rest s'.rest := by
  cases l with
  | malloc cfg t captured origSize stream answers =>
    rw [State.next, Option.ite_none_left_eq_some] at h
    obtain ⟨hlazy, hmay⟩ := hallows
    exact reaches_of_answered answers B (fun B' => wp_malloc B' hlazy hmay.answered) h.2
  | resumeMalloc cfg t answers =>
    rw [State.next] at h
    cases hpending : s.mallocs t with
    | none => simp [hpending] at h
    | some pending =>
      rw [hpending] at h
      obtain ⟨hmay, hrelease⟩ := hallows pending hpending
      exact reaches_of_answered answers B 
        (fun B' => wp_resumeMalloc B' hpending hmay.answered hrelease) h
  | free b initFlag =>
    rw [State.next, Option.ite_none_right_eq_some] at h
    obtain ⟨blk, hb, halloc⟩ := exists_of_isAllocated h.1
    exact reaches_of_after (wp_free B.reaches hb halloc (hallows blk hb)) h.2
  | recordStream b stream =>
    rw [State.next, Option.ite_none_right_eq_some] at h
    obtain ⟨blk, hb, halloc⟩ := exists_of_isAllocated h.1
    exact reaches_of_after (wp_recordStream B.reaches hb halloc) h.2
  | eraseStream b stream =>
    rw [State.next, Option.ite_none_right_eq_some] at h
    obtain ⟨blk, hb, halloc⟩ := exists_of_isAllocated h.1
    exact reaches_of_after (wp_eraseStream B.reaches hb halloc) h.2
  | processEvents answers =>
    rw [State.next, Option.ite_none_right_eq_some] at h
    refine reaches_of_answered answers B (fun B' => ?_) h.2
    exact (wp_processEvents (.inl rfl) B'.reaches).post fun _ _ h => h.1
  | emptyCache freePhysical answers =>
    exact reaches_of_answered answers B (fun B' => wp_releaseCachedBlocks B'.reaches) h
  | rehash events =>
    rw [State.next, Option.ite_none_right_eq_some] at h
    obtain ⟨hperm, heq⟩ := h
    cases heq
    have R : Reaches L s.rest { s.rest with state := { s with npuEvents := events } } :=
      B.reaches.quiet (quiet_npuEvents events)
    simpa only [State.rest, pending_of_perm hperm] using R
  | getCheckpointState =>
    refine reaches_of_after ?_ h
    exact (wp_insertEventsDeferredUntilNoCapture (.inl rfl) B.reaches).post fun _ _ h => h.1
  | beginAllocateToPool id => exact reaches_of_after (wp_beginAllocateToPool B.reaches) h
  | endAllocateToPool id => exact reaches_of_after (wp_endAllocateToPool B.reaches) h
  | releasePool id => exact reaches_of_after (wp_releasePool B.reaches) h
  | setMemoryFraction maximum =>
    cases h
    exact (B.reaches.move (.limit maximum hallows)).holding rfl

theorem base_init : Base ({} : State).rest := by
  have hview : ∀ b p, ({} : State).view b ≠ some p := fun b p => Option.some_ne_none p ∘ Eq.symm
  have hinfo : ∀ b i, ({} : State).info b ≠ some i := fun b i => Option.some_ne_none i ∘ Eq.symm
  have hlinked : Linked ({} : State).view :=
    ⟨fun _ => 0, fun a p b q ha => absurd ha (hview a p), fun a p b q ha => absurd ha (hview a p),
      fun a p b q ha => absurd ha (hview a p)⟩
  refine ⟨⟨hlinked, fun b _ a p ha => absurd ha (hview a p), ?_, fun b blk e hb => ?_⟩, ?_, ?_, ?_⟩
  · refine ⟨fun b _ => rfl, fun b i hi => absurd hi (hinfo b i), fun b => Multiset.count_zero b,
      fun pool b hb => absurd hb List.not_mem_nil, fun pool b hb => absurd hb List.not_mem_nil,
      fun b hb => absurd hb List.not_mem_nil, List.nodup_nil, fun b _ => ?_, List.nodup_nil,
      fun pool => List.nodup_nil⟩
    refine iff_of_false List.not_mem_nil ?_
    rintro (⟨i, hi, -⟩ | hb)
    · exact hinfo b i hi
    · exact List.not_mem_nil hb
  · cases hb
  · intro b hb
    cases hb
  · intro b hb
    cases hb
  · intro t x hx
    cases hx

/-- A property of moments that every move of the licences of a run keeps holds at its end. -/
theorem invariant_of_moves {G : State → Label → Prop} {ls : List Label} (J : Moment → Prop)
    (lic : State → Label → Licence)
    (hallows : ∀ s l, Base s.rest → J s.rest → G s l → Allows (lic s l) s l)
    (hmove : ∀ s l m m', Base s.rest → J s.rest → G s l → Base m → J m → Move (lic s l) m m' → J m')
    (hinit : J ({} : State).rest) (hguard : Machine.Guarded State.next G {} ls)
    (hrun : runFromInit ls = some s) : Base s.rest ∧ J s.rest := by
  refine Machine.guarded_run_induction (P := fun s => Base s.rest ∧ J s.rest) ?_ ⟨base_init, hinit⟩
    hguard hrun
  rintro s l s' ⟨B, hJ⟩ hG hnext
  obtain ⟨hmoves, B'⟩ := reaches_of_next B (hallows s l B hJ hG) hnext
  exact ⟨B', hmoves.induction B hJ fun m m' => hmove s l m m' B hJ hG⟩

end TorchNpu.Allocator
