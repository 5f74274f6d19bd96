/-
  The limit that `setMemoryFraction` sets.

  `alloc_block` compares the total with the limit once, with `alloc_size` added.  An expandable segment then
  maps whole pages until the request fits, which can be more than `alloc_size`.
-/
import TorchNpu.Allocator.Spec.Reuse

namespace TorchNpu.Allocator

open ExpandableSegment Tiling

variable {L : Licence} {m m' : Moment} {s s' : State} {cfg : Config} {p : AllocParams}

/-! ### Pages -/

theorem Move.hasPage {stream : Stream} {pool : PoolId} {page : ℕ} (h : Move L m m')
    (hpage : m'.state.HasPage stream pool page) :
    m.state.HasPage stream pool page ∨ L.page page := by
  obtain ⟨b, y', e, hy', hstream, hpool, hsegment, rfl⟩ := hpage
  rcases h.tag hy' with ⟨a, y, hy, htag⟩ | hfounded
  · have htag' : y.stream = y'.stream ∧ y.pool = y'.pool ∧
        y.expandableSegment = y'.expandableSegment :=
      ⟨(congrArg Tag.stream htag).symm, (congrArg Tag.pool htag).symm,
        (congrArg Tag.expandableSegment htag).symm⟩
    exact .inl ⟨a, y, e, hy, htag'.1.trans hstream, htag'.2.1.trans hpool,
      htag'.2.2.trans hsegment, rfl⟩
  · cases hfounded with
    | segment p ptr hhas => cases hsegment
    | expand stream pool e' hpage hexpandable =>
      cases hsegment
      exact .inr hpage

/-! ### The limit -/

/-- The total of the allocated memory is within the limit, if there is one. -/
def State.WithinLimit (s : State) : Prop :=
  ∀ maximum, s.allowedMemoryMaximum = some maximum → s.totalAllocatedMemory ≤ maximum

/-- The whole pages that a request may map are no more than its `alloc_size`, or there is room for them
below the limit. -/
def PagesFit (s : State) (cfg : Config) (p : AllocParams) : Prop :=
  cfg.expandableSegments = true →
    ∀ page, page = cfg.pageSize p.pool ∨ s.HasPage p.stream p.pool page →
      wholePages page p.size ≤ p.allocSize ∨ ∀ maximum, s.allowedMemoryMaximum = some maximum →
        s.totalAllocatedMemory + wholePages page p.size ≤ maximum

/-- `setMemoryFraction` is called with a limit that has not been reached, and the pages of every
allocation from an expandable segment fit. -/
def Fits (s : State) : Label → Prop
  | .malloc cfg _ captured origSize stream _ => PagesFit s cfg (s.request cfg captured origSize stream)
  | .resumeMalloc cfg t _ => ∀ pending, s.mallocs t = some pending → PagesFit s cfg pending.params
  | .setMemoryFraction maximum => s.totalAllocatedMemory ≤ maximum
  | _ => True

/-- The licence of an allocation from the state `s`. -/
def mallocLicence (s : State) (cfg : Config) (p : AllocParams) : Licence :=
  { anyLicence with
    page := fun page => cfg.expandableSegments = true ∧ page = cfg.pageSize p.pool
    segment := cfg.expandableSegments = false
    limit := False
    grant := fun s₁ a n => cfg.expandableSegments = true ∧ a = p.allocSize ∧
      s₁.totalAllocatedMemory ≤ s.totalAllocatedMemory ∧
      ∃ page, (page = cfg.pageSize p.pool ∨ s₁.HasPage p.stream p.pool page) ∧
        n = wholePages page p.size }

theorem mayMalloc_mallocLicence : MayMalloc (mallocLicence s cfg p) cfg p s where
  size := trivial
  align _ _ _ := trivial
  segment h := h
  expand hexpandable _ htotal _ :=
    { page := ⟨hexpandable, rfl⟩
      expandable := trivial
      grant := fun _ page htotal' _ hpage =>
        ⟨hexpandable, rfl, htotal'.le.trans htotal, page, hpage, rfl⟩ }

/-- The moments of an allocation that has started in the state `s`. -/
structure Capped (s : State) (cfg : Config) (p : AllocParams) (m : Moment) : Prop where
  maximum : m.state.allowedMemoryMaximum = s.allowedMemoryMaximum
  bound : ∀ maximum, s.allowedMemoryMaximum = some maximum →
    m.state.totalAllocatedMemory + m.budget ≤ maximum
  budget : cfg.expandableSegments = false → m.budget = 0
  page : ∀ page, m.state.HasPage p.stream p.pool page →
    cfg.expandableSegments = true ∧ page = cfg.pageSize p.pool ∨ s.HasPage p.stream p.pool page

theorem Capped.init (h : s.WithinLimit) : Capped s cfg p s.rest :=
  ⟨rfl, h, fun _ => rfl, fun _ => .inr⟩

theorem le_of_exceeds {a maximum : ℕ} (h : s.exceeds a = false)
    (hmaximum : s.allowedMemoryMaximum = some maximum) : s.totalAllocatedMemory + a ≤ maximum := by
  unfold State.exceeds at h
  rw [hmaximum] at h
  exact not_lt.mp (of_decide_eq_false h)

/-- The total and the budget of a moment after a move. -/
theorem Move.capped (h : Move (mallocLicence s cfg p) m m') (hfit : PagesFit s cfg p)
    (C : Capped s cfg p m) : Capped s cfg p m' := by
  have hpages : ∀ page, m'.state.HasPage p.stream p.pool page →
      cfg.expandableSegments = true ∧ page = cfg.pageSize p.pool ∨
        s.HasPage p.stream p.pool page := by
    intro page hpage
    rcases h.hasPage hpage with hpage | hpage
    · exact C.page page hpage
    · exact .inl hpage
  have hkeep : m'.state.allowedMemoryMaximum = m.state.allowedMemoryMaximum →
      m'.state.totalAllocatedMemory ≤ m.state.totalAllocatedMemory → m'.budget ≤ m.budget →
      Capped s cfg p m' := by
    intro hmaximum htotal hbudget
    refine ⟨hmaximum.trans C.maximum, fun maximum hm => ?_, fun hfalse => ?_, hpages⟩
    · have := C.bound maximum hm
      omega
    · have := C.budget hfalse
      omega
  cases h with
  | quiet h => exact hkeep h.allowedMemoryMaximum h.totalAllocatedMemory.le le_rfl
  | segment q ptr hfound hheld hlicence hfits havailable hpool =>
    have hmaximum : (m.state.addSegment q ptr).allowedMemoryMaximum = m.state.allowedMemoryMaximum := by
      rw [State.addSegment, State.countMalloc_eq]
      rfl
    have htotal : (m.state.addSegment q ptr).totalAllocatedMemory =
        m.state.totalAllocatedMemory + q.allocSize := by
      rw [State.addSegment, State.countMalloc_eq]
      rfl
    refine ⟨hmaximum.trans C.maximum, fun maximum hm => ?_, C.budget, hpages⟩
    have hle := le_of_exceeds hfits (C.maximum.trans hm)
    have hbudget := C.budget hlicence
    simp only [htotal, hbudget]
    exact hle
  | grant a n hfits hgrant =>
    obtain ⟨hexpandable, rfl, htotal, page, hpage, rfl⟩ := hgrant
    refine ⟨C.maximum, fun maximum hm => ?_, fun hfalse => ?_, hpages⟩
    · have hpage' : page = cfg.pageSize p.pool ∨ s.HasPage p.stream p.pool page := by
        rcases hpage with hpage | hpage
        · exact .inl hpage
        · exact (C.page page hpage).imp_left And.right
      have hle := le_of_exceeds hfits (C.maximum.trans hm)
      rcases hfit hexpandable page hpage' with hpages | hroom
      · exact (Nat.add_le_add_left hpages _).trans hle
      · exact (Nat.add_le_add_right htotal _).trans (hroom maximum hm)
    · rw [hexpandable] at hfalse
      cases hfalse
  | giveUp n hn => exact hkeep rfl le_rfl hn
  | map b blk e n hfound hheld hb hkind hsegment hpos hdvd hsize hbudget h =>
    have hmaximum := congrArg State.allowedMemoryMaximum h.eq
    have htotal := congrArg State.totalAllocatedMemory h.eq
    refine ⟨hmaximum.trans C.maximum, fun maximum hm => ?_, fun hfalse => ?_, hpages⟩
    · have := C.bound maximum hm
      simp only at htotal ⊢
      omega
    · have := C.budget hfalse
      simp only
      omega
  | count b blk hfound hb hexpandable hpool =>
    rw [State.countMalloc_eq] at hkeep ⊢
    exact hkeep rfl le_rfl le_rfl
  | split b blk k hfound hheld hb hsize hk hlive =>
    refine hkeep ?_ (le_of_eq ?_) le_rfl
    · rw [State.splitFound]
      split_ifs <;> rfl
    · rw [State.splitFound]
      split_ifs <;> rfl
  | whole b blk hfound hb =>
    refine hkeep ?_ (le_of_eq ?_) le_rfl
    · rw [State.takeWhole]
      split_ifs <;> rfl
    · rw [State.takeWhole]
      split_ifs <;> rfl
  | free b blk hheld hb hblk hlazy h =>
    have hmaximum := congrArg State.allowedMemoryMaximum h.eq
    have htotal := congrArg State.totalAllocatedMemory h.eq
    exact hkeep hmaximum htotal.le le_rfl
  | unmap b blk e lo n hfound hheld hb hin hsegment hlo hpos hend hptr hdvd hdvd' h hcount =>
    have hmaximum := congrArg State.allowedMemoryMaximum h.eq
    have htotal := (congrArg State.totalAllocatedMemory h.eq).le.trans (Nat.sub_le _ n)
    rcases hcount with ⟨-, rfl⟩ | ⟨-, rfl⟩
    · rw [State.countFree_eq] at hkeep ⊢
      exact hkeep hmaximum htotal le_rfl
    · rw [State.beforeCountFree_eq] at hkeep ⊢
      exact hkeep hmaximum htotal le_rfl
  | release b blk hfound hheld hb hin hsegment hsplit hpool hpositive =>
    rw [freeSegment_release_eq] at hkeep ⊢
    exact hkeep rfl (Nat.sub_le _ _) le_rfl
  | releaseFails b blk hfound hheld hb hin hsegment hsplit hpool hpositive =>
    rw [freeSegment_beforeCountFree_eq] at hkeep ⊢
    exact hkeep rfl (Nat.sub_le _ _) le_rfl
  | limit maximum hlicence => exact hlicence.elim
  | wait | age | take | handOut | expand | align | activate | deallocate | uses | events | defer
  | undefer | event | lastEvent | dropSegment | pool | freeable | erase =>
    exact hkeep rfl le_rfl le_rfl

/-! ### Runs -/

/-- The parameters of an allocation that a step goes on with. -/
def State.serves (s : State) : Label → Config × AllocParams
  | .malloc cfg _ captured origSize stream _ => (cfg, s.request cfg captured origSize stream)
  | .resumeMalloc cfg t _ => (cfg, ((s.mallocs t).map Pending.params).getD ⟨0, 0, .small, 0⟩)
  | _ => ({}, ⟨0, 0, .small, 0⟩)

theorem allows_mallocLicence {l : Label} (h : ∀ maximum, l ≠ .setMemoryFraction maximum) :
    Allows (mallocLicence s (s.serves l).1 (s.serves l).2) s l := by
  cases l with
  | malloc => exact ⟨fun _ _ => trivial, mayMalloc_mallocLicence⟩
  | resumeMalloc cfg t answers =>
    intro pending hpending
    have hserves : (s.serves (.resumeMalloc cfg t answers)).2 = pending.params := by
      simp only [State.serves, hpending, Option.map_some, Option.getD_some]
    rw [hserves]
    exact ⟨mayMalloc_mallocLicence, fun _ _ _ _ _ _ _ _ _ => .inr trivial⟩
  | free => exact fun _ _ => .inr (.inr trivial)
  | setMemoryFraction maximum => exact absurd rfl (h maximum)
  | recordStream | eraseStream | processEvents | emptyCache | rehash | getCheckpointState
  | beginAllocateToPool | endAllocateToPool | releasePool => trivial

theorem pagesFit_serves {l : Label} (h : Fits s l) :
    PagesFit s (s.serves l).1 (s.serves l).2 := by
  have hnone : PagesFit s {} ⟨0, 0, .small, 0⟩ := fun h => absurd h (by decide)
  cases l with
  | malloc => exact h
  | resumeMalloc cfg t answers =>
    cases hpending : s.mallocs t with
    | none =>
      have hserves : (s.serves (.resumeMalloc cfg t answers)).2 = ⟨0, 0, .small, 0⟩ := by
        simp only [State.serves, hpending, Option.map_none, Option.getD_none]
      rw [hserves]
      exact fun _ page _ => .inl (wholePages_zero page).le
    | some pending =>
      have hserves : (s.serves (.resumeMalloc cfg t answers)).2 = pending.params := by
        simp only [State.serves, hpending, Option.map_some, Option.getD_some]
      rw [hserves]
      exact h pending hpending
  | free | setMemoryFraction | recordStream | eraseStream | processEvents | emptyCache | rehash
  | getCheckpointState | beginAllocateToPool | endAllocateToPool | releasePool => exact hnone

theorem withinLimit_next {l : Label} (B : Base s.rest) (h : s.WithinLimit) (hfits : Fits s l)
    (hnext : s.next l = some s') : s'.WithinLimit := by
  by_cases hset : ∃ maximum, l = .setMemoryFraction maximum
  · obtain ⟨maximum, rfl⟩ := hset
    cases hnext
    rintro x ⟨⟩
    exact hfits
  · have hallows : Allows (mallocLicence s (s.serves l).1 (s.serves l).2) s l :=
      allows_mallocLicence fun maximum hl => hset ⟨maximum, hl⟩
    obtain ⟨hmoves, -⟩ := reaches_of_next B hallows hnext
    have C : Capped s (s.serves l).1 (s.serves l).2 s'.rest :=
      hmoves.induction B (.init h) fun _ _ _ C hmove => hmove.capped (pagesFit_serves hfits) C
    exact fun maximum hm => C.bound maximum (C.maximum.symm.trans hm)

/-- One allocation of 22 MB from an expandable segment under a limit. -/
def limitRun (maximum : ℕ) : List Label :=
  [.setMemoryFraction maximum, .malloc { expandableSegments := true } 0 [] 22000000 1
    [.reserved 1048576000 10, .physical 1, .physical 2, .done, .done]]

end TorchNpu.Allocator
