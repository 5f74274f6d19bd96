/-
  No block is handed out while events of it are outstanding.

  The number of events of a block is always the number of its entries in the queues.  That no stream is
  recorded for a block that is handed out needs that `free` gets to insert the events: it does so only
  while the device is initialised.
-/
import TorchNpu.Allocator.Spec.Descent
import TorchNpu.Allocator.Spec.Trace

namespace TorchNpu.Allocator

open Tiling

variable {L : Licence} {m m' : Moment} {s s' : State} {b c : BlockId} {blk : Block}

/-! ### The invariant -/

/-- No stream is recorded for a block that is neither allocated nor waiting for its events to be
inserted. -/
def Moment.Unused (m : Moment) : Prop :=
  ∀ b blk, m.state.heap b = some blk → blk.allocated = false → m.held ≠ some b → b ∉ m.deferred →
    blk.streamUses = []

theorem Moment.Unused.descends (J : m.Unused) (h : Descends m.state m'.state)
    (hheld : m'.held = m.held) (hdeferred : m'.deferred = m.deferred) : m'.Unused := by
  intro c y' hy' halloc hc hc'
  rw [hheld] at hc
  rw [hdeferred] at hc'
  rcases h c y' hy' with ⟨y, hy, hcont⟩ | ⟨a, y, hy, hcut⟩
  · rw [hcont.streamUses]
    exact J c y hy (hcont.allocated ▸ halloc) hc hc'
  · exact hcut.streamUses

/-- One block is written, and only this one may have changed its place. -/
theorem Moment.Unused.put {blk' : Block} {held : Option BlockId} {pend : Multiset BlockId}
    {deferred : List BlockId} (J : m.Unused)
    (hb : blk'.allocated = false → held ≠ some b → b ∉ deferred → blk'.streamUses = [])
    (hheld : ∀ c, c ≠ b → held ≠ some c → m.held ≠ some c)
    (hdeferred : ∀ c, c ≠ b → c ∉ deferred → c ∉ m.deferred) :
    Moment.Unused { m with state := m.state.put b blk', held, pend, deferred } := by
  intro c y' hy' halloc hc hc'
  by_cases hcb : c = b
  · subst hcb
    obtain rfl : blk' = y' :=
      Option.some_inj.mp ((State.put_heap_self m.state c blk').symm.trans hy')
    exact hb halloc hc hc'
  · have hy : m.state.heap c = some y' := by
      rwa [State.put, State.withHeap_heap, Function.update_of_ne hcb] at hy'
    exact J c y' hy halloc (hheld c hcb hc) (hdeferred c hcb hc')

theorem Moment.Unused.congr (J : m.Unused) (hheap : m'.state.heap = m.state.heap)
    (hheld : m'.held = m.held) (hdeferred : m'.deferred = m.deferred) : m'.Unused :=
  J.descends (.of_heap hheap) hheld hdeferred

/-- A new block. -/
theorem Moment.Unused.add (blk : Block) (J : m.Unused) (hblk : blk.streamUses = [])
    (hheap : m'.state.heap = Function.update m.state.heap c (some blk)) (hheld : m'.held = m.held)
    (hdeferred : m'.deferred = m.deferred) : m'.Unused := by
  intro x y' hy' halloc hx hx'
  rw [hheap, Function.update_apply] at hy'
  rw [hheld] at hx
  rw [hdeferred] at hx'
  split_ifs at hy' with hxc
  · cases hy'
    exact hblk
  · exact J x y' hy' halloc hx hx'

theorem Move.unused (h : Move L m m') (huses : ¬L.uses) (J : m.Unused) : m'.Unused := by
  cases h with
  | quiet h => exact J.congr h.heap rfl rfl
  | age f =>
    refine J.descends (fun c y' hy' => ?_) rfl rfl
    obtain ⟨y, hy, rfl⟩ := Option.map_eq_some_iff.mp hy'
    exact .inl ⟨y, hy, rfl, rfl, rfl, rfl⟩
  | segment p ptr hfound hheld hlicence hfits havailable hpool =>
    exact J.add _ rfl heap_addSegment rfl rfl
  | expand stream pool e hfound hheld hpage hexpandable hpos havailable =>
    exact J.add (newExpandableBlock stream pool e) rfl rfl rfl rfl
  | map b blk e n hfound hheld hb hkind hsegment hpos hdvd hsize hbudget h =>
    exact J.descends (h.descends hb) rfl rfl
  | count b blk hfound hb hexpandable hpool =>
    refine J.congr ?_ rfl rfl
    rw [State.countMalloc_eq]
  | align b blk k hfound hheld hb hpos hk halign hlive =>
    exact J.descends (descends_align hb) rfl rfl
  | split b blk k hfound hheld hb hsize hk hlive =>
    exact J.descends (descends_splitFound hb) rfl rfl
  | whole b blk hfound hb => exact J.descends descends_takeWhole rfl rfl
  | activate b blk hfound hheld hb hpool =>
    have J₁ : Moment.Unused { m with state := m.state.put b { blk with allocated := true } } :=
      J.put nofun (fun _ _ h => h) fun _ _ h => h
    exact J₁.congr rfl rfl rfl
  | deallocate b blk hfound hheld hb halloc hpool =>
    have J₁ : Moment.Unused
        { m with state := m.state.put b { blk with allocated := false }, held := some b } :=
      J.put (fun _ h => absurd rfl h) (fun c _ _ => by simp [hheld]) fun _ _ h => h
    exact J₁.congr rfl rfl rfl
  | uses b blk streams hb h =>
    refine J.put (fun halloc hheld _ => ?_) (fun _ _ h => h) fun _ _ h => h
    rcases h with htrue | hsome
    · exact absurd (htrue.symm.trans halloc) (by decide)
    · exact absurd hsome hheld
  | events b blk hheld hb hne =>
    refine J.put (fun _ _ _ => rfl) (fun c hcb _ => ?_) fun _ _ h => h
    rw [hheld]
    exact fun h => hcb (Option.some_inj.mp h).symm
  | defer b blk hheld hb hne =>
    intro c y hy halloc _ hc
    rw [List.mem_append, List.mem_singleton, not_or] at hc
    refine J c y hy halloc ?_ hc.1
    rw [hheld]
    exact fun h => hc.2 (Option.some_inj.mp h).symm
  | undefer b rest hheld hdeferred =>
    intro c y hy halloc hc hc'
    refine J c y hy halloc (by simp [hheld]) ?_
    rw [hdeferred, List.mem_cons, not_or]
    exact ⟨fun h => hc (congrArg some h.symm), hc'⟩
  | event b blk pend hpend hb hcount =>
    exact J.put (fun halloc hne hnot => J b blk hb halloc hne hnot) (fun _ _ h => h) fun _ _ h => h
  | lastEvent b blk pend hheld hpend hb hcount =>
    exact J.put (fun _ h => absurd rfl h) (fun c _ _ => by simp [hheld]) fun _ _ h => h
  | free b blk hheld hb hblk hlazy h =>
    intro c y' hy' halloc _ hc
    rcases h.descends hb c y' hy' with ⟨y, hy, hcont⟩ | ⟨a, y, hy, hcut⟩
    · rw [hcont.streamUses]
      by_cases hcb : c = b
      · subst hcb
        obtain rfl : y = blk := Option.some_inj.mp (hy.symm.trans hb)
        exact hblk.resolve_right huses
      · refine J c y hy (hcont.allocated ▸ halloc) ?_ hc
        rw [hheld]
        exact fun h => hcb (Option.some_inj.mp h).symm
    · exact hcut.streamUses
  | unmap b blk e lo n hfound hheld hb hin hsegment hlo hpos hend hptr hdvd hdvd' h hcount =>
    have J₁ : Moment.Unused { m with state := _ } := J.descends (h.descends hb) rfl rfl
    rcases hcount with ⟨-, rfl⟩ | ⟨-, rfl⟩
    · rw [State.countFree_eq]
      exact J₁.congr rfl rfl rfl
    · rw [State.beforeCountFree_eq]
      exact J₁.congr rfl rfl rfl
  | release b blk hfound hheld hb hin hsegment hsplit hpool hpositive =>
    refine J.descends (descends_delete (b := b) ?_) rfl rfl
    rw [freeSegment_release_eq]
  | releaseFails b blk hfound hheld hb hin hsegment hsplit hpool hpositive =>
    refine J.congr ?_ rfl rfl
    rw [freeSegment_beforeCountFree_eq]
  | dropSegment b blk e hfound hheld hb hkind hsegment hsize hmem hsplit =>
    exact J.descends (descends_delete (b := b) rfl) rfl rfl
  | wait | take | handOut | grant | giveUp | pool | freeable | erase | limit =>
    exact J.congr rfl rfl rfl

/-! ### Runs -/

/-- The licence that covers everything. -/
def anyLicence : Licence := { wholeLicence with split := fun _ => True }

/-- The licence of a step that frees no block with recorded streams. -/
def unusedLicence : Licence := { anyLicence with uses := False }

/-- A block with recorded streams is freed while the device is initialised. -/
def FreedInitialised (s : State) : Label → Prop
  | .free b initFlag => ∀ blk, s.heap b = some blk → blk.streamUses = [] ∨ initFlag = true
  | _ => True

theorem mayMalloc_unusedLicence {cfg : Config} {p : AllocParams} :
    MayMalloc unusedLicence cfg p s where
  size := trivial
  align _ _ _ := trivial
  segment _ := trivial
  expand _ _ _ _ := ⟨trivial, trivial, fun _ _ _ _ _ => trivial⟩

theorem allows_unusedLicence {l : Label} (h : FreedInitialised s l) : Allows unusedLicence s l := by
  cases l with
  | malloc => exact ⟨fun _ _ => trivial, mayMalloc_unusedLicence⟩
  | resumeMalloc => exact fun _ _ => ⟨mayMalloc_unusedLicence, fun _ _ _ _ _ _ _ _ _ => .inr trivial⟩
  | free b initFlag => exact fun blk hb => (h blk hb).imp_right .inl
  | setMemoryFraction => trivial
  | recordStream | eraseStream | processEvents | emptyCache | rehash | getCheckpointState
  | beginAllocateToPool | endAllocateToPool | releasePool => trivial

theorem mayMalloc_anyLicence {cfg : Config} {p : AllocParams} : MayMalloc anyLicence cfg p s where
  size := trivial
  align _ _ _ := trivial
  segment _ := trivial
  expand _ _ _ _ := ⟨trivial, trivial, fun _ _ _ _ _ => trivial⟩

theorem allows_anyLicence {l : Label} : Allows anyLicence s l := by
  cases l with
  | malloc => exact ⟨fun _ _ => trivial, mayMalloc_anyLicence⟩
  | resumeMalloc => exact fun _ _ => ⟨mayMalloc_anyLicence, fun _ _ _ _ _ _ _ _ _ => .inr trivial⟩
  | free => exact fun _ _ => .inr (.inr trivial)
  | setMemoryFraction => trivial
  | recordStream | eraseStream | processEvents | emptyCache | rehash | getCheckpointState
  | beginAllocateToPool | endAllocateToPool | releasePool => trivial

/-- The entry of a block that is handed out has no events. -/
def TraceEntry.NoEvents : TraceEntry → Prop
  | .handOut blk => blk.eventCount = 0
  | _ => True

/-- The entry of a block that is handed out has no streams. -/
def TraceEntry.NoUses : TraceEntry → Prop
  | .handOut blk => blk.streamUses = []
  | _ => True

theorem Recorded.noEvents {e : TraceEntry} (B : Base m) (h : Recorded L m e) : e.NoEvents := by
  cases h with
  | handOut b blk hfound hb => exact (Info.kind_eq_some.mp (B.found_kind hfound hb)).2.1
  | segment p ptr => exact rfl
  | segmentFree | countFree | erasePool => trivial

theorem Recorded.noUses {e : TraceEntry} (B : Base m) (J : m.Unused) (h : Recorded L m e) :
    e.NoUses := by
  cases h with
  | handOut b blk hfound hb =>
    have hkind := B.found_kind hfound hb
    refine J b blk hb (Info.kind_eq_some.mp hkind).1 (fun hheld => (B.held b hheld).1 hfound) ?_
    intro hdeferred
    exact (B.sound.sets.waits b hdeferred).1 (.inl hfound)
  | segment p ptr => exact rfl
  | segmentFree | countFree | erasePool => trivial

/-- Every state of every run. -/
theorem base_of_run {ls : List Label} (hrun : runFromInit ls = some s) :
    Base s.rest ∧ ∀ e ∈ s.trace, e.NoEvents := by
  have hguard : Machine.Guarded State.next (fun _ _ => True) {} ls :=
    Machine.guarded_of_forall fun _ _ => trivial
  refine invariant_of_moves (fun m => ∀ e ∈ m.state.trace, e.NoEvents) (fun _ _ => anyLicence)
    (fun _ _ _ _ _ => allows_anyLicence) ?_ ?_ hguard hrun
  · intro s l m m' _ _ _ B hm h
    exact h.forall_trace (fun e he => he.noEvents B) hm
  · intro e he
    exact absurd he List.not_mem_nil

/-- A block that a second stream has used is freed and allocated again. -/
def reuseRun (initFlag : Bool) (complete : List Answer) : List Label :=
  [.malloc {} 0 [] 1000 1 [.address 1048576], .recordStream 1 2, .free 1 initFlag,
    .malloc {} 0 [] 1000 1 complete]

end TorchNpu.Allocator
