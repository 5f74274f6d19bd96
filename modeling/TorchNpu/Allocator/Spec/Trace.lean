/-
  What the moves of the allocator write into the trace, and which blocks go back to the device.

  `Recorded L m e` says that a move from `m` may write the entry `e`; a property of all entries of the trace
  follows from a property of the entries that can be recorded.
-/
import TorchNpu.Allocator.Spec.Steps

namespace TorchNpu.Allocator

open Tiling

variable {L : Licence} {m m' : Moment} {s s' : State} {b : BlockId} {blk : Block} {pool : PoolId}

/-! ### Entries of the trace -/

inductive Recorded (L : Licence) (m : Moment) : TraceEntry → Prop
  | handOut (b : BlockId) (blk : Block) (hfound : m.found = some b)
      (hb : m.state.heap b = some blk) : Recorded L m (.handOut blk)
  | segment (p : AllocParams) (ptr : ℕ) : Recorded L m (.handOut (newSegmentBlock p ptr))
  | segmentFree (b : BlockId) (blk : Block) (hb : m.state.heap b = some blk)
      (hin : b ∈ m.state.blocks blk.pool) (hsplit : blk.isSplit = false ∨ L.split b) :
      Recorded L m (.segmentFree blk (decide (b ∈ m.state.blocks blk.pool)))
  | countFree (b : BlockId) (blk : Block) (id : MempoolId) (pp : PrivatePool)
      (hb : m.state.heap b = some blk) (hpool : m.state.privatePool blk.pool = some (id, pp)) :
      Recorded L m (.countFree pp)
  | erasePool (id : MempoolId) (pp : PrivatePool) (hpool : m.state.graphPools id = some pp)
      (huse : pp.useCount = 0) : Recorded L m (.erasePool pp)

theorem trace_beforeCountFree :
    (s.beforeCountFree pool).trace =
      s.trace ++ ((s.privatePool pool).map fun entry => TraceEntry.countFree entry.2).toList := by
  rw [State.beforeCountFree]
  cases s.privatePool pool with
  | none => exact (List.append_nil _).symm
  | some entry => rfl

theorem trace_countFree :
    (s.countFree pool).trace =
      s.trace ++ ((s.privatePool pool).map fun entry => TraceEntry.countFree entry.2).toList := by
  rw [State.countFree]
  cases s.privatePool pool with
  | none => exact (List.append_nil _).symm
  | some entry => rfl

theorem recorded_countFree (hb : m.state.heap b = some blk) :
    ∀ e ∈ ((m.state.privatePool blk.pool).map fun entry => TraceEntry.countFree entry.2).toList,
      Recorded L m e := by
  intro e he
  rw [Option.mem_toList, Option.map_eq_some_iff] at he
  obtain ⟨⟨id, pp⟩, hpool, rfl⟩ := he
  exact .countFree b blk id pp hb hpool

/-- What a move adds to the trace. -/
theorem Move.trace (h : Move L m m') :
    ∃ es, m'.state.trace = m.state.trace ++ es ∧ ∀ e ∈ es, Recorded L m e := by
  have hnone : ∀ s' : State, s'.trace = m.state.trace →
      ∃ es, s'.trace = m.state.trace ++ es ∧ ∀ e ∈ es, Recorded L m e := by
    intro s' h
    exact ⟨[], by rw [h, List.append_nil], fun e he => absurd he List.not_mem_nil⟩
  have hone : ∀ (s' : State) (e : TraceEntry), s'.trace = m.state.trace ++ [e] → Recorded L m e →
      ∃ es, s'.trace = m.state.trace ++ es ∧ ∀ e ∈ es, Recorded L m e := by
    intro s' e h he
    refine ⟨[e], h, fun e' he' => ?_⟩
    rwa [List.mem_singleton.mp he']
  cases h with
  | quiet h => exact hnone _ h.trace
  | handOut b blk hfound hb => exact hone _ _ rfl (.handOut b blk hfound hb)
  | segment p ptr hfound hheld hlicence hfits havailable hpool =>
    refine hone _ (.handOut (newSegmentBlock p ptr)) ?_ (.segment p ptr)
    rw [State.addSegment, State.countMalloc_eq]
    rfl
  | map b blk e n hfound hheld hb hkind hsegment hpos hdvd hsize hbudget h =>
    refine hnone _ ?_
    rw [h.eq]
  | count b blk hfound hb hexpandable hpool =>
    refine hnone _ ?_
    rw [State.countMalloc_eq]
  | split b blk k hfound hheld hb hsize hk hlive =>
    refine hnone _ ?_
    rw [State.splitFound]
    split_ifs <;> rfl
  | whole b blk hfound hb =>
    refine hnone _ ?_
    rw [State.takeWhole]
    split_ifs <;> rfl
  | free b blk hheld hb huses hlazy h =>
    refine hnone _ ?_
    rw [h.eq]
  | unmap b blk e lo n hfound hheld hb hin hsegment hlo hpos hend hptr hdvd hdvd' h hcount =>
    refine ⟨_, ?_, recorded_countFree hb⟩
    rcases hcount with ⟨-, rfl⟩ | ⟨-, rfl⟩
    · rw [h.eq]
      exact trace_countFree
    · rw [h.eq]
      exact trace_beforeCountFree
  | release b blk hfound hheld hb hin hsegment hsplit hpool hpositive =>
    refine ⟨.segmentFree blk (decide (b ∈ m.state.blocks blk.pool)) :: _, ?_,
      List.forall_mem_cons.mpr ⟨.segmentFree b blk hb hin hsplit, recorded_countFree hb⟩⟩
    rw [List.append_cons]
    exact trace_countFree
  | releaseFails b blk hfound hheld hb hin hsegment hsplit hpool hpositive =>
    refine ⟨.segmentFree blk (decide (b ∈ m.state.blocks blk.pool)) :: _, ?_,
      List.forall_mem_cons.mpr ⟨.segmentFree b blk hb hin hsplit, recorded_countFree hb⟩⟩
    rw [List.append_cons]
    exact trace_beforeCountFree
  | erase id pp hfound hheld hpool huse hcount => exact hone _ _ rfl (.erasePool id pp hpool huse)
  | wait | age | take | grant | giveUp | expand | align | activate | deallocate | uses | events
  | defer | undefer | event | lastEvent | dropSegment | pool | freeable | limit =>
    exact hnone _ rfl

theorem Move.forall_trace {P : TraceEntry → Prop} (h : Move L m m')
    (hrecorded : ∀ e, Recorded L m e → P e) (hP : ∀ e ∈ m.state.trace, P e) :
    ∀ e ∈ m'.state.trace, P e := by
  obtain ⟨es, heq, hes⟩ := h.trace
  rw [heq]
  intro e he
  rcases List.mem_append.mp he with he | he
  · exact hP e he
  · exact hrecorded e (hes e he)

/-! ### Segments that go back to the device -/

/-- The block of a `release_block` is a whole segment and free. -/
def TraceEntry.Whole : TraceEntry → Prop
  | .segmentFree blk isFree =>
    isFree = true ∧ blk.allocated = false ∧ blk.eventCount = 0 ∧ blk.prev = none ∧ blk.next = none
  | _ => True

instance : DecidablePred TraceEntry.Whole
  | .segmentFree blk isFree =>
    inferInstanceAs (Decidable (isFree = true ∧ blk.allocated = false ∧ blk.eventCount = 0 ∧
      blk.prev = none ∧ blk.next = none))
  | .handOut _ => isTrue trivial
  | .countFree _ => isTrue trivial
  | .erasePool _ => isTrue trivial

/-- The licence of a step that releases only blocks without neighbours. -/
def wholeLicence : Licence where
  uses := True
  lazy := True
  split := fun _ => False
  size := fun _ => True
  align := True
  page := fun _ => True
  expandable := fun _ => True
  segment := True
  limit := True
  grant := fun _ _ _ => True

/-- When a `malloc` goes on after `release_available_cached_blocks` has synchronised the device, then no
free block of the stream that it may release is split: neither the one at its iterator nor any of
`max_split_size` bytes or more. -/
def OversizeWhole (s : State) : Label → Prop
  | .resumeMalloc cfg t _ =>
    ∀ pending, s.mallocs t = some pending → ∀ it err, pending.stage = .available it err →
      ∀ b blk, s.heap b = some blk → b ∈ s.blocks pending.params.pool →
        blk.stream = pending.params.stream →
        (it.map Iterator.block = some b ∨ cfg.maxSplitSize ≤ blk.size) → blk.isSplit = false
  | _ => True

theorem mayMalloc_wholeLicence {cfg : Config} {p : AllocParams} : MayMalloc wholeLicence cfg p s where
  size := trivial
  align _ _ _ := trivial
  segment _ := trivial
  expand _ _ _ _ := ⟨trivial, trivial, fun _ _ _ _ _ => trivial⟩

theorem allows_wholeLicence {l : Label} (h : OversizeWhole s l) : Allows wholeLicence s l := by
  cases l with
  | malloc => exact ⟨fun _ _ => trivial, mayMalloc_wholeLicence⟩
  | resumeMalloc cfg t answers =>
    intro pending hpending
    refine ⟨mayMalloc_wholeLicence, fun it err hstage b blk hb hin hstream hsize => ?_⟩
    exact .inl (h pending hpending it err hstage b blk hb hin hstream hsize)
  | free => exact fun _ _ => .inr (.inr trivial)
  | setMemoryFraction => trivial
  | recordStream | eraseStream | processEvents | emptyCache | rehash | getCheckpointState
  | beginAllocateToPool | endAllocateToPool | releasePool => trivial

theorem Recorded.whole {e : TraceEntry} (B : Base m) (h : Recorded wholeLicence m e) : e.Whole := by
  cases h with
  | segmentFree b blk hb hin hsplit =>
    obtain ⟨-, -, blk', hb', -, hkind⟩ := B.sound.of_mem_blocks hin
    obtain rfl : blk' = blk := Option.some_inj.mp (hb'.symm.trans hb)
    obtain ⟨halloc, hevents, -⟩ := Info.kind_eq_some.mp hkind
    exact ⟨decide_eq_true hin, halloc, hevents, isSplit_eq_false.mp (hsplit.resolve_right id)⟩
  | handOut | segment | countFree | erasePool => trivial

/-- A block is allocated, freed and given back to the device. -/
def emptyCacheRun : List Label :=
  [.malloc {} 0 [] 1000 1 [.address 1048576], .free 1 true, .emptyCache true []]

/-- With pages of one gigabyte, the rest of a split segment can be larger than `max_split_size`: it counts
as an oversize block. -/
def oversizeConfig : Config := { maxSplitSize := 67108864, page1G := true }

/-- A block of 30 MB is split off a segment; the second request finds no block and no memory. -/
def oversizeRun : List Label :=
  [.malloc oversizeConfig 0 [] 31457280 1 [.address 1073741824],
    .malloc oversizeConfig 0 [] 31457280 1 [.memoryAllocation],
    .resumeMalloc oversizeConfig 0 [.memoryAllocation]]

end TorchNpu.Allocator
