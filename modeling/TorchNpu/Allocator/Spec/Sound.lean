/-
  What holds at every moment of every run, however the allocator is configured and used.

  `Sound holes pend deferred s` speaks about a state.  `holes` are the blocks an operation is working on:
  they are in neither set of a pool.  The links between blocks are symmetric as far as they lead to blocks
  that are there; the blocks in the sets of a pool are free; the events that are outstanding (`pend`) are
  counted; the active blocks are those that are allocated, have events or are deferred; and the pages of
  what is not mapped in an expandable segment are whole.

  `Sets.step` says under which conditions one block may change: its data, the sets it is in, its events.
  All steps of the allocator are made of such changes.
-/
import TorchNpu.Allocator.Spec.Moves

namespace TorchNpu.Allocator

open Tiling

/-! ### The invariant -/

/-- What the data of a block say about each other. -/
structure Info.Consistent (i : Info) : Prop where
  events : i.allocated = true → i.eventCount = 0
  mapped : i.allocated = true ∨ 0 < i.eventCount → i.mapped = true
  expandable : i.mapped = false → i.expandable = true
  uses : 0 < i.eventCount → i.streamUses = []

/-- The sets and the counters. -/
structure Sets (holes : Set BlockId) (pend : Multiset BlockId) (deferred : List BlockId) (s : State) :
    Prop where
  fresh : ∀ b, s.fresh ≤ b → s.info b = none
  flags : ∀ b i, s.info b = some i → i.Consistent
  counts : ∀ b, pend.count b = (s.info b).elim 0 Info.eventCount
  blocks : ∀ pool, ∀ b ∈ s.blocks pool, b ∉ holes ∧ b ∉ deferred ∧
    ∃ i, s.info b = some i ∧ i.pool = pool ∧ i.kind = some true
  unmapped : ∀ pool, ∀ b ∈ s.unmapped pool, b ∉ holes ∧ b ∉ deferred ∧
    ∃ i, s.info b = some i ∧ i.pool = pool ∧ i.kind = some false
  waits : ∀ b ∈ deferred, b ∉ holes ∧ ∃ i, s.info b = some i ∧ i.kind = some true ∧
    i.streamUses ≠ []
  nodup : deferred.Nodup
  active : ∀ b, b ∉ holes →
    (b ∈ s.activeBlocks ↔ (∃ i, s.info b = some i ∧ i.kind = none) ∨ b ∈ deferred)
  activeNodup : s.activeBlocks.Nodup
  distinct : ∀ pool, (s.blocks pool).Nodup

/-- The blocks of an expandable segment that are not mapped consist of whole pages. -/
def State.Paged (s : State) : Prop :=
  ∀ b blk e, s.heap b = some blk → blk.expandableSegment = some e → 0 < e.segmentSize ∧
    (blk.mapped = false →
      e.ptr ≤ blk.ptr ∧ e.segmentSize ∣ blk.ptr - e.ptr ∧ e.segmentSize ∣ blk.size)

structure Sound (holes : Set BlockId) (pend : Multiset BlockId) (deferred : List BlockId)
    (s : State) : Prop where
  linked : Linked s.view
  unreferenced : ∀ b, s.fresh ≤ b → Unreferenced s.view b
  sets : Sets holes pend deferred s
  paged : s.Paged

/-! ### General facts -/

variable {s s' : State} {b c : BlockId} {blk blk' : Block} {i j : Info} {pool : PoolId}
  {holes holes' : Set BlockId} {pend pend' : Multiset BlockId} {deferred deferred' : List BlockId}

theorem Info.Consistent.kind_of_unmapped (h : i.Consistent) (hm : i.mapped = false) :
    i.kind = some false := by
  have huse : ¬(i.allocated = true ∨ 0 < i.eventCount) := by
    intro huse
    rw [h.mapped huse] at hm
    cases hm
  rw [not_or, Bool.not_eq_true] at huse
  rw [Info.kind_eq_some]
  exact ⟨huse.1, by omega, hm⟩

theorem Sound.live (S : Sound holes pend deferred s) (hb : s.heap b = some blk) : b < s.fresh := by
  by_contra h
  have hnone := S.sets.fresh b (not_lt.mp h)
  rw [State.info_eq_some hb] at hnone
  cases hnone

theorem Sound.fresh (S : Sound holes pend deferred s) : Fresh s := by
  refine ⟨?_, S.unreferenced s.fresh le_rfl⟩
  have hnone := S.sets.fresh s.fresh le_rfl
  rwa [State.info, Option.map_eq_none_iff] at hnone

theorem Sound.flags (S : Sound holes pend deferred s) (hb : s.heap b = some blk) :
    blk.info.Consistent :=
  S.sets.flags b blk.info (State.info_eq_some hb)

theorem Sound.count (S : Sound holes pend deferred s) (hb : s.heap b = some blk) :
    pend.count b = blk.eventCount := by
  have h := S.sets.counts b
  rwa [State.info_eq_some hb] at h

/-- The blocks in a free set. -/
theorem Sound.of_mem_blocks (S : Sound holes pend deferred s) (h : b ∈ s.blocks pool) :
    b ∉ holes ∧ b ∉ deferred ∧ ∃ blk, s.heap b = some blk ∧ blk.pool = pool ∧
      blk.info.kind = some true := by
  obtain ⟨hholes, hdeferred, i, hi, hp, hk⟩ := S.sets.blocks pool b h
  obtain ⟨blk, hblk, rfl⟩ := State.exists_of_info hi
  exact ⟨hholes, hdeferred, blk, hblk, hp, hk⟩

theorem Sound.of_mem_unmapped (S : Sound holes pend deferred s) (h : b ∈ s.unmapped pool) :
    b ∉ holes ∧ b ∉ deferred ∧ ∃ blk, s.heap b = some blk ∧ blk.pool = pool ∧
      blk.info.kind = some false := by
  obtain ⟨hholes, hdeferred, i, hi, hp, hk⟩ := S.sets.unmapped pool b h
  obtain ⟨blk, hblk, rfl⟩ := State.exists_of_info hi
  exact ⟨hholes, hdeferred, blk, hblk, hp, hk⟩

theorem mem_of_mem_setInsert {less : BlockId → BlockId → Bool} {l : List BlockId}
    (h : c ∈ setInsert less b l) : c = b ∨ c ∈ l := by
  induction l with
  | nil => exact .inl (List.mem_singleton.mp h)
  | cons x xs ih =>
    rw [setInsert] at h
    split_ifs at h with h1 h2
    · rcases List.mem_cons.mp h with rfl | h
      · exact .inr (List.mem_cons_self ..)
      · exact (ih h).imp_right (List.mem_cons_of_mem _)
    · exact (List.mem_cons.mp h)
    · exact .inr h

theorem mem_setErase {l : List BlockId} : c ∈ setErase b l ↔ c ∈ l ∧ c ≠ b := by
  simp [setErase]

/-! ### One block changes -/

/-- The data of `b` become `j`, and `b` may change the set it is in. -/
theorem Sets.step (S : Sets holes pend deferred s) (j : Option Info)
    (hinfo : ∀ x, s'.info x = if x = b then j else s.info x)
    (hfresh : s.fresh ≤ s'.fresh) (hb : j ≠ none → b < s'.fresh)
    (hflags : ∀ i, j = some i → i.Consistent)
    (hcounts : ∀ x, pend'.count x = if x = b then j.elim 0 Info.eventCount else pend.count x)
    (hholes : ∀ x, x ≠ b → (x ∈ holes' ↔ x ∈ holes))
    (hdeferred : ∀ x, x ≠ b → (x ∈ deferred' ↔ x ∈ deferred))
    (hblocks : ∀ pool x, x ∈ s'.blocks pool → x ≠ b ∧ x ∈ s.blocks pool ∨
      x = b ∧ b ∉ holes' ∧ b ∉ deferred' ∧ ∃ i, j = some i ∧ i.pool = pool ∧ i.kind = some true)
    (hunmapped : ∀ pool x, x ∈ s'.unmapped pool → x ≠ b ∧ x ∈ s.unmapped pool ∨
      x = b ∧ b ∉ holes' ∧ b ∉ deferred' ∧ ∃ i, j = some i ∧ i.pool = pool ∧ i.kind = some false)
    (hdeferred' : b ∈ deferred' → b ∉ holes' ∧ ∃ i, j = some i ∧ i.kind = some true ∧
      i.streamUses ≠ []) (hnodup : deferred'.Nodup)
    (hactive : ∀ x, x ≠ b → (x ∈ s'.activeBlocks ↔ x ∈ s.activeBlocks))
    (hactive' : b ∉ holes' →
      (b ∈ s'.activeBlocks ↔ (∃ i, j = some i ∧ i.kind = none) ∨ b ∈ deferred'))
    (hactiveNodup : s'.activeBlocks.Nodup) (hdistinct : ∀ pool, (s'.blocks pool).Nodup) :
    Sets holes' pend' deferred' s' where
  fresh x hx := by
    rw [hinfo]
    split_ifs with hxb
    · by_contra hj
      exact absurd (hb hj) (not_lt.mpr (hxb ▸ hx))
    · exact S.fresh x (hfresh.trans hx)
  flags x i hx := by
    rw [hinfo] at hx
    split_ifs at hx with hxb
    · exact hflags i hx
    · exact S.flags x i hx
  counts x := by
    rw [hcounts, hinfo]
    split_ifs with hxb
    · rfl
    · exact S.counts x
  blocks pool x hx := by
    rcases hblocks pool x hx with ⟨hxb, hx⟩ | ⟨rfl, h1, h2, i, hi, h⟩
    · obtain ⟨h1, h2, i, hi, h⟩ := S.blocks pool x hx
      exact ⟨fun h => h1 ((hholes x hxb).mp h), fun h => h2 ((hdeferred x hxb).mp h), i,
        by rwa [hinfo, if_neg hxb], h⟩
    · exact ⟨h1, h2, i, by rwa [hinfo, if_pos rfl], h⟩
  unmapped pool x hx := by
    rcases hunmapped pool x hx with ⟨hxb, hx⟩ | ⟨rfl, h1, h2, i, hi, h⟩
    · obtain ⟨h1, h2, i, hi, h⟩ := S.unmapped pool x hx
      exact ⟨fun h => h1 ((hholes x hxb).mp h), fun h => h2 ((hdeferred x hxb).mp h), i,
        by rwa [hinfo, if_neg hxb], h⟩
    · exact ⟨h1, h2, i, by rwa [hinfo, if_pos rfl], h⟩
  waits x hx := by
    by_cases hxb : x = b
    · subst hxb
      obtain ⟨h1, i, hi, h⟩ := hdeferred' hx
      exact ⟨h1, i, by rwa [hinfo, if_pos rfl], h⟩
    · obtain ⟨h1, i, hi, h⟩ := S.waits x ((hdeferred x hxb).mp hx)
      exact ⟨fun h => h1 ((hholes x hxb).mp h), i, by rwa [hinfo, if_neg hxb], h⟩
  nodup := hnodup
  active x hx := by
    by_cases hxb : x = b
    · subst hxb
      rw [hactive' hx, hinfo, if_pos rfl]
    · rw [hactive x hxb, hinfo, if_neg hxb, hdeferred x hxb]
      exact S.active x fun h => hx ((hholes x hxb).mpr h)
  activeNodup := hactiveNodup
  distinct := hdistinct

/-! ### Changes on the heap -/

theorem Sound.congr (S : Sound holes pend deferred s) (hview : s'.view = s.view)
    (hinfo : s'.info = s.info) (hpaged : s'.Paged) (hfresh : s'.fresh = s.fresh)
    (hblocks : s'.blocks = s.blocks) (hunmapped : s'.unmapped = s.unmapped)
    (hactive : s'.activeBlocks = s.activeBlocks) : Sound holes pend deferred s' where
  linked := by
    rw [hview]
    exact S.linked
  unreferenced := by
    rw [hview, hfresh]
    exact S.unreferenced
  sets :=
    { fresh := by rw [hfresh, hinfo]; exact S.sets.fresh
      flags := by rw [hinfo]; exact S.sets.flags
      counts := by rw [hinfo]; exact S.sets.counts
      blocks := by rw [hblocks, hinfo]; exact S.sets.blocks
      unmapped := by rw [hunmapped, hinfo]; exact S.sets.unmapped
      waits := by rw [hinfo]; exact S.sets.waits
      nodup := S.sets.nodup
      active := by rw [hactive, hinfo]; exact S.sets.active
      activeNodup := by rw [hactive]; exact S.sets.activeNodup
      distinct := by rw [hblocks]; exact S.sets.distinct }
  paged := hpaged

/-- Only the blocks and their sets matter. -/
theorem Sound.congr_heap (S : Sound holes pend deferred s) (hheap : s'.heap = s.heap)
    (hfresh : s'.fresh = s.fresh) (hblocks : s'.blocks = s.blocks)
    (hunmapped : s'.unmapped = s.unmapped) (hactive : s'.activeBlocks = s.activeBlocks) :
    Sound holes pend deferred s' := by
  refine S.congr ?_ ?_ ?_ hfresh hblocks hunmapped hactive
  · funext x
    rw [State.view, State.view, hheap]
  · funext x
    rw [State.info, State.info, hheap]
  · unfold State.Paged
    rw [hheap]
    exact S.paged

theorem info_put (x : BlockId) :
    (s.put b blk').info x = if x = b then some blk'.info else s.info x := by
  rw [State.info, State.put, State.withHeap_heap]
  by_cases hxb : x = b
  · subst hxb
    rw [Function.update_self, if_pos rfl, Option.map_some]
  · rw [Function.update_of_ne hxb, if_neg hxb, State.info]

theorem view_put (x : BlockId) :
    (s.put b blk').view x = if x = b then some blk'.piece else s.view x := by
  rw [State.view, State.put, State.withHeap_heap]
  by_cases hxb : x = b
  · subst hxb
    rw [Function.update_self, if_pos rfl, Option.map_some]
  · rw [Function.update_of_ne hxb, if_neg hxb, State.view]

/-- A block that keeps its links. -/
structure SameLinks (blk blk' : Block) : Prop where
  prev : blk'.prev = blk.prev
  next : blk'.next = blk.next
  tag : blk'.tag = blk.tag

theorem linked_put (H : Linked s.view) (hb : s.heap b = some blk) (h : SameLinks blk blk') :
    Linked (s.put b blk').view := by
  refine H.of_le fun a p' hp' => ?_
  rw [view_put] at hp'
  split_ifs at hp' with hab
  · subst hab
    rw [Option.some_inj] at hp'
    subst hp'
    exact ⟨blk.piece, State.view_eq_some hb, h.prev, h.next, h.tag⟩
  · exact ⟨p', hp', rfl, rfl, rfl⟩

theorem unreferenced_put (H : Unreferenced s.view c) (hb : s.heap b = some blk)
    (h : SameLinks blk blk') : Unreferenced (s.put b blk').view c := by
  intro a p' hp'
  rw [view_put] at hp'
  split_ifs at hp' with hab
  · rw [Option.some_inj] at hp'
    subst hp'
    change blk'.prev ≠ some c ∧ blk'.next ≠ some c
    rw [h.prev, h.next]
    exact H b blk.piece (State.view_eq_some hb)
  · exact H a p' hp'

theorem paged_put (H : s.Paged) (hb : s.heap b = some blk) (h : SameLinks blk blk')
    (hpaged : ∀ e, blk'.expandableSegment = some e → blk'.mapped = false →
      e.ptr ≤ blk'.ptr ∧ e.segmentSize ∣ blk'.ptr - e.ptr ∧ e.segmentSize ∣ blk'.size) :
    (s.put b blk').Paged := by
  intro x y e hx he
  rw [State.put, State.withHeap_heap] at hx
  by_cases hxb : x = b
  · subst hxb
    rw [Function.update_self, Option.some_inj] at hx
    subst hx
    have hsegment : blk.expandableSegment = some e := by
      rw [← he]
      exact (congrArg Tag.expandableSegment h.tag).symm
    exact ⟨(H x blk e hb hsegment).1, hpaged e he⟩
  · rw [Function.update_of_ne hxb] at hx
    exact H x y e hx he

/-- The data of a block change, but not its links. -/
theorem Sound.put (S : Sound holes pend deferred s) (blk' : Block) (hb : s.heap b = some blk)
    (h : SameLinks blk blk')
    (hpaged : ∀ e, blk'.expandableSegment = some e → blk'.mapped = false →
      e.ptr ≤ blk'.ptr ∧ e.segmentSize ∣ blk'.ptr - e.ptr ∧ e.segmentSize ∣ blk'.size)
    (hsets : Sets holes' pend' deferred' (s.put b blk')) :
    Sound holes' pend' deferred' (s.put b blk') where
  linked := linked_put S.linked hb h
  unreferenced x hx := unreferenced_put (S.unreferenced x hx) hb h
  sets := hsets
  paged := paged_put S.paged hb h hpaged

/-- The data of a hole change; its events with them. -/
theorem Sets.put_hole (S : Sets holes pend deferred s) (hb : s.heap b = some blk) (hbh : b ∈ holes)
    (hflags : blk'.info.Consistent)
    (hcounts : ∀ x, pend'.count x = if x = b then blk'.eventCount else pend.count x) :
    Sets holes pend' deferred (s.put b blk') := by
  refine S.step (some blk'.info) info_put le_rfl ?_ ?_ ?_ (fun _ _ => Iff.rfl) (fun _ _ => Iff.rfl)
    ?_ ?_ ?_ S.nodup (fun _ _ => Iff.rfl) (fun h => absurd hbh h) S.activeNodup S.distinct
  · intro _
    by_contra hfresh
    have hnone := S.fresh b (not_lt.mp hfresh)
    rw [State.info_eq_some hb] at hnone
    cases hnone
  · rintro i ⟨⟩
    exact hflags
  · exact hcounts
  · intro pool x hx
    exact .inl ⟨fun h => (S.blocks pool x hx).1 (h ▸ hbh), hx⟩
  · intro pool x hx
    exact .inl ⟨fun h => (S.unmapped pool x hx).1 (h ▸ hbh), hx⟩
  · intro hx
    exact absurd hbh (S.waits b hx).1

/-! ### Into and out of the sets -/

theorem nodup_eraseBlock (h : ∀ pool, (s.blocks pool).Nodup) (pool' : PoolId) :
    ((s.eraseBlock pool b).blocks pool').Nodup := by
  simp only [State.eraseBlock, Function.update_apply]
  split_ifs with hp
  · exact (h pool).filter _
  · exact h pool'

/-- A free block is taken out of its pool. -/
theorem Sound.eraseBlock (S : Sound holes pend deferred s) (hb : s.heap b = some blk)
    (hkind : blk.info.kind = some true) (hbd : b ∉ deferred) :
    Sound (insert b holes) pend deferred (s.eraseBlock blk.pool b) := by
  have hinfo := State.info_eq_some hb
  refine ⟨S.linked, S.unreferenced, ?_, S.paged⟩
  refine S.sets.step (some blk.info) ?_ le_rfl (fun _ => S.live hb) ?_ ?_ ?_ (fun _ _ => Iff.rfl) ?_
    ?_ (fun h => absurd h hbd) S.sets.nodup (fun _ _ => Iff.rfl) (fun h => absurd (.inl rfl) h)
    S.sets.activeNodup (nodup_eraseBlock S.sets.distinct)
  · intro x
    split_ifs with hxb
    · rw [hxb]
      exact hinfo
    · rfl
  · rintro i ⟨⟩
    exact S.flags hb
  · intro x
    split_ifs with hxb
    · rw [hxb]
      exact S.count hb
    · rfl
  · intro x hxb
    simp [hxb]
  · intro pool x hx
    left
    by_cases hp : pool = blk.pool
    · subst hp
      simp only [State.eraseBlock, Function.update_self, mem_setErase] at hx
      exact ⟨hx.2, hx.1⟩
    · simp only [State.eraseBlock, Function.update_of_ne hp] at hx
      refine ⟨?_, hx⟩
      rintro rfl
      obtain ⟨-, -, i, hi, hpool, -⟩ := S.sets.blocks pool x hx
      rw [hinfo, Option.some_inj] at hi
      subst hi
      exact hp hpool.symm
  · intro pool x hx
    refine .inl ⟨?_, hx⟩
    rintro rfl
    obtain ⟨-, -, i, hi, -, hk⟩ := S.sets.unmapped pool x hx
    rw [hinfo, Option.some_inj] at hi
    subst hi
    rw [hkind] at hk
    cases hk

/-- A block that is not mapped is taken out of its pool. -/
theorem Sound.eraseUnmapped (S : Sound holes pend deferred s) (hb : s.heap b = some blk)
    (hkind : blk.info.kind = some false) :
    Sound (insert b holes) pend deferred (s.eraseUnmapped blk.pool b) := by
  have hinfo := State.info_eq_some hb
  have hbd : b ∉ deferred := by
    intro h
    obtain ⟨-, i, hi, hk, -⟩ := S.sets.waits b h
    rw [hinfo, Option.some_inj] at hi
    subst hi
    rw [hkind] at hk
    cases hk
  refine ⟨S.linked, S.unreferenced, ?_, S.paged⟩
  refine S.sets.step (some blk.info) ?_ le_rfl (fun _ => S.live hb) ?_ ?_ ?_ (fun _ _ => Iff.rfl) ?_
    ?_ (fun h => absurd h hbd) S.sets.nodup (fun _ _ => Iff.rfl) (fun h => absurd (.inl rfl) h)
    S.sets.activeNodup S.sets.distinct
  · intro x
    split_ifs with hxb
    · rw [hxb]
      exact hinfo
    · rfl
  · rintro i ⟨⟩
    exact S.flags hb
  · intro x
    split_ifs with hxb
    · rw [hxb]
      exact S.count hb
    · rfl
  · intro x hxb
    simp [hxb]
  · intro pool x hx
    refine .inl ⟨?_, hx⟩
    rintro rfl
    obtain ⟨-, -, i, hi, -, hk⟩ := S.sets.blocks pool x hx
    rw [hinfo, Option.some_inj] at hi
    subst hi
    rw [hkind] at hk
    cases hk
  · intro pool x hx
    left
    by_cases hp : pool = blk.pool
    · subst hp
      simp only [State.eraseUnmapped, Function.update_self, mem_setErase] at hx
      exact ⟨hx.2, hx.1⟩
    · simp only [State.eraseUnmapped, Function.update_of_ne hp] at hx
      refine ⟨?_, hx⟩
      rintro rfl
      obtain ⟨-, -, i, hi, hpool, -⟩ := S.sets.unmapped pool x hx
      rw [hinfo, Option.some_inj] at hi
      subst hi
      exact hp hpool.symm

/-- A hole goes into a set of its pool, `blocks` or `unmapped`. -/
theorem Sound.close (S : Sound holes pend deferred s) (hb : s.heap b = some blk) (hbh : b ∈ holes)
    (hheap : s'.heap = s.heap) (hfresh : s'.fresh = s.fresh)
    (hblocks : ∀ pool x, x ∈ s'.blocks pool → x ∈ s.blocks pool ∨
      x = b ∧ blk.pool = pool ∧ blk.info.kind = some true)
    (hunmapped : ∀ pool x, x ∈ s'.unmapped pool → x ∈ s.unmapped pool ∨
      x = b ∧ blk.pool = pool ∧ blk.info.kind = some false)
    (hactive : ∀ x, x ≠ b → (x ∈ s'.activeBlocks ↔ x ∈ s.activeBlocks))
    (hactive' : b ∈ s'.activeBlocks ↔ blk.info.kind = none) (hnodup : s'.activeBlocks.Nodup)
    (hdistinct : ∀ pool, (s'.blocks pool).Nodup) : Sound (holes \ {b}) pend deferred s' := by
  have hinfo := State.info_eq_some hb
  have hinfo' : s'.info = s.info := by
    funext x
    rw [State.info, State.info, hheap]
  have hview' : s'.view = s.view := by
    funext x
    rw [State.view, State.view, hheap]
  have hbd : b ∉ deferred := fun h => (S.sets.waits b h).1 hbh
  have hbh' : b ∉ holes \ {b} := fun h => h.2 rfl
  refine ⟨?_, ?_, ?_, ?_⟩
  · rw [hview']
    exact S.linked
  · rw [hview', hfresh]
    exact S.unreferenced
  swap
  · unfold State.Paged
    rw [hheap]
    exact S.paged
  refine S.sets.step (some blk.info) ?_ hfresh.ge (fun _ => hfresh ▸ S.live hb) ?_ ?_ ?_
    (fun _ _ => Iff.rfl) ?_ ?_ (fun h => absurd h hbd) S.sets.nodup hactive ?_ hnodup hdistinct
  · intro x
    rw [hinfo']
    split_ifs with hxb
    · rw [hxb]
      exact hinfo
    · rfl
  · rintro i ⟨⟩
    exact S.flags hb
  · intro x
    split_ifs with hxb
    · rw [hxb]
      exact S.count hb
    · rfl
  · intro x hxb
    simp [hxb]
  · intro pool x hx
    rcases hblocks pool x hx with hx | ⟨rfl, hp, hk⟩
    · exact .inl ⟨fun h => (S.sets.blocks pool x hx).1 (h ▸ hbh), hx⟩
    · exact .inr ⟨rfl, hbh', hbd, blk.info, rfl, hp, hk⟩
  · intro pool x hx
    rcases hunmapped pool x hx with hx | ⟨rfl, hp, hk⟩
    · exact .inl ⟨fun h => (S.sets.unmapped pool x hx).1 (h ▸ hbh), hx⟩
    · exact .inr ⟨rfl, hbh', hbd, blk.info, rfl, hp, hk⟩
  · intro _
    rw [hactive']
    simp [hbd]

theorem mem_insertBlock {x : BlockId} {pool pool' : PoolId}
    (h : x ∈ (s.insertBlock pool b).blocks pool') : x ∈ s.blocks pool' ∨ x = b ∧ pool = pool' := by
  by_cases hp : pool' = pool
  · subst hp
    simp only [State.insertBlock, Function.update_self] at h
    rcases mem_of_mem_setInsert h with rfl | h
    · exact .inr ⟨rfl, rfl⟩
    · exact .inl h
  · simp only [State.insertBlock, Function.update_of_ne hp] at h
    exact .inl h

theorem nodup_setInsert {less : BlockId → BlockId → Bool} {l : List BlockId} (h : l.Nodup)
    (hb : b ∉ l) : (setInsert less b l).Nodup := by
  induction l with
  | nil => exact List.nodup_singleton b
  | cons x xs ih =>
    obtain ⟨hx, hxs⟩ := List.nodup_cons.mp h
    have hbx : b ≠ x := fun h => hb (h ▸ List.mem_cons_self ..)
    have hbxs : b ∉ xs := fun h => hb (List.mem_cons_of_mem _ h)
    rw [setInsert]
    split_ifs
    · refine List.nodup_cons.mpr ⟨fun hmem => ?_, ih hxs hbxs⟩
      rcases mem_of_mem_setInsert hmem with rfl | hmem
      · exact hbx rfl
      · exact hx hmem
    · exact List.nodup_cons.mpr ⟨hb, h⟩
    · exact h

theorem nodup_insertBlock (h : ∀ pool, (s.blocks pool).Nodup) (hb : b ∉ s.blocks pool)
    (pool' : PoolId) : ((s.insertBlock pool b).blocks pool').Nodup := by
  simp only [State.insertBlock, Function.update_apply]
  split_ifs with hp
  · exact nodup_setInsert (h pool) hb
  · exact h pool'

theorem mem_insertUnmapped {x : BlockId} {pool pool' : PoolId}
    (h : x ∈ (s.insertUnmapped pool b).unmapped pool') :
    x ∈ s.unmapped pool' ∨ x = b ∧ pool = pool' := by
  by_cases hp : pool' = pool
  · subst hp
    simp only [State.insertUnmapped, Function.update_self] at h
    rcases mem_of_mem_setInsert h with rfl | h
    · exact .inr ⟨rfl, rfl⟩
    · exact .inl h
  · simp only [State.insertUnmapped, Function.update_of_ne hp] at h
    exact .inl h

theorem Sound.insertBlock (S : Sound holes pend deferred s) (hb : s.heap b = some blk)
    (hbh : b ∈ holes) (hkind : blk.info.kind = some true) (hactive : b ∉ s.activeBlocks) :
    Sound (holes \ {b}) pend deferred (s.insertBlock blk.pool b) := by
  refine S.close hb hbh rfl rfl ?_ (fun _ _ h => .inl h) (fun _ _ => Iff.rfl) ?_ S.sets.activeNodup
    (nodup_insertBlock S.sets.distinct fun h => (S.sets.blocks blk.pool b h).1 hbh)
  · intro pool x hx
    exact (mem_insertBlock hx).imp_right fun h => ⟨h.1, h.2, hkind⟩
  · rw [hkind]
    exact ⟨fun h => absurd h hactive, nofun⟩

theorem Sound.insertUnmapped (S : Sound holes pend deferred s) (hb : s.heap b = some blk)
    (hbh : b ∈ holes) (hkind : blk.info.kind = some false) (hactive : b ∉ s.activeBlocks) :
    Sound (holes \ {b}) pend deferred (s.insertUnmapped blk.pool b) := by
  refine S.close hb hbh rfl rfl (fun _ _ h => .inl h) ?_ (fun _ _ => Iff.rfl) ?_ S.sets.activeNodup
    S.sets.distinct
  · intro pool x hx
    exact (mem_insertUnmapped hx).imp_right fun h => ⟨h.1, h.2, hkind⟩
  · rw [hkind]
    exact ⟨fun h => absurd h hactive, nofun⟩

/-! ### Merging -/

/-- What a merge leaves as it was. -/
structure Merged (b : BlockId) (blk : Block) (s s' : State) : Prop where
  eq : s' = { s with heap := s'.heap, blocks := s'.blocks, unmapped := s'.unmapped }
  block : ∃ blk', s'.heap b = some blk' ∧ blk'.info = blk.info ∧ blk'.tag = blk.tag ∧
    blk.size ≤ blk'.size ∧ blk'.gcCount = blk.gcCount

theorem Merged.refl (hb : s.heap b = some blk) : Merged b blk s s :=
  ⟨rfl, blk, hb, rfl, rfl, le_rfl, rfl⟩

theorem kind_of_mergeable {src : Block} (hm : Mergeable blk src) :
    src.info.kind = some src.mapped := by
  rw [Info.kind_eq_some]
  exact ⟨hm.1, hm.2.1, rfl⟩

theorem nodup_merge {h : BlockId → Option Block} {mapped : Bool}
    (hnodup : ∀ pool, (s.blocks pool).Nodup) (pool' : PoolId) :
    ((s.merge h pool mapped c).blocks pool').Nodup := by
  simp only [State.merge]
  split_ifs
  · exact nodup_eraseBlock hnodup pool'
  · exact hnodup pool'

/-- Merging takes the neighbour out of the set it is in. -/
theorem Sound.sets_merge {h : BlockId → Option Block} {src : Block}
    (S : Sound holes pend deferred s) (hc : s.heap c = some src) (hm : Mergeable blk src)
    (hpool : src.pool = blk.pool)
    (hinfo : ∀ x, (s.merge h blk.pool src.mapped c).info x = if x = c then none else s.info x) :
    Sets holes pend deferred (s.merge h blk.pool src.mapped c) := by
  have hci := State.info_eq_some hc
  have hkind := kind_of_mergeable hm
  have hcd : c ∉ deferred := by
    intro hcd
    obtain ⟨-, i, hi, -, huses⟩ := S.sets.waits c hcd
    rw [hci, Option.some_inj] at hi
    subst hi
    exact huses hm.2.2.1
  refine S.sets.step none hinfo le_rfl (fun h => absurd rfl h) nofun ?_ (fun _ _ => Iff.rfl)
    (fun _ _ => Iff.rfl) ?_ ?_ (fun h => absurd h hcd) S.sets.nodup (fun _ _ => Iff.rfl) ?_
    S.sets.activeNodup (nodup_merge S.sets.distinct)
  · intro x
    split_ifs with hxc
    · rw [hxc, S.count hc]
      exact hm.2.1
    · rfl
  · intro pool x hx
    left
    by_cases hcase : src.mapped = true ∧ pool = blk.pool
    · simp only [State.merge, hcase.1, if_true, hcase.2, Function.update_self, mem_setErase] at hx
      rw [hcase.2]
      exact ⟨hx.2, hx.1⟩
    have hx' : x ∈ s.blocks pool := by
      cases hmap : src.mapped with
      | false => simpa [State.merge, hmap] using hx
      | true =>
        have hp : pool ≠ blk.pool := fun h => hcase ⟨hmap, h⟩
        simpa [State.merge, hmap, Function.update_of_ne hp] using hx
    refine ⟨?_, hx'⟩
    rintro rfl
    obtain ⟨-, -, i, hi, hp, hk⟩ := S.sets.blocks pool x hx'
    rw [hci, Option.some_inj] at hi
    subst hi
    rw [hkind, Option.some_inj] at hk
    exact hcase ⟨hk, hp.symm.trans hpool⟩
  · intro pool x hx
    left
    by_cases hcase : src.mapped = false ∧ pool = blk.pool
    · simp only [State.merge, hcase.1, hcase.2, Bool.false_eq_true, if_false, Function.update_self,
        mem_setErase] at hx
      rw [hcase.2]
      exact ⟨hx.2, hx.1⟩
    have hx' : x ∈ s.unmapped pool := by
      cases hmap : src.mapped with
      | true => simpa [State.merge, hmap] using hx
      | false =>
        have hp : pool ≠ blk.pool := fun h => hcase ⟨hmap, h⟩
        simpa [State.merge, hmap, Function.update_of_ne hp] using hx
    refine ⟨?_, hx'⟩
    rintro rfl
    obtain ⟨-, -, i, hi, hp, hk⟩ := S.sets.unmapped pool x hx'
    rw [hci, Option.some_inj] at hi
    subst hi
    rw [hkind, Option.some_inj] at hk
    exact hcase ⟨hk, hp.symm.trans hpool⟩
  · intro hch
    change c ∈ s.activeBlocks ↔ _
    rw [S.sets.active c hch, hci]
    constructor
    · rintro (⟨i, hi, hk⟩ | h)
      · rw [Option.some_inj] at hi
        subst hi
        rw [hkind] at hk
        cases hk
      · exact absurd h hcd
    · rintro (⟨i, hi, -⟩ | h)
      · cases hi
      · exact absurd h hcd

/-- A piece that keeps whole pages. -/
theorem Sound.paged_merge {h : BlockId → Option Block} {src new : Block}
    (S : Sound holes pend deferred s) (hb : s.heap b = some blk) (hc : s.heap c = some src)
    (hm : Mergeable blk src) (htag : src.tag = blk.tag)
    (hnew : h b = some new) (htag' : new.tag = blk.tag) (hmapped : new.mapped = blk.mapped)
    (hsize : new.size = blk.size + src.size) (hptr : new.ptr = blk.ptr ∨ new.ptr = src.ptr)
    (hrest : ∀ x y, x ≠ b → h x = some y → ∃ y', s.heap x = some y' ∧ y.ptr = y'.ptr ∧
      y.size = y'.size ∧ y.mapped = y'.mapped ∧ y.expandableSegment = y'.expandableSegment) :
    (s.merge h pool src.mapped c).Paged := by
  intro x y e hx he
  rw [State.merge_heap] at hx
  by_cases hxb : x = b
  · subst hxb
    obtain rfl : new = y := Option.some_inj.mp (hnew.symm.trans hx)
    have hseg : blk.expandableSegment = some e :=
      (congrArg Tag.expandableSegment htag').symm.trans he
    have hseg' : src.expandableSegment = some e :=
      (congrArg Tag.expandableSegment htag).trans hseg
    obtain ⟨hpos, hblk⟩ := S.paged x blk e hb hseg
    refine ⟨hpos, fun hunmapped => ?_⟩
    rw [hmapped] at hunmapped
    obtain ⟨hle, hdvd, hdvd'⟩ := hblk hunmapped
    obtain ⟨hle₂, hdvd₂, hdvd₂'⟩ := (S.paged c src e hc hseg').2 (hm.2.2.2.symm.trans hunmapped)
    rw [hsize]
    rcases hptr with hptr | hptr
    · rw [hptr]
      exact ⟨hle, hdvd, hdvd'.add hdvd₂'⟩
    · rw [hptr]
      exact ⟨hle₂, hdvd₂, hdvd'.add hdvd₂'⟩
  · obtain ⟨y', hy', hptr', hsize', hmapped', hseg'⟩ := hrest x y hxb hx
    rw [hptr', hsize', hmapped']
    exact S.paged x y' e hy' (hseg' ▸ he)

theorem linkNext_eq_some {heap : BlockId → Option Block} {o : Option BlockId} {x : BlockId} {y : Block}
    (h : linkNext heap o c x = some y) : ∃ y', heap x = some y' ∧ y.ptr = y'.ptr ∧
      y.size = y'.size ∧ y.mapped = y'.mapped ∧ y.expandableSegment = y'.expandableSegment := by
  rw [linkNext] at h
  split_ifs at h with ho
  · obtain ⟨y', hy', rfl⟩ := Option.map_eq_some_iff.mp h
    exact ⟨y', hy', rfl, rfl, rfl, rfl⟩
  · exact ⟨y, h, rfl, rfl, rfl, rfl⟩

theorem linkPrev_eq_some {heap : BlockId → Option Block} {o : Option BlockId} {x : BlockId} {y : Block}
    (h : linkPrev heap o c x = some y) : ∃ y', heap x = some y' ∧ y.ptr = y'.ptr ∧
      y.size = y'.size ∧ y.mapped = y'.mapped ∧ y.expandableSegment = y'.expandableSegment := by
  rw [linkPrev] at h
  split_ifs at h with ho
  · obtain ⟨y', hy', rfl⟩ := Option.map_eq_some_iff.mp h
    exact ⟨y', hy', rfl, rfl, rfl, rfl⟩
  · exact ⟨y, h, rfl, rfl, rfl, rfl⟩

theorem Sound.mergePrev {n : ℕ} (S : Sound holes pend deferred s) (hb : s.heap b = some blk)
    (h : MergePrev b blk s n s') :
    Sound holes pend deferred s' ∧ Merged b blk s s' := by
  cases h with
  | kept hlive hk => exact ⟨S, .refl hb⟩
  | joined c src hprev hc hm hlive =>
    have hvb := State.view_eq_some hb
    have hvc := State.view_eq_some hc
    have hcb : c ≠ b := fun h => S.linked.prev_ne hvb (h ▸ hprev)
    have htag : src.tag = blk.tag :=
      S.linked.tag hvc hvb ((S.linked.symm hvc hvb).mpr hprev)
    have hpool : src.pool = blk.pool := congrArg Tag.pool htag
    refine ⟨⟨?_, ?_, S.sets_merge hc hm hpool (info_mergePrev hb), ?_⟩, rfl, _,
      mergePrevHeap_self hcb, rfl, rfl, Nat.le_add_right _ _, rfl⟩
    · rw [view_mergePrev]
      exact S.linked.mergePrev hvb hvc hprev
    · intro x hx
      rw [view_mergePrev]
      exact (S.unreferenced x hx).mergePrev hvb hvc ((S.live hb).trans_le hx).ne'
    · refine S.paged_merge hb hc hm htag (mergePrevHeap_self hcb) rfl rfl rfl (.inr rfl) ?_
      intro x y hxb hx
      rw [mergePrevHeap] at hx
      split_ifs at hx with hxc
      exact linkNext_eq_some hx

theorem Sound.mergeNext {n : ℕ} (S : Sound holes pend deferred s) (hb : s.heap b = some blk)
    (h : MergeNext b blk s n s') :
    Sound holes pend deferred s' ∧ Merged b blk s s' := by
  cases h with
  | kept hlive hk => exact ⟨S, .refl hb⟩
  | joined c src hnext hc hm hlive =>
    have hvb := State.view_eq_some hb
    have hvc := State.view_eq_some hc
    have hcb : c ≠ b := fun h => S.linked.next_ne hvb (h ▸ hnext)
    have htag : src.tag = blk.tag := (S.linked.tag hvb hvc hnext).symm
    have hpool : src.pool = blk.pool := congrArg Tag.pool htag
    refine ⟨⟨?_, ?_, S.sets_merge hc hm hpool (info_mergeNext hb), ?_⟩, rfl, _,
      mergeNextHeap_self hcb, rfl, rfl, Nat.le_add_right _ _, rfl⟩
    · rw [view_mergeNext]
      exact S.linked.mergeNext hvb hvc hnext
    · intro x hx
      rw [view_mergeNext]
      exact (S.unreferenced x hx).mergeNext hvb hvc ((S.live hb).trans_le hx).ne'
    · refine S.paged_merge hb hc hm htag (mergeNextHeap_self hcb) rfl rfl rfl (.inl rfl) ?_
      intro x y hxb hx
      rw [mergeNextHeap] at hx
      split_ifs at hx with hxc
      exact linkPrev_eq_some hx

/-! ### New blocks -/

theorem Sound.fresh_not_mem (S : Sound holes pend deferred s) :
    s.fresh ∉ deferred ∧ (∀ pool, s.fresh ∉ s.blocks pool ∧ s.fresh ∉ s.unmapped pool) := by
  have hnone := S.sets.fresh s.fresh le_rfl
  refine ⟨fun h => ?_, fun pool => ⟨fun h => ?_, fun h => ?_⟩⟩
  · obtain ⟨-, i, hi, -⟩ := S.sets.waits _ h
    rw [hnone] at hi
    cases hi
  · obtain ⟨-, -, i, hi, -⟩ := S.sets.blocks pool _ h
    rw [hnone] at hi
    cases hi
  · obtain ⟨-, -, i, hi, -⟩ := S.sets.unmapped pool _ h
    rw [hnone] at hi
    cases hi

/-- A new block is a hole. -/
theorem Sound.sets_extend (S : Sound holes pend deferred s) {h : BlockId → Option Block}
    (hj : j.allocated = false) (hevents : j.eventCount = 0)
    (hexpandable : j.mapped = false → j.expandable = true)
    (hinfo : ∀ x, (s.extend h).info x = if x = s.fresh then some j else s.info x) :
    Sets (insert s.fresh holes) pend deferred (s.extend h) := by
  obtain ⟨hdeferred, hsets⟩ := S.fresh_not_mem
  refine S.sets.step (some j) hinfo (Nat.le_succ _) (fun _ => Nat.lt_succ_self _) ?_ ?_ ?_
    (fun _ _ => Iff.rfl) ?_ ?_ (fun h => absurd h hdeferred) S.sets.nodup (fun _ _ => Iff.rfl)
    (fun h => absurd (.inl rfl) h) S.sets.activeNodup S.sets.distinct
  · rintro i ⟨⟩
    exact ⟨fun _ => hevents, by simp [hj, hevents], hexpandable, by simp [hevents]⟩
  · intro x
    split_ifs with hx
    · rw [hx, S.sets.counts, S.sets.fresh s.fresh le_rfl]
      exact hevents.symm
    · rfl
  · intro x hx
    simp [hx]
  · intro pool x hx
    exact .inl ⟨fun h => (hsets pool).1 (h ▸ hx), hx⟩
  · intro pool x hx
    exact .inl ⟨fun h => (hsets pool).2 (h ▸ hx), hx⟩

/-- The block `b`, which is mapped, is cut: the back of it is a new block. -/
theorem Sound.cutBack (S : Sound holes pend deferred s) (k : ℕ) (mapped : Bool)
    (hb : s.heap b = some blk) (hmapped : blk.mapped = true) (hlive : s.Live blk.next)
    (hback : mapped = false → ∃ e, blk.expandableSegment = some e ∧ e.ptr ≤ blk.ptr + k ∧
      e.segmentSize ∣ blk.ptr + k - e.ptr ∧ e.segmentSize ∣ blk.size - k) :
    Sound (insert s.fresh holes) pend deferred
      (s.extend (cutBackHeap s.heap b blk k s.fresh mapped)) := by
  have hvb := State.view_eq_some hb
  have hbf := S.fresh.ne hb
  have hview : s.view s.fresh = none := by rw [State.view, S.fresh.none, Option.map_none]
  refine ⟨?_, ?_, S.sets_extend rfl rfl ?_ (info_cutBack hb), ?_⟩
  · rw [view_cutBack]
    refine S.linked.splitBack hvb hview S.fresh.unreferenced fun n hn => ?_
    obtain ⟨y, hy⟩ := hlive n hn
    rw [State.view_eq_some hy]
    rfl
  · intro x hx
    have hx' : s.fresh < x := hx
    rw [view_cutBack]
    exact (S.unreferenced x hx'.le).splitBack hvb ((S.live hb).trans hx').ne' hx'.ne'
  · intro hm
    obtain ⟨e, he, -⟩ := hback hm
    change blk.expandableSegment.isSome = true
    rw [he]
    rfl
  · intro x y e hx he
    rw [State.extend_heap, cutBackHeap] at hx
    split_ifs at hx with hxf hxb
    · rw [Option.some_inj] at hx
      subst hx
      refine ⟨(S.paged b blk e hb he).1, fun hm => ?_⟩
      obtain ⟨e', he', hpages⟩ := hback hm
      obtain rfl : e' = e := Option.some_inj.mp (he'.symm.trans he)
      exact hpages
    · rw [Option.some_inj] at hx
      subst hx
      refine ⟨(S.paged b blk e hb he).1, fun hm => ?_⟩
      rw [hmapped] at hm
      cases hm
    · obtain ⟨y', hy', hptr', hsize', hmapped', hseg'⟩ := linkPrev_eq_some hx
      rw [hptr', hsize', hmapped']
      exact S.paged x y' e hy' (hseg' ▸ he)

/-- The block `b`, which is mapped, is cut: the front of it is a new block. -/
theorem Sound.cutFront (S : Sound holes pend deferred s) (k : ℕ)
    (hb : s.heap b = some blk) (hmapped : blk.mapped = true) (hlive : s.Live blk.prev) :
    Sound (insert s.fresh holes) pend deferred
      (s.extend (cutFrontHeap s.heap b blk k s.fresh)) := by
  have hvb := State.view_eq_some hb
  have hbf := S.fresh.ne hb
  have hview : s.view s.fresh = none := by rw [State.view, S.fresh.none, Option.map_none]
  refine ⟨?_, ?_, S.sets_extend rfl rfl ?_ (info_cutFront hb), ?_⟩
  · rw [view_cutFront]
    refine S.linked.splitFront hvb hview S.fresh.unreferenced fun n hn => ?_
    obtain ⟨y, hy⟩ := hlive n hn
    rw [State.view_eq_some hy]
    rfl
  · intro x hx
    have hx' : s.fresh < x := hx
    rw [view_cutFront]
    exact (S.unreferenced x hx'.le).splitFront hvb ((S.live hb).trans hx').ne' hx'.ne'
  · intro hm
    cases hm
  · intro x y e hx he
    rw [State.extend_heap, cutFrontHeap] at hx
    split_ifs at hx with hxf hxb
    · rw [Option.some_inj] at hx
      subst hx
      refine ⟨(S.paged b blk e hb he).1, fun hm => ?_⟩
      cases hm
    · rw [Option.some_inj] at hx
      subst hx
      refine ⟨(S.paged b blk e hb he).1, fun hm => ?_⟩
      rw [hmapped] at hm
      cases hm
    · obtain ⟨y', hy', hptr', hsize', hmapped', hseg'⟩ := linkNext_eq_some hx
      rw [hptr', hsize', hmapped']
      exact S.paged x y' e hy' (hseg' ▸ he)

/-- A new block that is a segment of its own. -/
theorem Sound.addBlock (S : Sound holes pend deferred s) (blk : Block) (hprev : blk.prev = none)
    (hnext : blk.next = none) (halloc : blk.allocated = false) (hevents : blk.eventCount = 0)
    (hmapped : blk.mapped = false → blk.expandableSegment.isSome = true)
    (hpaged : ∀ e, blk.expandableSegment = some e → 0 < e.segmentSize ∧
      e.ptr ≤ blk.ptr ∧ e.segmentSize ∣ blk.ptr - e.ptr ∧ e.segmentSize ∣ blk.size) :
    Sound (insert s.fresh holes) pend deferred
      (s.extend (Function.update s.heap s.fresh (some blk))) := by
  have hview : (s.extend (Function.update s.heap s.fresh (some blk))).view =
      Function.update s.view s.fresh (some blk.piece) := by
    funext x
    rw [State.view, State.extend_heap]
    by_cases hx : x = s.fresh
    · subst hx
      rw [Function.update_self, Function.update_self]
      rfl
    · rw [Function.update_of_ne hx, Function.update_of_ne hx]
      rfl
  have hinfo : ∀ x, (s.extend (Function.update s.heap s.fresh (some blk))).info x =
      if x = s.fresh then some blk.info else s.info x := by
    intro x
    rw [State.info, State.extend_heap]
    by_cases hx : x = s.fresh
    · subst hx
      rw [Function.update_self, if_pos rfl]
      rfl
    · rw [Function.update_of_ne hx, if_neg hx]
      rfl
  refine ⟨?_, ?_, S.sets_extend halloc hevents hmapped hinfo, ?_⟩
  · rw [hview]
    exact S.linked.add S.fresh.unreferenced hprev hnext
  · intro x hx y p hp
    have hx' : s.fresh < x := hx
    rw [hview] at hp
    by_cases hy : y = s.fresh
    · subst hy
      rw [Function.update_self, Option.some_inj] at hp
      subst hp
      change blk.prev ≠ some x ∧ blk.next ≠ some x
      rw [hprev, hnext]
      exact ⟨by simp, by simp⟩
    · rw [Function.update_of_ne hy] at hp
      exact S.unreferenced x hx'.le y p hp
  · intro x y e hx he
    rw [State.extend_heap] at hx
    by_cases hxf : x = s.fresh
    · subst hxf
      rw [Function.update_self, Option.some_inj] at hx
      subst hx
      exact ⟨(hpaged e he).1, fun _ => (hpaged e he).2⟩
    · rw [Function.update_of_ne hxf] at hx
      exact S.paged x y e hx he

/-! ### Deleted blocks -/

/-- A block that is not in use is deleted and taken out of its set. -/
theorem Sound.delete (S : Sound holes pend deferred s) (hb : s.heap b = some blk)
    (hbd : b ∉ deferred) (hbh : b ∉ holes) (hkind : blk.info.kind ≠ none)
    (hheap : s'.heap = Function.update s.heap b none) (hfresh : s'.fresh = s.fresh)
    (hblocks : ∀ pool x, x ∈ s'.blocks pool → x ∈ s.blocks pool ∧ x ≠ b)
    (hunmapped : ∀ pool x, x ∈ s'.unmapped pool → x ∈ s.unmapped pool ∧ x ≠ b)
    (hactive : s'.activeBlocks = s.activeBlocks) (hdistinct : ∀ pool, (s'.blocks pool).Nodup) :
    Sound holes pend deferred s' := by
  have hhb := State.info_eq_some hb
  have hold : ∀ x y, s'.heap x = some y → s.heap x = some y := by
    intro x y hx
    rw [hheap] at hx
    by_cases hxb : x = b
    · rw [hxb, Function.update_self] at hx
      cases hx
    · rwa [Function.update_of_ne hxb] at hx
  refine ⟨?_, ?_, ?_, ?_⟩
  · refine S.linked.of_le fun x p hp => ?_
    obtain ⟨y, hy, rfl⟩ := State.exists_of_view hp
    exact ⟨y.piece, State.view_eq_some (hold x y hy), rfl, rfl, rfl⟩
  · intro x hx y p hp
    obtain ⟨z, hz, rfl⟩ := State.exists_of_view hp
    exact S.unreferenced x (hfresh ▸ hx) y z.piece (State.view_eq_some (hold y z hz))
  swap
  · intro x y e hx he
    exact S.paged x y e (hold x y hx) he
  refine S.sets.step none ?_ hfresh.ge (fun h => absurd rfl h) nofun ?_ (fun _ _ => Iff.rfl)
    (fun _ _ => Iff.rfl) (fun pool x hx => .inl (hblocks pool x hx).symm)
    (fun pool x hx => .inl (hunmapped pool x hx).symm) (fun h => absurd h hbd) S.sets.nodup
    (fun _ _ => by rw [hactive]) ?_ (hactive ▸ S.sets.activeNodup) hdistinct
  · intro x
    rw [State.info, hheap]
    split_ifs with hxb
    · rw [hxb, Function.update_self]
      rfl
    · rw [Function.update_of_ne hxb]
      rfl
  · intro x
    split_ifs with hxb
    · rw [hxb, S.count hb]
      rw [Ne, Info.kind_eq_none, not_or] at hkind
      exact Nat.eq_zero_of_not_pos hkind.2
    · rfl
  · intro _
    rw [hactive, S.sets.active b hbh, hhb]
    constructor
    · rintro (⟨i, hi, hk⟩ | h)
      · rw [Option.some_inj] at hi
        subst hi
        exact absurd hk hkind
      · exact absurd h hbd
    · rintro (⟨i, hi, -⟩ | h)
      · cases hi
      · exact absurd h hbd

end TorchNpu.Allocator
