/-
  Where the blocks of a state come from.

  Cutting and merging changes which blocks there are and how large they are, but not who uses them: each
  block afterwards is one from before, or a new free block that was cut off one.
-/
import TorchNpu.Allocator.Spec.Steps

namespace TorchNpu.Allocator

open Tiling

variable {L : Licence} {m m' : Moment} {s s' s'' : State} {b c : BlockId} {blk : Block} {pool : PoolId}

/-! ### Descent -/

/-- `y'` is `y`, perhaps with another size. -/
structure Continues (y y' : Block) : Prop where
  tag : y'.tag = y.tag
  allocated : y'.allocated = y.allocated
  eventCount : y'.eventCount = y.eventCount
  streamUses : y'.streamUses = y.streamUses

/-- `y'` is a new block in the place of a part of `y`. -/
structure CutOff (y y' : Block) : Prop where
  tag : y'.tag = y.tag
  allocated : y'.allocated = false
  eventCount : y'.eventCount = 0
  streamUses : y'.streamUses = []

def Descends (s s' : State) : Prop :=
  ∀ c y', s'.heap c = some y' → (∃ y, s.heap c = some y ∧ Continues y y') ∨
    ∃ a y, s.heap a = some y ∧ CutOff y y'

theorem Continues.refl (y : Block) : Continues y y :=
  ⟨rfl, rfl, rfl, rfl⟩

theorem Continues.trans {x y z : Block} (h : Continues x y) (h' : Continues y z) : Continues x z :=
  ⟨h'.tag.trans h.tag, h'.allocated.trans h.allocated, h'.eventCount.trans h.eventCount,
    h'.streamUses.trans h.streamUses⟩

theorem Descends.of_heap (h : s'.heap = s.heap) : Descends s s' := by
  intro c y' hy'
  rw [h] at hy'
  exact .inl ⟨y', hy', .refl y'⟩

theorem Descends.trans (h : Descends s s') (h' : Descends s' s'') : Descends s s'' := by
  intro c z hz
  rcases h' c z hz with ⟨y, hy, hzy⟩ | ⟨a, y, hy, hzy⟩
  · rcases h c y hy with ⟨x, hx, hyx⟩ | ⟨a, x, hx, hyx⟩
    · exact .inl ⟨x, hx, hyx.trans hzy⟩
    · exact .inr ⟨a, x, hx, hzy.tag.trans hyx.tag, hzy.allocated.trans hyx.allocated,
        hzy.eventCount.trans hyx.eventCount, hzy.streamUses.trans hyx.streamUses⟩
  · have htag : ∃ a' x, s.heap a' = some x ∧ y.tag = x.tag := by
      rcases h a y hy with ⟨x, hx, hyx⟩ | ⟨a', x, hx, hyx⟩
      · exact ⟨a, x, hx, hyx.tag⟩
      · exact ⟨a', x, hx, hyx.tag⟩
    obtain ⟨a', x, hx, hyx⟩ := htag
    exact .inr ⟨a', x, hx, hzy.tag.trans hyx, hzy.allocated, hzy.eventCount, hzy.streamUses⟩

theorem Descends.put (blk' : Block) (hb : s.heap b = some blk) (h : Continues blk blk') :
    Descends s (s.put b blk') := by
  intro c y' hy'
  by_cases hcb : c = b
  · subst hcb
    obtain rfl : blk' = y' := Option.some_inj.mp ((State.put_heap_self s c blk').symm.trans hy')
    exact .inl ⟨blk, hb, h⟩
  · have hy : s.heap c = some y' := by
      rwa [State.put, State.withHeap_heap, Function.update_of_ne hcb] at hy'
    exact .inl ⟨y', hy, .refl y'⟩

theorem continues_of_linkNext {heap : BlockId → Option Block} {o : Option BlockId} {x : BlockId}
    {y' : Block} (h : linkNext heap o c x = some y') : ∃ y, heap x = some y ∧ Continues y y' := by
  rw [linkNext] at h
  split_ifs at h with ho
  · obtain ⟨y, hy, rfl⟩ := Option.map_eq_some_iff.mp h
    exact ⟨y, hy, rfl, rfl, rfl, rfl⟩
  · exact ⟨y', h, .refl y'⟩

theorem continues_of_linkPrev {heap : BlockId → Option Block} {o : Option BlockId} {x : BlockId}
    {y' : Block} (h : linkPrev heap o c x = some y') : ∃ y, heap x = some y ∧ Continues y y' := by
  rw [linkPrev] at h
  split_ifs at h with ho
  · obtain ⟨y, hy, rfl⟩ := Option.map_eq_some_iff.mp h
    exact ⟨y, hy, rfl, rfl, rfl, rfl⟩
  · exact ⟨y', h, .refl y'⟩

/-! ### Cutting and merging -/

theorem Descends.cutBack {k : ℕ} {mapped : Bool} (hb : s.heap b = some blk) :
    Descends s (s.extend (cutBackHeap s.heap b blk k c mapped)) := by
  intro x y' hy'
  rw [State.extend_heap, cutBackHeap] at hy'
  split_ifs at hy' with hxc hxb
  · cases hy'
    exact .inr ⟨b, blk, hb, rfl, rfl, rfl, rfl⟩
  · cases hy'
    subst hxb
    exact .inl ⟨blk, hb, rfl, rfl, rfl, rfl⟩
  · exact .inl (continues_of_linkPrev hy')

theorem Descends.cutFront {k : ℕ} (hb : s.heap b = some blk) :
    Descends s (s.extend (cutFrontHeap s.heap b blk k c)) := by
  intro x y' hy'
  rw [State.extend_heap, cutFrontHeap] at hy'
  split_ifs at hy' with hxc hxb
  · cases hy'
    exact .inr ⟨b, blk, hb, rfl, rfl, rfl, rfl⟩
  · cases hy'
    subst hxb
    exact .inl ⟨blk, hb, rfl, rfl, rfl, rfl⟩
  · exact .inl (continues_of_linkNext hy')

theorem MergePrev.descends {n : ℕ} (h : MergePrev b blk s n s') (hb : s.heap b = some blk) :
    Descends s s' := by
  cases h with
  | kept hlive hkept => exact .of_heap rfl
  | joined c src hprev hc hm hlive =>
    intro x y' hy'
    rw [State.merge_heap, mergePrevHeap] at hy'
    split_ifs at hy' with hxc hxb
    · cases hy'
      subst hxb
      exact .inl ⟨blk, hb, rfl, rfl, rfl, rfl⟩
    · exact .inl (continues_of_linkNext hy')

theorem MergeNext.descends {n : ℕ} (h : MergeNext b blk s n s') (hb : s.heap b = some blk) :
    Descends s s' := by
  cases h with
  | kept hlive hkept => exact .of_heap rfl
  | joined c src hprev hc hm hlive =>
    intro x y' hy'
    rw [State.merge_heap, mergeNextHeap] at hy'
    split_ifs at hy' with hxc hxb
    · cases hy'
      subst hxb
      exact .inl ⟨blk, hb, rfl, rfl, rfl, rfl⟩
    · exact .inl (continues_of_linkPrev hy')

/-! ### Moves that cut and merge -/

theorem Freed.descends (h : Freed b blk s s') (hb : s.heap b = some blk) : Descends s s' := by
  obtain ⟨n₁, n₂, s₁, s₂, blk₁, merged, hprev, hb₁, hnext, -, -⟩ := h
  exact ((hprev.descends hb).trans (hnext.descends hb₁)).trans (.of_heap rfl)

theorem descends_mapFront {n : ℕ} (hb : s.heap b = some blk) :
    Descends s (s.mapFront b blk n) := by
  have hput : Descends s ((s.eraseUnmapped blk.pool b).put b { blk with mapped := true }) :=
    Descends.put (s := s.eraseUnmapped blk.pool b) _ hb ⟨rfl, rfl, rfl, rfl⟩
  rw [State.mapFront]
  split_ifs with hn
  · exact (hput.trans (.cutBack (State.put_heap_self _ b _))).trans (.of_heap rfl)
  · exact hput

theorem Mapped.descends {n : ℕ} (h : Mapped b blk n s s') (hb : s.heap b = some blk) :
    Descends s s' := by
  obtain ⟨n₁, n₂, s₁, s₂, blk₁, blk₂, -, hb₁, hprev, hb₂, hnext, -⟩ := h
  have hfront : Descends s s₁ := (descends_mapFront hb).trans (hprev.descends hb₁)
  exact (hfront.trans (hnext.descends hb₂)).trans (.of_heap rfl)

theorem descends_cutBefore {k : ℕ} (hb : s.heap b = some blk) :
    Descends s (s.cutBefore b blk k) := by
  rw [State.cutBefore]
  split_ifs with hk
  · exact (Descends.cutFront (s := s.eraseBlock blk.pool b) hb).trans (.of_heap rfl)
  · exact .of_heap rfl

theorem descends_cutAfter {n rest : ℕ} (hb : s.heap b = some blk) :
    Descends s (s.cutAfter b blk n rest) := by
  rw [State.cutAfter]
  split_ifs with hrest
  · exact (Descends.cutBack hb).trans (.of_heap rfl)
  · exact .of_heap rfl

theorem Unmapped.descends {lo n : ℕ} (h : Unmapped b blk lo n s s') (hb : s.heap b = some blk) :
    Descends s s' := by
  obtain ⟨n₁, n₂, s₁, s₂, s₃, s₄, blk₁, blk₂, blk₄, -, hs₁, hb₁, -, hs₂, hb₂, hprev, hb₄, hnext, -⟩ := h
  have hbefore : Descends s s₁ := hs₁ ▸ descends_cutBefore hb
  have hafter : Descends s₁ s₂ := hs₂ ▸ descends_cutAfter hb₁
  have hput : Descends s₂ (s₂.put b { blk₂ with ptr := lo, size := n, mapped := false }) :=
    .put _ hb₂ ⟨rfl, rfl, rfl, rfl⟩
  have hmerged := hprev.descends (State.put_heap_self _ b _)
  have hcuts := (hbefore.trans hafter).trans (hput.trans hmerged)
  exact (hcuts.trans (hnext.descends hb₄)).trans (.of_heap rfl)

theorem descends_align {k : ℕ} (hb : s.heap b = some blk) : Descends s (s.align b blk k) :=
  (Descends.cutBack hb).trans (.of_heap rfl)

theorem descends_splitFound {k : ℕ} (hb : s.heap b = some blk) :
    Descends s (s.splitFound b blk k) := by
  rw [State.splitFound]
  split_ifs
  · exact (Descends.cutFront hb).trans (.of_heap rfl)
  · exact (Descends.cutFront hb).trans (.of_heap rfl)

theorem descends_takeWhole : Descends s (s.takeWhole blk) := by
  rw [State.takeWhole]
  split_ifs
  · exact .of_heap rfl
  · exact .of_heap rfl

theorem descends_delete (h : s'.heap = Function.update s.heap b none) : Descends s s' := by
  intro c y' hy'
  rw [h, Function.update_apply] at hy'
  split_ifs at hy' with hcb
  exact .inl ⟨y', hy', .refl y'⟩

/-! ### What neighbours have in common -/

/-- The first block of a new segment. -/
inductive Founded (L : Licence) (m : Moment) : Block → Prop
  | segment (p : AllocParams) (ptr : ℕ) (hpool : m.state.HasPool p.pool) :
      Founded L m (newSegmentBlock p ptr)
  | expand (stream : Stream) (pool : PoolId) (e : ExpandableSegment) (hpage : L.page e.segmentSize)
      (hexpandable : L.expandable pool) : Founded L m (newExpandableBlock stream pool e)

theorem heap_addSegment {p : AllocParams} {ptr : ℕ} :
    (s.addSegment p ptr).heap = Function.update s.heap s.fresh (some (newSegmentBlock p ptr)) := by
  rw [State.addSegment, State.countMalloc_eq]
  rfl

theorem exists_tag_of_put (blk' : Block) {y' : Block} (hy' : (s.put b blk').heap c = some y')
    (hb : s.heap b = some blk) (htag : blk'.tag = blk.tag) :
    ∃ a y, s.heap a = some y ∧ y'.tag = y.tag := by
  by_cases hcb : c = b
  · subst hcb
    obtain rfl : blk' = y' := Option.some_inj.mp ((State.put_heap_self s c blk').symm.trans hy')
    exact ⟨c, blk, hb, htag⟩
  · rw [State.put, State.withHeap_heap, Function.update_of_ne hcb] at hy'
    exact ⟨c, y', hy', rfl⟩

theorem Descends.exists_tag (h : Descends s s') {y' : Block} (hy' : s'.heap c = some y') :
    ∃ a y, s.heap a = some y ∧ y'.tag = y.tag := by
  rcases h c y' hy' with ⟨y, hy, hcont⟩ | ⟨a, y, hy, hcut⟩
  · exact ⟨c, y, hy, hcont.tag⟩
  · exact ⟨a, y, hy, hcut.tag⟩

/-- Stream, pool and segment of a block come from an earlier block or from a new segment. -/
theorem Move.tag (h : Move L m m') {y' : Block} (hy' : m'.state.heap c = some y') :
    (∃ a y, m.state.heap a = some y ∧ y'.tag = y.tag) ∨ Founded L m y' := by
  cases h with
  | quiet h => exact .inl ((Descends.of_heap h.heap).exists_tag hy')
  | age f =>
    obtain ⟨y, hy, rfl⟩ := Option.map_eq_some_iff.mp hy'
    exact .inl ⟨c, y, hy, rfl⟩
  | segment p ptr hfound hheld hlicence hfits havailable hpool =>
    rw [heap_addSegment, Function.update_apply] at hy'
    split_ifs at hy' with hc
    · cases hy'
      exact .inr (.segment p ptr hpool)
    · exact .inl ⟨c, y', hy', rfl⟩
  | expand stream pool e hfound hheld hpage hexpandable hpos havailable =>
    have hy' : Function.update m.state.heap m.state.fresh (some (newExpandableBlock stream pool e)) c =
      some y' := hy'
    rw [Function.update_apply] at hy'
    split_ifs at hy' with hc
    · cases hy'
      exact .inr (.expand stream pool e hpage hexpandable)
    · exact .inl ⟨c, y', hy', rfl⟩
  | map b blk e n hfound hheld hb hkind hsegment hpos hdvd hsize hbudget h =>
    exact .inl ((h.descends hb).exists_tag hy')
  | count b blk hfound hb hexpandable hpool =>
    rw [State.countMalloc_eq] at hy'
    exact .inl ⟨c, y', hy', rfl⟩
  | align b blk k hfound hheld hb hpos hk halign hlive =>
    exact .inl ((descends_align hb).exists_tag hy')
  | split b blk k hfound hheld hb hsize hk hlive =>
    exact .inl ((descends_splitFound hb).exists_tag hy')
  | whole b blk hfound hb => exact .inl (descends_takeWhole.exists_tag hy')
  | activate b blk hfound hheld hb hpool =>
    exact .inl (exists_tag_of_put { blk with allocated := true } hy' hb rfl)
  | deallocate b blk hfound hheld hb halloc hpool =>
    exact .inl (exists_tag_of_put { blk with allocated := false } hy' hb rfl)
  | uses b blk streams hb h => exact .inl (exists_tag_of_put _ hy' hb rfl)
  | events b blk hheld hb hne => exact .inl (exists_tag_of_put _ hy' hb rfl)
  | event b blk pend hpend hb hcount => exact .inl (exists_tag_of_put _ hy' hb rfl)
  | lastEvent b blk pend hheld hpend hb hcount => exact .inl (exists_tag_of_put _ hy' hb rfl)
  | free b blk hheld hb hblk hlazy h => exact .inl ((h.descends hb).exists_tag hy')
  | unmap b blk e lo n hfound hheld hb hin hsegment hlo hpos hend hptr hdvd hdvd' h hcount =>
    refine .inl ((h.descends hb).exists_tag (c := c) ?_)
    rcases hcount with ⟨-, rfl⟩ | ⟨-, rfl⟩
    · rwa [State.countFree_eq] at hy'
    · rwa [State.beforeCountFree_eq] at hy'
  | release b blk hfound hheld hb hin hsegment hsplit hpool hpositive =>
    refine .inl ((descends_delete (b := b) ?_).exists_tag hy')
    rw [freeSegment_release_eq]
  | releaseFails b blk hfound hheld hb hin hsegment hsplit hpool hpositive =>
    rw [freeSegment_beforeCountFree_eq] at hy'
    exact .inl ⟨c, y', hy', rfl⟩
  | dropSegment b blk e hfound hheld hb hkind hsegment hsize hmem hsplit =>
    exact .inl ((descends_delete (b := b) rfl).exists_tag hy')
  | wait | take | handOut | grant | giveUp | defer | undefer | pool | freeable | erase | limit =>
    exact .inl ⟨c, y', hy', rfl⟩

end TorchNpu.Allocator
