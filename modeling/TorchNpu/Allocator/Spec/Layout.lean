/-
  The sets and the addresses of the blocks in every state of every run, however the calls of the threads are mixed and
  whatever the driver answers.

  Free, unmapped and active blocks are told apart by the sets they are in.  The blocks of a segment stand one after the
  other: each begins where the one before it ends.  The second claim is an invariant of the moves of its own, `Abutting`;
  it needs that links are symmetric, which `Sound` has.
-/
import TorchNpu.Allocator.Spec.Reuse

namespace TorchNpu.Allocator

open Tiling

variable {L : Licence} {m m' : Moment} {s s' : State} {b c : BlockId} {blk blk' : Block} {k n lo : ℕ}
  {holes : Set BlockId} {pend : Multiset BlockId} {deferred : List BlockId}

/-! ### Sets -/

theorem exists_reuse : ∃ s, runFromInit (reuseRun true [.event true]) = some s :=
  Option.isSome_iff_exists.mp (by decide +kernel)

theorem abutting_of_heap (A : Abutting s.view) (h : s'.heap = s.heap) : Abutting s'.view := by
  have hview : s'.view = s.view := by
    funext x
    rw [State.view, State.view, h]
  rwa [hview]

theorem abutting_put (A : Abutting s.view) (hb : s.heap b = some blk) (hptr : blk'.ptr = blk.ptr)
    (hsize : blk'.size = blk.size) (hnext : blk'.next = blk.next) : Abutting (s.put b blk').view := by
  refine A.of_le fun x p hp => ?_
  rw [view_put] at hp
  split_ifs at hp with hxb
  · subst hxb
    obtain rfl := Option.some_inj.mp hp
    exact ⟨blk.piece, State.view_eq_some hb, hptr, hsize, hnext⟩
  · exact ⟨p, hp, rfl, rfl, rfl⟩

theorem abutting_delete (A : Abutting s.view) (h : s'.heap = Function.update s.heap b none) : Abutting s'.view := by
  refine A.of_le fun x p hp => ⟨p, ?_, rfl, rfl, rfl⟩
  rw [State.view, h, Function.update_apply] at hp
  split_ifs at hp
  · cases hp
  · exact hp

theorem abutting_add (S : Sound holes pend deferred s) (A : Abutting s.view) (hnext : blk.next = none)
    (h : s'.heap = Function.update s.heap s.fresh (some blk)) : Abutting s'.view := by
  have hview : s'.view = Function.update s.view s.fresh (some blk.piece) := by
    ext x : 1
    rw [State.view, h, Function.update_apply, Function.update_apply]
    split_ifs <;> rfl
  rw [hview]
  exact A.add S.fresh.unreferenced hnext

theorem abutting_cutBack {mapped : Bool} (A : Abutting s.view) (hun : Unreferenced s.view s.fresh)
    (hb : s.heap b = some blk) (hk : k ≤ blk.size) :
    Abutting (s.extend (cutBackHeap s.heap b blk k s.fresh mapped)).view := by
  rw [view_cutBack]
  exact A.splitBack (State.view_eq_some hb) hun hk

theorem abutting_cutFront (S : Sound holes pend deferred s) (A : Abutting s.view) (hb : s.heap b = some blk)
    (hk : k ≤ blk.size) : Abutting (s.extend (cutFrontHeap s.heap b blk k s.fresh)).view := by
  have hview : s.view s.fresh = none := by rw [State.view, S.fresh.none, Option.map_none]
  rw [view_cutFront]
  exact A.splitFront S.linked (State.view_eq_some hb) hview S.fresh.unreferenced hk

theorem abutting_merges {n₁ n₂ : ℕ} {s₁ s₂ : State} {blk₁ : Block} (H : Linked s.view) (A : Abutting s.view)
    (hb : s.heap b = some blk) (hprev : MergePrev b blk s n₁ s₁) (hb₁ : s₁.heap b = some blk₁)
    (hnext : MergeNext b blk₁ s₁ n₂ s₂) : Abutting s₂.view := by
  have hmid : Linked s₁.view ∧ Abutting s₁.view := by
    cases hprev with
    | kept => exact ⟨H, A⟩
    | joined c src hc hsrc =>
      have hvb := State.view_eq_some hb
      have hvc := State.view_eq_some hsrc
      rw [view_mergePrev]
      exact ⟨H.mergePrev hvb hvc hc, A.mergePrev H hvb hvc hc⟩
  cases hnext with
  | kept => exact hmid.2
  | joined c src hc hsrc =>
    rw [view_mergeNext]
    exact hmid.2.mergeNext hmid.1 (State.view_eq_some hb₁) (State.view_eq_some hsrc) hc

/-! ### The moves -/

theorem Freed.abutting (h : Freed b blk s s') (S : Sound holes pend deferred s) (A : Abutting s.view)
    (hb : s.heap b = some blk) : Abutting s'.view := by
  obtain ⟨n₁, n₂, s₁, s₂, blk₁, merged, hprev, hb₁, hnext, -, -⟩ := h
  exact abutting_of_heap (abutting_merges S.linked A hb hprev hb₁ hnext) rfl

theorem Mapped.abutting {e : ExpandableSegment} (h : Mapped b blk n s s') (S : Sound ∅ pend deferred s)
    (A : Abutting s.view) (hb : s.heap b = some blk) (hkind : blk.info.kind = some false)
    (hsegment : blk.expandableSegment = some e) (hdvd : e.segmentSize ∣ n) (hn : n ≤ blk.size) :
    Abutting s'.view := by
  obtain ⟨n₁, n₂, s₁, s₂, blk₁, blk₂, hlive, hb₁, hprev, hb₂, hnext, -⟩ := h
  obtain ⟨S₁, -⟩ := S.mapFront hb hkind hsegment hdvd hn hlive
  have A₁ : Abutting (s.mapFront b blk n).view := by
    have hput : Abutting ((s.eraseUnmapped blk.pool b).put b { blk with mapped := true }).view :=
      abutting_put (s := s.eraseUnmapped blk.pool b) A hb rfl rfl rfl
    rw [State.mapFront]
    split_ifs
    · have hun : Unreferenced ((s.eraseUnmapped blk.pool b).put b { blk with mapped := true }).view s.fresh :=
        unreferenced_put (s := s.eraseUnmapped blk.pool b) S.fresh.unreferenced hb ⟨rfl, rfl, rfl⟩
      exact abutting_of_heap (abutting_cutBack hput hun (State.put_heap_self _ b _) hn) rfl
    · exact hput
  exact abutting_of_heap (abutting_merges S₁.linked A₁ hb₁ hprev hb₂ hnext) rfl

/-- The bytes before the first page. -/
theorem abutting_cutBefore (S : Sound holes pend deferred s) (A : Abutting s.view) (hb : s.heap b = some blk)
    (hk : k ≤ blk.size) : Abutting (s.cutBefore b blk k).view ∧
      ∀ y, (s.cutBefore b blk k).heap b = some y → y.ptr = blk.ptr + k ∧ y.size = blk.size - k := by
  rw [State.cutBefore]
  split_ifs with hpos
  · refine ⟨abutting_of_heap (abutting_cutFront S A hb hk) rfl, fun y hy => ?_⟩
    obtain rfl := Option.some_inj.mp ((cutFrontHeap_self (S.fresh.ne hb)).symm.trans hy)
    exact ⟨rfl, rfl⟩
  · refine ⟨A, fun y hy => ?_⟩
    obtain rfl : blk = y := Option.some_inj.mp (hb.symm.trans hy)
    exact ⟨by omega, by omega⟩

/-- The bytes after the last page. -/
theorem abutting_cutAfter {rest : ℕ} (S : Sound holes pend deferred s) (A : Abutting s.view)
    (hb : s.heap b = some blk) (hsize : blk.size = n + rest) : Abutting (s.cutAfter b blk n rest).view ∧
      ∀ y, (s.cutAfter b blk n rest).heap b = some y → y.ptr = blk.ptr ∧ y.size = n := by
  rw [State.cutAfter]
  split_ifs with hpos
  · refine ⟨abutting_of_heap (abutting_cutBack A S.fresh.unreferenced hb (by omega)) rfl, fun y hy => ?_⟩
    obtain rfl := Option.some_inj.mp ((cutBackHeap_self (S.fresh.ne hb)).symm.trans hy)
    exact ⟨rfl, rfl⟩
  · refine ⟨A, fun y hy => ?_⟩
    obtain rfl : blk = y := Option.some_inj.mp (hb.symm.trans hy)
    exact ⟨rfl, by omega⟩

theorem Unmapped.abutting (h : Unmapped b blk lo n s s') (S : Sound ∅ pend deferred s)
    (A : Abutting s.view) (hb : s.heap b = some blk) (hin : b ∈ s.blocks blk.pool) (hlo : blk.ptr ≤ lo)
    (hend : lo + n ≤ blk.ptr + blk.size) : Abutting s'.view := by
  obtain ⟨n₁, n₂, s₁, s₂, s₃, s₄, blk₁, blk₂, blk₄, hlive, rfl, hb₁, hlive₁, rfl, hb₂, hprev, hb₄, hnext, -⟩ := h
  obtain ⟨-, -, y, hy, -, hkind⟩ := S.of_mem_blocks hin
  obtain rfl : y = blk := Option.some_inj.mp (hy.symm.trans hb)
  obtain ⟨S₁, -, y₁, hy₁, hinfo₁, -⟩ := S.cutBefore hb hin hkind hlive
  obtain rfl : y₁ = blk₁ := Option.some_inj.mp (hy₁.symm.trans hb₁)
  obtain ⟨A₁, hgeometry₁⟩ := abutting_cutBefore S A hb (k := lo - y.ptr) (by omega)
  obtain ⟨hptr₁, hsize₁⟩ := hgeometry₁ y₁ hb₁
  obtain ⟨S₂, -⟩ := S₁.cutAfter (n := n) hb₁ (by rw [hinfo₁, hkind]) hlive₁
  obtain ⟨A₂, hgeometry₂⟩ := abutting_cutAfter S₁ A₁ hb₁
    (show y₁.size = n + (y.size - (lo - y.ptr + n)) by omega)
  obtain ⟨hptr₂, hsize₂⟩ := hgeometry₂ blk₂ hb₂
  -- the rest is of the size that is unmapped already
  have A₃ := @abutting_put _ b blk₂ { blk₂ with ptr := lo, size := n, mapped := false } A₂ hb₂ (by show lo = _; omega)
    hsize₂.symm rfl
  have H₃ := @linked_put _ b blk₂ { blk₂ with ptr := lo, size := n, mapped := false } S₂.linked hb₂ ⟨rfl, rfl, rfl⟩
  exact abutting_of_heap (abutting_merges H₃ A₃ (State.put_heap_self _ b _) hprev hb₄ hnext) rfl

theorem Move.abutting (h : Move L m m') (B : Base m) (A : Abutting m.state.view) : Abutting m'.state.view := by
  have S := B.sound
  cases h with
  | quiet h => exact abutting_of_heap A h.heap
  | age f =>
    refine A.of_le fun x p hp => ?_
    obtain ⟨y', hy', rfl⟩ := State.exists_of_view hp
    obtain ⟨y, hy, rfl⟩ := Option.map_eq_some_iff.mp hy'
    exact ⟨y.piece, State.view_eq_some hy, rfl, rfl, rfl⟩
  | segment p ptr => exact abutting_add S A rfl heap_addSegment
  | expand stream pool e => exact @abutting_add _ _ (newExpandableBlock stream pool e) _ _ _ S A rfl rfl
  | map b blk e n hfound hheld hb hkind hsegment hpos hdvd hsize hbudget h =>
    exact h.abutting (B.sound_empty hfound hheld) A hb hkind hsegment hdvd hsize
  | count b blk hfound hb =>
    refine abutting_of_heap A ?_
    rw [State.countMalloc_eq]
  | align b blk k hfound hheld hb hpos hk =>
    exact abutting_of_heap (abutting_cutBack A S.fresh.unreferenced hb hk.le) rfl
  | split b blk k hfound hheld hb hsize hk =>
    refine abutting_of_heap (abutting_cutFront S A hb hk.le) ?_
    rw [State.splitFound]
    split_ifs <;> rfl
  | whole b blk =>
    refine abutting_of_heap A ?_
    rw [State.takeWhole]
    split_ifs <;> rfl
  | activate b blk hfound hheld hb | deallocate b blk hfound hheld hb | uses b blk streams hb
  | events b blk hheld hb | event b blk pend hpend hb | lastEvent b blk pend hheld hpend hb =>
    exact abutting_put A hb rfl rfl rfl
  | free b blk hheld hb huses hlazy h => exact h.abutting S A hb
  | unmap b blk e lo n hfound hheld hb hin hsegment hlo hpos hend hptr hdvd hdvd' h hcount =>
    have A₁ := h.abutting (B.sound_empty hfound hheld) A hb hin hlo hend
    rcases hcount with ⟨-, rfl⟩ | ⟨-, rfl⟩
    · rw [State.countFree_eq]
      exact A₁
    · rw [State.beforeCountFree_eq]
      exact A₁
  | release b blk hfound hheld hb =>
    refine abutting_delete (b := b) A ?_
    rw [freeSegment_release_eq]
  | releaseFails b blk =>
    refine abutting_of_heap A ?_
    rw [freeSegment_beforeCountFree_eq]
  | dropSegment b blk e => exact abutting_delete (b := b) A rfl
  | _ => exact A

end TorchNpu.Allocator
