/-
  Every move keeps `Base`, the invariant of all moments of all runs.
-/
import TorchNpu.Allocator.Spec.Sound

namespace TorchNpu.Allocator

open Tiling

/-! ### The invariant -/

/-- The blocks an operation is working on. -/
def Moment.holes (m : Moment) : Set BlockId :=
  { b | m.found = some b ∨ m.held = some b }

/-- A block that has been found is free, if it is still there; a block on its way to become free is not
in use any more but still among the active blocks. -/
structure Base (m : Moment) : Prop where
  sound : Sound m.holes m.pend m.deferred m.state
  found : ∀ b, m.found = some b → b ∉ m.state.activeBlocks ∧
    ∀ i, m.state.info b = some i → i.kind = some true
  held : ∀ b, m.held = some b → m.found ≠ some b ∧ b ∈ m.state.activeBlocks ∧
    ∃ i, m.state.info b = some i ∧ i.kind = some true
  waiting : ∀ t x, m.state.mallocs t = some x → x.params.WellSized

variable {m m' : Moment} {s s' : State} {b c : BlockId} {blk blk' : Block} {i : Info}
  {holes : Set BlockId} {pend : Multiset BlockId} {deferred : List BlockId} {L : Licence}

/-! ### Composite steps -/

theorem Sound.not_active (S : Sound holes pend deferred s) (hb : s.heap b = some blk)
    (hbh : b ∉ holes) (hbd : b ∉ deferred) (hkind : blk.info.kind ≠ none) :
    b ∉ s.activeBlocks := by
  rw [S.sets.active b hbh, State.info_eq_some hb]
  rintro (⟨i, hi, hk⟩ | h)
  · rw [Option.some_inj] at hi
    subst hi
    exact hkind hk
  · exact hbd h

theorem Sound.fresh_not_active (S : Sound holes pend deferred s) (h : s.fresh ∉ holes) :
    s.fresh ∉ s.activeBlocks := by
  rw [S.sets.active s.fresh h, S.sets.fresh s.fresh le_rfl]
  rintro (⟨i, hi, -⟩ | h)
  · cases hi
  · exact S.fresh_not_mem.1 h

/-- A block that is not mapped is not deferred. -/
theorem Sound.not_deferred (S : Sound holes pend deferred s) (hb : s.heap b = some blk)
    (h : blk.info.kind ≠ some true ∨ blk.streamUses = []) : b ∉ deferred := by
  intro hbd
  obtain ⟨-, i, hi, hk, huses⟩ := S.sets.waits b hbd
  rw [State.info_eq_some hb, Option.some_inj] at hi
  subst hi
  rcases h with h | h
  · exact h hk
  · exact huses h

theorem Merged.activeBlocks (h : Merged b blk s s') : s'.activeBlocks = s.activeBlocks := by
  rw [h.eq]

/-- The two merges of a hole. -/
theorem Sound.merges {n₁ n₂ : ℕ} {s₁ s₂ : State} {blk₁ : Block} (S : Sound holes pend deferred s)
    (hb : s.heap b = some blk) (hprev : MergePrev b blk s n₁ s₁) (hb₁ : s₁.heap b = some blk₁)
    (hnext : MergeNext b blk₁ s₁ n₂ s₂) :
    Sound holes pend deferred s₂ ∧ Merged b blk s s₂ := by
  obtain ⟨S₁, M₁⟩ := S.mergePrev hb hprev
  obtain ⟨S₂, M₂⟩ := S₁.mergeNext hb₁ hnext
  refine ⟨S₂, ?_, ?_⟩
  · rw [M₂.eq, M₁.eq]
  · obtain ⟨blk', hb', hinfo, htag, hsize, hgc⟩ := M₁.block
    obtain rfl : blk' = blk₁ := Option.some_inj.mp (hb'.symm.trans hb₁)
    obtain ⟨blk'', hb'', hinfo', htag', hsize', hgc'⟩ := M₂.block
    exact ⟨blk'', hb'', hinfo'.trans hinfo, htag'.trans htag, hsize.trans hsize', hgc'.trans hgc⟩

theorem Sound.freed (S : Sound holes pend deferred s) (hb : s.heap b = some blk) (hbh : b ∈ holes)
    (hkind : blk.info.kind = some true) (h : Freed b blk s s') :
    Sound (holes \ {b}) pend deferred s' := by
  obtain ⟨n₁, n₂, s₁, s₂, blk₁, merged, hprev, hb₁, hnext, hmerged, -⟩ := h
  obtain ⟨S₂, M⟩ := S.merges hb hprev hb₁ hnext
  obtain ⟨blk', hb', hinfo, htag, -⟩ := M.block
  have hpool : blk'.pool = blk.pool := congrArg Tag.pool htag
  have hkind' : blk'.info.kind = some true := by rw [hinfo, hkind]
  refine S₂.close hb' hbh rfl rfl ?_ (fun _ _ h => .inl h) ?_ ?_ ?_
    (nodup_insertBlock S₂.sets.distinct fun h => (S₂.sets.blocks blk.pool b h).1 hbh)
  · intro pool x hx
    rcases mem_insertBlock hx with hx | ⟨rfl, rfl⟩
    · exact .inl hx
    · exact .inr ⟨rfl, hpool, hkind'⟩
  · intro x hxb
    simp [State.updateStats, State.insertBlock, State.eraseActive, hxb]
  · rw [hkind']
    simp [State.updateStats, State.insertBlock, State.eraseActive]
  · exact S₂.sets.activeNodup.filter _

theorem insert_sdiff_self {b c : BlockId} (h : b ≠ c) :
    (insert c {b} : Set BlockId) \ {c} = {b} := by
  ext x
  simp only [Set.mem_sdiff, Set.mem_insert_iff, Set.mem_singleton_iff]
  constructor
  · rintro ⟨hx | hx, hne⟩
    · exact absurd hx hne
    · exact hx
  · rintro rfl
    exact ⟨.inr rfl, h⟩

/-- The first half of `map_block`. -/
theorem Sound.mapFront {n : ℕ} {e : ExpandableSegment} (S : Sound ∅ pend deferred s)
    (hb : s.heap b = some blk) (hkind : blk.info.kind = some false)
    (hsegment : blk.expandableSegment = some e) (hdvd : e.segmentSize ∣ n) (hn : n ≤ blk.size)
    (hlive : n < blk.size → s.Live blk.next) :
    Sound {b} pend deferred (s.mapFront b blk n) ∧
      (s.mapFront b blk n).activeBlocks = s.activeBlocks ∧
      ∃ blk', (s.mapFront b blk n).heap b = some blk' ∧ blk'.info = { blk.info with mapped := true } ∧
        blk'.tag = blk.tag ∧ blk'.size = n := by
  obtain ⟨halloc, hevents, hmapped⟩ := Info.kind_eq_some.mp hkind
  have hkind' : ({ blk with mapped := true } : Block).info.kind = some true :=
    Info.kind_eq_some.mpr ⟨halloc, hevents, rfl⟩
  have hbf := S.fresh.ne hb
  have hpages := (S.paged b blk e hb hsegment).2 hmapped
  have S₁ := S.eraseUnmapped hb hkind
  rw [insert_empty_eq] at S₁
  have S₂ : Sound {b} pend deferred
      ((s.eraseUnmapped blk.pool b).put b { blk with mapped := true }) := by
    refine S₁.put _ hb ⟨rfl, rfl, rfl⟩ (fun e _ hm => ?_) (S₁.sets.put_hole hb rfl ?_ ?_)
    · cases hm
    · have hflags := S.flags hb
      exact ⟨hflags.events, fun _ => rfl, (fun h => by cases h), hflags.uses⟩
    · intro x
      split_ifs with hxb
      · rw [hxb, S₁.count hb]
      · rfl
  have hb₂ : ((s.eraseUnmapped blk.pool b).put b { blk with mapped := true }).heap b =
      some { blk with mapped := true } := Function.update_self ..
  rw [State.mapFront]
  dsimp only
  split_ifs with hlt
  · have hlive₂ : ((s.eraseUnmapped blk.pool b).put b { blk with mapped := true }).Live blk.next := by
      intro x hx
      obtain ⟨y, hy⟩ := hlive hlt x hx
      have hxb : x ≠ b := fun h => S.linked.next_ne (State.view_eq_some hb) (h ▸ hx)
      exact ⟨y, by simpa [State.put, State.eraseUnmapped, hxb] using hy⟩
    have S₃ := S₂.cutBack n false hb₂ rfl hlive₂ fun _ => by
      refine ⟨e, hsegment, hpages.1.trans (Nat.le_add_right _ _), ?_, Nat.dvd_sub hpages.2.2 hdvd⟩
      have heq : blk.ptr + n - e.ptr = blk.ptr - e.ptr + n := by
        have := hpages.1
        omega
      change e.segmentSize ∣ blk.ptr + n - e.ptr
      rw [heq]
      exact hpages.2.1.add hdvd
    have S₄ := S₃.insertUnmapped (b := s.fresh) cutBackHeap_new (.inl rfl)
      (Info.kind_eq_some.mpr ⟨rfl, rfl, rfl⟩) (S₂.fresh_not_active fun h => hbf h.symm)
    refine ⟨?_, rfl, { blk with mapped := true, size := n, next := some s.fresh }, ?_, rfl, rfl, rfl⟩
    · rw [← insert_sdiff_self hbf]
      exact S₄
    · exact cutBackHeap_self hbf
  · exact ⟨S₂, rfl, { blk with mapped := true }, hb₂, rfl, rfl, by
      change blk.size = n
      omega⟩

theorem sdiff_self_singleton {b : BlockId} : ({b} : Set BlockId) \ {b} = ∅ := by
  simp

theorem Sound.mapped {n : ℕ} {e : ExpandableSegment} (S : Sound ∅ pend deferred s)
    (hb : s.heap b = some blk) (hkind : blk.info.kind = some false)
    (hsegment : blk.expandableSegment = some e) (hdvd : e.segmentSize ∣ n) (hn : n ≤ blk.size)
    (h : Mapped b blk n s s') : Sound ∅ pend deferred s' := by
  obtain ⟨n₁, n₂, s₁, s₂, blk₁, blk₂, hlive, hb₁, hprev, hb₂, hnext, -⟩ := h
  obtain ⟨S₁, hactive, blk', hb', hinfo', htag', -⟩ :=
    S.mapFront hb hkind hsegment hdvd hn hlive
  obtain rfl : blk' = blk₁ := Option.some_inj.mp (hb'.symm.trans hb₁)
  obtain ⟨S₂, M⟩ := S₁.merges hb₁ hprev hb₂ hnext
  obtain ⟨merged, hmerged, hinfo, htag, -⟩ := M.block
  have hpool : merged.pool = blk.pool := congrArg Tag.pool (htag.trans htag')
  have hkind' : merged.info.kind = some true := by
    rw [hinfo, hinfo', Info.kind_eq_some]
    obtain ⟨h1, h2, -⟩ := Info.kind_eq_some.mp hkind
    exact ⟨h1, h2, rfl⟩
  have hnot : b ∉ s₂.activeBlocks := by
    rw [M.activeBlocks, hactive]
    exact S.not_active hb (fun h => h.elim) (S.not_deferred hb (.inl (by simp [hkind]))) (by simp [hkind])
  have S₃ := S₂.insertBlock hmerged rfl hkind' hnot
  rw [hpool, sdiff_self_singleton] at S₃
  exact S₃.congr_heap rfl rfl rfl rfl rfl

/-- `unmap_block` with the bytes before the first page cut off. -/
theorem Sound.cutBefore {k : ℕ} (S : Sound ∅ pend deferred s) (hb : s.heap b = some blk)
    (hin : b ∈ s.blocks blk.pool) (hkind : blk.info.kind = some true)
    (hlive : 0 < k → s.Live blk.prev) :
    Sound {b} pend deferred (s.cutBefore b blk k) ∧
      (s.cutBefore b blk k).activeBlocks = s.activeBlocks ∧
      ∃ blk', (s.cutBefore b blk k).heap b = some blk' ∧ blk'.info = blk.info ∧
        blk'.tag = blk.tag := by
  have hmapped : blk.mapped = true := (Info.kind_eq_some.mp hkind).2.2
  have hbf := S.fresh.ne hb
  have S₁ := S.eraseBlock hb hkind (S.of_mem_blocks hin).2.1
  rw [insert_empty_eq] at S₁
  rw [State.cutBefore]
  split_ifs with hk
  · have S₂ := S₁.cutFront k hb hmapped (hlive hk)
    have S₃ := S₂.insertBlock (b := s.fresh) cutFrontHeap_new (.inl rfl)
      (Info.kind_eq_some.mpr ⟨rfl, rfl, rfl⟩) (S₁.fresh_not_active fun h => hbf h.symm)
    refine ⟨?_, rfl, _, cutFrontHeap_self hbf, rfl, rfl⟩
    rw [← insert_sdiff_self hbf]
    exact S₃
  · exact ⟨S₁, rfl, blk, hb, rfl, rfl⟩

/-- `unmap_block` with the bytes after the last page cut off. -/
theorem Sound.cutAfter {n rest : ℕ} (S : Sound {b} pend deferred s) (hb : s.heap b = some blk)
    (hkind : blk.info.kind = some true) (hlive : 0 < rest → s.Live blk.next) :
    Sound {b} pend deferred (s.cutAfter b blk n rest) ∧
      (s.cutAfter b blk n rest).activeBlocks = s.activeBlocks ∧
      ∃ blk', (s.cutAfter b blk n rest).heap b = some blk' ∧ blk'.info = blk.info ∧
        blk'.tag = blk.tag := by
  have hmapped : blk.mapped = true := (Info.kind_eq_some.mp hkind).2.2
  have hbf := S.fresh.ne hb
  rw [State.cutAfter]
  split_ifs with hk
  · have S₂ := S.cutBack n true hb hmapped (hlive hk) (by simp)
    have S₃ := S₂.insertBlock (b := s.fresh) cutBackHeap_new (.inl rfl)
      (Info.kind_eq_some.mpr ⟨rfl, rfl, rfl⟩) (S.fresh_not_active fun h => hbf h.symm)
    refine ⟨?_, rfl, _, cutBackHeap_self hbf, rfl, rfl⟩
    rw [← insert_sdiff_self hbf]
    exact S₃
  · exact ⟨S, rfl, blk, hb, rfl, rfl⟩

theorem Sound.unmapped {lo n : ℕ} {e : ExpandableSegment} (S : Sound ∅ pend deferred s)
    (hb : s.heap b = some blk) (hin : b ∈ s.blocks blk.pool)
    (hsegment : blk.expandableSegment = some e) (hptr : e.ptr ≤ lo)
    (hdvd : e.segmentSize ∣ lo - e.ptr) (hdvd' : e.segmentSize ∣ n)
    (h : Unmapped b blk lo n s s') : Sound ∅ pend deferred s' := by
  obtain ⟨n₁, n₂, s₁, s₂, s₃, s₄, blk₁, blk₂, blk₄, hlive, rfl, hb₁, hlive₁, rfl, hb₂, hprev, hb₄,
    hnext, -⟩ := h
  obtain ⟨-, hbd, blk', hb', -, hkind⟩ := S.of_mem_blocks hin
  obtain rfl : blk' = blk := Option.some_inj.mp (hb'.symm.trans hb)
  obtain ⟨S₁, hactive₁, y₁, hy₁, hinfo₁, htag₁⟩ := S.cutBefore hb hin hkind hlive
  obtain rfl : y₁ = blk₁ := Option.some_inj.mp (hy₁.symm.trans hb₁)
  obtain ⟨S₂, hactive₂, y₂, hy₂, hinfo₂, htag₂⟩ :=
    S₁.cutAfter (n := n) hb₁ (by rw [hinfo₁, hkind]) hlive₁
  obtain rfl : y₂ = blk₂ := Option.some_inj.mp (hy₂.symm.trans hb₂)
  have hinfo : y₂.info = blk'.info := hinfo₂.trans hinfo₁
  have htag : y₂.tag = blk'.tag := htag₂.trans htag₁
  have hsegment₂ : y₂.expandableSegment = some e :=
    (congrArg Tag.expandableSegment htag).trans hsegment
  have hkind₂ : y₂.info.kind = some true := by rw [hinfo, hkind]
  obtain ⟨halloc, hevents, -⟩ := Info.kind_eq_some.mp hkind₂
  -- the pages are not mapped any more
  have hflags : ({ y₂ with ptr := lo, size := n, mapped := false } : Block).info.Consistent := by
    refine ⟨fun _ => hevents, ?_, ?_, fun h => absurd hevents (Nat.pos_iff_ne_zero.mp h)⟩
    · rintro (h | h)
      · exact absurd (halloc.symm.trans h) (by decide)
      · exact absurd hevents (Nat.pos_iff_ne_zero.mp h)
    · intro _
      change y₂.expandableSegment.isSome = true
      rw [hsegment₂]
      rfl
  have hcounts : ∀ x, pend.count x = if x = b then y₂.eventCount else pend.count x := by
    intro x
    split_ifs with hxb
    · rw [hxb, S₂.count hb₂]
    · rfl
  have hpages : ∀ e', y₂.expandableSegment = some e' → false = false →
      e'.ptr ≤ lo ∧ e'.segmentSize ∣ lo - e'.ptr ∧ e'.segmentSize ∣ n := by
    intro e' he' _
    obtain rfl : e' = e := Option.some_inj.mp (he'.symm.trans hsegment₂)
    exact ⟨hptr, hdvd, hdvd'⟩
  have S₃ := S₂.put { y₂ with ptr := lo, size := n, mapped := false } hb₂ ⟨rfl, rfl, rfl⟩ hpages
    (S₂.sets.put_hole hb₂ rfl hflags hcounts)
  obtain ⟨S₄, M⟩ := S₃.merges (Function.update_self ..) hprev hb₄ hnext
  obtain ⟨merged, hmerged, hinfo₄, htag₄, -⟩ := M.block
  have hpool : merged.pool = blk'.pool := congrArg Tag.pool (htag₄.trans htag)
  have hkind₄ : merged.info.kind = some false := by
    rw [hinfo₄, Info.kind_eq_some]
    exact ⟨halloc, hevents, rfl⟩
  have hnot : b ∉ s₄.activeBlocks := by
    rw [M.activeBlocks]
    change b ∉ (((s.cutBefore b blk' (lo - blk'.ptr)).cutAfter b y₁ n
      (blk'.size - (lo - blk'.ptr + n)))).activeBlocks
    rw [hactive₂, hactive₁]
    exact S.not_active hb (fun h => h.elim) hbd (by simp [hkind])
  have S₅ := S₄.insertUnmapped hmerged rfl hkind₄ hnot
  rw [hpool, sdiff_self_singleton] at S₅
  exact S₅.congr_heap rfl rfl rfl rfl rfl

/-! ### The moves -/

/-- Nothing that concerns the blocks changes. -/
theorem Base.congr (B : Base m) (hheap : s'.heap = m.state.heap) (hfresh : s'.fresh = m.state.fresh)
    (hblocks : s'.blocks = m.state.blocks) (hunmapped : s'.unmapped = m.state.unmapped)
    (hactive : s'.activeBlocks = m.state.activeBlocks) (hmallocs : s'.mallocs = m.state.mallocs) :
    Base { m with state := s' } := by
  have hinfo : s'.info = m.state.info := by
    funext x
    rw [State.info, State.info, hheap]
  refine ⟨B.sound.congr_heap hheap hfresh hblocks hunmapped hactive, ?_, ?_, ?_⟩
  · intro b hb
    exact ⟨hactive ▸ (B.found b hb).1, fun i hi => (B.found b hb).2 i (hinfo ▸ hi)⟩
  · intro b hb
    obtain ⟨h1, h2, i, hi, hk⟩ := B.held b hb
    exact ⟨h1, hactive ▸ h2, i, hinfo ▸ hi, hk⟩
  · intro t x hx
    exact B.waiting t x (hmallocs ▸ hx)

theorem Moment.holes_none (hfound : m.found = none) (hheld : m.held = none) : m.holes = ∅ := by
  ext x
  simp [Moment.holes, hfound, hheld]

theorem Base.sound_empty (B : Base m) (hfound : m.found = none) (hheld : m.held = none) :
    Sound ∅ m.pend m.deferred m.state := by
  have S := B.sound
  rwa [Moment.holes_none hfound hheld] at S

theorem Base.of_sound_empty (hfound : m.found = none) (hheld : m.held = none)
    (S : Sound ∅ m.pend m.deferred m.state)
    (hwaiting : ∀ t x, m.state.mallocs t = some x → x.params.WellSized) : Base m := by
  refine ⟨?_, ?_, ?_, hwaiting⟩
  · rwa [Moment.holes_none hfound hheld]
  · intro b hb
    rw [hfound] at hb
    cases hb
  · intro b hb
    rw [hheld] at hb
    cases hb

theorem Base.of_found (hfound : m.found = some b) (hheld : m.held = none)
    (S : Sound {b} m.pend m.deferred m.state) (hb : m.state.heap b = some blk)
    (hkind : blk.info.kind = some true) (hactive : b ∉ m.state.activeBlocks)
    (hwaiting : ∀ t x, m.state.mallocs t = some x → x.params.WellSized) : Base m := by
  refine ⟨?_, ?_, ?_, hwaiting⟩
  · have hholes : m.holes = {b} := by
      ext x
      simp [Moment.holes, hfound, hheld, eq_comm]
    rwa [hholes]
  · intro c hc
    obtain rfl : b = c := Option.some_inj.mp (hfound.symm.trans hc)
    refine ⟨hactive, fun i hi => ?_⟩
    rw [State.info_eq_some hb, Option.some_inj] at hi
    rw [← hi, hkind]
  · intro c hc
    rw [hheld] at hc
    cases hc

theorem Base.sound_found (B : Base m) (hfound : m.found = some b) (hheld : m.held = none) :
    Sound {b} m.pend m.deferred m.state := by
  have S := B.sound
  have hholes : m.holes = {b} := by
    ext x
    simp [Moment.holes, hfound, hheld, eq_comm]
  rwa [hholes] at S

theorem Base.found_kind (B : Base m) (hfound : m.found = some b) (hb : m.state.heap b = some blk) :
    blk.info.kind = some true :=
  (B.found b hfound).2 blk.info (State.info_eq_some hb)

theorem Base.held_kind (B : Base m) (hheld : m.held = some b) (hb : m.state.heap b = some blk) :
    blk.info.kind = some true := by
  obtain ⟨-, -, i, hi, hk⟩ := B.held b hheld
  rw [State.info_eq_some hb, Option.some_inj] at hi
  rwa [hi]

/-- A block in use is no hole. -/
theorem Base.not_hole (B : Base m) (hb : m.state.heap b = some blk) (hkind : blk.info.kind = none) :
    b ∉ m.holes := by
  rintro (h | h)
  · rw [B.found_kind h hb] at hkind
    cases hkind
  · rw [B.held_kind h hb] at hkind
    cases hkind

theorem Base.age (B : Base m) (f : BlockId → ℕ) :
    Base { m with
      state := m.state.withHeap fun x =>
        (m.state.heap x).map fun blk => { blk with gcCount := f x } } := by
  have hview : (m.state.withHeap fun x => (m.state.heap x).map fun blk =>
      { blk with gcCount := f x }).view = m.state.view := by
    funext x
    rw [State.view, State.view, State.withHeap_heap, Option.map_map]
    rfl
  have hinfo : (m.state.withHeap fun x => (m.state.heap x).map fun blk =>
      { blk with gcCount := f x }).info = m.state.info := by
    funext x
    rw [State.info, State.info, State.withHeap_heap, Option.map_map]
    rfl
  refine ⟨B.sound.congr hview hinfo ?_ rfl rfl rfl rfl, ?_, ?_, B.waiting⟩
  · intro x y e hx he
    obtain ⟨z, hz, rfl⟩ := Option.map_eq_some_iff.mp hx
    exact B.sound.paged x z e hz he
  · intro b hb
    exact ⟨(B.found b hb).1, fun i hi => (B.found b hb).2 i (hinfo ▸ hi)⟩
  · intro b hb
    obtain ⟨h1, h2, i, hi, hk⟩ := B.held b hb
    exact ⟨h1, h2, i, hinfo ▸ hi, hk⟩

theorem Base.take (B : Base m) (hfound : m.found = none) (hheld : m.held = none)
    (hb : m.state.heap b = some blk) (hkind : blk.info.kind = some true)
    (hin : b ∈ m.state.blocks blk.pool ∨ blk.streamUses = []) :
    Base { m with state := m.state.eraseBlock blk.pool b, found := some b } := by
  have S := B.sound_empty hfound hheld
  have hbd : b ∉ m.deferred := by
    rcases hin with hin | huses
    · exact (S.of_mem_blocks hin).2.1
    · exact S.not_deferred hb (.inr huses)
  have S₁ := S.eraseBlock hb hkind hbd
  rw [insert_empty_eq] at S₁
  have hnot := S.not_active hb (fun h => h.elim) hbd (by simp [hkind])
  exact Base.of_found rfl hheld S₁ hb hkind hnot B.waiting

theorem Base.segment {p : AllocParams} {ptr : ℕ} (B : Base m) (hfound : m.found = none)
    (hheld : m.held = none) :
    Base { m with state := m.state.addSegment p ptr, found := some m.state.fresh } := by
  have S₀ := B.sound_empty hfound hheld
  have S := S₀.addBlock (newSegmentBlock p ptr) rfl rfl rfl rfl (fun h => by cases h) (fun _ h => by cases h)
  rw [insert_empty_eq] at S
  have heq := ({ m.state with device := ⟨ptr, p.allocSize⟩ :: m.state.device } : State).countMalloc_eq
    p.pool
  refine Base.of_found rfl hheld (S.congr_heap rfl ?_ ?_ ?_ ?_) (Function.update_self ..)
    (Info.kind_eq_some.mpr ⟨rfl, rfl, rfl⟩) ?_ ?_
  · simp only [State.addSegment, State.record, State.updateStats, State.extend]
    rw [heq]
  · simp only [State.addSegment, State.record, State.updateStats, State.extend]
    rw [heq]
  · simp only [State.addSegment, State.record, State.updateStats, State.extend]
    rw [heq]
  · simp only [State.addSegment, State.record, State.updateStats, State.extend]
    rw [heq]
  · simp only [State.addSegment, State.record, State.updateStats, State.extend]
    rw [heq]
    exact S₀.fresh_not_active fun h => h.elim
  · intro t x hx
    simp only [State.addSegment, State.record, State.updateStats, State.extend] at hx
    rw [heq] at hx
    exact B.waiting t x hx

theorem Base.expand {stream : Stream} {pool : PoolId} {e : ExpandableSegment} (B : Base m)
    (hfound : m.found = none) (hheld : m.held = none) (hpos : 0 < e.segmentSize) :
    Base { m with state := m.state.addExpandable stream pool e } := by
  have S := B.sound_empty hfound hheld
  have S₁ := S.addBlock (newExpandableBlock stream pool e) rfl rfl rfl rfl (fun _ => rfl) fun e' he' => by
    obtain rfl : e = e' := Option.some_inj.mp he'
    refine ⟨hpos, le_rfl, ?_, Dvd.intro_left _ rfl⟩
    change e.segmentSize ∣ e.ptr - e.ptr
    rw [Nat.sub_self]
    exact dvd_zero _
  rw [insert_empty_eq] at S₁
  have S₂ := S₁.insertUnmapped (b := m.state.fresh) (Function.update_self ..) rfl
    (Info.kind_eq_some.mpr ⟨rfl, rfl, rfl⟩) (S.fresh_not_active fun h => h.elim)
  rw [sdiff_self_singleton] at S₂
  exact Base.of_sound_empty hfound hheld (S₂.congr_heap rfl rfl rfl rfl rfl) B.waiting

theorem Base.map {n : ℕ} {e : ExpandableSegment} (B : Base m) (hfound : m.found = none)
    (hheld : m.held = none) (hb : m.state.heap b = some blk) (hkind : blk.info.kind = some false)
    (hsegment : blk.expandableSegment = some e) (hdvd : e.segmentSize ∣ n) (hn : n ≤ blk.size)
    (h : Mapped b blk n m.state s') : Base { m with state := s', budget := m.budget - n } := by
  have S := (B.sound_empty hfound hheld).mapped hb hkind hsegment hdvd hn h
  refine Base.of_sound_empty hfound hheld S ?_
  rw [h.eq]
  exact B.waiting

theorem insert_sdiff_other {b c : BlockId} (h : b ≠ c) :
    (insert c {b} : Set BlockId) \ {b} = {c} := by
  rw [Set.pair_comm]
  exact insert_sdiff_self h.symm

theorem Base.align {k : ℕ} (B : Base m) (hfound : m.found = some b) (hheld : m.held = none)
    (hb : m.state.heap b = some blk) (hlive : m.state.Live blk.next) :
    Base { m with state := m.state.align b blk k, found := some m.state.fresh } := by
  have S := B.sound_found hfound hheld
  have hkind := B.found_kind hfound hb
  have hbf := S.fresh.ne hb
  have S₁ := S.cutBack k true hb (Info.kind_eq_some.mp hkind).2.2 hlive (by simp)
  have S₂ := S₁.insertBlock (cutBackHeap_self hbf) (.inr rfl) hkind (B.found b hfound).1
  rw [insert_sdiff_other hbf] at S₂
  exact Base.of_found rfl hheld S₂ cutBackHeap_new (Info.kind_eq_some.mpr ⟨rfl, rfl, rfl⟩)
    (S.fresh_not_active fun h => hbf h.symm) B.waiting

theorem Base.split {k : ℕ} (B : Base m) (hfound : m.found = some b) (hheld : m.held = none)
    (hb : m.state.heap b = some blk) (hlive : m.state.Live blk.prev) :
    Base { m with state := m.state.splitFound b blk k, found := some m.state.fresh } := by
  have S := B.sound_found hfound hheld
  have hkind := B.found_kind hfound hb
  have hbf := S.fresh.ne hb
  have S₁ := S.cutFront k hb (Info.kind_eq_some.mp hkind).2.2 hlive
  have S₂ := S₁.insertBlock (cutFrontHeap_self hbf) (.inr rfl) hkind (B.found b hfound).1
  rw [insert_sdiff_other hbf] at S₂
  have B₂ : Base
      { m with
        state := (m.state.extend (cutFrontHeap m.state.heap b blk k m.state.fresh)).insertBlock
          blk.pool b
        found := some m.state.fresh } :=
    Base.of_found rfl hheld S₂ cutFrontHeap_new (Info.kind_eq_some.mpr ⟨rfl, rfl, rfl⟩)
      (S.fresh_not_active fun h => hbf h.symm) B.waiting
  rw [State.splitFound]
  split_ifs
  · exact B₂.congr rfl rfl rfl rfl rfl rfl
  · exact B₂

theorem Base.whole (B : Base m) : Base { m with state := m.state.takeWhole blk } := by
  rw [State.takeWhole]
  split_ifs
  · exact B.congr rfl rfl rfl rfl rfl rfl
  · exact B

theorem Base.activate (B : Base m) (hfound : m.found = some b) (hheld : m.held = none)
    (hb : m.state.heap b = some blk) :
    Base { m with state := m.state.activate b blk, found := none } := by
  have S := B.sound_found hfound hheld
  obtain ⟨halloc, hevents, hmapped⟩ := Info.kind_eq_some.mp (B.found_kind hfound hb)
  have hflags : ({ blk with allocated := true } : Block).info.Consistent := by
    refine ⟨fun _ => hevents, fun _ => hmapped, ?_, fun h => absurd hevents (Nat.pos_iff_ne_zero.mp h)⟩
    intro h
    exact absurd (hmapped.symm.trans h) (by decide)
  have hcounts : ∀ x, m.pend.count x = if x = b then blk.eventCount else m.pend.count x := by
    intro x
    split_ifs with hxb
    · rw [hxb, S.count hb]
    · rfl
  have hpages : ∀ e, blk.expandableSegment = some e → blk.mapped = false →
      e.ptr ≤ blk.ptr ∧ e.segmentSize ∣ blk.ptr - e.ptr ∧ e.segmentSize ∣ blk.size := by
    intro e _ hm
    exact absurd (hmapped.symm.trans hm) (by decide)
  have S₁ := S.put { blk with allocated := true } hb ⟨rfl, rfl, rfl⟩ hpages
    (S.sets.put_hole hb rfl hflags hcounts)
  have hkind' : ({ blk with allocated := true } : Block).info.kind = none :=
    Info.kind_eq_none.mpr (.inl rfl)
  have S₂ : Sound ({b} \ {b}) m.pend m.deferred (m.state.activate b blk) := by
    refine S₁.close (Function.update_self ..) rfl rfl rfl (fun _ _ h => .inl h)
      (fun _ _ h => .inl h) ?_ ?_ ?_ S₁.sets.distinct
    · intro x hxb
      simp [State.activate, State.updateStats, State.insertActive, hxb]
    · rw [hkind']
      simp [State.activate, State.updateStats, State.insertActive]
    · simp only [State.activate, State.updateStats, State.insertActive]
      refine List.nodup_cons.mpr ⟨?_, S.sets.activeNodup.filter _⟩
      simp
  rw [sdiff_self_singleton] at S₂
  exact Base.of_sound_empty rfl hheld S₂ B.waiting

/-- The block on its way to become free. -/
theorem Base.of_held (hheld : m.held = some b) (hb : m.state.heap b = some blk)
    (hkind : blk.info.kind = some true) (hactive : b ∈ m.state.activeBlocks)
    (hfound : ∀ c, m.found = some c → c ≠ b ∧ c ∉ m.state.activeBlocks ∧
      ∀ i, m.state.info c = some i → i.kind = some true)
    (S : Sound m.holes m.pend m.deferred m.state)
    (hwaiting : ∀ t x, m.state.mallocs t = some x → x.params.WellSized) : Base m := by
  refine ⟨S, fun c hc => (hfound c hc).2, ?_, hwaiting⟩
  intro c hc
  obtain rfl : b = c := Option.some_inj.mp (hheld.symm.trans hc)
  exact ⟨fun h => (hfound b h).1 rfl, hactive, blk.info, State.info_eq_some hb, hkind⟩

theorem Base.active_of_kind (B : Base m) (hb : m.state.heap b = some blk)
    (hkind : blk.info.kind = none) : b ∈ m.state.activeBlocks := by
  rw [B.sound.sets.active b (B.not_hole hb hkind), State.info_eq_some hb]
  exact .inl ⟨blk.info, rfl, hkind⟩

/-- A block in use stops being in use. -/
theorem Base.retire (B : Base m) (blk' : Block) (pend : Multiset BlockId) (hheld : m.held = none)
    (hb : m.state.heap b = some blk) (hkind : blk.info.kind = none) (h : SameLinks blk blk')
    (hkind' : blk'.info.kind = some true)
    (hcounts : ∀ x, pend.count x = if x = b then 0 else m.pend.count x) :
    Base { m with state := m.state.put b blk', held := some b, pend } := by
  obtain ⟨halloc, hevents, hmapped⟩ := Info.kind_eq_some.mp hkind'
  have hnot := B.not_hole hb hkind
  have hbd := B.sound.not_deferred hb (.inl (by simp [hkind]))
  have hactive := B.active_of_kind hb hkind
  have hfound : ∀ c, m.found = some c → c ≠ b := fun c hc hcb => hnot (.inl (hcb ▸ hc))
  have hinfo := State.info_eq_some hb
  have hsets : Sets { x | m.found = some x ∨ some b = some x } pend m.deferred
      (m.state.put b blk') := by
    refine B.sound.sets.step (some blk'.info) info_put le_rfl (fun _ => B.sound.live hb) ?_ ?_ ?_
      (fun _ _ => Iff.rfl) ?_ ?_ (fun h => absurd h hbd) B.sound.sets.nodup (fun _ _ => Iff.rfl)
      (fun h => absurd (.inr rfl) h) B.sound.sets.activeNodup B.sound.sets.distinct
    · rintro i ⟨⟩
      refine ⟨fun _ => hevents, fun _ => hmapped, ?_, fun h => absurd hevents (Nat.pos_iff_ne_zero.mp h)⟩
      intro h
      exact absurd (hmapped.symm.trans h) (by decide)
    · intro x
      rw [hcounts]
      split_ifs
      · exact hevents.symm
      · rfl
    · intro x hxb
      simp [Moment.holes, hheld, Ne.symm hxb]
    · intro pool x hx
      refine .inl ⟨?_, hx⟩
      rintro rfl
      obtain ⟨-, -, i, hi, -, hk⟩ := B.sound.sets.blocks pool x hx
      rw [hinfo, Option.some_inj] at hi
      rw [← hi, hkind] at hk
      cases hk
    · intro pool x hx
      refine .inl ⟨?_, hx⟩
      rintro rfl
      obtain ⟨-, -, i, hi, -, hk⟩ := B.sound.sets.unmapped pool x hx
      rw [hinfo, Option.some_inj] at hi
      rw [← hi, hkind] at hk
      cases hk
  have hpages : ∀ e, blk'.expandableSegment = some e → blk'.mapped = false →
      e.ptr ≤ blk'.ptr ∧ e.segmentSize ∣ blk'.ptr - e.ptr ∧ e.segmentSize ∣ blk'.size := by
    intro e _ hm
    exact absurd (hmapped.symm.trans hm) (by decide)
  refine Base.of_held rfl (Function.update_self ..) hkind' hactive ?_
    (B.sound.put blk' hb h hpages hsets) B.waiting
  intro c hc
  refine ⟨hfound c hc, (B.found c hc).1, fun i hi => (B.found c hc).2 i ?_⟩
  rwa [info_put, if_neg (hfound c hc)] at hi

theorem Base.deallocate (B : Base m) (hheld : m.held = none) (hb : m.state.heap b = some blk)
    (halloc : blk.allocated = true) :
    Base { m with state := m.state.deallocate b blk, held := some b } := by
  have hflags := B.sound.flags hb
  have hevents : blk.eventCount = 0 := hflags.events halloc
  have hmapped : blk.mapped = true := hflags.mapped (.inl halloc)
  have hcounts : ∀ x, m.pend.count x = if x = b then 0 else m.pend.count x := by
    intro x
    split_ifs with hxb
    · rw [hxb, B.sound.count hb, hevents]
    · rfl
  have B₁ := B.retire { blk with allocated := false } m.pend hheld hb
    (Info.kind_eq_none.mpr (.inl halloc)) ⟨rfl, rfl, rfl⟩
    (Info.kind_eq_some.mpr ⟨rfl, hevents, hmapped⟩) hcounts
  exact B₁.congr rfl rfl rfl rfl rfl rfl

theorem count_of_cons {pend : Multiset BlockId} (hpend : m.pend = b ::ₘ pend)
    (x : BlockId) : pend.count x = if x = b then m.pend.count b - 1 else m.pend.count x := by
  rw [hpend]
  split_ifs with hxb
  · rw [hxb, Multiset.count_cons_self, Nat.add_sub_cancel]
  · rw [Multiset.count_cons_of_ne hxb]

theorem Base.lastEvent {pend : Multiset BlockId} (B : Base m) (hheld : m.held = none)
    (hpend : m.pend = b ::ₘ pend) (hb : m.state.heap b = some blk) (hcount : blk.eventCount = 1) :
    Base { m with
      state := m.state.put b { blk with eventCount := 0 }, held := some b, pend := pend } := by
  have hflags := B.sound.flags hb
  have hpos : 0 < blk.eventCount := by omega
  have halloc : blk.allocated = false := by
    by_contra h
    have := hflags.events (Bool.not_eq_false _ ▸ h)
    change blk.eventCount = 0 at this
    omega
  refine B.retire { blk with eventCount := 0 } pend hheld hb (Info.kind_eq_none.mpr (.inr hpos))
    ⟨rfl, rfl, rfl⟩ (Info.kind_eq_some.mpr ⟨halloc, rfl, hflags.mapped (.inr hpos)⟩) ?_
  intro x
  rw [count_of_cons hpend, B.sound.count hb, hcount]

/-- A block in use stays in use. -/
theorem Base.use (B : Base m) (blk' : Block) (pend : Multiset BlockId)
    (hb : m.state.heap b = some blk) (hkind : blk.info.kind = none) (h : SameLinks blk blk')
    (hflags : blk'.info.Consistent) (hkind' : blk'.info.kind = none)
    (hcounts : ∀ x, pend.count x = if x = b then blk'.eventCount else m.pend.count x) :
    Base { m with state := m.state.put b blk', pend } := by
  have hnot := B.not_hole hb hkind
  have hbd := B.sound.not_deferred hb (.inl (by simp [hkind]))
  have hactive := B.active_of_kind hb hkind
  have hinfo := State.info_eq_some hb
  have hsets : Sets m.holes pend m.deferred (m.state.put b blk') := by
    refine B.sound.sets.step (some blk'.info) info_put le_rfl (fun _ => B.sound.live hb) ?_ hcounts
      (fun _ _ => Iff.rfl) (fun _ _ => Iff.rfl) ?_ ?_ (fun h => absurd h hbd) B.sound.sets.nodup
      (fun _ _ => Iff.rfl) ?_ B.sound.sets.activeNodup B.sound.sets.distinct
    · rintro i ⟨⟩
      exact hflags
    · intro pool x hx
      refine .inl ⟨?_, hx⟩
      rintro rfl
      obtain ⟨-, -, i, hi, -, hk⟩ := B.sound.sets.blocks pool x hx
      rw [hinfo, Option.some_inj] at hi
      rw [← hi, hkind] at hk
      cases hk
    · intro pool x hx
      refine .inl ⟨?_, hx⟩
      rintro rfl
      obtain ⟨-, -, i, hi, -, hk⟩ := B.sound.sets.unmapped pool x hx
      rw [hinfo, Option.some_inj] at hi
      rw [← hi, hkind] at hk
      cases hk
    · intro _
      exact ⟨fun _ => .inl ⟨blk'.info, rfl, hkind'⟩, fun _ => hactive⟩
  have hpages : ∀ e, blk'.expandableSegment = some e → blk'.mapped = false →
      e.ptr ≤ blk'.ptr ∧ e.segmentSize ∣ blk'.ptr - e.ptr ∧ e.segmentSize ∣ blk'.size := by
    intro e _ hm
    have hmapped : blk'.mapped = true := hflags.mapped (Info.kind_eq_none.mp hkind')
    exact absurd (hmapped.symm.trans hm) (by decide)
  refine ⟨B.sound.put blk' hb h hpages hsets, ?_, ?_, B.waiting⟩
  · intro c hc
    have hcb : c ≠ b := fun h => hnot (.inl (h ▸ hc))
    refine ⟨(B.found c hc).1, fun i hi => (B.found c hc).2 i ?_⟩
    rwa [info_put, if_neg hcb] at hi
  · intro c hc
    have hcb : c ≠ b := fun h => hnot (.inr (h ▸ hc))
    obtain ⟨h1, h2, i, hi, hk⟩ := B.held c hc
    exact ⟨h1, h2, i, by rwa [info_put, if_neg hcb], hk⟩

/-- The streams of a block in use, or of the block that is on its way to become free. -/
theorem Base.uses {streams : List Stream} (B : Base m) (hb : m.state.heap b = some blk)
    (h : blk.allocated = true ∨ m.held = some b) :
    Base { m with state := m.state.put b { blk with streamUses := streams } } := by
  have hflags := B.sound.flags hb
  have hevents : blk.eventCount = 0 := by
    rcases h with h | h
    · exact hflags.events h
    · exact (Info.kind_eq_some.mp (B.held_kind h hb)).2.1
  have hflags' : ({ blk with streamUses := streams } : Block).info.Consistent :=
    ⟨hflags.events, hflags.mapped, hflags.expandable, fun h => absurd hevents (Nat.pos_iff_ne_zero.mp h)⟩
  have hcounts : ∀ x, m.pend.count x = if x = b then blk.eventCount else m.pend.count x := by
    intro x
    split_ifs with hxb
    · rw [hxb, B.sound.count hb]
    · rfl
  rcases h with halloc | hheld
  · exact B.use { blk with streamUses := streams } m.pend hb (Info.kind_eq_none.mpr (.inl halloc))
      ⟨rfl, rfl, rfl⟩ hflags' (Info.kind_eq_none.mpr (.inl halloc)) hcounts
  · have hkind := B.held_kind hheld hb
    obtain ⟨hfound, hactive, -⟩ := B.held b hheld
    have hpages : ∀ e, blk.expandableSegment = some e → blk.mapped = false →
        e.ptr ≤ blk.ptr ∧ e.segmentSize ∣ blk.ptr - e.ptr ∧ e.segmentSize ∣ blk.size := by
      intro e he hm
      exact (B.sound.paged b blk e hb he).2 hm
    have S := B.sound.put { blk with streamUses := streams } hb ⟨rfl, rfl, rfl⟩ hpages
      (B.sound.sets.put_hole hb (.inr hheld) hflags' hcounts)
    refine Base.of_held hheld (Function.update_self ..) hkind hactive ?_ S B.waiting
    intro c hc
    have hcb : c ≠ b := fun h => hfound (h ▸ hc)
    refine ⟨hcb, (B.found c hc).1, fun i hi => (B.found c hc).2 i ?_⟩
    rwa [info_put, if_neg hcb] at hi

theorem Base.event {pend : Multiset BlockId} (B : Base m) (hpend : m.pend = b ::ₘ pend)
    (hb : m.state.heap b = some blk) (hcount : 1 < blk.eventCount) :
    Base { m with
      state := m.state.put b { blk with eventCount := blk.eventCount - 1 }, pend := pend } := by
  have hflags := B.sound.flags hb
  have hpos : 0 < blk.eventCount := by omega
  have hpos' : 0 < blk.eventCount - 1 := by omega
  have hflags' : ({ blk with eventCount := blk.eventCount - 1 } : Block).info.Consistent := by
    refine ⟨?_, fun _ => hflags.mapped (.inr hpos), hflags.expandable, fun _ => hflags.uses hpos⟩
    intro h
    exact absurd (hflags.events h) (Nat.pos_iff_ne_zero.mp hpos)
  refine B.use { blk with eventCount := blk.eventCount - 1 } pend hb
    (Info.kind_eq_none.mpr (.inr hpos)) ⟨rfl, rfl, rfl⟩ hflags'
    (Info.kind_eq_none.mpr (.inr hpos')) ?_
  intro x
  rw [count_of_cons hpend, B.sound.count hb]

/-- When nothing is on its way to become free. -/
theorem Base.of_not_held (hheld : m.held = none) (S : Sound m.holes m.pend m.deferred m.state)
    (hfound : ∀ c, m.found = some c → c ∉ m.state.activeBlocks ∧
      ∀ i, m.state.info c = some i → i.kind = some true)
    (hwaiting : ∀ t x, m.state.mallocs t = some x → x.params.WellSized) : Base m := by
  refine ⟨S, hfound, ?_, hwaiting⟩
  intro c hc
  rw [hheld] at hc
  cases hc

theorem Base.events (B : Base m) (hheld : m.held = some b) (hb : m.state.heap b = some blk)
    (huses : blk.streamUses ≠ []) :
    Base { m with
      state := m.state.put b { blk with streamUses := [], eventCount := blk.streamUses.length }
      held := none
      pend := m.pend + Multiset.replicate blk.streamUses.length b } := by
  obtain ⟨halloc, hevents, hmapped⟩ := Info.kind_eq_some.mp (B.held_kind hheld hb)
  obtain ⟨hfound, hactive, -⟩ := B.held b hheld
  have hbh : b ∈ m.holes := .inr hheld
  have hbd : b ∉ m.deferred := fun h => (B.sound.sets.waits b h).1 hbh
  have hpos : 0 < blk.streamUses.length := List.length_pos_iff.mpr huses
  have hsets : Sets { x | m.found = some x ∨ none = some x }
      (m.pend + Multiset.replicate blk.streamUses.length b) m.deferred
      (m.state.put b { blk with streamUses := [], eventCount := blk.streamUses.length }) := by
    refine B.sound.sets.step (some _) info_put le_rfl (fun _ => B.sound.live hb) ?_ ?_ ?_
      (fun _ _ => Iff.rfl) ?_ ?_ (fun h => absurd h hbd) B.sound.sets.nodup (fun _ _ => Iff.rfl)
      ?_ B.sound.sets.activeNodup B.sound.sets.distinct
    · rintro i ⟨⟩
      refine ⟨?_, fun _ => hmapped, ?_, fun _ => rfl⟩
      · intro h
        exact absurd (halloc.symm.trans h) (by decide)
      · intro h
        exact absurd (hmapped.symm.trans h) (by decide)
    · intro x
      rw [Multiset.count_add, Multiset.count_replicate]
      split_ifs with h1 h2 h2
      · rw [h2, B.sound.count hb]
        change blk.info.eventCount + _ = blk.streamUses.length
        rw [hevents, Nat.zero_add]
      · exact absurd h1.symm h2
      · exact absurd h2.symm h1
      · rfl
    · intro x hxb
      simp [Moment.holes, hheld, Ne.symm hxb]
    · intro pool x hx
      exact .inl ⟨fun h => (B.sound.sets.blocks pool x hx).1 (h ▸ hbh), hx⟩
    · intro pool x hx
      exact .inl ⟨fun h => (B.sound.sets.unmapped pool x hx).1 (h ▸ hbh), hx⟩
    · intro _
      exact ⟨fun _ => .inl ⟨_, rfl, Info.kind_eq_none.mpr (.inr hpos)⟩, fun _ => hactive⟩
  have hpages : ∀ e, blk.expandableSegment = some e → blk.mapped = false →
      e.ptr ≤ blk.ptr ∧ e.segmentSize ∣ blk.ptr - e.ptr ∧ e.segmentSize ∣ blk.size := by
    intro e he hm
    exact (B.sound.paged b blk e hb he).2 hm
  refine Base.of_not_held rfl (B.sound.put _ hb ⟨rfl, rfl, rfl⟩ hpages hsets) ?_ B.waiting
  intro c hc
  have hcb : c ≠ b := fun h => hfound (h ▸ hc)
  refine ⟨(B.found c hc).1, fun i hi => (B.found c hc).2 i ?_⟩
  rwa [info_put, if_neg hcb] at hi

theorem Base.defer (B : Base m) (hheld : m.held = some b) (hb : m.state.heap b = some blk)
    (huses : blk.streamUses ≠ []) :
    Base { m with held := none, deferred := m.deferred ++ [b] } := by
  have hkind := B.held_kind hheld hb
  obtain ⟨hfound, hactive, -⟩ := B.held b hheld
  have hinfo := State.info_eq_some hb
  have hbh : b ∈ m.holes := .inr hheld
  have hbd : b ∉ m.deferred := fun h => (B.sound.sets.waits b h).1 hbh
  have hsets : Sets { x | m.found = some x ∨ none = some x } m.pend (m.deferred ++ [b]) m.state := by
    refine B.sound.sets.step (b := b) (some blk.info) ?_ le_rfl (fun _ => B.sound.live hb) ?_ ?_ ?_ ?_
      ?_ ?_ ?_ ?_ (fun _ _ => Iff.rfl) ?_ B.sound.sets.activeNodup B.sound.sets.distinct
    · intro x
      split_ifs with hxb
      · rw [hxb, hinfo]
      · rfl
    · rintro i ⟨⟩
      exact B.sound.flags hb
    · intro x
      split_ifs with hxb
      · rw [hxb]
        exact B.sound.count hb
      · rfl
    · intro x hxb
      simp [Moment.holes, hheld, Ne.symm hxb]
    · intro x hxb
      simp [hxb]
    · intro pool x hx
      exact .inl ⟨fun h => (B.sound.sets.blocks pool x hx).1 (h ▸ hbh), hx⟩
    · intro pool x hx
      exact .inl ⟨fun h => (B.sound.sets.unmapped pool x hx).1 (h ▸ hbh), hx⟩
    · intro _
      refine ⟨?_, blk.info, rfl, hkind, huses⟩
      rintro (h | h)
      · exact hfound h
      · cases h
    · exact List.nodup_append.mpr ⟨B.sound.sets.nodup, List.nodup_singleton b, by
        intro x hx y hy hxy
        rw [List.mem_singleton] at hy
        exact hbd (hy ▸ hxy ▸ hx)⟩
    · intro _
      exact ⟨fun _ => .inr (by simp), fun _ => hactive⟩
  exact Base.of_not_held rfl ⟨B.sound.linked, B.sound.unreferenced, hsets, B.sound.paged⟩ B.found
    B.waiting

theorem Base.undefer {rest : List BlockId} (B : Base m) (hheld : m.held = none)
    (hdeferred : m.deferred = b :: rest) : Base { m with held := some b, deferred := rest } := by
  have hmem : b ∈ m.deferred := by
    rw [hdeferred]
    exact List.mem_cons_self ..
  obtain ⟨hnot, i, hi, hkind, huses⟩ := B.sound.sets.waits b hmem
  obtain ⟨blk, hb, rfl⟩ := State.exists_of_info hi
  have hactive : b ∈ m.state.activeBlocks := (B.sound.sets.active b hnot).mpr (.inr hmem)
  have hnodup := B.sound.sets.nodup
  rw [hdeferred, List.nodup_cons] at hnodup
  have hsets : Sets { x | m.found = some x ∨ some b = some x } m.pend rest m.state := by
    refine B.sound.sets.step (b := b) (some blk.info) ?_ le_rfl (fun _ => B.sound.live hb) ?_ ?_ ?_ ?_
      ?_ ?_ (fun h => absurd h hnodup.1) hnodup.2 (fun _ _ => Iff.rfl)
      (fun h => absurd (.inr rfl) h) B.sound.sets.activeNodup B.sound.sets.distinct
    · intro x
      split_ifs with hxb
      · rw [hxb, hi]
      · rfl
    · rintro i ⟨⟩
      exact B.sound.flags hb
    · intro x
      split_ifs with hxb
      · rw [hxb]
        exact B.sound.count hb
      · rfl
    · intro x hxb
      simp [Moment.holes, hheld, Ne.symm hxb]
    · intro x hxb
      simp [hdeferred, hxb]
    · intro pool x hx
      exact .inl ⟨fun h => (B.sound.sets.blocks pool x hx).2.1 (h ▸ hmem), hx⟩
    · intro pool x hx
      exact .inl ⟨fun h => (B.sound.sets.unmapped pool x hx).2.1 (h ▸ hmem), hx⟩
  refine Base.of_held rfl hb hkind hactive ?_
    ⟨B.sound.linked, B.sound.unreferenced, hsets, B.sound.paged⟩ B.waiting
  intro c hc
  exact ⟨fun h => hnot (.inl (h ▸ hc)), B.found c hc⟩

/-- A merge leaves no block with data that are not those it had before. -/
theorem MergePrev.info_le {n : ℕ} (h : MergePrev b blk s n s') (hb : s.heap b = some blk)
    (hi : s'.info c = some i) : s.info c = some i := by
  cases h with
  | kept hlive hk => exact hi
  | joined x src hprev hc hm hlive =>
    rw [info_mergePrev hb] at hi
    split_ifs at hi with hcx
    exact hi

theorem MergeNext.info_le {n : ℕ} (h : MergeNext b blk s n s') (hb : s.heap b = some blk)
    (hi : s'.info c = some i) : s.info c = some i := by
  cases h with
  | kept hlive hk => exact hi
  | joined x src hprev hc hm hlive =>
    rw [info_mergeNext hb] at hi
    split_ifs at hi with hcx
    exact hi

theorem Freed.info_le (h : Freed b blk s s') (hb : s.heap b = some blk) (hi : s'.info c = some i) :
    s.info c = some i := by
  obtain ⟨n₁, n₂, s₁, s₂, blk₁, merged, hprev, hb₁, hnext, -, -⟩ := h
  exact hprev.info_le hb (hnext.info_le hb₁ hi)

theorem Freed.activeBlocks (h : Freed b blk s s') :
    s'.activeBlocks = s.activeBlocks.filter (· ≠ b) := by
  obtain ⟨n₁, n₂, s₁, s₂, blk₁, merged, hprev, hb₁, hnext, -, -⟩ := h
  simp only [State.updateStats, State.insertBlock, State.eraseActive]
  rw [hnext.eq, hprev.eq]

theorem Base.free (B : Base m) (hheld : m.held = some b) (hb : m.state.heap b = some blk)
    (h : Freed b blk m.state s') : Base { m with state := s', held := none } := by
  have S := B.sound.freed hb (.inr hheld) (B.held_kind hheld hb) h
  have hfound := (B.held b hheld).1
  have hholes : m.holes \ {b} = { x | m.found = some x ∨ none = some x } := by
    ext x
    simp only [Moment.holes, hheld, Set.mem_sdiff, Set.mem_ofPred_eq, Set.mem_singleton_iff]
    constructor
    · rintro ⟨hx | hx, hxb⟩
      · exact .inl hx
      · exact absurd (Option.some_inj.mp hx).symm hxb
    · rintro (hx | hx)
      · exact ⟨.inl hx, fun hxb => hfound (hxb ▸ hx)⟩
      · cases hx
  rw [hholes] at S
  refine Base.of_not_held rfl S ?_ ?_
  · intro c hc
    refine ⟨?_, fun i hi => (B.found c hc).2 i (h.info_le hb hi)⟩
    rw [h.activeBlocks]
    exact fun hmem => (B.found c hc).1 (List.mem_of_mem_filter hmem)
  · rw [h.eq]
    exact B.waiting

theorem Base.unmap {lo n : ℕ} {e : ExpandableSegment} {s₁ s₂ : State} (B : Base m)
    (hfound : m.found = none) (hheld : m.held = none) (hb : m.state.heap b = some blk)
    (hin : b ∈ m.state.blocks blk.pool) (hsegment : blk.expandableSegment = some e)
    (hptr : e.ptr ≤ lo) (hdvd : e.segmentSize ∣ lo - e.ptr) (hdvd' : e.segmentSize ∣ n)
    (h : Unmapped b blk lo n m.state s₁)
    (hcount : s₂ = s₁.countFree blk.pool ∨ s₂ = s₁.beforeCountFree blk.pool) :
    Base { m with state := s₂ } := by
  have S := (B.sound_empty hfound hheld).unmapped hb hin hsegment hptr hdvd hdvd' h
  have hwaiting : ∀ t x, s₁.mallocs t = some x → x.params.WellSized := by
    rw [h.eq]
    exact B.waiting
  rcases hcount with rfl | rfl
  · rw [s₁.countFree_eq]
    exact Base.of_sound_empty hfound hheld (S.congr_heap rfl rfl rfl rfl rfl) hwaiting
  · rw [s₁.beforeCountFree_eq]
    exact Base.of_sound_empty hfound hheld (S.congr_heap rfl rfl rfl rfl rfl) hwaiting

/-- A free block that is deleted. -/
theorem Sound.dropBlock (S : Sound ∅ pend deferred s) (hb : s.heap b = some blk)
    (hin : b ∈ s.blocks blk.pool) : Sound ∅ pend deferred (s.dropBlock b blk) := by
  obtain ⟨-, hbd, blk', hb', -, hkind⟩ := S.of_mem_blocks hin
  obtain rfl : blk' = blk := Option.some_inj.mp (hb'.symm.trans hb)
  refine S.delete hb hbd (fun h => h.elim) (by simp [hkind]) rfl rfl ?_ ?_ rfl
    (nodup_eraseBlock S.sets.distinct)
  · intro pool x hx
    by_cases hp : pool = blk'.pool
    · subst hp
      simp only [State.dropBlock, State.eraseBlock, State.updateStats, State.withHeap,
        Function.update_self, mem_setErase] at hx
      exact hx
    · simp only [State.dropBlock, State.eraseBlock, State.updateStats, State.withHeap,
        Function.update_of_ne hp] at hx
      refine ⟨hx, ?_⟩
      rintro rfl
      obtain ⟨-, -, y, hy, hpool, -⟩ := S.of_mem_blocks hx
      obtain rfl : y = blk' := Option.some_inj.mp (hy.symm.trans hb)
      exact hp hpool.symm
  · intro pool x hx
    refine ⟨hx, ?_⟩
    rintro rfl
    obtain ⟨-, -, y, hy, -, hk⟩ := S.of_mem_unmapped hx
    obtain rfl : y = blk' := Option.some_inj.mp (hy.symm.trans hb)
    rw [hkind] at hk
    cases hk

theorem freeSegment_countFree_eq :
    (s.freeSegment b blk).countFree blk.pool =
      { s with
        device := s.device.filter (·.lo ≠ blk.ptr)
        totalAllocatedMemory := s.totalAllocatedMemory - blk.size
        graphPools := ((s.freeSegment b blk).countFree blk.pool).graphPools
        trace := ((s.freeSegment b blk).countFree blk.pool).trace } := by
  rw [State.countFree_eq]
  rfl

theorem freeSegment_beforeCountFree_eq :
    (s.freeSegment b blk).beforeCountFree blk.pool =
      { s with
        device := s.device.filter (·.lo ≠ blk.ptr)
        totalAllocatedMemory := s.totalAllocatedMemory - blk.size
        trace := ((s.freeSegment b blk).beforeCountFree blk.pool).trace } := by
  rw [State.beforeCountFree_eq]
  rfl

theorem Base.release (B : Base m) (hfound : m.found = none) (hheld : m.held = none)
    (hb : m.state.heap b = some blk) (hin : b ∈ m.state.blocks blk.pool) :
    Base { m with
      state := ((m.state.freeSegment b blk).countFree blk.pool).dropBlock b blk } := by
  rw [freeSegment_countFree_eq]
  refine Base.of_sound_empty hfound hheld (Sound.dropBlock ?_ hb hin) B.waiting
  exact (B.sound_empty hfound hheld).congr_heap rfl rfl rfl rfl rfl

theorem Base.dropSegment {e : ExpandableSegment} (B : Base m) (hfound : m.found = none)
    (hheld : m.held = none) (hb : m.state.heap b = some blk)
    (hkind : blk.info.kind = some false) : Base { m with state := m.state.dropSegment b blk e } := by
  have S := B.sound_empty hfound hheld
  refine Base.of_sound_empty hfound hheld ?_ B.waiting
  refine S.delete hb (S.not_deferred hb (.inl (by simp [hkind]))) (fun h => h.elim)
    (by simp [hkind]) rfl rfl ?_ ?_ rfl S.sets.distinct
  · intro pool x hx
    refine ⟨hx, ?_⟩
    rintro rfl
    obtain ⟨-, -, y, hy, -, hk⟩ := S.of_mem_blocks hx
    obtain rfl : y = blk := Option.some_inj.mp (hy.symm.trans hb)
    rw [hkind] at hk
    cases hk
  · intro pool x hx
    by_cases hp : pool = blk.pool
    · subst hp
      simp only [State.dropSegment, State.eraseUnmapped, Function.update_self, mem_setErase] at hx
      exact hx
    · simp only [State.dropSegment, State.eraseUnmapped, Function.update_of_ne hp] at hx
      refine ⟨hx, ?_⟩
      rintro rfl
      obtain ⟨-, -, y, hy, hpool, -⟩ := S.of_mem_unmapped hx
      obtain rfl : y = blk := Option.some_inj.mp (hy.symm.trans hb)
      exact hp hpool.symm

theorem Base.erase {id : MempoolId} {e : TraceEntry} (B : Base m) (hfound : m.found = none)
    (hheld : m.held = none) :
    Base { m with state := (m.state.record e).erasePool id } := by
  have S := B.sound_empty hfound hheld
  have hsets : Sets ∅ m.pend m.deferred ((m.state.record e).erasePool id) := by
    refine { S.sets with blocks := ?_, unmapped := ?_, distinct := ?_ }
    · intro pool b hb
      simp only [State.erasePool, State.record] at hb
      split_ifs at hb
      · cases hb
      · exact S.sets.blocks pool b hb
    · intro pool b hb
      simp only [State.erasePool, State.record] at hb
      split_ifs at hb
      · cases hb
      · exact S.sets.unmapped pool b hb
    · intro pool
      simp only [State.erasePool, State.record]
      split_ifs
      · exact List.nodup_nil
      · exact S.sets.distinct pool
  exact Base.of_sound_empty hfound hheld ⟨S.linked, S.unreferenced, hsets, S.paged⟩ B.waiting

/-- Every move keeps the invariant. -/
theorem Move.base (h : Move L m m') (B : Base m) : Base m' := by
  cases h with
  | quiet h =>
    exact B.congr h.heap h.fresh h.blocks h.unmapped h.activeBlocks h.mallocs
  | wait t pending h =>
    refine ⟨B.sound.congr_heap rfl rfl rfl rfl rfl, B.found, B.held, ?_⟩
    intro t' x hx
    by_cases ht : t' = t
    · subst ht
      exact h x (by simpa using hx)
    · exact B.waiting t' x (by simpa [ht] using hx)
  | age f => exact B.age f
  | take b blk hfound hheld hb hkind hin => exact B.take hfound hheld hb hkind hin
  | handOut b blk hfound hb => exact B.congr rfl rfl rfl rfl rfl rfl
  | segment p ptr hfound hheld => exact B.segment hfound hheld
  | grant a n hfits hgrant => exact ⟨B.sound, B.found, B.held, B.waiting⟩
  | giveUp n h => exact ⟨B.sound, B.found, B.held, B.waiting⟩
  | expand stream pool e hfound hheld hpage hexpandable hpos havailable =>
    exact B.expand hfound hheld hpos
  | map b blk e n hfound hheld hb hkind hsegment hpos hdvd hsize hbudget h =>
    exact B.map hfound hheld hb hkind hsegment hdvd hsize h
  | count b blk hfound hb hexpandable hpool =>
    rw [m.state.countMalloc_eq]
    exact B.congr rfl rfl rfl rfl rfl rfl
  | align b blk k hfound hheld hb hpos hk halign hlive => exact B.align hfound hheld hb hlive
  | split b blk k hfound hheld hb hsize hk hlive => exact B.split hfound hheld hb hlive
  | whole b blk hfound hb => exact B.whole
  | activate b blk hfound hheld hb hpool => exact B.activate hfound hheld hb
  | deallocate b blk hfound hheld hb halloc hpool => exact B.deallocate hheld hb halloc
  | uses b blk streams hb h => exact B.uses hb h
  | events b blk hheld hb huses => exact B.events hheld hb huses
  | defer b blk hheld hb huses => exact B.defer hheld hb huses
  | undefer b rest hheld hdeferred => exact B.undefer hheld hdeferred
  | event b blk pend hpend hb hcount => exact B.event hpend hb hcount
  | lastEvent b blk pend hheld hpend hb hcount => exact B.lastEvent hheld hpend hb hcount
  | free b blk hheld hb huses hlazy h => exact B.free hheld hb h
  | unmap b blk e lo n hfound hheld hb hin hsegment hlo hpos hend hptr hdvd hdvd' h hcount =>
    exact B.unmap hfound hheld hb hin hsegment hptr hdvd hdvd' h
      (hcount.imp And.right And.right)
  | release b blk hfound hheld hb hin => exact B.release hfound hheld hb hin
  | releaseFails b blk hfound hheld hb hin =>
    rw [freeSegment_beforeCountFree_eq]
    exact B.congr rfl rfl rfl rfl rfl rfl
  | dropSegment b blk e hfound hheld hb hkind => exact B.dropSegment hfound hheld hb hkind
  | pool id pp h => exact B.congr rfl rfl rfl rfl rfl rfl
  | freeable id => exact B.congr rfl rfl rfl rfl rfl rfl
  | erase id pp hfound hheld => exact B.erase hfound hheld
  | limit maximum hlicence => exact B.congr rfl rfl rfl rfl rfl rfl

theorem Moves.base (h : Moves L m m') (B : Base m) : Base m' := by
  induction h with
  | refl => exact B
  | tail _ hmove ih => exact hmove.base ih

/-- A property that every move keeps is kept by sequences of moves. -/
theorem Moves.induction {P : Moment → Prop} (h : Moves L m m') (B : Base m) (hm : P m)
    (hmove : ∀ x y, Base x → P x → Move L x y → P y) : P m' := by
  induction h with
  | refl => exact hm
  | tail hmoves hlast ih => exact hmove _ _ (Moves.base hmoves B) ih hlast

end TorchNpu.Allocator
