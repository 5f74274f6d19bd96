/-
  Giving memory back to the device, as moves.

  The loops go through a list of blocks that was copied from the free set of a pool.  A block that has been
  released or unmapped leaves the set; the ones that are still to come stay in it, since no block is in the
  list twice.  That is `Kept`.
-/
import TorchNpu.Allocator.Spec.MapRefines

namespace TorchNpu.Allocator

open Tiling

variable {L : Licence} {m₀ m : Moment} {s s' s'' : State} {b c : BlockId} {blk : Block} {pool : PoolId}
  {e : ExpandableSegment} {lo n : ℕ}

/-- What giving back the memory of `b` leaves as it was: the other blocks in the free sets, and who uses
the private pools. -/
structure Kept (b : BlockId) (s s' : State) : Prop where
  blocks : ∀ pool x, x ∈ s.blocks pool → x ≠ b → x ∈ s'.blocks pool
  uses : ∀ id, (s'.graphPools id).map PrivatePool.useCount =
    (s.graphPools id).map PrivatePool.useCount

theorem Kept.refl : Kept b s s :=
  ⟨fun _ _ h _ => h, fun _ => rfl⟩

theorem Kept.trans (h : Kept b s s') (h' : Kept b s' s'') : Kept b s s'' :=
  ⟨fun pool x hx hxb => h'.blocks pool x (h.blocks pool x hx hxb) hxb,
    fun id => (h'.uses id).trans (h.uses id)⟩

theorem Kept.of_driven (h : s'.undriven = s.undriven) : Kept b s s' := by
  refine ⟨?_, ?_⟩
  · rw [(quiet_of_undriven h).blocks]
    exact fun _ _ h _ => h
  · rw [(quiet_of_undriven h).graphPools]
    exact fun _ => rfl

theorem uses_setPool {id : MempoolId} {pp : PrivatePool} (pp' : PrivatePool)
    (hpool : s.graphPools id = some pp) (huse : pp'.useCount = pp.useCount) (id' : MempoolId) :
    ((s.setPool id pp').graphPools id').map PrivatePool.useCount =
      (s.graphPools id').map PrivatePool.useCount := by
  simp only [State.setPool]
  by_cases hid : id' = id
  · subst hid
    rw [Function.update_self, hpool, Option.map_some, Option.map_some, huse]
  · rw [Function.update_of_ne hid]

theorem graphPools_of_privatePool {id : MempoolId} {pp : PrivatePool}
    (h : s.privatePool pool = some (id, pp)) : s.graphPools id = some pp := by
  rw [State.privatePool] at h
  cases howner : pool.owner with
  | none =>
    rw [howner] at h
    cases h
  | some id' =>
    rw [howner, Option.bind_some, Option.map_eq_some_iff] at h
    obtain ⟨pp', hpp', heq⟩ := h
    rw [Prod.mk.injEq] at heq
    rw [← heq.1, ← heq.2, hpp']

theorem uses_countFree (id : MempoolId) :
    ((s.countFree pool).graphPools id).map PrivatePool.useCount =
      (s.graphPools id).map PrivatePool.useCount := by
  rw [State.countFree]
  split
  · rfl
  · rename_i id' pp hpp
    have hget : (s.record (.countFree pp)).graphPools id' = some pp := graphPools_of_privatePool hpp
    exact uses_setPool { pp with npuMallocCount := pp.npuMallocCount - 1 } hget rfl id

theorem wp_countFree {Q : Unit → State → Prop}
    (hpositive : s.HasPool pool → s.Positive pool → Q () (s.countFree pool))
    (hzero : s.HasPool pool → ¬s.Positive pool →
      Ends L m₀ .internalAssert (s.beforeCountFree pool)) :
    wp (countFree pool) s Q (Ends L m₀) := by
  refine wp_bind (wp_derefPool fun hhas => ?_)
  cases hpp : s.privatePool pool with
  | none =>
    refine wp_pure ?_
    have heq : s.countFree pool = s := by rw [State.countFree, hpp]
    rw [heq] at hpositive
    refine hpositive hhas ?_
    intro id pp h
    rw [hpp] at h
    cases h
  | some entry =>
    obtain ⟨id, pp⟩ := entry
    have heq : s.countFree pool = (s.record (.countFree pp)).setPool id
        { pp with npuMallocCount := pp.npuMallocCount - 1 } := by
      rw [State.countFree, hpp]
    have heq' : s.beforeCountFree pool = s.record (.countFree pp) := by
      rw [State.beforeCountFree, hpp]
    rw [heq] at hpositive
    rw [heq'] at hzero
    refine wp_bind (wp_modify (wp_bind (wp_assert (fun hpos => wp_modify (hpositive hhas ?_))
      fun hnot => hzero hhas ?_)))
    · intro id' pp' h
      rw [hpp, Option.some_inj, Prod.mk.injEq] at h
      rw [← h.2]
      exact of_decide_eq_true hpos
    · intro hpos
      exact of_decide_eq_false hnot (hpos id pp hpp)

/-! ### `unmap_block` -/

theorem MergePrev.linked (H : Linked s.view) (hb : s.heap b = some blk)
    (h : MergePrev b blk s n s') : Linked s'.view := by
  cases h with
  | kept hlive hk => exact H
  | joined c src hprev hc hm hlive =>
    rw [view_mergePrev]
    exact H.mergePrev (State.view_eq_some hb) (State.view_eq_some hc) hprev

theorem MergePrev.blocks (hmapped : blk.mapped = false) (h : MergePrev b blk s n s') :
    s'.blocks = s.blocks := by
  cases h with
  | kept hlive hk => rfl
  | joined c src hprev hc hm hlive =>
    have hsrc : src.mapped = false := hm.2.2.2.symm.trans hmapped
    rw [State.merge, hsrc]
    rfl

theorem MergeNext.blocks (hmapped : blk.mapped = false) (h : MergeNext b blk s n s') :
    s'.blocks = s.blocks := by
  cases h with
  | kept hlive hk => rfl
  | joined c src hprev hc hm hlive =>
    have hsrc : src.mapped = false := hm.2.2.2.symm.trans hmapped
    rw [State.merge, hsrc]
    rfl

theorem mem_setInsert_of_mem {less : BlockId → BlockId → Bool} {l : List BlockId} (h : c ∈ l) :
    c ∈ setInsert less b l := by
  induction l with
  | nil => cases h
  | cons x xs ih =>
    rw [setInsert]
    split_ifs
    · rcases List.mem_cons.mp h with rfl | h
      · exact List.mem_cons_self ..
      · exact List.mem_cons_of_mem _ (ih h)
    · exact List.mem_cons_of_mem _ h
    · exact h

theorem mem_blocks_insertBlock {pool' : PoolId} (h : c ∈ s.blocks pool') :
    c ∈ (s.insertBlock pool b).blocks pool' := by
  simp only [State.insertBlock, Function.update_apply]
  split_ifs with hp
  · exact mem_setInsert_of_mem (hp ▸ h)
  · exact h

theorem mem_blocks_eraseBlock {pool' : PoolId} (h : c ∈ s.blocks pool') (hcb : c ≠ b) :
    c ∈ (s.eraseBlock pool b).blocks pool' := by
  simp only [State.eraseBlock, Function.update_apply]
  split_ifs with hp
  · exact mem_setErase.mpr ⟨hp ▸ h, hcb⟩
  · exact h

theorem mem_blocks_unmapped {s₁ : State} (h : Unmapped b blk lo n s s₁) {pool' : PoolId}
    (hc : c ∈ s.blocks pool') (hcb : c ≠ b) : c ∈ s₁.blocks pool' := by
  obtain ⟨n₁, n₂, s₁, s₂, s₃, s₄, blk₁, blk₂, blk₄, -, hs₁, -, -, hs₂, hb₂, hprev, hb₄, hnext, -⟩ := h
  have hmapped : blk₄.mapped = false := by
    cases hprev with
    | kept hlive hk =>
      rw [State.put_heap_self, Option.some_inj] at hb₄
      rw [← hb₄]
    | joined d src hd hsrc hm hlive =>
      rw [State.merge_heap, mergePrevHeap] at hb₄
      by_cases hbd : b = d
      · rw [if_pos hbd] at hb₄
        cases hb₄
      · rw [if_neg hbd, if_pos rfl, Option.some_inj] at hb₄
        rw [← hb₄]
  change c ∈ s₄.blocks pool'
  rw [hnext.blocks hmapped, hprev.blocks rfl]
  change c ∈ s₂.blocks pool'
  have hc₁ : c ∈ s₁.blocks pool' := by
    rw [hs₁, State.cutBefore]
    split_ifs
    · exact mem_blocks_insertBlock (mem_blocks_eraseBlock hc hcb)
    · exact mem_blocks_eraseBlock hc hcb
  rw [hs₂, State.cutAfter]
  split_ifs
  · exact mem_blocks_insertBlock hc₁
  · exact hc₁

theorem Unmapped.queues (h : Unmapped b blk lo n s s') : s'.queues = s.queues := by
  rw [h.eq]
  rfl

/-- `unmap_block` once the block has been cut. -/
theorem wp_unmapTail {Q : Unit → State → Prop} (H : Linked s.view) (hb : s.heap b = some blk)
    (h : ∀ n₁ n₂ s₃ s₄ blk₄,
      MergePrev b { blk with ptr := lo, size := n, mapped := false }
        (s.put b { blk with ptr := lo, size := n, mapped := false }) n₁ s₃ →
      s₃.heap b = some blk₄ → MergeNext b blk₄ s₃ n₂ s₄ → s₄.HasPool blk.pool →
      wp (countFree blk.pool)
        (({ s₄.insertUnmapped blk.pool b with
            totalAllocatedMemory := s₄.totalAllocatedMemory - n } : State).updateStats blk.pool
          fun stats => { stats with reservedBytes := stats.reservedBytes - n }) Q (Ends L m₀)) :
    wp (do
      store b fun blk => { blk with ptr := lo, size := n, mapped := false }
      let _ ← tryMergeBlocks b (← deref b).prev blk.pool
      let _ ← tryMergeBlocks b (← deref b).next blk.pool
      Allocator.insertUnmapped blk.pool b
      modify fun s => { s with totalAllocatedMemory := s.totalAllocatedMemory - n }
      Allocator.updateStats blk.pool fun stats =>
        { stats with reservedBytes := stats.reservedBytes - n }
      Allocator.countFree blk.pool : M Unit) s Q (Ends L m₀) := by
  refine wp_bind (wp_store ends_badPointer fun y hy => ?_)
  obtain rfl : y = blk := Option.some_inj.mp (hy.symm.trans hb)
  have H₁ : Linked (s.put b { y with ptr := lo, size := n, mapped := false }).view :=
    linked_put H hb ⟨rfl, rfl, rfl⟩
  have hb₁ := State.put_heap_self s b { y with ptr := lo, size := n, mapped := false }
  refine wp_bind (wp_deref ends_badPointer fun z hz => ?_)
  obtain rfl := Option.some_inj.mp (hb₁.symm.trans hz)
  refine wp_bind (wp_tryMergePrev ends_badPointer H₁ hb₁ fun n₁ s₃ hprev => ?_)
  refine wp_bind (wp_deref ends_badPointer fun blk₄ hb₄ => ?_)
  have hpool : blk₄.pool = y.pool := by
    cases hprev with
    | kept hlive hk => rw [← Option.some_inj.mp (hb₁.symm.trans hb₄)]
    | joined c src hprev hc hm hlive =>
      have hcb : c ≠ b := fun h => H₁.prev_ne (State.view_eq_some hb₁) (h ▸ hprev)
      rw [State.merge_heap, mergePrevHeap_self hcb, Option.some_inj] at hb₄
      rw [← hb₄]
  rw [← hpool]
  refine wp_bind (wp_tryMergeNext ends_badPointer (hprev.linked H₁ hb₁) hb₄ fun n₂ s₄ hnext => ?_)
  rw [hpool]
  refine wp_bind (wp_modify (wp_bind (wp_modify (wp_bind (wp_updateStats fun hhas => ?_)))))
  exact h n₁ n₂ s₃ s₄ blk₄ hprev hb₄ hnext hhas

/-- `unmap_block` once the bytes before the first page have been cut off. -/
theorem wp_unmapRest {rest : ℕ} {pend : Multiset BlockId} {deferred : List BlockId}
    {Q : Unit → State → Prop} (S : Sound {b} pend deferred s) (hb : s.heap b = some blk)
    (hkind : blk.info.kind = some true)
    (h : ∀ s₂ blk₂, (0 < rest → s.Live blk.next) → s₂ = s.cutAfter b blk n rest →
      s₂.heap b = some blk₂ → blk₂.pool = blk.pool → Linked s₂.view →
      wp (do
        store b fun blk => { blk with ptr := lo, size := n, mapped := false }
        let _ ← tryMergeBlocks b (← deref b).prev blk.pool
        let _ ← tryMergeBlocks b (← deref b).next blk.pool
        Allocator.insertUnmapped blk.pool b
        modify fun s => { s with totalAllocatedMemory := s.totalAllocatedMemory - n }
        Allocator.updateStats blk.pool fun stats =>
          { stats with reservedBytes := stats.reservedBytes - n }
        Allocator.countFree blk.pool : M Unit) s₂ Q (Ends L m₀)) :
    wp (do
      if 0 < rest then
        let afterFree ← cutBack splice b n blk.stream blk.pool true
        Allocator.insertBlock blk.pool afterFree
      store b fun blk => { blk with ptr := lo, size := n, mapped := false }
      let _ ← tryMergeBlocks b (← deref b).prev blk.pool
      let _ ← tryMergeBlocks b (← deref b).next blk.pool
      Allocator.insertUnmapped blk.pool b
      modify fun s => { s with totalAllocatedMemory := s.totalAllocatedMemory - n }
      Allocator.updateStats blk.pool fun stats =>
        { stats with reservedBytes := stats.reservedBytes - n }
      Allocator.countFree blk.pool : M Unit) s Q (Ends L m₀) := by
  refine wp_ite (fun hrest => ?_) fun hnot => ?_
  · refine wp_bind (wp_cutBack ends_badPointer isLink_splice S.linked S.fresh hb fun hlive => ?_)
    have hcut : s.cutAfter b blk n rest = _ := if_pos hrest
    obtain ⟨S₂, -, blk₂, hb₂, -, htag⟩ := S.cutAfter (n := n) hb hkind fun _ => hlive
    have htail := h _ blk₂ (fun _ => hlive) rfl hb₂ (congrArg Tag.pool htag) S₂.linked
    rw [hcut] at htail
    exact wp_bind (wp_modify htail)
  · refine h s blk (fun hrest => absurd hrest hnot) ?_ hb rfl S.linked
    rw [State.cutAfter, if_neg hnot]

/-- A block is in the free set of its pool. -/
structure InSet (s : State) (b : BlockId) (blk : Block) : Prop where
  heap : s.heap b = some blk
  mem : b ∈ s.blocks blk.pool

theorem wp_unmapBlock {freePhysical : Bool} (R : Reaches L m₀ s.rest) (hin : InSet s b blk) :
    wp (unmapBlock b freePhysical) s (fun _ s' => Reaches L m₀ s'.rest ∧ Kept b s s')
      (Ends L m₀) := by
  obtain ⟨hb, hmem⟩ := hin
  refine wp_bind (wp_deref ends_badPointer fun y hy => ?_)
  obtain rfl : y = blk := Option.some_inj.mp (hy.symm.trans hb)
  cases hsegment : y.expandableSegment with
  | none => exact wp_throw (ends_badPointer s)
  | some e =>
    obtain ⟨hpage, -⟩ := R.2.sound.paged b y e hb hsegment
    refine wp_bind (ExpandableSegment.wp_unmap hpage (fun err s₁ h₁ => ?_) ?_
      fun lo n s₁ h₁ hlo hpos hend hptr hdvd hdvd' => ?_)
    · exact (Reaches.driven R h₁).giveUp.ends
    · exact wp_ite (fun _ => wp_pure ⟨R, .refl⟩) fun h => absurd rfl h
    have R₁ : Reaches L m₀ s₁.rest := (Reaches.driven R h₁).giveUp
    have hb₁ : s₁.heap b = some y := by rw [(quiet_of_undriven h₁).heap, hb]
    have hmem₁ : b ∈ s₁.blocks y.pool := by rwa [(quiet_of_undriven h₁).blocks]
    have S : Sound ∅ s₁.pending s₁.needsEventsDeferredUntilNoCapture s₁ := R₁.2.sound_empty rfl rfl
    obtain ⟨-, hbd, z, hz, -, hkind⟩ := S.of_mem_blocks hmem₁
    obtain rfl : z = y := Option.some_inj.mp (hz.symm.trans hb₁)
    refine wp_ite (fun h => absurd h hpos.ne') fun _ => ?_
    have hfinish : ∀ s' s'', Unmapped b z lo n s₁ s' →
        (s'.Positive z.pool ∧ s'' = s'.countFree z.pool ∨
          ¬s'.Positive z.pool ∧ s'' = s'.beforeCountFree z.pool) →
        Reaches L m₀ s''.rest ∧ Kept b s s'' := by
      intro s' s'' hunmapped hcount
      have hqueues : s''.queues = s₁.queues := by
        rw [← hunmapped.queues]
        rcases hcount with ⟨-, rfl⟩ | ⟨-, rfl⟩
        · rw [State.countFree_eq]
          rfl
        · rw [State.beforeCountFree_eq]
          rfl
      refine ⟨?_, (Kept.of_driven h₁).trans ⟨?_, ?_⟩⟩
      · exact (R₁.move (.unmap b z e lo n rfl rfl hb₁ hmem₁ hsegment hlo hpos hend hptr hdvd hdvd'
          hunmapped hcount)).holding hqueues
      · intro pool x hx hxb
        have hx' := mem_blocks_unmapped hunmapped hx hxb
        rcases hcount with ⟨-, rfl⟩ | ⟨-, rfl⟩
        · rw [State.countFree_eq]
          exact hx'
        · rw [State.beforeCountFree_eq]
          exact hx'
      · intro id
        have huses : (s'.graphPools id).map PrivatePool.useCount =
            (s₁.graphPools id).map PrivatePool.useCount := by
          rw [hunmapped.eq]
        rw [← huses]
        rcases hcount with ⟨-, rfl⟩ | ⟨-, rfl⟩
        · exact uses_countFree id
        · rw [State.beforeCountFree_eq]
    have hjoin : (0 < lo - z.ptr → s₁.Live z.prev) →
        wp (do
          if 0 < z.size - (lo - z.ptr + n) then
            let afterFree ← cutBack splice b n z.stream z.pool true
            Allocator.insertBlock z.pool afterFree
          store b fun blk => { blk with ptr := lo, size := n, mapped := false }
          let _ ← tryMergeBlocks b (← deref b).prev z.pool
          let _ ← tryMergeBlocks b (← deref b).next z.pool
          Allocator.insertUnmapped z.pool b
          modify fun s => { s with totalAllocatedMemory := s.totalAllocatedMemory - n }
          Allocator.updateStats z.pool fun stats =>
            { stats with reservedBytes := stats.reservedBytes - n }
          Allocator.countFree z.pool : M Unit) (s₁.cutBefore b z (lo - z.ptr))
          (fun _ s' => Reaches L m₀ s'.rest ∧ Kept b s s') (Ends L m₀) := by
      intro hlive
      obtain ⟨S₁, -, blk₁, hblk₁, hinfo, htag⟩ := S.cutBefore hb₁ hmem₁ hkind hlive
      have hstream₁ : blk₁.stream = z.stream := congrArg Tag.stream htag
      have hpool₁ : blk₁.pool = z.pool := congrArg Tag.pool htag
      rw [← hstream₁, ← hpool₁]
      refine wp_unmapRest S₁ hblk₁ (hinfo ▸ hkind) fun s₂ blk₂ hlive₂ hs₂ hb₂ hpool₂ H₂ => ?_
      rw [← hpool₂]
      refine wp_unmapTail H₂ hb₂ fun n₁ n₂ s₃ s₄ blk₄ hprev hb₄ hnext hhas => ?_
      rw [hpool₂, hpool₁] at hhas ⊢
      have hunmapped := Unmapped.intro n₁ n₂ _ s₂ s₃ s₄ blk₁ blk₂ blk₄ hlive rfl hblk₁ hlive₂ hs₂ hb₂
        hprev hb₄ hnext hhas
      refine wp_countFree (fun _ hpositive => hfinish _ _ hunmapped (.inl ⟨hpositive, rfl⟩))
        fun _ hzero => ?_
      exact (hfinish _ _ hunmapped (.inr ⟨hzero, rfl⟩)).1.ends
    refine wp_bind (wp_modify (wp_ite (fun hk => ?_) fun hk => ?_))
    · have S₁ := S.eraseBlock hb₁ hkind hbd
      refine wp_bind (wp_cutFront ends_badPointer isLink_splice S₁.linked S₁.fresh hb₁ fun hlive => ?_)
      have hcut : s₁.cutBefore b z (lo - z.ptr) = _ := if_pos hk
      have hrest := hjoin fun _ => hlive
      rw [hcut] at hrest
      exact wp_bind (wp_modify hrest)
    · have hcut : s₁.cutBefore b z (lo - z.ptr) = _ := if_neg hk
      have hrest := hjoin fun h => absurd h hk
      rw [hcut] at hrest
      exact hrest

/-! ### `release_block` and `release_expandable_segment` -/

theorem wp_releaseBlock (R : Reaches L m₀ s.rest) (hin : InSet s b blk)
    (hsplit : blk.isSplit = false ∨ L.split b) :
    wp (releaseBlock b) s
      (fun _ s' => Reaches L m₀ s'.rest ∧ Kept b s s' ∧ s'.heap = Function.update s.heap b none)
      (Ends L m₀) := by
  obtain ⟨hb, hmem⟩ := hin
  refine wp_bind (wp_deref ends_badPointer fun y hy => ?_)
  obtain rfl : y = blk := Option.some_inj.mp (hy.symm.trans hb)
  refine wp_bind (wp_assert (fun hsegment => ?_) fun _ => R.ends)
  rw [Option.isNone_iff_eq_none] at hsegment
  refine wp_bind (wp_get (wp_bind (wp_modify (wp_bind (wp_modify (wp_bind (wp_modify ?_)))))))
  refine wp_bind (wp_countFree (fun hhas hpositive => ?_) fun hhas hzero => ?_)
  · refine wp_bind (wp_updateStats fun _ => wp_bind (wp_modify (wp_modify ⟨?_, ⟨?_, ?_⟩, ?_⟩)))
    · refine (R.move (.release b y rfl rfl hb hmem hsegment hsplit hhas hpositive)).holding ?_
      rw [freeSegment_countFree_eq]
      rfl
    · intro pool x hx hxb
      refine mem_blocks_eraseBlock ?_ hxb
      change x ∈ ((s.freeSegment b y).countFree y.pool).blocks pool
      rw [freeSegment_countFree_eq]
      exact hx
    · intro id
      exact uses_countFree (s := s.freeSegment b y) id
    · change Function.update ((s.freeSegment b y).countFree y.pool).heap b none = _
      rw [freeSegment_countFree_eq]
  · refine ((R.move (.releaseFails b y rfl rfl hb hmem hsegment hsplit hhas hzero)).holding ?_).ends
    rw [freeSegment_beforeCountFree_eq]
    rfl

theorem wp_releaseExpandableSegment (R : Reaches L m₀ s.rest) (hb : s.heap b = some blk)
    (hsplit : blk.isSplit = false) :
    wp (releaseExpandableSegment b) s (fun _ s' => Reaches L m₀ s'.rest ∧ Kept b s s')
      (Ends L m₀) := by
  refine wp_bind (wp_deref ends_badPointer fun y hy => ?_)
  obtain rfl : y = blk := Option.some_inj.mp (hy.symm.trans hb)
  cases hsegment : y.expandableSegment with
  | none => exact wp_throw (ends_badPointer s)
  | some e =>
    refine wp_bind (wp_assert (fun hsize => ?_) fun _ => R.ends)
    refine wp_bind (wp_assert (fun hmapped => ?_) fun _ => R.ends)
    refine wp_bind (wp_get (wp_bind (wp_assert (fun hmem => ?_) fun _ => R.ends)))
    rw [Bool.not_eq_true'] at hmapped
    have hkind := (R.2.sound.flags hb).kind_of_unmapped hmapped
    refine wp_bind (wp_modify (wp_bind (wp_modify (wp_modify ⟨?_, fun _ _ h _ => h, fun _ => rfl⟩))))
    exact (R.move (.dropSegment b y e rfl rfl hb hkind hsegment (of_decide_eq_true hsize)
      (List.contains_iff_mem.mp hmem) hsplit)).holding rfl

/-! ### The loops of `release_blocks` -/

/-- The blocks that a loop has still to go through. -/
structure ToCome (s : State) (pool : PoolId) (l : List BlockId) : Prop where
  mem : ∀ x ∈ l, x ∈ s.blocks pool
  nodup : l.Nodup

variable {l : List BlockId}

theorem ToCome.tail (T : ToCome s pool (b :: l)) : ToCome s pool l :=
  ⟨fun x hx => T.mem x (List.mem_cons_of_mem _ hx), (List.nodup_cons.mp T.nodup).2⟩

theorem ToCome.kept (T : ToCome s pool (b :: l)) (h : Kept b s s') : ToCome s' pool l := by
  obtain ⟨hb, hl⟩ := List.nodup_cons.mp T.nodup
  refine ⟨fun x hx => ?_, hl⟩
  refine h.blocks pool x (T.mem x (List.mem_cons_of_mem _ hx)) ?_
  rintro rfl
  exact hb hx

theorem Reaches.toCome (R : Reaches L m₀ s.rest) : ToCome s pool (s.blocks pool) :=
  ⟨fun _ h => h, R.2.sound.sets.distinct pool⟩

theorem ToCome.inSet (R : Reaches L m₀ s.rest) (T : ToCome s pool (b :: l))
    (hb : s.heap b = some blk) : InSet s b blk ∧ blk.pool = pool := by
  have hmem := T.mem b (List.mem_cons_self ..)
  obtain ⟨-, -, y, hy, hpool, -⟩ := R.2.sound.of_mem_blocks hmem
  obtain rfl : y = blk := Option.some_inj.mp (hy.symm.trans hb)
  exact ⟨⟨hb, hpool.symm ▸ hmem⟩, hpool⟩

/-- What a loop over `l` leaves as it was. -/
structure KeptBut (l : List BlockId) (s s' : State) : Prop where
  blocks : ∀ pool x, x ∈ s.blocks pool → x ∉ l → x ∈ s'.blocks pool
  uses : ∀ id, (s'.graphPools id).map PrivatePool.useCount =
    (s.graphPools id).map PrivatePool.useCount

theorem KeptBut.refl : KeptBut l s s :=
  ⟨fun _ _ h _ => h, fun _ => rfl⟩

theorem Kept.trans_but (h : Kept b s s') (h' : KeptBut l s' s'') : KeptBut (b :: l) s s'' := by
  refine ⟨fun pool x hx hnot => ?_, fun id => (h'.uses id).trans (h.uses id)⟩
  rw [List.mem_cons, not_or] at hnot
  exact h'.blocks pool x (h.blocks pool x hx hnot.1) hnot.2

theorem KeptBut.cons (h : KeptBut l s s') : KeptBut (b :: l) s s' :=
  Kept.refl.trans_but h

theorem isSplit_eq_false : blk.isSplit = false ↔ blk.prev = none ∧ blk.next = none := by
  simp [Block.isSplit]

theorem wp_releaseWhole (l : List BlockId) (R : Reaches L m₀ s.rest) (T : ToCome s pool l) :
    wp (releaseWhole l) s
      (fun toUnmap s' => Reaches L m₀ s'.rest ∧ KeptBut l s s' ∧ ToCome s' pool toUnmap ∧
        toUnmap ⊆ l) (Ends L m₀) := by
  induction l generalizing s with
  | nil => exact wp_pure ⟨R, .refl, T, List.Subset.refl _⟩
  | cons b l ih =>
    refine wp_bind (wp_deref ends_badPointer fun blk hb => ?_)
    obtain ⟨hin, -⟩ := T.inSet R hb
    refine wp_ite (fun _ => ?_) fun _ => ?_
    · refine (ih R T.tail).bind fun toUnmap s' ⟨R', hkept, T', hsub⟩ => wp_pure ?_
      have hbl := (List.nodup_cons.mp T.nodup).1
      refine ⟨R', hkept.cons, ⟨?_, ?_⟩, List.cons_subset_cons _ hsub⟩
      · intro x hx
        rcases List.mem_cons.mp hx with rfl | hx
        · exact hkept.blocks pool x (T.mem x (List.mem_cons_self ..)) hbl
        · exact T'.mem x hx
      · exact List.nodup_cons.mpr ⟨fun h => hbl (hsub h), T'.nodup⟩
    · refine wp_ite (fun hwhole => ?_) fun _ => ?_
      · rw [Bool.and_eq_true, Option.isNone_iff_eq_none, Option.isNone_iff_eq_none] at hwhole
        refine (wp_releaseBlock R hin (.inl (isSplit_eq_false.mpr hwhole))).bind
          fun _ s₁ ⟨R₁, hkept₁, _⟩ => ?_
        refine (ih R₁ (T.kept hkept₁)).post fun toUnmap s' ⟨R', hkept, T', hsub⟩ => ?_
        exact ⟨R', hkept₁.trans_but hkept, T', List.subset_cons_of_subset _ hsub⟩
      · refine (ih R T.tail).post fun toUnmap s' ⟨R', hkept, T', hsub⟩ => ?_
        exact ⟨R', hkept.cons, T', List.subset_cons_of_subset _ hsub⟩

theorem wp_unmapAll {freePhysical : Bool} (l : List BlockId) (R : Reaches L m₀ s.rest)
    (T : ToCome s pool l) :
    wp (unmapAll freePhysical l) s (fun _ s' => Reaches L m₀ s'.rest ∧ KeptBut l s s')
      (Ends L m₀) := by
  induction l generalizing s with
  | nil => exact wp_pure ⟨R, .refl⟩
  | cons b l ih =>
    obtain ⟨-, -, blk, hb, -⟩ := R.2.sound.of_mem_blocks (T.mem b (List.mem_cons_self ..))
    obtain ⟨hin, -⟩ := T.inSet R hb
    refine (wp_unmapBlock R hin).bind fun _ s₁ ⟨R₁, hkept₁⟩ => ?_
    refine wp_bind (wp_deref ends_badPointer fun blk₁ hb₁ => ?_)
    refine wp_ite (fun hwhole => ?_) fun _ => ?_
    · rw [Bool.and_eq_true, Option.isNone_iff_eq_none, Option.isNone_iff_eq_none] at hwhole
      refine (wp_releaseExpandableSegment R₁ hb₁ (isSplit_eq_false.mpr hwhole)).bind
        fun _ s₂ ⟨R₂, hkept₂⟩ => ?_
      refine (ih R₂ (T.kept (hkept₁.trans hkept₂))).post fun _ s' ⟨R', hkept⟩ => ?_
      exact ⟨R', (hkept₁.trans hkept₂).trans_but hkept⟩
    · refine (ih R₁ (T.kept hkept₁)).post fun _ s' ⟨R', hkept⟩ => ?_
      exact ⟨R', hkept₁.trans_but hkept⟩

theorem driven_freeHandles : Driven (freeHandles pool n) := by
  induction n with
  | zero => exact keeps_pure
  | succ n ih =>
    exact driven_checkError.bind fun _ => Keeps.bind (keeps_modify fun _ => rfl) fun _ => ih

/-- Who uses the private pools. -/
def SameUses (s s' : State) : Prop :=
  ∀ id, (s'.graphPools id).map PrivatePool.useCount = (s.graphPools id).map PrivatePool.useCount

theorem wp_releaseBlocks {freePhysical : Bool} (R : Reaches L m₀ s.rest) :
    wp (releaseBlocks pool freePhysical) s
      (fun _ s' => Reaches L m₀ s'.rest ∧ SameUses s s') (Ends L m₀) := by
  refine wp_bind (wp_get ((wp_releaseWhole (s.blocks pool) R R.toCome).bind
    fun toUnmap s₁ ⟨R₁, hkept₁, T₁, _⟩ => ?_))
  refine (wp_unmapAll toUnmap R₁ T₁).bind fun _ s₂ ⟨R₂, hkept₂⟩ => ?_
  have huses : SameUses s s₂ := fun id => (hkept₂.uses id).trans (hkept₁.uses id)
  refine wp_ite (fun _ => wp_bind (wp_get ?_)) fun _ => wp_pure ⟨R₂, huses⟩
  refine driven_freeHandles.spec (fun _ s₃ h₃ => ⟨(Reaches.driven R₂ h₃).giveUp, ?_⟩)
    fun err s₃ _ h₃ => (Reaches.driven R₂ h₃).giveUp.ends
  intro id
  rw [(quiet_of_undriven h₃).graphPools]
  exact huses id

/-! ### `release_cached_blocks` -/

theorem wp_freeablePool {id : MempoolId} {Q : PrivatePool → State → Prop}
    (h : ∀ pp, s.graphPools id = some pp → Q pp s) : wp (freeablePool id) s Q (Ends L m₀) := by
  refine wp_bind (wp_get ?_)
  cases hpool : s.graphPools id with
  | none => exact wp_throw (ends_badPointer s)
  | some pp => exact wp_pure (h pp hpool)

theorem wp_releaseFreeable {freePhysical : Bool} (ids : List MempoolId) (R : Reaches L m₀ s.rest) :
    wp (releaseFreeable freePhysical ids) s (fun _ s' => Reaches L m₀ s'.rest) (Ends L m₀) := by
  induction ids generalizing s with
  | nil => exact wp_pure R
  | cons id ids ih =>
    refine wp_bind (wp_freeablePool fun pp hpp => wp_bind (wp_assert (fun huse => ?_) fun _ => R.ends))
    refine (wp_releaseBlocks R).bind fun _ s₁ ⟨R₁, huses₁⟩ => ?_
    refine (wp_releaseBlocks R₁).bind fun _ s₂ ⟨R₂, huses₂⟩ => ?_
    refine wp_bind (wp_freeablePool fun pp₂ hpp₂ => ?_)
    refine wp_ite (fun hcount => ?_) fun _ => ih R₂
    refine wp_bind (wp_modify (wp_bind (wp_modify (ih ?_))))
    have huse₂ : pp₂.useCount = 0 := by
      have h := (huses₂ id).trans (huses₁ id)
      rw [hpp₂, hpp, Option.map_some, Option.map_some, Option.some_inj] at h
      rw [h]
      exact of_decide_eq_true huse
    exact (R₂.move (.erase id pp₂ rfl rfl hpp₂ huse₂ hcount)).holding rfl

theorem wp_releaseCachedBlocks {freePhysical : Bool} (R : Reaches L m₀ s.rest) :
    wp (releaseCachedBlocks freePhysical) s (fun _ s' => Reaches L m₀ s'.rest) (Ends L m₀) := by
  refine (wp_synchronizeAndFreeEvents R).bind fun _ s₁ R₁ => ?_
  refine (wp_releaseBlocks R₁).bind fun _ s₂ ⟨R₂, _⟩ => ?_
  refine (wp_releaseBlocks R₂).bind fun _ s₃ ⟨R₃, _⟩ => ?_
  exact wp_bind (wp_get (wp_releaseFreeable s₃.graphPoolsFreeable R₃))

/-! ### `garbage_collect_cached_blocks` -/

theorem wp_collectOld {age count : ℤ} (l : List BlockId) (c : Collected) (R : Reaches L m₀ s.rest)
    (T : ToCome s .large l) :
    wp (collectOld age count c l) s (fun _ s' => Reaches L m₀ s'.rest) (Ends L m₀) := by
  induction l generalizing s c with
  | nil => exact wp_pure R
  | cons b l ih =>
    refine wp_bind (wp_deref ends_badPointer fun blk hb => ?_)
    obtain ⟨hin, -⟩ := T.inSet R hb
    refine wp_ite (fun hold => ?_) fun _ => ih c R T.tail
    rw [Bool.and_eq_true, Bool.not_eq_true'] at hold
    refine (wp_releaseBlock R hin (.inl hold.1)).bind fun _ s₁ ⟨R₁, hkept, _⟩ => ?_
    exact ih _ R₁ (T.kept hkept)

theorem wp_collectRounds {targetSize : ℕ} (fuel : ℕ) (c : Collected) (R : Reaches L m₀ s.rest) :
    wp (collectRounds targetSize fuel c) s (fun _ s' => Reaches L m₀ s'.rest) (Ends L m₀) := by
  induction fuel generalizing s c with
  | zero => exact wp_pure R
  | succ fuel ih =>
    refine wp_ite (fun _ => ?_) fun _ => wp_pure R
    refine wp_bind (wp_get ((wp_collectOld _ _ R R.toCome).bind fun c₁ s₁ R₁ => ?_))
    exact ih c₁ R₁

theorem wp_garbageCollectCachedBlocks {targetSize totalAge freeableBlockCount : ℕ}
    (R : Reaches L m₀ s.rest) :
    wp (garbageCollectCachedBlocks targetSize totalAge freeableBlockCount) s
      (fun _ s' => Reaches L m₀ s'.rest) (Ends L m₀) :=
  wp_bind (wp_get (wp_collectRounds _ _ R))

/-! ### `release_available_cached_blocks` -/

variable {cfg : Config} {p : AllocParams}

/-- The blocks that `release_available_cached_blocks` may release are not split, or there is a licence for
it. -/
def MayRelease (L : Licence) (cfg : Config) (p : AllocParams) (it : Option Iterator) (s : State) :
    Prop :=
  ∀ b blk, s.heap b = some blk → b ∈ s.blocks p.pool → blk.stream = p.stream →
    (it.map Iterator.block = some b ∨ cfg.maxSplitSize ≤ blk.size) →
    blk.isSplit = false ∨ L.split b

theorem wp_releaseDownwards {keySize : ℕ} {it : Option Iterator} (l : List BlockId)
    (totalReleased : ℕ) (R : Reaches L m₀ s.rest) (T : ToCome s p.pool l) {s₀ : State}
    (hmay : MayRelease L cfg p it s₀) (hheap : ∀ x y, s.heap x = some y → s₀.heap x = some y)
    (hblocks : ∀ x ∈ l, x ∈ s₀.blocks p.pool) :
    wp (releaseDownwards cfg p keySize totalReleased l) s (fun _ s' => Reaches L m₀ s'.rest)
      (Ends L m₀) := by
  induction l generalizing s totalReleased with
  | nil => exact wp_pure R
  | cons b l ih =>
    refine wp_bind (wp_deref ends_badPointer fun blk hb => ?_)
    obtain ⟨hin, -⟩ := T.inSet R hb
    refine wp_ite (fun hcond => ?_) fun _ => wp_pure R
    simp only [Bool.and_eq_true, decide_eq_true_eq] at hcond
    obtain ⟨⟨-, hsize⟩, hstream⟩ := hcond
    have hsplit := hmay b blk (hheap b blk hb) (hblocks b (List.mem_cons_self ..)) hstream (.inr hsize)
    refine (wp_releaseBlock R hin hsplit).bind fun _ s₁ ⟨R₁, hkept, hheap₁⟩ => ?_
    refine ih _ R₁ (T.kept hkept) ?_ fun x hx => hblocks x (List.mem_cons_of_mem _ hx)
    intro x y hx
    rw [hheap₁] at hx
    by_cases hxb : x = b
    · rw [hxb, Function.update_self] at hx
      cases hx
    · rw [Function.update_of_ne hxb] at hx
      exact hheap x y hx

theorem wp_releaseAvailableCachedBlocks {it : Option Iterator} (R : Reaches L m₀ s.rest)
    (hmay : MayRelease L cfg p it s) :
    wp (releaseAvailableCachedBlocks cfg p it) s (fun _ s' => Reaches L m₀ s'.rest)
      (Ends L m₀) := by
  have T : ToCome s p.pool (s.blocks p.pool) := R.toCome
  refine wp_bind (wp_get ?_)
  cases it with
  | none =>
    refine wp_ite (fun _ => wp_pure R) fun _ => ?_
    refine (wp_releaseDownwards (s.blocks p.pool).reverse 0 R ⟨?_, ?_⟩ hmay (fun _ _ h => h) ?_).bind
      fun _ s₁ R₁ => wp_pure R₁
    · exact fun x hx => List.mem_reverse.mp hx
    · exact List.nodup_reverse.mpr T.nodup
    · exact fun x hx => List.mem_reverse.mp hx
  | some it =>
    refine wp_ite (fun _ => wp_throw (ends_badPointer s)) fun hvalid => ?_
    simp only [Bool.or_eq_true, Bool.not_eq_true', decide_eq_true_eq, not_or, Bool.not_eq_false,
      List.contains_iff_mem] at hvalid
    have hmem := hvalid.1
    refine wp_bind (wp_deref ends_badPointer fun blk hb => ?_)
    obtain ⟨-, -, y, hy, hpool, -⟩ := R.2.sound.of_mem_blocks hmem
    obtain rfl : y = blk := Option.some_inj.mp (hy.symm.trans hb)
    refine wp_ite (fun _ => ?_) fun hstream => ?_
    · refine wp_ite (fun _ => wp_pure R) fun _ => ?_
      have hbefore : ∀ x ∈ ((s.blocks p.pool).takeWhile (· ≠ it.block)).reverse,
          x ∈ s.blocks p.pool :=
        fun x hx => (List.takeWhile_sublist _).subset (List.mem_reverse.mp hx)
      refine (wp_releaseDownwards _ 0 R ⟨hbefore, ?_⟩ hmay (fun _ _ h => h) hbefore).bind
        fun _ s₁ R₁ => wp_pure R₁
      exact List.nodup_reverse.mpr (T.nodup.sublist (List.takeWhile_sublist _))
    · rw [not_not] at hstream
      have hsplit := hmay it.block y hb hmem hstream (.inl rfl)
      refine (wp_releaseBlock R ⟨hb, hpool.symm ▸ hmem⟩ hsplit).bind fun _ s₁ ⟨R₁, _⟩ => ?_
      exact wp_pure R₁

end TorchNpu.Allocator
