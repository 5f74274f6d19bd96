/-
  Expandable segments, as moves.

  The driver's part of the state, the handles of physical memory, is of no concern to the moves: `Driven`
  computations change nothing else.  What `map` and `unmap` yield are whole pages.

  An allocation from an expandable segment maps no more than the pages it needs.  `Roomy` is what
  `has_available_address_space` has found out: from a block on, the blocks are free and together large
  enough, or there are no more.  Mapping the next of them keeps this, since the new block is merged with what has been mapped
  before; so the bytes that remain to be mapped go down by what is mapped.
-/
import TorchNpu.Allocator.Spec.FreeRefines

namespace TorchNpu.Allocator

open Tiling

/-! ### The driver -/

/-- The state without what belongs to the driver. -/
def State.undriven (s : State) : State :=
  { s with answers := [], handles := fun _ => [], freePhysicalHandles := fun _ => [] }

abbrev Driven {α : Type} (x : M α) : Prop :=
  Keeps State.undriven (fun _ => True) x

variable {L : Licence} {m₀ m : Moment} {s s' : State} {b : BlockId} {blk : Block} {pool : PoolId}
  {e : ExpandableSegment}

theorem quiet_of_undriven (h : s'.undriven = s.undriven) : s.Quiet s' where
  heap := (congrArg State.heap h :)
  fresh := (congrArg State.fresh h :)
  blocks := (congrArg State.blocks h :)
  unmapped := (congrArg State.unmapped h :)
  activeBlocks := (congrArg State.activeBlocks h :)
  device := (congrArg State.device h :)
  expandableSegments := (congrArg State.expandableSegments h :)
  mallocs := (congrArg State.mallocs h :)
  graphPools := (congrArg State.graphPools h :)
  graphPoolsFreeable := (congrArg State.graphPoolsFreeable h :)
  allowedMemoryMaximum := (congrArg State.allowedMemoryMaximum h :)
  totalAllocatedMemory := (congrArg State.totalAllocatedMemory h :)
  stats := (congrArg State.stats h :)
  trace := (congrArg State.trace h :)

theorem driven_answer : Driven answer := by
  intro s
  refine wp_bind (wp_get ?_)
  cases s.answers with
  | nil => exact wp_throw ⟨trivial, rfl⟩
  | cons a as => exact wp_bind (wp_set (wp_pure rfl))

theorem driven_assert {c : Bool} : Driven (assert c) :=
  keeps_ite keeps_pure (keeps_throw trivial)

theorem driven_checkError : Driven checkError := by
  refine driven_answer.bind fun a => ?_
  cases a with
  | done => exact keeps_pure
  | memoryAllocation => exact keeps_throw trivial
  | failure => exact keeps_throw trivial
  | address ptr => exact keeps_throw trivial
  | reserved ptr n => exact keeps_throw trivial
  | physical handle => exact keeps_throw trivial
  | event complete => exact keeps_throw trivial

namespace ExpandableSegment

variable {i n : ℕ}

theorem driven_setHandles {f : List (Option Handle) → List (Option Handle)} :
    Driven (e.setHandles f) :=
  keeps_modify fun _ => rfl

theorem driven_handleAt : Driven (e.handleAt i) := by
  refine keeps_get.bind fun s => ?_
  cases (s.handles e.ptr)[i]? with
  | none => exact keeps_throw trivial
  | some h => exact keeps_pure

theorem driven_handleValue : Driven (e.handleValue i) := by
  refine driven_handleAt.bind fun h => ?_
  cases h with
  | none => exact keeps_throw trivial
  | some h => exact keeps_pure

theorem driven_giveBack : Driven (e.giveBack i n) := by
  induction n generalizing i with
  | zero => exact keeps_pure
  | succ n ih =>
    exact driven_handleValue.bind fun _ => driven_setHandles.bind fun _ =>
      driven_checkError.bind fun _ => ih

theorem driven_allocPages {first : ℕ} : Driven (e.allocPages pool first i n) := by
  induction n generalizing i with
  | zero => exact keeps_pure
  | succ n ih =>
    refine driven_handleAt.bind fun h => driven_assert.bind fun _ => keeps_get.bind fun s => ?_
    cases (s.freePhysicalHandles pool).getLast? with
    | some handle =>
      exact Keeps.bind (keeps_modify fun _ => rfl) fun _ => driven_setHandles.bind fun _ => ih
    | none =>
      refine driven_answer.bind fun a => ?_
      cases a with
      | physical handle => exact driven_setHandles.bind fun _ => ih
      | memoryAllocation =>
        exact driven_giveBack.bind fun _ => driven_setHandles.bind fun _ => keeps_pure
      | failure => exact keeps_throw trivial
      | done => exact keeps_throw trivial
      | address ptr => exact keeps_throw trivial
      | reserved ptr n => exact keeps_throw trivial
      | event complete => exact keeps_throw trivial

theorem driven_mapPages : Driven (e.mapPages i n) := by
  induction n generalizing i with
  | zero => exact keeps_pure
  | succ n ih => exact driven_handleValue.bind fun _ => driven_checkError.bind fun _ => ih

theorem driven_unmapPages {pool : Option PoolId} : Driven (e.unmapPages pool i n) := by
  induction n generalizing i with
  | zero => exact keeps_pure
  | succ n ih =>
    refine driven_handleValue.bind fun handle => driven_setHandles.bind fun _ =>
      driven_checkError.bind fun _ => ?_
    cases pool with
    | none => exact driven_checkError.bind fun _ => ih
    | some pool => exact Keeps.bind (keeps_modify fun _ => rfl) fun _ => ih

/-! ### Ranges -/

/-- `size` rounded up to whole pages. -/
def wholePages (page size : ℕ) : ℕ :=
  page * ((size + page - 1) / page)

theorem le_wholePages {page size : ℕ} (hpage : 0 < page) : size ≤ wholePages page size := by
  unfold wholePages
  have hlt := Nat.lt_mul_div_succ (size + page - 1) hpage
  rw [Nat.mul_add, Nat.mul_one] at hlt
  omega

theorem wholePages_add {page k : ℕ} (hpage : 0 < page) (hk : page ∣ k) (size : ℕ) :
    wholePages page (k + size) = k + wholePages page size := by
  obtain ⟨c, rfl⟩ := hk
  unfold wholePages
  have heq : page * c + size + page - 1 = page * c + (size + page - 1) := by omega
  rw [heq, Nat.mul_add_div hpage, Nat.mul_add]

theorem wholePages_zero (page : ℕ) : wholePages page 0 = 0 := by
  unfold wholePages
  rcases Nat.eq_zero_or_pos page with rfl | hpage
  · rw [Nat.zero_mul]
  · rw [Nat.div_eq_of_lt (by omega), Nat.mul_zero]

theorem wholePages_of_dvd {page k : ℕ} (hpage : 0 < page) (hk : page ∣ k) :
    wholePages page k = k := by
  have h := wholePages_add hpage hk 0
  rwa [Nat.add_zero, wholePages_zero, Nat.add_zero] at h

theorem wholePages_mono {page k size : ℕ} (h : k ≤ size) : wholePages page k ≤ wholePages page size := by
  unfold wholePages
  gcongr

theorem wholePages_sub {page k : ℕ} (hpage : 0 < page) (hk : page ∣ k) (size : ℕ) :
    wholePages page (size - k) ≤ wholePages page size - k := by
  by_cases hle : k ≤ size
  · have h := wholePages_add hpage hk (size - k)
    rw [Nat.add_sub_cancel' hle] at h
    omega
  · have hzero : size - k = 0 := by omega
    rw [hzero, wholePages_zero]
    exact Nat.zero_le _

theorem dvd_wholePages {page size : ℕ} : page ∣ wholePages page size :=
  Dvd.intro _ rfl

theorem rangeFromHandles_map {ptr size : ℕ} (hpage : 0 < e.segmentSize) (hle : e.ptr ≤ ptr)
    (hdvd : e.segmentSize ∣ ptr - e.ptr) :
    e.rangeFromHandles (e.segmentLeft ptr) (e.segmentRight (ptr + size)) =
      ⟨ptr, wholePages e.segmentSize size⟩ := by
  obtain ⟨k, hk⟩ := hdvd
  have hleft : e.segmentLeft ptr = k := by
    unfold segmentLeft
    rw [hk, Nat.mul_div_cancel_left _ hpage]
  have hright : e.segmentRight (ptr + size) = k + (size + e.segmentSize - 1) / e.segmentSize := by
    unfold segmentRight numSegments
    have heq : ptr + size - e.ptr + e.segmentSize - 1 =
        e.segmentSize * k + (size + e.segmentSize - 1) := by omega
    rw [heq, Nat.mul_add_div hpage]
  unfold rangeFromHandles
  rw [hleft, hright, Nat.add_sub_cancel_left, Range.mk.injEq]
  exact ⟨by omega, rfl⟩

/-- `map` maps whole pages, or nothing. -/
theorem wp_map {ptr size : ℕ} {Q : Range → State → Prop} {E : Exception → State → Prop}
    (hpage : 0 < e.segmentSize) (hle : e.ptr ≤ ptr) (hdvd : e.segmentSize ∣ ptr - e.ptr)
    (hE : ∀ err s', s'.undriven = s.undriven → E err s')
    (hfail : ∀ lo s', s'.undriven = s.undriven → Q ⟨lo, 0⟩ s')
    (hmap : ∀ s', s'.undriven = s.undriven → Q ⟨ptr, wholePages e.segmentSize size⟩ s') :
    wp (e.map ⟨ptr, size⟩ pool) s Q E := by
  have hempty : ∀ i, e.rangeFromHandles i i = ⟨e.ptr + e.segmentSize * i, 0⟩ := by
    intro i
    rw [rangeFromHandles, Nat.sub_self, Nat.mul_zero]
  refine wp_bind (driven_assert.spec (fun _ s₁ h₁ => ?_) fun err s₁ _ h₁ => hE err s₁ h₁)
  refine wp_ite (fun heq => wp_pure ?_) fun _ => ?_
  · rw [← heq, hempty]
    exact hfail _ _ h₁
  · refine wp_bind (driven_setHandles.spec (fun _ s₂ h₂ => ?_) fun err s₂ _ h₂ => hE err s₂ (h₂.trans h₁))
    refine wp_bind (driven_allocPages.spec (fun got s₃ h₃ => ?_) fun err s₃ _ h₃ =>
      hE err s₃ ((h₃.trans h₂).trans h₁))
    refine wp_ite (fun _ => ?_) fun _ => wp_pure ?_
    · refine wp_bind (driven_mapPages.spec (fun _ s₄ h₄ => wp_pure ?_) fun err s₄ _ h₄ =>
        hE err s₄ (((h₄.trans h₃).trans h₂).trans h₁))
      rw [rangeFromHandles_map hpage hle hdvd]
      exact hmap _ (((h₄.trans h₃).trans h₂).trans h₁)
    · rw [hempty]
      exact hfail _ _ ((h₃.trans h₂).trans h₁)

/-- `unmap` unmaps the whole pages of a range, if there are any. -/
theorem wp_unmap {ptr size : ℕ} {pool : Option PoolId} {Q : Range → State → Prop}
    {E : Exception → State → Prop} (hpage : 0 < e.segmentSize)
    (hE : ∀ err s', s'.undriven = s.undriven → E err s') (hnone : Q ⟨ptr, 0⟩ s)
    (hunmap : ∀ lo n s', s'.undriven = s.undriven → ptr ≤ lo → 0 < n → lo + n ≤ ptr + size →
      e.ptr ≤ lo → e.segmentSize ∣ lo - e.ptr → e.segmentSize ∣ n → Q ⟨lo, n⟩ s') :
    wp (e.unmap ⟨ptr, size⟩ pool) s Q E := by
  refine wp_ite (fun _ => wp_pure hnone) fun hlt => ?_
  rw [not_le] at hlt
  have hunmapHandles : Driven (e.unmapHandles (e.segmentRight ptr) (e.segmentLeft (ptr + size)) pool) :=
    driven_unmapPages.bind fun _ => driven_setHandles
  refine wp_bind (hunmapHandles.spec (fun _ s₁ h₁ => wp_pure ?_) fun err s₁ _ h₁ => hE err s₁ h₁)
  have hright : ptr - e.ptr ≤ e.segmentSize * e.segmentRight ptr := le_wholePages hpage
  have hleft : e.segmentSize * e.segmentLeft (ptr + size) ≤ ptr + size - e.ptr :=
    Nat.mul_div_le _ _
  have hpos : 0 < e.segmentSize * (e.segmentLeft (ptr + size) - e.segmentRight ptr) :=
    Nat.mul_pos hpage (Nat.sub_pos_of_lt hlt)
  have hsub : e.segmentSize * (e.segmentLeft (ptr + size) - e.segmentRight ptr) =
      e.segmentSize * e.segmentLeft (ptr + size) - e.segmentSize * e.segmentRight ptr :=
    Nat.mul_sub _ _ _
  refine hunmap _ _ s₁ h₁ ?_ hpos ?_ (Nat.le_add_right _ _) ?_ (Dvd.intro _ rfl)
  · change ptr ≤ e.ptr + e.segmentSize * e.segmentRight ptr
    omega
  · change e.ptr + e.segmentSize * e.segmentRight ptr +
      e.segmentSize * (e.segmentLeft (ptr + size) - e.segmentRight ptr) ≤ ptr + size
    omega
  · rw [Nat.add_sub_cancel_left]
    exact Dvd.intro _ rfl

end ExpandableSegment

/-! ### `map_block` -/

open ExpandableSegment (wholePages le_wholePages dvd_wholePages)

/-- The moment inside an allocation that may still map `budget` bytes. -/
def State.allotted (s : State) (budget : ℕ) : Moment :=
  { s.rest with budget }

variable {n budget : ℕ}

theorem Reaches.giveUp (R : Reaches L m₀ (s.allotted budget)) : Reaches L m₀ s.rest :=
  R.move (.giveUp 0 (Nat.zero_le _))

theorem Reaches.allotted (R : Reaches L m₀ { s.allotted n with state := s', budget })
    (hqueues : s'.queues = s.queues) : Reaches L m₀ (s'.allotted budget) := by
  have hdeferred : s'.needsEventsDeferredUntilNoCapture = s.needsEventsDeferredUntilNoCapture :=
    (Prod.mk.inj hqueues).2
  simpa only [State.allotted, State.rest, pending_of_queues hqueues, hdeferred] using R

theorem Reaches.driven (R : Reaches L m₀ (s.allotted budget)) (h : s'.undriven = s.undriven) :
    Reaches L m₀ (s'.allotted budget) :=
  (R.quiet (quiet_of_undriven h)).allotted (congrArg State.queues h :)

theorem Mapped.queues (h : Mapped b blk n s s') : s'.queues = s.queues := by
  rw [h.eq]
  rfl

/-- The two merges that end `map_block`, and what follows. -/
theorem wp_mapTail {pend : Multiset BlockId} {deferred : List BlockId} {Q : Bool → State → Prop}
    (hlive : n < blk.size → s.Live blk.next)
    (S : Sound {b} pend deferred (s.mapFront b blk n)) {blk₁ : Block}
    (hb₁ : (s.mapFront b blk n).heap b = some blk₁) (htag : blk₁.tag = blk.tag)
    (h : ∀ s', Mapped b blk n s s' → Q true s') :
    wp (do
      let _ ← tryMergeBlocks b (← deref b).prev blk.pool
      let _ ← tryMergeBlocks b (← deref b).next blk.pool
      Allocator.insertBlock blk.pool b
      modify fun s => { s with totalAllocatedMemory := s.totalAllocatedMemory + n }
      Allocator.updateStats blk.pool fun stats =>
        { stats with reservedBytes := stats.reservedBytes + n }
      return true : M Bool) (s.mapFront b blk n) Q (Ends L m₀) := by
  refine wp_bind (wp_deref ends_badPointer fun y hy => ?_)
  obtain rfl : y = blk₁ := Option.some_inj.mp (hy.symm.trans hb₁)
  have hpool : y.pool = blk.pool := congrArg Tag.pool htag
  rw [← hpool]
  refine wp_bind (wp_tryMergePrev ends_badPointer S.linked hb₁ fun n₁ s₁ hprev => ?_)
  obtain ⟨S₁, M₁⟩ := S.mergePrev hb₁ hprev
  refine wp_bind (wp_deref ends_badPointer fun blk₂ hb₂ => ?_)
  have hpool₂ : blk₂.pool = y.pool := by
    obtain ⟨z, hz, -, hztag, -⟩ := M₁.block
    obtain rfl : z = blk₂ := Option.some_inj.mp (hz.symm.trans hb₂)
    exact congrArg Tag.pool hztag
  rw [← hpool₂]
  refine wp_bind (wp_tryMergeNext ends_badPointer S₁.linked hb₂ fun n₂ s₂ hnext => ?_)
  rw [hpool₂, hpool]
  refine wp_bind (wp_modify (wp_bind (wp_modify (wp_bind (wp_updateStats fun hhas => wp_pure ?_)))))
  exact h _ (.intro n₁ n₂ s₁ s₂ y blk₂ hlive hb₁ hprev hb₂ hnext hhas)

theorem live_of_live_put {o : Option BlockId} {blk' : Block} (hb : s.heap b = some blk)
    (h : (s.put b blk').Live o) : s.Live o := by
  intro x hx
  by_cases hxb : x = b
  · exact ⟨blk, hxb ▸ hb⟩
  · obtain ⟨y, hy⟩ := h x hx
    rw [State.put, State.withHeap_heap, Function.update_of_ne hxb] at hy
    exact ⟨y, hy⟩

/-- What `map_block` has checked when it maps `n` bytes of `b` for `size` bytes. -/
structure Maps (b : BlockId) (blk : Block) (size n : ℕ) (e : ExpandableSegment) (s s' : State) :
    Prop where
  unmapped : blk.mapped = false
  size_le : size ≤ blk.size
  segment : blk.expandableSegment = some e
  pages : n = wholePages e.segmentSize size
  pos : 0 < n
  mapped : Mapped b blk n s s'

theorem wp_mapBlock {size : ℕ} {Q : Bool → State → Prop} (R : Reaches L m₀ (s.allotted budget))
    (hb : s.heap b = some blk)
    (hbudget : ∀ e, blk.expandableSegment = some e → wholePages e.segmentSize size ≤ budget)
    (hfail : ∀ s', Reaches L m₀ s'.rest → Q false s')
    (hmaps : ∀ e n s₁ s', s₁.undriven = s.undriven → Maps b blk size n e s₁ s' →
      Reaches L m₀ (s'.allotted (budget - n)) → Q true s') :
    wp (mapBlock b size pool) s Q (Ends L m₀) := by
  refine wp_bind (wp_deref ends_badPointer fun y hy => ?_)
  obtain rfl : y = blk := Option.some_inj.mp (hy.symm.trans hb)
  refine wp_bind (wp_assert (fun hcheck => ?_) fun _ => R.giveUp.ends)
  simp only [Bool.and_eq_true, Bool.not_eq_true', decide_eq_true_eq] at hcheck
  obtain ⟨hunmapped, hsize⟩ := hcheck
  cases hsegment : y.expandableSegment with
  | none => exact wp_throw (ends_badPointer s)
  | some e =>
    have hkind : y.info.kind = some false := (R.2.sound.flags hb).kind_of_unmapped hunmapped
    obtain ⟨hpage, hpaged⟩ := R.2.sound.paged b y e hb hsegment
    obtain ⟨hle, hdvd, hdvd'⟩ := hpaged hunmapped
    have hpages : wholePages e.segmentSize size ≤ y.size := by
      rw [← ExpandableSegment.wholePages_of_dvd hpage hdvd']
      exact ExpandableSegment.wholePages_mono hsize
    refine wp_bind (ExpandableSegment.wp_map hpage hle hdvd (fun err s₁ h₁ => (R.driven h₁).giveUp.ends)
      (fun lo s₁ h₁ => wp_ite (fun _ => wp_pure (hfail s₁ (R.driven h₁).giveUp)) fun h => absurd rfl h)
      fun s₁ h₁ => ?_)
    have R₁ := R.driven h₁
    have hb₁ : s₁.heap b = some y := by
      rw [(quiet_of_undriven h₁).heap, hb]
    refine wp_ite (fun _ => wp_pure (hfail s₁ R₁.giveUp)) fun hne => ?_
    have hpos : 0 < wholePages e.segmentSize size := Nat.pos_of_ne_zero hne
    refine wp_bind (wp_assert (fun _ => ?_) fun _ => R₁.giveUp.ends)
    refine wp_bind (wp_modify (wp_bind (wp_store ends_badPointer fun z hz => ?_)))
    obtain rfl : z = y := Option.some_inj.mp (hz.symm.trans hb₁)
    have S : Sound ∅ s₁.pending s₁.needsEventsDeferredUntilNoCapture s₁ :=
      R₁.2.sound_empty rfl rfl
    have hdone : ∀ s', Mapped b z (wholePages e.segmentSize size) s₁ s' → Q true s' := by
      intro s' hmapped
      refine hmaps e _ s₁ s' h₁ ⟨hunmapped, hsize, hsegment, rfl, hpos, hmapped⟩ ?_
      have R₂ := R₁.move (.map b z e _ rfl rfl hb₁ hkind hsegment hpos dvd_wholePages hpages
        (hbudget e hsegment) hmapped)
      exact R₂.allotted hmapped.queues
    have hlinks : SameLinks z { z with mapped := true } := ⟨rfl, rfl, rfl⟩
    refine wp_ite (fun hlt => ?_) fun hnot => ?_
    · have H : Linked ((s₁.eraseUnmapped z.pool b).put b { z with mapped := true }).view :=
        linked_put S.linked hb₁ hlinks
      have F : Fresh ((s₁.eraseUnmapped z.pool b).put b { z with mapped := true }) := by
        refine ⟨?_, unreferenced_put S.fresh.unreferenced hb₁ hlinks⟩
        change Function.update s₁.heap b _ s₁.fresh = none
        rw [Function.update_of_ne (S.fresh.ne hb₁).symm, S.fresh.none]
      have hb₂ : ((s₁.eraseUnmapped z.pool b).put b { z with mapped := true }).heap b =
          some { z with mapped := true } := State.put_heap_self ..
      refine wp_bind (wp_cutBack ends_badPointer isLink_splice H F hb₂ fun hlive => ?_)
      have hlive₁ : s₁.Live z.next := live_of_live_put hb₁ hlive
      have hfront : s₁.mapFront b z (wholePages e.segmentSize size) = _ := if_pos hlt
      obtain ⟨S₁, -, blk₁, hblk₁, -, htag, -⟩ :=
        S.mapFront hb₁ hkind hsegment dvd_wholePages hpages fun _ => hlive₁
      have htail : wp _ _ Q (Ends L m₀) := wp_mapTail (fun _ => hlive₁) S₁ hblk₁ htag hdone
      rw [hfront] at htail
      exact wp_bind (wp_modify htail)
    · have hfront : s₁.mapFront b z (wholePages e.segmentSize size) = _ := if_neg hnot
      obtain ⟨S₁, -, blk₁, hblk₁, -, htag, -⟩ :=
        S.mapFront hb₁ hkind hsegment dvd_wholePages hpages fun hlt => absurd hlt hnot
      have htail : wp _ _ Q (Ends L m₀) :=
        wp_mapTail (fun hlt => absurd hlt hnot) S₁ hblk₁ htag hdone
      rw [hfront] at htail
      exact htail

/-! ### Room to grow -/

/-- From `o` on the blocks are free to be mapped, until there are, with the `bytes` counted before,
`size` bytes or no more blocks. -/
inductive Roomy (s : State) (size : ℕ) : ℕ → Option BlockId → Prop
  | enough {bytes : ℕ} {o : Option BlockId} (h : size ≤ bytes) : Roomy s size bytes o
  | last {bytes : ℕ} : Roomy s size bytes none
  | next {bytes : ℕ} {b : BlockId} {blk : Block} (hb : s.heap b = some blk)
      (huses : blk.streamUses = []) (h : Roomy s size (bytes + blk.size) blk.next) :
      Roomy s size bytes (some b)

variable {size bytes : ℕ} {o : Option BlockId}

theorem Roomy.mono {bytes' : ℕ} (h : Roomy s size bytes o) (hle : bytes ≤ bytes') :
    Roomy s size bytes' o := by
  induction h generalizing bytes' with
  | enough h => exact .enough (h.trans hle)
  | last => exact .last
  | next hb huses _ ih => exact .next hb huses (ih (Nat.add_le_add_right hle _))

/-- A chain of blocks above `r` does not notice what happens below. -/
theorem Roomy.of_agree {rank : BlockId → ℚ} {r : ℚ} (H : LinkedBy s.view rank)
    (hagree : ∀ x y, s.heap x = some y → r < rank x → ∃ y', s'.heap x = some y' ∧
      y'.streamUses = y.streamUses ∧ y'.size = y.size ∧ y'.next = y.next)
    (h : Roomy s size bytes o) (hrank : ∀ x y, o = some x → s.heap x = some y → r < rank x) :
    Roomy s' size bytes o := by
  induction h with
  | enough h => exact .enough h
  | last => exact .last
  | @next bytes b blk hb huses _ ih =>
    have hlt := hrank b blk rfl hb
    obtain ⟨y, hy, huses', hsize, hnext⟩ := hagree b blk hb hlt
    refine .next hy (huses'.trans huses) ?_
    rw [hsize, hnext]
    refine ih fun x z hx hz => hlt.trans ?_
    exact H.lt b blk.piece x z.piece (State.view_eq_some hb) (State.view_eq_some hz) hx

theorem Roomy.of_heap (h : Roomy s size bytes o) (heq : s'.heap = s.heap) :
    Roomy s' size bytes o := by
  induction h with
  | enough h => exact .enough h
  | last => exact .last
  | next hb huses _ ih => exact .next (by rw [heq, hb]) huses ih

/-- Merging with the block before changes nothing further on. -/
theorem MergePrev.heap_of_lt {rank : BlockId → ℚ} (H : LinkedBy s.view rank)
    (hb : s.heap b = some blk) (h : MergePrev b blk s n s') {x : BlockId} {y : Block}
    (hx : s.heap x = some y) (hlt : rank b < rank x) : s'.heap x = some y := by
  cases h with
  | kept hlive hk => exact hx
  | joined c src hprev hc hm hlive =>
    have hvb := State.view_eq_some hb
    have hvc := State.view_eq_some hc
    have hcb := H.lt c _ b _ hvc hvb ((H.symm c _ b _ hvc hvb).mpr hprev)
    have hxc : x ≠ c := by
      rintro rfl
      exact lt_asymm hlt hcb
    have hxb : x ≠ b := by
      rintro rfl
      exact lt_irrefl _ hlt
    have hxp : src.prev ≠ some x := by
      intro hp
      have hvx := State.view_eq_some hx
      exact lt_asymm (hcb.trans hlt) (H.lt x _ c _ hvx hvc ((H.symm x _ c _ hvx hvc).mpr hp))
    rw [State.merge_heap, mergePrevHeap, if_neg hxc, if_neg hxb, linkNext, if_neg hxp, hx]

theorem MergePrev.live (hb : s.heap b = some blk) (h : MergePrev b blk s n s') {x : BlockId}
    {y : Block} (hx : s'.heap x = some y) : ∃ y', s.heap x = some y' := by
  cases h with
  | kept hlive hk => exact ⟨y, hx⟩
  | joined c src hprev hc hm hlive =>
    rw [State.merge_heap, mergePrevHeap] at hx
    split_ifs at hx with hxc hxb
    · exact ⟨blk, hxb ▸ hb⟩
    · obtain ⟨y', hy', -⟩ := linkNext_eq_some hx
      exact ⟨y', hy'⟩

/-- What merging with the block before does to the size: `base` is that of the block before, if it is
known to be merged. -/
theorem MergePrev.grown {base : ℕ} {blk₁ : Block} (H : Linked s.view) (hb : s.heap b = some blk)
    (h : MergePrev b blk s n s') (hb₁ : s'.heap b = some blk₁)
    (hbase : base = 0 ∨ ∃ c src, blk.prev = some c ∧ s.heap c = some src ∧ Mergeable blk src ∧
      base = src.size) : base + blk.size ≤ blk₁.size ∧ blk₁.next = blk.next := by
  cases h with
  | kept hlive hk =>
    obtain rfl : blk₁ = blk := Option.some_inj.mp (hb₁.symm.trans hb)
    rcases hbase with rfl | ⟨c, src, hprev, hc, hm, -⟩
    · exact ⟨by omega, rfl⟩
    · exact absurd hm (hk c src hprev hc)
  | joined c src hprev hc hm hlive =>
    have hcb : c ≠ b := fun h => H.prev_ne (State.view_eq_some hb) (h ▸ hprev)
    rw [State.merge_heap, mergePrevHeap_self hcb, Option.some_inj] at hb₁
    subst hb₁
    refine ⟨?_, rfl⟩
    change base + blk.size ≤ blk.size + src.size
    rcases hbase with rfl | ⟨c', src', hprev', hc', -, rfl⟩
    · omega
    · obtain rfl : c = c' := Option.some_inj.mp (hprev.symm.trans hprev')
      obtain rfl : src = src' := Option.some_inj.mp (hc.symm.trans hc')
      omega

/-- Merging a block with its neighbours leaves the room behind it. -/
theorem Roomy.merges {base n₁ n₂ : ℕ} {s₁ s₂ : State} {blk₁ blk₂ : Block} (H : Linked s.view)
    (hb : s.heap b = some blk) (hprev : MergePrev b blk s n₁ s₁) (hb₁ : s₁.heap b = some blk₁)
    (hnext : MergeNext b blk₁ s₁ n₂ s₂) (hb₂ : s₂.heap b = some blk₂)
    (hbase : base = 0 ∨ ∃ c src, blk.prev = some c ∧ s.heap c = some src ∧ Mergeable blk src ∧
      base = src.size) (hroom : Roomy s size (base + blk.size) blk.next) :
    base + blk.size ≤ blk₂.size ∧ Roomy s₂ size blk₂.size blk₂.next := by
  obtain ⟨hsize, hblk₁⟩ := hprev.grown H hb hb₁ hbase
  obtain ⟨rank, H⟩ := H
  have hvb := State.view_eq_some hb
  have habove : ∀ x y, blk.next = some x → s.heap x = some y → rank b < rank x :=
    fun x y hx hy => H.lt b _ x _ hvb (State.view_eq_some hy) hx
  cases hnext with
  | kept hlive hk =>
    obtain rfl : blk₂ = blk₁ := Option.some_inj.mp (hb₂.symm.trans hb₁)
    refine ⟨hsize, ?_⟩
    rw [hblk₁]
    refine (hroom.mono hsize).of_agree H (fun x y hx hlt => ?_) habove
    exact ⟨y, hprev.heap_of_lt H hb hx hlt, rfl, rfl, rfl⟩
  | joined d src hn hd hm hlive =>
    rw [hblk₁] at hn
    obtain ⟨src', hd'⟩ := hprev.live hb hd
    have hbd := habove d src' hn hd'
    obtain rfl : src' = src :=
      Option.some_inj.mp ((hprev.heap_of_lt H hb hd' hbd).symm.trans hd)
    have hdb : d ≠ b := by
      rintro rfl
      exact lt_irrefl _ hbd
    rw [State.merge_heap, mergeNextHeap_self hdb, Option.some_inj] at hb₂
    subst hb₂
    change base + blk.size ≤ blk₁.size + src'.size ∧ Roomy _ size (blk₁.size + src'.size) src'.next
    refine ⟨by omega, ?_⟩
    rw [hn] at hroom
    cases hroom with
    | enough h => exact .enough (by omega)
    | @next _ _ y hy huses h =>
      obtain rfl : y = src' := Option.some_inj.mp (hy.symm.trans hd')
      -- the chain goes on above `d`
      refine (h.mono (Nat.add_le_add_right hsize _)).of_agree (r := rank d) H (fun x z hx hlt => ?_)
        fun x z hx hz => H.lt d _ x _ (State.view_eq_some hd') (State.view_eq_some hz) hx
      have hx₁ := hprev.heap_of_lt H hb hx (hbd.trans hlt)
      have hxd : x ≠ d := by
        rintro rfl
        exact lt_irrefl _ hlt
      have hxb : x ≠ b := by
        rintro rfl
        exact lt_asymm hbd hlt
      rw [State.merge_heap, mergeNextHeap, if_neg hxd, if_neg hxb, linkPrev]
      split_ifs with ho
      · exact ⟨{ z with prev := some b }, by rw [hx₁]; rfl, rfl, rfl, rfl⟩
      · exact ⟨z, hx₁, rfl, rfl, rfl⟩

theorem mapFront_heap_of_ne {holes : Set BlockId} {pend : Multiset BlockId}
    {deferred : List BlockId} (S : Sound holes pend deferred s) {x : BlockId} {y : Block}
    (hx : s.heap x = some y) (hxb : x ≠ b) :
    ∃ y', (s.mapFront b blk n).heap x = some y' ∧ y'.info = y.info ∧ y'.size = y.size ∧
      y'.next = y.next := by
  have hput : ((s.eraseUnmapped blk.pool b).put b { blk with mapped := true }).heap x = some y := by
    change Function.update s.heap b _ x = some y
    rw [Function.update_of_ne hxb, hx]
  rw [State.mapFront]
  split_ifs with hlt
  · change ∃ y', cutBackHeap _ b _ n s.fresh false x = some y' ∧ _
    rw [cutBackHeap, if_neg (S.fresh.ne hx), if_neg hxb, linkPrev, hput]
    split_ifs
    · exact ⟨_, rfl, rfl, rfl, rfl⟩
    · exact ⟨y, rfl, rfl, rfl, rfl⟩
  · exact ⟨y, hput, rfl, rfl, rfl⟩

theorem mapFront_links {holes : Set BlockId} {pend : Multiset BlockId}
    {deferred : List BlockId} (S : Sound holes pend deferred s) (hb : s.heap b = some blk)
    {blk₁ : Block} (hb₁ : (s.mapFront b blk n).heap b = some blk₁) :
    blk₁.prev = blk.prev ∧ (¬n < blk.size → blk₁.next = blk.next) := by
  rw [State.mapFront] at hb₁
  split_ifs at hb₁ with hlt
  · have hself : cutBackHeap _ b _ n s.fresh false b = some blk₁ := hb₁
    rw [cutBackHeap_self (S.fresh.ne hb), Option.some_inj] at hself
    subst hself
    exact ⟨rfl, fun h => absurd hlt h⟩
  · rw [State.put_heap_self, Option.some_inj] at hb₁
    subst hb₁
    exact ⟨rfl, fun _ => rfl⟩

/-- Mapping the first of the blocks leaves the room behind it. -/
theorem Maps.roomy {pend : Multiset BlockId} {deferred : List BlockId} {base k : ℕ}
    (S : Sound ∅ pend deferred s) (hb : s.heap b = some blk) (h : Maps b blk k n e s s')
    (hbase : base = 0 ∨ ∃ c src, blk.prev = some c ∧ s.heap c = some src ∧
      src.info.kind = some true ∧ src.streamUses = [] ∧ base = src.size)
    (hk : k < blk.size → size ≤ base + k) (hroom : Roomy s size (base + blk.size) blk.next) :
    ∃ blk', s'.heap b = some blk' ∧ blk'.info = { blk.info with mapped := true } ∧
      blk'.tag = blk.tag ∧ base + n ≤ blk'.size ∧ Roomy s' size blk'.size blk'.next := by
  obtain ⟨hunmapped, hk', hsegment, hn, -, hmapped⟩ := h
  have hkind : blk.info.kind = some false := (S.flags hb).kind_of_unmapped hunmapped
  obtain ⟨hpage, hpaged⟩ := S.paged b blk e hb hsegment
  obtain ⟨-, -, hdvd⟩ := hpaged hunmapped
  have hkn : k ≤ n := hn ▸ le_wholePages hpage
  have hnsize : n ≤ blk.size := by
    rw [hn, ← ExpandableSegment.wholePages_of_dvd hpage hdvd]
    exact ExpandableSegment.wholePages_mono hk'
  obtain ⟨n₁, n₂, s₁, s₂, blk₁, blk₂, hlive, hb₁, hprev, hb₂, hnext, -⟩ := hmapped
  obtain ⟨S₁, -, y, hy, hinfo, htag, hsize⟩ :=
    S.mapFront hb hkind hsegment (hn ▸ dvd_wholePages) hnsize hlive
  obtain rfl : y = blk₁ := Option.some_inj.mp (hy.symm.trans hb₁)
  obtain ⟨-, M⟩ := S₁.merges hb₁ hprev hb₂ hnext
  obtain ⟨merged, hmerged, hinfo', htag', -⟩ := M.block
  obtain ⟨hyprev, hynext⟩ := mapFront_links S hb hb₁
  have hbase₁ : base = 0 ∨ ∃ c src, y.prev = some c ∧ (s.mapFront b blk n).heap c = some src ∧
      Mergeable y src ∧ base = src.size := by
    refine hbase.imp_right ?_
    rintro ⟨c, src, hc, hsrc, hkind, huses, hsize⟩
    have hcb : c ≠ b := fun h => S.linked.prev_ne (State.view_eq_some hb) (h ▸ hc)
    obtain ⟨src', hsrc', hinfo', hsize', -⟩ := mapFront_heap_of_ne S hsrc hcb
    obtain ⟨halloc, hevents, hmapped⟩ := Info.kind_eq_some.mp (hinfo'.symm ▸ hkind)
    refine ⟨c, src', hyprev.trans hc, hsrc', ⟨halloc, hevents, ?_, ?_⟩, hsize.trans hsize'.symm⟩
    · exact (congrArg Info.streamUses hinfo').trans huses
    · exact (congrArg Info.mapped hinfo).trans hmapped.symm
  have hroom₁ : Roomy (s.mapFront b blk n) size (base + y.size) y.next := by
    rw [hsize]
    by_cases hlt : n < blk.size
    · have := hk (hkn.trans_lt hlt)
      exact .enough (by omega)
    · obtain rfl : n = blk.size := le_antisymm hnsize (not_lt.mp hlt)
      rw [hynext hlt]
      obtain ⟨rank, H⟩ := S.linked
      refine hroom.of_agree (r := rank b) H (fun x z hx hbx => ?_) fun x z hx hz =>
        H.lt b _ x _ (State.view_eq_some hb) (State.view_eq_some hz) hx
      have hxb : x ≠ b := by
        rintro rfl
        exact lt_irrefl _ hbx
      obtain ⟨z', hz', hinfo', hsize', hnext'⟩ := mapFront_heap_of_ne S hx hxb
      exact ⟨z', hz', congrArg Info.streamUses hinfo', hsize', hnext'⟩
  obtain ⟨hle, hroom'⟩ := Roomy.merges S₁.linked hb₁ hprev hb₂ hnext hmerged hbase₁ hroom₁
  refine ⟨merged, hmerged, hinfo'.trans hinfo, htag'.trans htag, ?_, ?_⟩
  · rwa [hsize] at hle
  · exact hroom'.of_heap rfl

/-! ### Allocating from an expandable segment -/

/-- `b` has what a request asks for, if it is still there. -/
def Suits (s : State) (stream : Stream) (pool : PoolId) (size : ℕ) (b : BlockId) : Prop :=
  ∀ blk, s.heap b = some blk → blk.stream = stream ∧ blk.pool = pool ∧ size ≤ blk.size

/-- A search has found a block that suits, or nothing. -/
def Searched (L : Licence) (m₀ : Moment) (stream : Stream) (pool : PoolId) (size : ℕ)
    (found : Option BlockId) (s : State) : Prop :=
  Reaches L m₀ (s.holding found) ∧ ∀ b, found = some b → Suits s stream pool size b

/-- A block that `try_allocate_expandable_block` may grow. -/
structure Grows (s : State) (stream : Stream) (pool : PoolId) (e : ExpandableSegment) (size : ℕ)
    (blk : Block) : Prop where
  kind : blk.info.kind = some true
  uses : blk.streamUses = []
  stream : blk.stream = stream
  pool : blk.pool = pool
  segment : blk.expandableSegment = some e
  room : Roomy s size blk.size blk.next

variable {stream : Stream}

theorem wp_growCandidate (fuel : ℕ) (R : Reaches L m₀ (s.allotted budget))
    (hb : s.heap b = some blk) (G : Grows s stream pool e size blk)
    (hbudget : wholePages e.segmentSize (size - blk.size) ≤ budget) :
    wp (growCandidate pool size fuel b) s (Searched L m₀ stream pool size) (Ends L m₀) := by
  induction fuel generalizing s b blk budget with
  | zero => exact wp_pure ⟨R.giveUp, nofun⟩
  | succ fuel ih =>
    refine wp_bind (wp_deref ends_badPointer fun y hy => ?_)
    obtain rfl : y = blk := Option.some_inj.mp (hy.symm.trans hb)
    refine wp_ite (fun hsize => ?_) fun hsize => ?_
    · refine wp_bind (wp_modify (wp_pure ⟨?_, ?_⟩))
      · have R₁ := R.giveUp.move (.take b y rfl rfl hb G.kind (.inr G.uses))
        rw [G.pool] at R₁
        exact R₁
      · rintro c ⟨⟩ z hz
        obtain rfl : z = y := Option.some_inj.mp (hz.symm.trans hb)
        exact ⟨G.stream, G.pool, hsize⟩
    · cases hnext : y.next with
      | none => exact wp_pure ⟨R.giveUp, nofun⟩
      | some c =>
        refine wp_bind (wp_deref ends_badPointer fun next hc => ?_)
        have hroom := G.room
        rw [hnext] at hroom
        cases hroom with
        | enough h => exact absurd h hsize
        | @next _ _ z hz huses hroom =>
          obtain rfl : z = next := Option.some_inj.mp (hz.symm.trans hc)
          have hvb := State.view_eq_some hb
          have hvc := State.view_eq_some hc
          have htag : z.tag = y.tag := (R.2.sound.linked.tag hvb hvc hnext).symm
          have hprev : z.prev = some b := (R.2.sound.linked.symm hvb hvc).mp hnext
          have hsegment : z.expandableSegment = some e :=
            (congrArg Tag.expandableSegment htag).trans G.segment
          obtain ⟨hpage, -⟩ := R.2.sound.paged b y e hb G.segment
          refine wp_bind (wp_mapBlock R hc ?_ (fun s' R' => ?_) fun e' n s₁ s' h₁ hmaps R' => ?_)
          · intro e' he'
            obtain rfl : e = e' := Option.some_inj.mp (hsegment.symm.trans he')
            exact (ExpandableSegment.wholePages_mono (Nat.min_le_left _ _)).trans hbudget
          · exact wp_ite (fun h => absurd h (by decide)) fun _ => wp_pure ⟨R', nofun⟩
          · refine wp_ite (fun _ => ?_) fun h => absurd rfl h
            obtain rfl : e = e' := Option.some_inj.mp (hsegment.symm.trans hmaps.segment)
            have hheap := (quiet_of_undriven h₁).heap
            have S₁ : Sound ∅ s₁.pending s₁.needsEventsDeferredUntilNoCapture s₁ :=
              (R.driven h₁).2.sound_empty rfl rfl
            have hbase : y.size = 0 ∨ ∃ x src, z.prev = some x ∧ s₁.heap x = some src ∧
                src.info.kind = some true ∧ src.streamUses = [] ∧ y.size = src.size :=
              .inr ⟨b, y, hprev, by rw [hheap, hb], G.kind, G.uses, rfl⟩
            obtain ⟨blk', hb', hinfo, htag', hle, hroom'⟩ := hmaps.roomy S₁
              (by rw [hheap, hc]) hbase (by omega) (hroom.of_heap hheap)
            have hstream := (congrArg Tag.stream (htag'.trans htag)).trans G.stream
            have hpool := (congrArg Tag.pool (htag'.trans htag)).trans G.pool
            refine ih R' hb' ⟨?_, ?_, hstream, hpool, ?_, hroom'⟩ ?_
            · obtain ⟨halloc, hevents, -⟩ := Info.kind_eq_some.mp
                ((R.2.sound.flags hc).kind_of_unmapped hmaps.unmapped)
              rw [hinfo, Info.kind_eq_some]
              exact ⟨halloc, hevents, rfl⟩
            · exact (congrArg Info.streamUses hinfo).trans huses
            · exact (congrArg Tag.expandableSegment htag').trans hsegment
            · have hmono : wholePages e.segmentSize (size - blk'.size) ≤
                  wholePages e.segmentSize (size - y.size - n) :=
                ExpandableSegment.wholePages_mono (by omega)
              have hdvd : e.segmentSize ∣ n := hmaps.pages ▸ dvd_wholePages
              have hsub := ExpandableSegment.wholePages_sub hpage hdvd (size - y.size)
              omega

/-! ### The search for a block to grow -/

theorem wp_allocatable {Q : Bool → State → Prop} (hfalse : Q false s)
    (htrue : ∀ b blk, o = some b → s.heap b = some blk → blk.allocated = false →
      blk.eventCount = 0 → blk.streamUses = [] → Q true s) :
    wp (allocatable o) s Q (Ends L m₀) := by
  cases o with
  | none => exact wp_pure hfalse
  | some b =>
    refine wp_bind (wp_deref ends_badPointer fun blk hb => wp_pure ?_)
    cases hfree : !blk.allocated && decide (blk.eventCount = 0) && blk.streamUses.isEmpty with
    | false => exact hfalse
    | true =>
      simp only [Bool.and_eq_true, Bool.not_eq_true', decide_eq_true_eq, List.isEmpty_iff] at hfree
      exact htrue b blk rfl hb hfree.1.1 hfree.1.2 hfree.2

theorem wp_availableAddressSpace {Q : Bool → State → Prop} (fuel : ℕ) (hfalse : Q false s)
    (htrue : Roomy s size bytes o → Q true s) :
    wp (availableAddressSpace size fuel bytes o) s Q (Ends L m₀) := by
  induction fuel generalizing bytes o with
  | zero =>
    by_cases hle : size ≤ bytes
    · exact wp_pure (by simpa [hle] using htrue (.enough hle))
    · exact wp_pure (by simpa [hle] using hfalse)
  | succ fuel ih =>
    refine wp_ite (fun hle => wp_pure (htrue (.enough hle))) fun _ => ?_
    refine wp_bind (wp_allocatable ?_ fun b blk ho hb _ _ huses => ?_)
    · exact wp_ite (fun h => absurd h (by decide)) fun _ => wp_pure hfalse
    · subst ho
      refine wp_ite (fun _ => ?_) fun h => absurd rfl h
      refine wp_bind (wp_deref ends_badPointer fun y hy => ih fun hroom => htrue ?_)
      exact .next hy (by rw [Option.some_inj.mp (hy.symm.trans hb), huses]) hroom

/-- A block that `find_expandable_block` may yield. -/
structure Candidate (s : State) (stream : Stream) (pool : PoolId) (e : ExpandableSegment)
    (size : ℕ) (b : BlockId) (blk : Block) : Prop where
  heap : s.heap b = some blk
  kind : blk.info.kind = some blk.mapped
  uses : blk.mapped = true → blk.streamUses = []
  stream : blk.stream = stream
  pool : blk.pool = pool
  segment : blk.expandableSegment = some e
  room : Roomy s size 0 (some b)

theorem wp_findInUnmapped {Q : Option BlockId → State → Prop} (l : List BlockId)
    (R : Reaches L m₀ s.rest) (hl : ∀ x ∈ l, x ∈ s.unmapped pool) (hnone : Q none s)
    (hsome : ∀ e b blk, Candidate s stream pool e size b blk → Q (some b) s) :
    wp (findInUnmapped stream size l) s Q (Ends L m₀) := by
  induction l with
  | nil => exact wp_pure hnone
  | cons it rest ih =>
    refine wp_bind (wp_deref ends_badPointer fun blk hit => ?_)
    refine wp_ite (fun _ => wp_pure hnone) fun hstream => ?_
    rw [not_not] at hstream
    obtain ⟨-, -, y, hy, hpool, hkind⟩ :=
      R.2.sound.of_mem_unmapped (hl it (List.mem_cons_self ..))
    obtain rfl : y = blk := Option.some_inj.mp (hy.symm.trans hit)
    have hmapped : y.mapped = false := (Info.kind_eq_some.mp hkind).2.2
    obtain ⟨e, hsegment⟩ := Option.isSome_iff_exists.mp ((R.2.sound.flags hit).expandable hmapped)
    have hrest := ih fun x hx => hl x (List.mem_cons_of_mem _ hx)
    have hjoin : ∀ c, (Roomy s size 0 (some c) → Q (some c) s) →
        wp (do
          if ← availableAddressSpace size size 0 (some c) then
            return some c
          else
            findInUnmapped stream size rest : M (Option BlockId)) s Q (Ends L m₀) := by
      intro c hc
      refine wp_bind (wp_availableAddressSpace size ?_ fun hroom => ?_)
      · exact wp_ite (fun h => absurd h (by decide)) fun _ => hrest
      · exact wp_ite (fun _ => wp_pure (hc hroom)) fun h => absurd rfl h
    have hself : Roomy s size 0 (some it) → Q (some it) s := fun hroom =>
      hsome e it y ⟨hit, hmapped.symm ▸ hkind, fun h => absurd (hmapped.symm.trans h) (by decide),
        hstream, hpool, hsegment, hroom⟩
    cases hprev : y.prev with
    | none => exact hjoin it hself
    | some c =>
      refine wp_bind (wp_allocatable ?_ fun c' blk hc' hc halloc hevents huses => ?_)
      · exact wp_ite (fun h => absurd h (by decide)) fun _ => hjoin it hself
      · obtain rfl : c = c' := Option.some_inj.mp hc'
        refine wp_ite (fun _ => hjoin c fun hroom => ?_) fun h => absurd rfl h
        have hvc := State.view_eq_some hc
        have hvit := State.view_eq_some hit
        have htag : blk.tag = y.tag :=
          R.2.sound.linked.tag hvc hvit ((R.2.sound.linked.symm hvc hvit).mpr hprev)
        exact hsome e c blk ⟨hc, Info.kind_eq_some.mpr ⟨halloc, hevents, rfl⟩, fun _ => huses,
          (congrArg Tag.stream htag).trans hstream, (congrArg Tag.pool htag).trans hpool,
          (congrArg Tag.expandableSegment htag).trans hsegment, hroom⟩

/-- The page size of the expandable segments made for a pool. -/
def Config.pageSize (cfg : Config) (pool : PoolId) : ℕ :=
  if cfg.isMallocPage1GMem pool.isSmall then kExtraLargeBuffer
  else if pool.isSmall then kSmallBuffer
  else if 0 < cfg.segmentSizeMb then cfg.segmentSizeMb else kLargeBuffer

theorem Config.pageSize_pos (cfg : Config) (pool : PoolId) : 0 < cfg.pageSize pool := by
  unfold Config.pageSize
  split_ifs with h1 h2 h3
  · decide
  · decide
  · exact h3
  · decide

theorem wp_reserve {page : ℕ} {Q : ExpandableSegment → State → Prop} (R : Reaches L m₀ s.rest)
    (h : ∀ e as, e.segmentSize = page → s.Available e.range →
      Q e { s with
        answers := as, expandableSegments := s.expandableSegments ++ [e]
        handles := Function.update s.handles e.ptr [] }) :
    wp (ExpandableSegment.reserve page) s Q (Ends L m₀) := by
  refine wp_bind (wp_answer fun a as => ?_)
  have R₁ := R.silent (quiet_answers as) rfl
  cases a with
  | reserved ptr maxHandles =>
    refine wp_bind (wp_get (wp_ite (fun havailable => ?_) fun _ => wp_throw ends_unanswered))
    exact wp_bind (wp_set (wp_pure (h ⟨ptr, page, maxHandles⟩ as rfl havailable)))
  | memoryAllocation => exact wp_throw R₁.ends
  | failure => exact wp_throw R₁.ends
  | address ptr => exact wp_throw ends_unanswered
  | physical handle => exact wp_throw ends_unanswered
  | done => exact wp_throw ends_unanswered
  | event complete => exact wp_throw ends_unanswered

/-- `find_expandable_block` yields a block of an expandable segment that is there, or of a new one. -/
theorem wp_findExpandableBlock {cfg : Config} {Q : BlockId → State → Prop}
    (R : Reaches L m₀ s.rest) (hpage : L.page (cfg.pageSize pool)) (hexpandable : L.expandable pool)
    (hold : ∀ e b blk, Candidate s stream pool e size b blk → Q b s)
    (hnew : ∀ e b blk s', Candidate s' stream pool e size b blk → e.segmentSize = cfg.pageSize pool →
      s'.totalAllocatedMemory = s.totalAllocatedMemory →
      s'.allowedMemoryMaximum = s.allowedMemoryMaximum → Reaches L m₀ s'.rest → Q b s') :
    wp (findExpandableBlock cfg stream pool size) s Q (Ends L m₀) := by
  have hl : ∀ key, ∀ x ∈ fromLowerBound comparatorAddress s.heap key (s.unmapped pool),
      x ∈ s.unmapped pool := fun key x hx => List.mem_of_mem_filter hx
  refine wp_bind (wp_get (wp_bind (wp_findInUnmapped _ R (hl _) ?_ fun e b blk hc => ?_)))
  · refine wp_bind (wp_reserve R fun e as he havailable => ?_)
    refine wp_bind (wp_newBlock (wp_bind (wp_modify (wp_pure ?_))))
    have hpos : 0 < e.segmentSize := he ▸ cfg.pageSize_pos pool
    have R₁ : Reaches L m₀ ({ s with answers := as } : State).rest := R.silent (quiet_answers as) rfl
    have R₂ := R₁.move (.expand stream pool e rfl rfl (he ▸ hpage) hexpandable hpos havailable)
    refine hnew e s.fresh (newExpandableBlock stream pool e) _ ?_ he rfl rfl R₂
    have hnewBlock : (({ s with answers := as } : State).addExpandable stream pool e).heap s.fresh =
      some (newExpandableBlock stream pool e) := Function.update_self ..
    exact ⟨hnewBlock, rfl, nofun, rfl, rfl, rfl, .next hnewBlock rfl .last⟩
  · exact wp_pure (hold e b blk hc)

/-- There are blocks of an expandable segment of the stream and the pool with pages of this size. -/
def State.HasPage (s : State) (stream : Stream) (pool : PoolId) (page : ℕ) : Prop :=
  ∃ b blk e, s.heap b = some blk ∧ blk.stream = stream ∧ blk.pool = pool ∧
    blk.expandableSegment = some e ∧ e.segmentSize = page

/-- What a request needs a licence for when it goes to the expandable segments. -/
structure MayExpand (L : Licence) (cfg : Config) (p : AllocParams) (s : State) : Prop where
  page : L.page (cfg.pageSize p.pool)
  expandable : L.expandable p.pool
  grant : ∀ s₁ page, s₁.totalAllocatedMemory = s.totalAllocatedMemory →
    s₁.allowedMemoryMaximum = s.allowedMemoryMaximum →
    page = cfg.pageSize p.pool ∨ s₁.HasPage p.stream p.pool page →
    L.grant s₁ p.allocSize (wholePages page p.size)

variable {cfg : Config} {p : AllocParams}

/-- `try_allocate_expandable_block` once it has a candidate. -/
theorem wp_fromCandidate (R : Reaches L m₀ s.rest)
    (C : Candidate s p.stream p.pool e p.size b blk) (hfits : s.exceeds p.allocSize = false)
    (hgrant : L.grant s p.allocSize (wholePages e.segmentSize p.size)) :
    wp (do
      let blk ← deref b
      if !blk.mapped then
        if !(← mapBlock b (min blk.size p.size) p.pool) then
          return none
      assert (← deref b).mapped
      growCandidate p.pool p.size (p.size + 1) b : M (Option BlockId)) s
      (Searched L m₀ p.stream p.pool p.size) (Ends L m₀) := by
  obtain ⟨hb, hkind, huses, hstream, hpool, hsegment, hroom⟩ := C
  have R₁ : Reaches L m₀ (s.allotted (wholePages e.segmentSize p.size)) :=
    R.move (.grant p.allocSize _ hfits hgrant)
  obtain ⟨hpage, -⟩ := R.2.sound.paged b blk e hb hsegment
  refine wp_bind (wp_deref ends_badPointer fun y hy => ?_)
  obtain rfl : y = blk := Option.some_inj.mp (hy.symm.trans hb)
  refine wp_ite (fun hunmapped => ?_) fun hmapped => ?_
  · refine wp_bind (wp_mapBlock R₁ hb ?_ (fun s' R' => ?_) fun e' n s₁ s' h₁ hmaps R' => ?_)
    · intro e' he'
      obtain rfl : e = e' := Option.some_inj.mp (hsegment.symm.trans he')
      exact ExpandableSegment.wholePages_mono (Nat.min_le_right _ _)
    · exact wp_ite (fun _ => wp_pure ⟨R', nofun⟩) fun h => absurd rfl h
    · refine wp_ite (fun h => absurd h (by decide)) fun _ => ?_
      obtain rfl : e = e' := Option.some_inj.mp (hsegment.symm.trans hmaps.segment)
      have hheap := (quiet_of_undriven h₁).heap
      have S₁ : Sound ∅ s₁.pending s₁.needsEventsDeferredUntilNoCapture s₁ :=
        (R₁.driven h₁).2.sound_empty rfl rfl
      -- bytes have been mapped, so the request is not empty
      have hsize : 0 < p.size := by
        by_contra hzero
        have hn := hmaps.pages
        have hmin : min y.size p.size = 0 := by omega
        rw [hmin, ExpandableSegment.wholePages_of_dvd hpage (Nat.dvd_zero _)] at hn
        exact hmaps.pos.ne' hn
      cases hroom with
      | enough h => omega
      | @next _ _ z hz huses' hroom =>
        obtain rfl : z = y := Option.some_inj.mp (hz.symm.trans hb)
        obtain ⟨blk', hb', hinfo, htag, hle, hroom'⟩ := hmaps.roomy S₁ (by rw [hheap, hb])
          (.inl rfl) (by omega) (hroom.of_heap hheap)
        obtain ⟨halloc, hevents, -⟩ := Info.kind_eq_some.mp hkind
        have hkind' : blk'.info.kind = some true := by
          rw [hinfo, Info.kind_eq_some]
          exact ⟨halloc, hevents, rfl⟩
        refine wp_bind (wp_deref ends_badPointer fun x hx => ?_)
        obtain rfl : x = blk' := Option.some_inj.mp (hx.symm.trans hb')
        refine wp_bind (wp_assert (fun _ => ?_) fun hfalse => ?_)
        · have G : Grows s' p.stream p.pool e p.size x :=
            ⟨hkind', (congrArg Info.streamUses hinfo).trans huses',
              (congrArg Tag.stream htag).trans hstream, (congrArg Tag.pool htag).trans hpool,
              (congrArg Tag.expandableSegment htag).trans hsegment, hroom'⟩
          refine wp_growCandidate _ R' hb' G ?_
          have hmono : wholePages e.segmentSize (p.size - x.size) ≤
              wholePages e.segmentSize (p.size - n) :=
            ExpandableSegment.wholePages_mono (by omega)
          have hdvd : e.segmentSize ∣ n := hmaps.pages ▸ dvd_wholePages
          exact hmono.trans (ExpandableSegment.wholePages_sub hpage hdvd p.size)
        · have hmapped : x.mapped = true := congrArg Info.mapped hinfo
          rw [hmapped] at hfalse
          cases hfalse
  · have hmapped : y.mapped = true := by simpa using hmapped
    rw [hmapped] at hkind
    refine wp_bind (wp_deref ends_badPointer fun x hx => ?_)
    obtain rfl : x = y := Option.some_inj.mp (hx.symm.trans hb)
    refine wp_bind (wp_assert (fun _ => ?_) fun hfalse => ?_)
    · refine wp_growCandidate _ R₁ hb ⟨hkind, huses hmapped, hstream, hpool, hsegment, ?_⟩
        (ExpandableSegment.wholePages_mono (Nat.sub_le _ _))
      cases hroom with
      | enough h => exact .enough (h.trans (Nat.zero_le _))
      | @next _ _ z hz _ hroom =>
        obtain rfl : z = x := Option.some_inj.mp (hz.symm.trans hb)
        rwa [Nat.zero_add] at hroom
    · rw [hmapped] at hfalse
      cases hfalse

theorem wp_tryAllocateExpandableBlock (R : Reaches L m₀ s.rest)
    (hfits : s.exceeds p.allocSize = false) (hmay : MayExpand L cfg p s) :
    wp (tryAllocateExpandableBlock cfg p.stream p.pool p.size) s
      (Searched L m₀ p.stream p.pool p.size) (Ends L m₀) := by
  refine wp_bind (wp_findExpandableBlock R hmay.page hmay.expandable (fun e b blk C => ?_)
    fun e b blk s' C he htotal hmax R' => ?_)
  · refine wp_fromCandidate R C hfits (hmay.grant s _ rfl rfl (.inr ?_))
    exact ⟨b, blk, e, C.heap, C.stream, C.pool, C.segment, rfl⟩
  · have hfits' : s'.exceeds p.allocSize = false := by
      unfold State.exceeds at hfits ⊢
      rwa [htotal, hmax]
    exact wp_fromCandidate R' C hfits' (he ▸ hmay.grant s' _ htotal hmax (.inl rfl))

end TorchNpu.Allocator
