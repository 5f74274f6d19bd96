/-
  Every operation of the allocator is a sequence of moves, also when an exception cuts it off.

  `malloc` works in two phases: until `alloc_block` it neither allocates nor maps memory (`Licence.still`),
  so the total of the allocated memory has not gone up when `alloc_block` looks at it.  What an allocation
  needs a licence for is in `MayMalloc`; `Allows` collects it for each step.
-/
import TorchNpu.Allocator.Spec.ReleaseRefines

namespace TorchNpu.Allocator

open Tiling

variable {L : Licence} {m₀ m m' : Moment} {s s' : State} {b : BlockId} {blk : Block} {pool : PoolId}
  {cfg : Config} {p : AllocParams}

/-! ### Moves that take no memory -/

/-- The licence of an operation that takes no memory from the device. -/
def Licence.still (L : Licence) : Licence :=
  { L with
    segment := False
    limit := False
    page := fun _ => False
    grant := fun _ _ _ => False }

theorem Move.of_still (h : Move L.still m m') : Move L m m' := by
  cases h with
  | quiet h => exact .quiet h
  | wait t pending h => exact .wait t pending h
  | age f => exact .age f
  | take b blk hfound hheld hb hkind hin => exact .take b blk hfound hheld hb hkind hin
  | handOut b blk hfound hb => exact .handOut b blk hfound hb
  | segment p ptr hfound hheld hlicence => exact hlicence.elim
  | grant a n hfits hgrant => exact hgrant.elim
  | giveUp n h => exact .giveUp n h
  | expand stream pool e hfound hheld hpage => exact hpage.elim
  | map b blk e n hfound hheld hb hkind hsegment hpos hdvd hsize hbudget h =>
    exact .map b blk e n hfound hheld hb hkind hsegment hpos hdvd hsize hbudget h
  | count b blk hfound hb hexpandable hpool => exact .count b blk hfound hb hexpandable hpool
  | align b blk k hfound hheld hb hpos hk halign hlive =>
    exact .align b blk k hfound hheld hb hpos hk halign hlive
  | split b blk k hfound hheld hb hsize hk hlive =>
    exact .split b blk k hfound hheld hb hsize hk hlive
  | whole b blk hfound hb => exact .whole b blk hfound hb
  | activate b blk hfound hheld hb hpool => exact .activate b blk hfound hheld hb hpool
  | deallocate b blk hfound hheld hb halloc hpool =>
    exact .deallocate b blk hfound hheld hb halloc hpool
  | uses b blk streams hb h => exact .uses b blk streams hb h
  | events b blk hheld hb huses => exact .events b blk hheld hb huses
  | defer b blk hheld hb huses => exact .defer b blk hheld hb huses
  | undefer b rest hheld hdeferred => exact .undefer b rest hheld hdeferred
  | event b blk pend hpend hb hcount => exact .event b blk pend hpend hb hcount
  | lastEvent b blk pend hheld hpend hb hcount =>
    exact .lastEvent b blk pend hheld hpend hb hcount
  | free b blk hheld hb huses hlazy h => exact .free b blk hheld hb huses hlazy h
  | unmap b blk e lo n hfound hheld hb hin hsegment hlo hpos hend hptr hdvd hdvd' h hcount =>
    exact .unmap b blk e lo n hfound hheld hb hin hsegment hlo hpos hend hptr hdvd hdvd' h hcount
  | release b blk hfound hheld hb hin hsegment hsplit hpool hpositive =>
    exact .release b blk hfound hheld hb hin hsegment hsplit hpool hpositive
  | releaseFails b blk hfound hheld hb hin hsegment hsplit hpool hpositive =>
    exact .releaseFails b blk hfound hheld hb hin hsegment hsplit hpool hpositive
  | dropSegment b blk e hfound hheld hb hkind hsegment hsize hmem hsplit =>
    exact .dropSegment b blk e hfound hheld hb hkind hsegment hsize hmem hsplit
  | pool id pp h => exact .pool id pp h
  | freeable id => exact .freeable id
  | erase id pp hfound hheld hpool huse hcount => exact .erase id pp hfound hheld hpool huse hcount
  | limit maximum hlicence => exact hlicence.elim

theorem Reaches.of_still (R : Reaches L.still m₀ m) : Reaches L m₀ m :=
  ⟨R.1.lift id fun _ _ => Move.of_still, R.2⟩

theorem ends_of_still {err : Exception} (h : Ends L.still m₀ err s) : Ends L m₀ err s :=
  h.imp_right (Or.imp_right Reaches.of_still)

/-- No memory has been taken from the device since `s`. -/
structure Stayed (s : State) (m : Moment) : Prop where
  total : m.state.totalAllocatedMemory ≤ s.totalAllocatedMemory
  maximum : m.state.allowedMemoryMaximum = s.allowedMemoryMaximum
  budget : m.budget = 0

theorem freeSegment_release_eq :
    ((s.freeSegment b blk).countFree blk.pool).dropBlock b blk =
      { s with
        heap := Function.update s.heap b none
        blocks := Function.update s.blocks blk.pool (setErase b (s.blocks blk.pool))
        device := s.device.filter (·.lo ≠ blk.ptr)
        totalAllocatedMemory := s.totalAllocatedMemory - blk.size
        graphPools := ((s.freeSegment b blk).countFree blk.pool).graphPools
        trace := ((s.freeSegment b blk).countFree blk.pool).trace
        stats := (((s.freeSegment b blk).countFree blk.pool).dropBlock b blk).stats } := by
  rw [State.dropBlock, freeSegment_countFree_eq]
  rfl

theorem Move.stayed (h : Move L.still m m') (S : Stayed s m) : Stayed s m' := by
  obtain ⟨htotal, hmaximum, hbudget⟩ := S
  cases h with
  | quiet h =>
    exact ⟨h.totalAllocatedMemory ▸ htotal, h.allowedMemoryMaximum ▸ hmaximum, hbudget⟩
  | segment p ptr hfound hheld hlicence => exact hlicence.elim
  | grant a n hfits hgrant => exact hgrant.elim
  | giveUp n h => exact ⟨htotal, hmaximum, Nat.eq_zero_of_le_zero (hbudget ▸ h)⟩
  | expand stream pool e hfound hheld hpage => exact hpage.elim
  | map b blk e n hfound hheld hb hkind hsegment hpos hdvd hsize hle h => omega
  | count b blk hfound hb hexpandable hpool =>
    rw [State.countMalloc_eq]
    exact ⟨htotal, hmaximum, hbudget⟩
  | split b blk k hfound hheld hb hsize hk hlive =>
    rw [State.splitFound]
    split_ifs
    · exact ⟨htotal, hmaximum, hbudget⟩
    · exact ⟨htotal, hmaximum, hbudget⟩
  | whole b blk hfound hb =>
    rw [State.takeWhole]
    split_ifs
    · exact ⟨htotal, hmaximum, hbudget⟩
    · exact ⟨htotal, hmaximum, hbudget⟩
  | free b blk hheld hb huses hlazy h =>
    rw [h.eq]
    exact ⟨htotal, hmaximum, hbudget⟩
  | unmap b blk e lo n hfound hheld hb hin hsegment hlo hpos hend hptr hdvd hdvd' h hcount =>
    have hle : m.state.totalAllocatedMemory - n ≤ s.totalAllocatedMemory :=
      (Nat.sub_le _ _).trans htotal
    rcases hcount with ⟨-, rfl⟩ | ⟨-, rfl⟩
    · rw [State.countFree_eq, h.eq]
      exact ⟨hle, hmaximum, hbudget⟩
    · rw [State.beforeCountFree_eq, h.eq]
      exact ⟨hle, hmaximum, hbudget⟩
  | release b blk hfound hheld hb hin hsegment hsplit hpool hpositive =>
    rw [freeSegment_release_eq]
    exact ⟨(Nat.sub_le _ _).trans htotal, hmaximum, hbudget⟩
  | releaseFails b blk hfound hheld hb hin hsegment hsplit hpool hpositive =>
    rw [freeSegment_beforeCountFree_eq]
    exact ⟨(Nat.sub_le _ _).trans htotal, hmaximum, hbudget⟩
  | limit maximum hlicence => exact hlicence.elim
  | wait | age | take | handOut | align | activate | deallocate | uses | events | defer | undefer
  | event | lastEvent | dropSegment | pool | freeable | erase =>
    exact ⟨htotal, hmaximum, hbudget⟩

theorem Reaches.stayed (R : Reaches L.still s.rest m) : Stayed s m := by
  obtain ⟨hmoves, -⟩ := R
  induction hmoves with
  | refl => exact ⟨le_rfl, rfl, rfl⟩
  | tail _ hmove ih => exact hmove.stayed ih

/-! ### `get_free_block` -/

/-- A search has come to a block of `l` with this stream, or to none. -/
def Picks (s : State) (stream : Stream) (l : List BlockId) (o : Option BlockId) : Prop :=
  ∀ b, o = some b → b ∈ l ∧ ∃ blk, s.heap b = some blk ∧ blk.stream = stream

variable {stream : Stream} {l : List BlockId}

theorem Picks.none : Picks s stream l none :=
  nofun

theorem Picks.cons {o : Option BlockId} (h : Picks s stream l o) : Picks s stream (b :: l) o :=
  fun c hc => ⟨List.mem_cons_of_mem _ (h c hc).1, (h c hc).2⟩

theorem wp_expandableSize {Q : ℕ → State → Prop} (h : ∀ n, Q n s) :
    wp (expandableSize b) s Q (Ends L m₀) := by
  refine wp_bind (wp_deref ends_badPointer fun blk hb => ?_)
  cases blk.next with
  | none => exact wp_pure (h _)
  | some next => exact wp_bind (wp_deref ends_badPointer fun nextBlk hnext => wp_pure (h _))

theorem wp_bestFit {Q : BlockId → State → Prop} (it : BlockId) (rest : List BlockId)
    (hit : ∃ blk, s.heap it = some blk ∧ blk.stream = stream)
    (h : ∀ b, Picks s stream (it :: rest) (some b) → Q b s) :
    wp (bestFit stream it rest) s Q (Ends L m₀) := by
  have hself : ∀ rest, Picks s stream (it :: rest) (some it) := by
    rintro rest c ⟨⟩
    exact ⟨List.mem_cons_self .., hit⟩
  induction rest generalizing it with
  | nil => exact wp_pure (h it (hself []))
  | cons next rest ih =>
    refine wp_bind (wp_deref ends_badPointer fun blk hb => ?_)
    refine wp_ite (fun _ => wp_pure (h it (hself _))) fun _ => ?_
    refine wp_bind (wp_deref ends_badPointer fun nextBlk hnext => ?_)
    refine wp_ite (fun _ => wp_pure (h it (hself _))) fun hstream => ?_
    rw [not_not] at hstream
    refine wp_bind (wp_expandableSize fun n => wp_bind (wp_expandableSize fun n' => ?_))
    refine wp_ite (fun _ => ?_) fun _ => wp_pure (h it (hself _))
    have hit' : ∃ blk, s.heap next = some blk ∧ blk.stream = stream := ⟨nextBlk, hnext, hstream⟩
    refine ih next hit' (fun b hb => h b hb.cons) ?_
    rintro rest c ⟨⟩
    exact ⟨List.mem_cons_self .., hit'⟩

theorem wp_skipExpandable {Q : Option BlockId → State → Prop} (l : List BlockId)
    (h : ∀ o, Picks s stream l o → Q o s) :
    wp (skipExpandable stream l) s Q (Ends L m₀) := by
  induction l with
  | nil => exact wp_pure (h none .none)
  | cons it rest ih =>
    refine wp_bind (wp_deref ends_badPointer fun blk hb => ?_)
    refine wp_ite (fun _ => ih fun o ho => h o ho.cons) fun _ => ?_
    refine wp_ite (fun _ => wp_pure (h none .none)) fun hstream => wp_pure (h _ ?_)
    rintro c ⟨⟩
    exact ⟨List.mem_cons_self .., blk, hb, not_not.mp hstream⟩

theorem wp_searchFree {Q : Option BlockId → State → Prop} (l : List BlockId)
    (h : ∀ o, Picks s stream l o → Q o s) :
    wp (searchFree cfg stream l) s Q (Ends L m₀) := by
  cases l with
  | nil => exact wp_pure (h none .none)
  | cons it rest =>
    refine wp_bind (wp_deref ends_badPointer fun blk hb => ?_)
    refine wp_ite (fun _ => wp_pure (h none .none)) fun hstream => ?_
    have hit : ∃ blk, s.heap it = some blk ∧ blk.stream = stream := ⟨blk, hb, not_not.mp hstream⟩
    refine wp_ite (fun _ => wp_pure (h _ ?_)) fun _ => ?_
    · rintro c ⟨⟩
      exact ⟨List.mem_cons_self .., hit⟩
    refine wp_ite (fun _ => ?_) fun _ => wp_skipExpandable rest fun o ho => h o ho.cons
    exact wp_bind (wp_bestFit it rest hit fun b hb => wp_pure (h _ hb))

/-- What `lower_bound` has passed over is too small. -/
theorem size_le_of_mem_fromLowerBound {key : Block} {l : List BlockId}
    (h : b ∈ fromLowerBound comparatorSize s.heap key l) (hb : s.heap b = some blk)
    (hstream : blk.stream = key.stream) : key.size ≤ blk.size := by
  have hless := (List.mem_filter.mp h).2
  simp only [hb, comparatorSize, hstream, ne_eq, not_true_eq_false, if_false, ite_not,
    Bool.not_eq_true'] at hless
  split_ifs at hless with heq
  · exact heq.ge
  · exact not_lt.mp (of_decide_eq_false hless)

theorem Reaches.age (R : Reaches L m₀ m) (f : BlockId → Block → ℕ) :
    Reaches L m₀ { m with
      state := m.state.withHeap fun x =>
        (m.state.heap x).map fun blk => { blk with gcCount := f x blk } } := by
  have R₁ := R.move (.age fun x => ((m.state.heap x).map (f x)).getD 0)
  have heq : (fun x => (m.state.heap x).map fun blk : Block =>
      { blk with gcCount := ((m.state.heap x).map (f x)).getD 0 }) =
      fun x => (m.state.heap x).map fun blk => { blk with gcCount := f x blk } := by
    funext x
    cases m.state.heap x with
    | none => rfl
    | some blk => rfl
  rwa [heq] at R₁

theorem Reaches.resetAge (R : Reaches L m₀ m) (hb : m.state.heap b = some blk) :
    Reaches L m₀ { m with state := m.state.put b { blk with gcCount := 0 } } := by
  have R₁ := R.age fun x y => if x = b then 0 else y.gcCount
  have heq : (fun x => (m.state.heap x).map fun y : Block =>
      { y with gcCount := if x = b then 0 else y.gcCount }) =
      Function.update m.state.heap b (some { blk with gcCount := 0 }) := by
    funext x
    by_cases hxb : x = b
    · subst hxb
      rw [Function.update_self, hb, Option.map_some, if_pos rfl]
    · rw [Function.update_of_ne hxb]
      simp only [if_neg hxb]
      exact Option.map_id'
  rwa [heq] at R₁

/-- `get_free_block` after the blocks have aged. -/
theorem wp_takeFree (R : Reaches L m₀ s.rest) :
    wp (do
      let s ← get
      let key : Block := { stream := p.stream, size := p.size, pool := p.pool, ptr := 0 }
      match ← searchFree cfg p.stream
          (fromLowerBound comparatorSize s.heap key (s.blocks p.pool)) with
      | none => return none
      | some it =>
        let blk ← deref it
        if p.size < cfg.maxSplitSize && cfg.maxSplitSize ≤ blk.size then
          return none
        if cfg.maxSplitSize ≤ p.size && (p.size + kLargeBuffer) % 2 ^ 64 ≤ blk.size then
          return none
        store it fun blk => { blk with gcCount := 0 }
        Allocator.eraseBlock p.pool it
        recordTrace (.handOut (← deref it))
        return some it : M (Option BlockId)) s
      (fun o s' => Searched L m₀ p.stream p.pool p.size o s' ∧ s'.npuEvents = s.npuEvents)
      (Ends L m₀) := by
  refine wp_bind (wp_get (wp_bind (wp_searchFree _ fun o hpick => ?_)))
  cases o with
  | none => exact wp_pure ⟨⟨R, nofun⟩, rfl⟩
  | some it =>
    refine wp_bind (wp_deref ends_badPointer fun blk hb => ?_)
    refine wp_ite (fun _ => wp_pure ⟨⟨R, nofun⟩, rfl⟩) fun _ => ?_
    refine wp_ite (fun _ => wp_pure ⟨⟨R, nofun⟩, rfl⟩) fun _ => ?_
    refine wp_bind (wp_store ends_badPointer fun y hy => ?_)
    obtain rfl : y = blk := Option.some_inj.mp (hy.symm.trans hb)
    refine wp_bind (wp_modify (wp_bind (wp_deref ends_badPointer fun z hz => ?_)))
    obtain rfl := Option.some_inj.mp ((State.put_heap_self s it { y with gcCount := 0 }).symm.trans hz)
    refine wp_bind (wp_modify (wp_pure ⟨⟨?_, ?_⟩, rfl⟩))
    · obtain ⟨hmem, -⟩ := hpick it rfl
      have hin : it ∈ s.blocks p.pool := (List.mem_filter.mp hmem).1
      obtain ⟨-, -, x, hx, hpool, hkind⟩ := R.2.sound.of_mem_blocks hin
      obtain rfl : x = y := Option.some_inj.mp (hx.symm.trans hb)
      have R₁ := R.resetAge hb
      have hself := State.put_heap_self s it { x with gcCount := 0 }
      have R₂ := R₁.move (.take it { x with gcCount := 0 } rfl rfl hself hkind
        (.inl (hpool.symm ▸ hin)))
      have R₃ := R₂.move (.handOut it { x with gcCount := 0 } rfl hself)
      rw [← hpool]
      exact R₃
    · intro c hc x hx
      obtain rfl : it = c := Option.some_inj.mp hc
      obtain ⟨hmem, w, hw, hstream⟩ := hpick it rfl
      obtain rfl : w = y := Option.some_inj.mp (hw.symm.trans hb)
      obtain ⟨-, -, v, hv, hpool, -⟩ :=
        R.2.sound.of_mem_blocks (List.mem_filter.mp hmem).1
      obtain rfl : v = w := Option.some_inj.mp (hv.symm.trans hb)
      have hsize : p.size ≤ v.size := size_le_of_mem_fromLowerBound hmem hb hstream
      obtain rfl := Option.some_inj.mp ((State.put_heap_self s it { v with gcCount := 0 }).symm.trans hx)
      exact ⟨hstream, hpool, hsize⟩

theorem wp_getFreeBlock (R : Reaches L m₀ s.rest) :
    wp (getFreeBlock cfg p) s
      (fun o s' => Searched L m₀ p.stream p.pool p.size o s' ∧ s'.npuEvents = s.npuEvents)
      (Ends L m₀) := by
  refine wp_bind (wp_get (wp_ite (fun _ => ?_) fun _ => wp_takeFree R))
  have R₁ := R.age fun x y => if x ∈ s.blocks p.pool then y.gcCount + 1 else y.gcCount
  have heq : (fun x => (s.heap x).map fun y : Block =>
      { y with gcCount := if x ∈ s.blocks p.pool then y.gcCount + 1 else y.gcCount }) =
      fun x => if x ∈ s.blocks p.pool then
        (s.heap x).map fun blk => { blk with gcCount := blk.gcCount + 1 } else s.heap x := by
    funext x
    by_cases hx : x ∈ s.blocks p.pool
    · simp only [if_pos hx]
    · simp only [if_neg hx]
      exact Option.map_id'
  refine wp_bind (wp_modify ?_)
  rw [← heq]
  exact wp_takeFree R₁

/-! ### `alloc_block` -/

/-- `alloc_block` has a block in its hands, or an error to report. -/
def Obtained (L : Licence) (m₀ : Moment) (p : AllocParams) (r : Except Exception BlockId)
    (s : State) : Prop :=
  match r with
  | .ok b => Searched L m₀ p.stream p.pool p.size (some b) s
  | .error _ => Reaches L m₀ s.rest

theorem wp_countMalloc {Q : Unit → State → Prop}
    (h : s.HasPool pool → Q () (s.countMalloc pool)) : wp (countMalloc pool) s Q (Ends L m₀) := by
  refine wp_bind (wp_derefPool fun hhas => ?_)
  have h' := h hhas
  rw [State.countMalloc] at h'
  cases hpp : s.privatePool pool with
  | none =>
    rw [hpp] at h'
    exact wp_pure h'
  | some entry =>
    obtain ⟨id, pp⟩ := entry
    rw [hpp] at h'
    exact wp_modify h'

theorem wp_allocExpandable (R : Reaches L m₀ s.rest) (hfits : s.exceeds p.allocSize = false)
    (hmay : MayExpand L cfg p s) :
    wp (allocExpandable cfg p) s (Obtained L m₀ p) (Ends L m₀) := by
  refine (wp_tryAllocateExpandableBlock R hfits hmay).bind fun o s₁ ⟨R₁, hsuits⟩ => ?_
  cases o with
  | none => exact wp_pure R₁
  | some b =>
    refine wp_bind (wp_countMalloc fun hhas => wp_bind (wp_deref ends_badPointer fun blk hb => ?_))
    refine wp_bind (wp_modify (wp_pure ⟨?_, ?_⟩))
    · have hb₁ : s₁.heap b = some blk := by
        rwa [State.countMalloc_eq] at hb
      obtain ⟨-, hpool, -⟩ := hsuits b rfl blk hb₁
      rw [← hpool] at hhas hb ⊢
      have R₂ := R₁.move (.count b blk rfl hb₁ (hpool.symm ▸ hmay.expandable) hhas)
      have R₃ := R₂.move (.handOut b blk rfl hb)
      refine R₃.holding ?_
      rw [State.countMalloc_eq]
      rfl
    · rw [State.countMalloc_eq]
      exact hsuits

theorem wp_aclrtMalloc {size : ℕ} {Q : Except Exception ℕ → State → Prop}
    (hok : ∀ ptr as, s.Available ⟨ptr, size⟩ →
      Q (.ok ptr) { s with answers := as, device := ⟨ptr, size⟩ :: s.device })
    (herror : ∀ err as, Q (.error err) { s with answers := as }) :
    wp (aclrtMalloc size) s Q (Ends L m₀) := by
  refine wp_bind (wp_answer fun a as => ?_)
  cases a with
  | address ptr =>
    refine wp_bind (wp_get (wp_ite (fun havailable => ?_) fun _ => wp_throw ends_unanswered))
    exact wp_bind (wp_set (wp_pure (hok ptr as havailable)))
  | memoryAllocation => exact wp_pure (herror .outOfMemory as)
  | failure => exact wp_pure (herror .aclError as)
  | reserved ptr n => exact wp_throw ends_unanswered
  | physical handle => exact wp_throw ends_unanswered
  | done => exact wp_throw ends_unanswered
  | event complete => exact wp_throw ends_unanswered

theorem wp_allocSegment (R : Reaches L m₀ s.rest) (hfits : s.exceeds p.allocSize = false)
    (hlicence : L.segment) (hp : p.WellSized) :
    wp (allocSegment p) s (Obtained L m₀ p) (Ends L m₀) := by
  refine wp_bind (wp_aclrtMalloc (fun ptr as havailable => ?_) fun err as => ?_)
  · refine wp_bind (wp_countMalloc fun hhas => ?_)
    have R₁ : Reaches L m₀ ({ s with answers := as } : State).rest := R.silent (quiet_answers as) rfl
    have R₂ : Reaches L m₀
        { state := ({ s with answers := as } : State).addSegment p ptr, found := some s.fresh
          pend := s.pending, deferred := s.needsEventsDeferredUntilNoCapture } :=
      R₁.move (.segment p ptr rfl rfl hlicence hfits havailable hhas)
    obtain ⟨pools, hpools⟩ : ∃ pools,
        ({ s with answers := as, device := ⟨ptr, p.allocSize⟩ :: s.device } : State).countMalloc p.pool =
          { s with answers := as, device := ⟨ptr, p.allocSize⟩ :: s.device, graphPools := pools } :=
      ⟨_, State.countMalloc_eq _ _⟩
    simp only [State.addSegment, hpools] at R₂
    rw [hpools]
    refine wp_bind (wp_modify (wp_bind (wp_newBlock (wp_bind (wp_updateStats fun _ => ?_)))))
    refine wp_bind (wp_deref ends_badPointer fun blk hb => wp_bind (wp_modify (wp_pure ?_)))
    obtain rfl : newSegmentBlock p ptr = blk :=
      Option.some_inj.mp ((Function.update_self s.fresh _ s.heap).symm.trans hb)
    refine ⟨?_, ?_⟩
    · exact R₂
    · intro b hb' y hy
      obtain rfl : s.fresh = b := Option.some_inj.mp hb'
      obtain rfl : newSegmentBlock p ptr = y :=
        Option.some_inj.mp ((Function.update_self s.fresh _ s.heap).symm.trans hy)
      exact ⟨rfl, rfl, hp havailable.2.1⟩
  · exact wp_pure (R.silent (quiet_answers as) rfl)

/-- What an allocation needs a licence for. -/
structure MayMalloc (L : Licence) (cfg : Config) (p : AllocParams) (s : State) : Prop where
  size : L.size p.size
  align : kRoundLarge ≤ p.size → cfg.expandableSegments = true → cfg.baseAddrAlignedSize ≠ 0 → L.align
  segment : cfg.expandableSegments = false → L.segment
  expand : cfg.expandableSegments = true → ∀ s₁, s₁.totalAllocatedMemory ≤ s.totalAllocatedMemory →
    s₁.allowedMemoryMaximum = s.allowedMemoryMaximum → MayExpand L cfg p s₁

theorem wp_allocBlock {s₀ : State} (hmay : MayMalloc L cfg p s₀) (hp : p.WellSized)
    (R : Reaches L m₀ s.rest)
    (htotal : s.totalAllocatedMemory ≤ s₀.totalAllocatedMemory)
    (hmaximum : s.allowedMemoryMaximum = s₀.allowedMemoryMaximum) :
    wp (allocBlock cfg p) s (Obtained L m₀ p) (Ends L m₀) := by
  refine wp_bind (wp_get (wp_ite (fun _ => wp_pure R) fun hfits => ?_))
  rw [Bool.not_eq_true] at hfits
  refine wp_ite (fun hexpandable => ?_) fun hnot => ?_
  · exact wp_allocExpandable R hfits (hmay.expand hexpandable s htotal hmaximum)
  · rw [Bool.not_eq_true] at hnot
    exact wp_allocSegment R hfits (hmay.segment hnot) hp

/-! ### The end of `malloc` -/

theorem wp_alignBlock {s₀ : State} (hmay : MayMalloc L cfg p s₀)
    (S : Searched L m₀ p.stream p.pool p.size (some b) s) :
    wp (alignBlock cfg p b) s (fun b' s' => Searched L m₀ p.stream p.pool p.size (some b') s')
      (Ends L m₀) := by
  obtain ⟨R, hsuits⟩ := S
  refine wp_bind (wp_deref ends_badPointer fun blk hb => ?_)
  obtain ⟨hstream, hpool, -⟩ := hsuits b rfl blk hb
  refine wp_ite (fun hcond => ?_) fun _ => wp_pure ⟨R, hsuits⟩
  simp only [Bool.and_eq_true, decide_eq_true_eq] at hcond
  obtain ⟨⟨⟨hlarge, hexpandable⟩, hround⟩, -⟩ := hcond
  refine wp_ite (fun hroom => ?_) fun _ => wp_pure ⟨R, hsuits⟩
  have hmod := Nat.mod_lt blk.ptr (Nat.pos_of_ne_zero hround)
  have hsize : 0 < p.size := lt_of_lt_of_le (by decide) hlarge
  rw [← hstream, ← hpool]
  refine wp_bind (wp_cutBack ends_badPointer isLink_chain R.2.sound.linked R.2.sound.fresh hb
    fun hlive => wp_bind (wp_modify (wp_pure ⟨?_, ?_⟩)))
  · exact (R.move (.align b blk _ rfl rfl hb (by omega) (by omega)
      (.inr (hmay.align hlarge hexpandable hround)) hlive)).holding rfl
  · intro c hc y hy
    obtain rfl : s.fresh = c := Option.some_inj.mp hc
    obtain rfl := Option.some_inj.mp (cutBackHeap_new.symm.trans hy)
    refine ⟨rfl, rfl, ?_⟩
    change p.size ≤ blk.size - (blk.ptr + cfg.baseAddrAlignedSize - blk.ptr % cfg.baseAddrAlignedSize -
      blk.ptr)
    omega

theorem wp_splitFound {s₀ : State} {splitRemainder : Bool} (hmay : MayMalloc L cfg p s₀)
    (S : Searched L m₀ p.stream p.pool p.size (some b) s) (hb : s.heap b = some blk)
    (hsplit : splitRemainder = true → p.size < blk.size) :
    wp (splitFound p b splitRemainder) s
      (fun b' s' => Searched L m₀ p.stream p.pool p.size (some b') s') (Ends L m₀) := by
  obtain ⟨R, hsuits⟩ := S
  obtain ⟨hstream, hpool, hsize⟩ := hsuits b rfl blk hb
  refine wp_bind (wp_deref ends_badPointer fun y hy => ?_)
  obtain rfl : y = blk := Option.some_inj.mp (hy.symm.trans hb)
  refine wp_ite (fun htrue => ?_) fun _ => ?_
  · rw [← hstream, ← hpool]
    have hbf := R.2.sound.fresh.ne hb
    refine wp_bind (wp_cutFront ends_badPointer isLink_chain R.2.sound.linked R.2.sound.fresh hb
      fun hlive => wp_bind (wp_modify ?_))
    have R₁ := R.move (.split b y p.size rfl rfl hb hmay.size (hsplit htrue) hlive)
    have hnew : ∀ s' : State, s'.heap = cutFrontHeap s.heap b y p.size s.fresh →
        ∀ c, some s.fresh = some c → Suits s' y.stream y.pool p.size c := by
      intro s' hs' c hc z hz
      obtain rfl : s.fresh = c := Option.some_inj.mp hc
      rw [hs'] at hz
      obtain rfl := Option.some_inj.mp (cutFrontHeap_new.symm.trans hz)
      exact ⟨rfl, rfl, le_rfl⟩
    refine wp_ite (fun hnone => ?_) fun hsome => ?_
    · refine wp_bind (wp_deref ends_badPointer fun rem hrem => ?_)
      obtain rfl := Option.some_inj.mp ((cutFrontHeap_self hbf).symm.trans hrem)
      refine wp_bind (wp_updateStats fun _ => wp_pure ⟨?_, hnew _ rfl⟩)
      have heq : s.splitFound b y p.size = _ := if_pos hnone
      have R₂ : Reaches L m₀ { s.holding (some s.fresh) with state := s.splitFound b y p.size } := R₁
      rw [heq] at R₂
      exact R₂.holding rfl
    · refine wp_pure ⟨?_, hnew _ rfl⟩
      have heq : s.splitFound b y p.size = _ := if_neg hsome
      have R₂ : Reaches L m₀ { s.holding (some s.fresh) with state := s.splitFound b y p.size } := R₁
      rw [heq] at R₂
      exact R₂.holding rfl
  · have R₁ := R.move (.whole b y rfl hb)
    have R₂ : Reaches L m₀ { s.holding (some b) with state := s.takeWhole y } := R₁
    refine wp_ite (fun hcond => ?_) fun hcond => ?_
    · rw [← hpool]
      refine wp_bind (wp_updateStats fun _ => wp_pure ⟨?_, hpool ▸ hsuits⟩)
      have heq : s.takeWhole y = _ := if_pos hcond
      rw [heq] at R₂
      exact R₂.holding rfl
    · exact wp_pure ⟨R, hsuits⟩

theorem wp_activate (S : Searched L m₀ p.stream p.pool p.size (some b) s) :
    wp (activate p b) s (fun _ s' => Reaches L m₀ s'.rest) (Ends L m₀) := by
  obtain ⟨R, hsuits⟩ := S
  refine wp_bind (wp_store ends_badPointer fun blk hb => wp_bind (wp_modify ?_))
  obtain ⟨-, hpool, -⟩ := hsuits b rfl blk hb
  refine wp_bind (wp_deref ends_badPointer fun y hy => ?_)
  obtain rfl := Option.some_inj.mp ((State.put_heap_self s b { blk with allocated := true }).symm.trans hy)
  rw [← hpool]
  refine wp_updateStats fun hhas => ?_
  have R₁ : Reaches L m₀ { s.holding none with state := s.activate b blk } :=
    R.move (.activate b blk rfl rfl hb hhas)
  exact R₁.holding rfl

theorem lt_of_shouldSplit {size : ℕ} (h : shouldSplit cfg blk size = true) : size < blk.size := by
  unfold shouldSplit at h
  split_ifs at h
  · have h := of_decide_eq_true h
    unfold kMinBlockSize at h
    omega
  · rw [Bool.and_eq_true] at h
    have h := of_decide_eq_true h.2
    omega

theorem wp_finishMalloc {s₀ : State} (hmay : MayMalloc L cfg p s₀)
    (S : Searched L m₀ p.stream p.pool p.size (some b) s) :
    wp (finishMalloc cfg p b) s (fun _ s' => Reaches L m₀ s'.rest) (Ends L m₀) := by
  refine (wp_alignBlock hmay S).bind fun b₁ s₁ S₁ => ?_
  refine wp_bind (wp_deref ends_badPointer fun blk hb => ?_)
  exact (wp_splitFound hmay S₁ hb lt_of_shouldSplit).bind fun b₂ s₂ S₂ => wp_activate S₂

/-! ### `malloc` -/

variable {t : Thread}

theorem wp_unlock {pending : Pending} (R : Reaches L m₀ s.rest) (hp : pending.params.WellSized) :
    wp (unlock t pending) s (fun _ s' => Reaches L m₀ s'.rest) (Ends L m₀) := by
  refine wp_modify ((R.move (.wait t (some pending) ?_)).holding rfl)
  rintro x ⟨⟩
  exact hp

theorem wp_fallBack {err : Exception} (R : Reaches L m₀ s.rest) (hp : p.WellSized) :
    wp (fallBack t p err) s (fun _ s' => Reaches L m₀ s'.rest) (Ends L m₀) :=
  wp_bind (wp_get (wp_ite (fun _ => wp_unlock R hp) fun _ => wp_throw R.ends))

theorem wp_availableIterator {Q : Option Iterator → State → Prop} (h : ∀ it, Q it s) :
    wp (availableIterator cfg p) s Q (Ends L m₀) := by
  refine wp_bind (wp_get ?_)
  dsimp only
  split
  · exact wp_pure (h none)
  · exact wp_pure (h _)

theorem wp_collectionStage {Q : Option Stage → State → Prop} (h : ∀ stage, Q stage s) :
    wp (collectionStage cfg) s Q (Ends L m₀) := by
  refine wp_bind (wp_get ?_)
  cases s.allowedMemoryMaximum with
  | none => exact wp_pure (h none)
  | some maximum => exact wp_ite (fun _ => wp_pure (h none)) fun _ => wp_pure (h _)

theorem wp_allocate {s₀ : State} (hmay : MayMalloc L cfg p s₀) (hp : p.WellSized)
    (R : Reaches L m₀ s.rest)
    (htotal : s.totalAllocatedMemory ≤ s₀.totalAllocatedMemory)
    (hmaximum : s.allowedMemoryMaximum = s₀.allowedMemoryMaximum) :
    wp (allocate cfg t p) s (fun _ s' => Reaches L m₀ s'.rest) (Ends L m₀) := by
  refine (wp_allocBlock hmay hp R htotal hmaximum).bind fun r s₁ O => ?_
  cases r with
  | ok b => exact wp_finishMalloc hmay O
  | error err =>
    refine wp_ite (fun _ => wp_fallBack O hp) fun _ => ?_
    exact wp_bind (wp_availableIterator fun it => wp_unlock O hp)

/-- The pool that `get_pool` chooses. -/
def State.poolFor (s : State) (captured : List MempoolId) (size : ℕ) : PoolId :=
  poolOf (s.capturesUnderway.find? fun id => decide (id ∈ captured)) size

theorem wp_getPool {captured : List MempoolId} {size : ℕ} {Q : PoolId → State → Prop}
    (R : Reaches L m₀ s.rest) (h : Q (s.poolFor captured size) s) :
    wp (getPool captured size) s Q (Ends L m₀) := by
  unfold State.poolFor at h
  refine wp_bind (wp_get ?_)
  cases hfind : s.capturesUnderway.find? fun id => decide (id ∈ captured) with
  | none =>
    rw [hfind] at h
    exact wp_pure h
  | some id =>
    rw [hfind] at h
    exact wp_bind (wp_get (wp_bind (wp_assert (fun _ => wp_pure h) fun _ => R.ends)))

theorem Searched.processed {o : Option BlockId} {s₁ : State}
    (S : Searched L m₀ p.stream p.pool p.size o s) (R : Reaches L m₀ (s₁.holding o))
    (h : FoundUntouched o s s₁) : Searched L m₀ p.stream p.pool p.size o s₁ := by
  refine ⟨R, fun b hb y' hy' => ?_⟩
  obtain ⟨y, hy, hsize, htag⟩ := h.found b hb y' hy'
  obtain ⟨hstream, hpool, hle⟩ := S.2 b hb y hy
  exact ⟨(congrArg Tag.stream htag).trans hstream, (congrArg Tag.pool htag).trans hpool,
    hsize.symm ▸ hle⟩

/-- Many events are outstanding, so that `malloc` processes them although it has found a block. -/
def State.Crowded (s : State) : Prop :=
  kLazyQuerySize < (s.npuEvents.map (·.2.length)).sum

theorem wp_findFree (R : Reaches L m₀ s.rest)
    (hlazy : cfg.multiStreamLazyReclaim = true → s.Crowded → L.lazy) :
    wp (findFree cfg p) s (Searched L m₀ p.stream p.pool p.size) (Ends L m₀) := by
  refine (wp_getFreeBlock R).bind fun o s₁ ⟨S₁, hevents⟩ => ?_
  refine wp_bind (wp_get (wp_ite (fun hcond => ?_) fun _ => wp_pure S₁))
  rw [Bool.and_eq_true] at hcond
  have hjoin : ∀ s₂, Searched L m₀ p.stream p.pool p.size o s₂ →
      wp (if o.isNone then getFreeBlock cfg p else pure o : M (Option BlockId)) s₂
        (Searched L m₀ p.stream p.pool p.size) (Ends L m₀) := by
    intro s₂ S₂
    refine wp_ite (fun hnone => ?_) fun _ => wp_pure S₂
    rw [Option.isNone_iff_eq_none] at hnone
    subst hnone
    exact (wp_getFreeBlock S₂.1).post fun o' s' h => h.1
  refine wp_bind (wp_get (wp_ite (fun hmany => ?_) fun _ => hjoin s₁ S₁))
  have hlazy' : o = none ∨ L.lazy := by
    rw [Bool.or_eq_true, Option.isNone_iff_eq_none, decide_eq_true_eq] at hmany
    refine hmany.imp_right fun h => hlazy hcond.1 ?_
    rwa [State.Crowded, ← hevents]
  refine (wp_processEvents hlazy' S₁.1).bind fun _ s₂ ⟨R₂, hfound⟩ => ?_
  exact hjoin s₂ (S₁.processed R₂ hfound)

end TorchNpu.Allocator
