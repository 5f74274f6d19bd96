/-
  Cutting, joining and moving blocks: what the steps of the operations do to the state.

  A step either runs into a bad pointer or ends in a state that is written down here.  `State.view` reads
  the blocks as pieces of the library of tilings: neighbours share the stream, the pool and the expandable
  segment, and the kind of a block says whether it is in use (`none`), free (`some true`) or not backed by
  physical memory (`some false`).  Read that way, cutting and merging blocks are the operations of the
  library; `State.info` has what they leave alone.
-/
import TorchNpu.Allocator.Operations
import TorchNpu.Lib.Linked
import TorchNpu.Lib.Wp

namespace TorchNpu.Allocator

open Tiling

/-! ### Blocks as pieces -/

/-- What a block says about itself besides its place. -/
structure Info where
  pool : PoolId
  allocated : Bool
  mapped : Bool
  eventCount : ℕ
  streamUses : List Stream
  expandable : Bool

def Info.kind (i : Info) : Option Bool :=
  if i.allocated || 0 < i.eventCount then none else some i.mapped

def Block.info (blk : Block) : Info :=
  ⟨blk.pool, blk.allocated, blk.mapped, blk.eventCount, blk.streamUses,
    blk.expandableSegment.isSome⟩

/-- What neighbours have in common. -/
structure Tag where
  stream : Stream
  pool : PoolId
  expandableSegment : Option ExpandableSegment

def Block.tag (blk : Block) : Tag :=
  ⟨blk.stream, blk.pool, blk.expandableSegment⟩

def Block.piece (blk : Block) : Piece BlockId Tag Bool :=
  ⟨blk.ptr, blk.size, blk.prev, blk.next, blk.tag, blk.info.kind⟩

def State.view (s : State) (b : BlockId) : Option (Piece BlockId Tag Bool) :=
  (s.heap b).map Block.piece

def State.info (s : State) (b : BlockId) : Option Info :=
  (s.heap b).map Block.info

variable {s s' : State} {b c : BlockId} {blk new : Block} {i : Info} {pool : PoolId}
  {kind : Option Bool} {α β : Type} {E : Exception → State → Prop}

theorem State.view_eq_some (h : s.heap b = some blk) : s.view b = some blk.piece := by
  rw [State.view, h, Option.map_some]

theorem State.info_eq_some (h : s.heap b = some blk) : s.info b = some blk.info := by
  rw [State.info, h, Option.map_some]

theorem State.exists_of_info (h : s.info b = some i) : ∃ blk, s.heap b = some blk ∧ blk.info = i :=
  Option.map_eq_some_iff.mp h

theorem State.exists_of_view {p : Piece BlockId Tag Bool} (h : s.view b = some p) :
    ∃ blk, s.heap b = some blk ∧ blk.piece = p :=
  Option.map_eq_some_iff.mp h

@[simp] theorem Info.kind_eq_none : i.kind = none ↔ i.allocated = true ∨ 0 < i.eventCount := by
  rw [Info.kind]
  split_ifs with h <;> simpa using h

@[simp] theorem Info.kind_eq_some {m : Bool} :
    i.kind = some m ↔ i.allocated = false ∧ i.eventCount = 0 ∧ i.mapped = m := by
  rw [Info.kind]
  split_ifs with h
  · simp only [Bool.or_eq_true, decide_eq_true_eq] at h
    simp only [false_iff]
    rintro ⟨h1, h2, -⟩
    simp [h1, h2] at h
  · simp only [Bool.or_eq_true, decide_eq_true_eq, not_or, Bool.not_eq_true] at h
    simp only [Option.some.injEq]
    constructor
    · intro hm
      exact ⟨h.1, by omega, hm⟩
    · rintro ⟨-, -, hm⟩
      exact hm

/-! ### The steps on the state -/

/-- The state with other blocks. -/
def State.withHeap (s : State) (h : BlockId → Option Block) : State :=
  { s with heap := h }

@[simp] theorem State.withHeap_heap (h : BlockId → Option Block) : (s.withHeap h).heap = h := rfl

@[simp] theorem State.withHeap_withHeap (h h' : BlockId → Option Block) :
    (s.withHeap h).withHeap h' = s.withHeap h' := rfl

/-- The state after `new Block`, with other blocks. -/
def State.extend (s : State) (h : BlockId → Option Block) : State :=
  { s with heap := h, fresh := s.fresh + 1 }

@[simp] theorem State.extend_heap (h : BlockId → Option Block) : (s.extend h).heap = h := rfl

@[simp] theorem State.extend_withHeap (h h' : BlockId → Option Block) :
    (s.extend h).withHeap h' = s.extend h' := rfl

/-- `if (o) o->prev = b`, on the heap. -/
def linkPrev (heap : BlockId → Option Block) (o : Option BlockId) (b x : BlockId) : Option Block :=
  if o = some x then (heap x).map fun blk => { blk with prev := some b } else heap x

/-- `if (o) o->next = b`, on the heap. -/
def linkNext (heap : BlockId → Option Block) (o : Option BlockId) (b x : BlockId) : Option Block :=
  if o = some x then (heap x).map fun blk => { blk with next := some b } else heap x

theorem linkPrev_none (heap : BlockId → Option Block) : linkPrev heap none b = heap := by
  funext x
  simp [linkPrev]

theorem linkNext_none (heap : BlockId → Option Block) : linkNext heap none b = heap := by
  funext x
  simp [linkNext]

theorem linkPrev_some {heap : BlockId → Option Block} (hc : heap c = some blk) :
    linkPrev heap (some c) b = Function.update heap c (some { blk with prev := some b }) := by
  funext x
  by_cases hx : x = c
  · simp [linkPrev, hx, hc]
  · simp [linkPrev, hx, Ne.symm hx]

theorem linkNext_some {heap : BlockId → Option Block} (hc : heap c = some blk) :
    linkNext heap (some c) b = Function.update heap c (some { blk with next := some b }) := by
  funext x
  by_cases hx : x = c
  · simp [linkNext, hx, hc]
  · simp [linkNext, hx, Ne.symm hx]

/-- `o` is null or points to a block. -/
def State.Live (s : State) (o : Option BlockId) : Prop :=
  ∀ x, o = some x → ∃ blk, s.heap x = some blk

section Steps

variable (hE : ∀ s, E .badPointer s)
include hE

theorem wp_deref {Q : Block → State → Prop} (h : ∀ blk, s.heap b = some blk → Q blk s) :
    wp (deref b) s Q E := by
  refine wp_bind (wp_get ?_)
  cases hb : s.heap b with
  | none => exact wp_throw (hE s)
  | some blk => exact wp_pure (h blk hb)

theorem wp_store {f : Block → Block} {Q : Unit → State → Prop}
    (h : ∀ blk, s.heap b = some blk →
      Q () (s.withHeap (Function.update s.heap b (some (f blk))))) :
    wp (store b f) s Q E :=
  wp_bind (wp_deref hE fun blk hb => wp_modify (h blk hb))

theorem wp_setPrev {o : Option BlockId} {Q : Unit → State → Prop}
    (h : s.Live o → Q () (s.withHeap (linkPrev s.heap o b))) : wp (setPrev o b) s Q E := by
  cases o with
  | none =>
    rw [linkPrev_none] at h
    exact wp_pure (h nofun)
  | some x =>
    refine wp_store hE fun blk hx => ?_
    rw [linkPrev_some hx] at h
    refine h ?_
    rintro x' ⟨⟩
    exact ⟨blk, hx⟩

theorem wp_setNext {o : Option BlockId} {Q : Unit → State → Prop}
    (h : s.Live o → Q () (s.withHeap (linkNext s.heap o b))) : wp (setNext o b) s Q E := by
  cases o with
  | none =>
    rw [linkNext_none] at h
    exact wp_pure (h nofun)
  | some x =>
    refine wp_store hE fun blk hx => ?_
    rw [linkNext_some hx] at h
    refine h ?_
    rintro x' ⟨⟩
    exact ⟨blk, hx⟩

end Steps

theorem wp_assert {p : Bool} {Q : Unit → State → Prop} (h : p = true → Q () s)
    (h' : p = false → E .internalAssert s) : wp (assert p) s Q E := by
  cases p with
  | true => exact wp_pure (h rfl)
  | false => exact wp_throw (h' rfl)

theorem wp_newBlock {Q : BlockId → State → Prop}
    (h : Q s.fresh (s.extend (Function.update s.heap s.fresh (some new)))) :
    wp (newBlock new) s Q E :=
  wp_bind (wp_get (wp_bind (wp_set (wp_pure h))))

/-! ### Linking in a block -/

/-- The heap with `b` linked in between `before` and `after`. -/
def linkIn (heap : BlockId → Option Block) (b : BlockId) (blk : Block)
    (before after : Option BlockId) : BlockId → Option Block :=
  Function.update (linkPrev (linkNext heap before b) after b) b
    (some { blk with prev := before, next := after })

/-- `before` and `after` are next to each other, and `b` is apart from them. -/
structure Gap (s : State) (b : BlockId) (before after : Option BlockId) : Prop where
  before_ne : before ≠ some b
  after_ne : after ≠ some b
  distinct : ∀ x, before = some x → after ≠ some x
  next : ∀ x blk, before = some x → s.heap x = some blk → blk.next = after
  prev : ∀ x blk, after = some x → s.heap x = some blk → blk.prev = before

/-- `link` puts the new block where it belongs, unless it meets a bad pointer. -/
def IsLink (link : BlockId → Option BlockId → Option BlockId → M Unit) : Prop :=
  ∀ (s : State) (b : BlockId) (blk : Block) (before after : Option BlockId)
    (E : Exception → State → Prop) (Q : Unit → State → Prop),
    (∀ s, E .badPointer s) → s.heap b = some blk → Gap s b before after →
    (s.Live before → s.Live after → Q () (s.withHeap (linkIn s.heap b blk before after))) →
    wp (link b before after) s Q E

theorem heap_linkIn {before after : Option BlockId} :
    Function.update (linkPrev (Function.update (linkNext s.heap before b) b
      (some { blk with prev := before })) after b) b
      (some { blk with prev := before, next := after }) = linkIn s.heap b blk before after := by
  funext x
  by_cases hx : x = b
  · simp [linkIn, hx]
  · simp [linkIn, hx, linkPrev]

theorem live_of_live {before after : Option BlockId} (G : Gap s b before after)
    (h : (s.withHeap (Function.update (linkNext s.heap before b) b new)).Live after) :
    s.Live after := by
  intro y hy
  obtain ⟨blk, hblk⟩ := h y hy
  have hyb : y ≠ b := fun h => G.after_ne (h ▸ hy)
  have hby : before ≠ some y := fun h => G.distinct y h hy
  refine ⟨blk, ?_⟩
  simpa [hyb, linkNext, hby] using hblk

theorem isLink_chain : IsLink chain := by
  intro s b blk before after E Q hE hb G h
  refine wp_bind (wp_setNext hE fun hbefore => ?_)
  refine wp_bind (wp_store hE fun blk1 hb1 => ?_)
  obtain rfl : blk1 = blk := by
    rw [State.withHeap_heap, linkNext, if_neg G.before_ne, hb, Option.some_inj] at hb1
    exact hb1.symm
  refine wp_bind (wp_setPrev hE fun hafter => ?_)
  refine wp_store hE fun blk2 hb2 => ?_
  simp only [State.withHeap_heap, State.withHeap_withHeap] at hb2 hafter ⊢
  obtain rfl : blk2 = { blk1 with prev := before } := by
    rw [linkPrev, if_neg G.after_ne, Function.update_self, Option.some_inj] at hb2
    exact hb2.symm
  rw [heap_linkIn]
  exact h hbefore (live_of_live G hafter)

theorem wp_spliceAfter {before after : Option BlockId} {Q : Unit → State → Prop}
    (hE : ∀ s, E .badPointer s)
    (hnext : ∀ x blk, before = some x → s.heap x = some blk → blk.next = after)
    (h : s.Live before → Q () (s.withHeap (linkNext s.heap before b))) :
    wp (spliceAfter b before after) s Q E := by
  cases before with
  | none =>
    rw [linkNext_none] at h
    exact wp_pure (h nofun)
  | some x =>
    refine wp_bind (wp_deref hE fun blk hx => ?_)
    refine wp_bind (wp_assert (fun _ => ?_) fun hfalse => ?_)
    · exact wp_setNext hE h
    · exact absurd (hnext x blk rfl hx) (by simpa using hfalse)

theorem wp_spliceBefore {before after : Option BlockId} {Q : Unit → State → Prop}
    (hE : ∀ s, E .badPointer s)
    (hprev : ∀ x blk, after = some x → s.heap x = some blk → blk.prev = before)
    (h : s.Live after → Q () (s.withHeap (linkPrev s.heap after b))) :
    wp (spliceBefore b before after) s Q E := by
  cases after with
  | none =>
    rw [linkPrev_none] at h
    exact wp_pure (h nofun)
  | some x =>
    refine wp_bind (wp_deref hE fun blk hx => ?_)
    refine wp_bind (wp_assert (fun _ => ?_) fun hfalse => ?_)
    · exact wp_setPrev hE h
    · exact absurd (hprev x blk rfl hx) (by simpa using hfalse)

theorem isLink_splice : IsLink splice := by
  intro s b blk before after E Q hE hb G h
  refine wp_bind (wp_spliceAfter hE G.next fun hbefore => ?_)
  refine wp_bind (wp_store hE fun blk1 hb1 => ?_)
  obtain rfl : blk1 = blk := by
    rw [State.withHeap_heap, linkNext, if_neg G.before_ne, hb, Option.some_inj] at hb1
    exact hb1.symm
  refine wp_bind (wp_spliceBefore hE ?_ fun hafter => ?_)
  · intro y y' hy hy'
    have hyb : y ≠ b := fun h => G.after_ne (h ▸ hy)
    have hby : before ≠ some y := fun h => G.distinct y h hy
    simp only [State.withHeap_heap, Function.update_of_ne hyb, linkNext, if_neg hby] at hy'
    exact G.prev y y' hy hy'
  refine wp_store hE fun blk2 hb2 => ?_
  simp only [State.withHeap_heap, State.withHeap_withHeap] at hb2 hafter ⊢
  obtain rfl : blk2 = { blk1 with prev := before } := by
    rw [linkPrev, if_neg G.after_ne, Function.update_self, Option.some_inj] at hb2
    exact hb2.symm
  rw [heap_linkIn]
  exact h hbefore (live_of_live G hafter)

/-! ### Cutting -/

/-- The heap after `cutBack`. -/
def cutBackHeap (heap : BlockId → Option Block) (b : BlockId) (blk : Block) (k : ℕ) (c : BlockId)
    (mapped : Bool) (x : BlockId) : Option Block :=
  if x = c then
    some
      { stream := blk.stream, pool := blk.pool, mapped, size := blk.size - k, ptr := blk.ptr + k
        prev := some b, next := blk.next, expandableSegment := blk.expandableSegment }
  else if x = b then some { blk with size := k, next := some c }
  else linkPrev heap blk.next c x

/-- The heap after `cutFront`. -/
def cutFrontHeap (heap : BlockId → Option Block) (b : BlockId) (blk : Block) (k : ℕ) (c : BlockId)
    (x : BlockId) : Option Block :=
  if x = c then
    some
      { stream := blk.stream, pool := blk.pool, size := k, ptr := blk.ptr
        prev := blk.prev, next := some b, expandableSegment := blk.expandableSegment }
  else if x = b then some { blk with ptr := blk.ptr + k, size := blk.size - k, prev := some c }
  else linkNext heap blk.prev c x

theorem cutBackHeap_new {heap : BlockId → Option Block} {k : ℕ} {mapped : Bool} :
    cutBackHeap heap b blk k c mapped c =
      some
        { stream := blk.stream, pool := blk.pool, mapped, size := blk.size - k, ptr := blk.ptr + k
          prev := some b, next := blk.next, expandableSegment := blk.expandableSegment } :=
  if_pos rfl

theorem cutBackHeap_self {heap : BlockId → Option Block} {k : ℕ} {mapped : Bool} (hbc : b ≠ c) :
    cutBackHeap heap b blk k c mapped b = some { blk with size := k, next := some c } := by
  rw [cutBackHeap, if_neg hbc, if_pos rfl]

theorem cutFrontHeap_new {heap : BlockId → Option Block} {k : ℕ} :
    cutFrontHeap heap b blk k c c =
      some
        { stream := blk.stream, pool := blk.pool, size := k, ptr := blk.ptr
          prev := blk.prev, next := some b, expandableSegment := blk.expandableSegment } :=
  if_pos rfl

theorem cutFrontHeap_self {heap : BlockId → Option Block} {k : ℕ} (hbc : b ≠ c) :
    cutFrontHeap heap b blk k c b =
      some { blk with ptr := blk.ptr + k, size := blk.size - k, prev := some c } := by
  rw [cutFrontHeap, if_neg hbc, if_pos rfl]

/-- `new Block` yields a block that nobody has heard of. -/
structure Fresh (s : State) : Prop where
  none : s.heap s.fresh = none
  unreferenced : Unreferenced s.view s.fresh

theorem Fresh.ne (F : Fresh s) (hb : s.heap b = some blk) : b ≠ s.fresh := by
  rintro rfl
  rw [F.none] at hb
  cases hb

theorem Fresh.links (F : Fresh s) (hb : s.heap b = some blk) :
    blk.prev ≠ some s.fresh ∧ blk.next ≠ some s.fresh :=
  F.unreferenced b blk.piece (State.view_eq_some hb)

section Cuts

variable {link : BlockId → Option BlockId → Option BlockId → M Unit} {k : ℕ}
  {Q : BlockId → State → Prop} (hE : ∀ s, E .badPointer s) (hlink : IsLink link)
  (H : Linked s.view) (F : Fresh s) (hb : s.heap b = some blk)
include hE hlink H F hb

theorem wp_cutBack {mapped : Bool}
    (h : s.Live blk.next → Q s.fresh (s.extend (cutBackHeap s.heap b blk k s.fresh mapped))) :
    wp (cutBack link b k blk.stream blk.pool mapped) s Q E := by
  have hbf : b ≠ s.fresh := F.ne hb
  have hnb : blk.next ≠ some b := H.next_ne (State.view_eq_some hb)
  refine wp_bind (wp_deref hE fun blk' hb' => ?_)
  obtain rfl : blk' = blk := Option.some_inj.mp (hb'.symm.trans hb)
  refine wp_bind (wp_newBlock ?_)
  refine wp_bind (hlink _ _ _ _ _ _ _ hE (Function.update_self ..) ?gap fun _ hafter => ?_)
  case gap =>
    refine ⟨by simpa using hbf, (F.links hb).2, ?_, ?_, ?_⟩
    · rintro x ⟨⟩
      exact hnb
    · rintro x y ⟨⟩ hy
      simp only [State.extend_heap, Function.update_of_ne hbf, hb, Option.some_inj] at hy
      rw [← hy]
    · intro x y hx hy
      have hxf : x ≠ s.fresh := fun h => (F.links hb).2 (h ▸ hx)
      simp only [State.extend_heap, Function.update_of_ne hxf] at hy
      exact (H.symm (State.view_eq_some hb) (State.view_eq_some hy)).mp hx
  refine wp_bind (wp_store hE fun blk2 hb2 => ?_)
  have hlive : s.Live blk'.next := by
    intro x hx
    obtain ⟨y, hy⟩ := hafter x hx
    have hxf : x ≠ s.fresh := fun h => (F.links hb).2 (h ▸ hx)
    exact ⟨y, by simpa [hxf] using hy⟩
  obtain rfl : blk2 = { blk' with next := some s.fresh } := by
    simpa [linkIn, hbf, linkPrev, hnb, linkNext, hb, eq_comm] using hb2
  have hheap : Function.update (linkIn (Function.update s.heap s.fresh (some
      { stream := blk'.stream, pool := blk'.pool, mapped, size := blk'.size - k
        ptr := blk'.ptr + k, expandableSegment := blk'.expandableSegment })) s.fresh
      { stream := blk'.stream, pool := blk'.pool, mapped, size := blk'.size - k
        ptr := blk'.ptr + k, expandableSegment := blk'.expandableSegment } (some b) blk'.next) b
      (some { blk' with next := some s.fresh, size := k }) =
      cutBackHeap s.heap b blk' k s.fresh mapped := by
    funext x
    by_cases hxf : x = s.fresh
    · subst hxf
      simp [cutBackHeap, linkIn, hbf.symm]
    by_cases hxb : x = b
    · subst hxb
      simp [cutBackHeap, hxf]
    · simp [cutBackHeap, linkIn, hxf, hxb, linkPrev, linkNext, Ne.symm hxb]
  have hQ := h hlive
  rw [← hheap] at hQ
  exact hQ

theorem wp_cutFront
    (h : s.Live blk.prev → Q s.fresh (s.extend (cutFrontHeap s.heap b blk k s.fresh))) :
    wp (cutFront link b k blk.stream blk.pool) s Q E := by
  have hbf : b ≠ s.fresh := F.ne hb
  have hpb : blk.prev ≠ some b := H.prev_ne (State.view_eq_some hb)
  refine wp_bind (wp_deref hE fun blk' hb' => ?_)
  obtain rfl : blk' = blk := Option.some_inj.mp (hb'.symm.trans hb)
  refine wp_bind (wp_newBlock ?_)
  refine wp_bind (hlink _ _ _ _ _ _ _ hE (Function.update_self ..) ?gap fun hbefore _ => ?_)
  case gap =>
    refine ⟨(F.links hb).1, by simpa using hbf, ?_, ?_, ?_⟩
    · rintro x hx ⟨⟩
      exact hpb hx
    · intro x y hx hy
      have hxf : x ≠ s.fresh := fun h => (F.links hb).1 (h ▸ hx)
      simp only [State.extend_heap, Function.update_of_ne hxf] at hy
      exact (H.symm (State.view_eq_some hy) (State.view_eq_some hb)).mpr hx
    · rintro x y ⟨⟩ hy
      simp only [State.extend_heap, Function.update_of_ne hbf, hb, Option.some_inj] at hy
      rw [← hy]
  refine wp_bind (wp_store hE fun blk2 hb2 => ?_)
  have hlive : s.Live blk'.prev := by
    intro x hx
    obtain ⟨y, hy⟩ := hbefore x hx
    have hxf : x ≠ s.fresh := fun h => (F.links hb).1 (h ▸ hx)
    exact ⟨y, by simpa [hxf] using hy⟩
  obtain rfl : blk2 = { blk' with prev := some s.fresh } := by
    simpa [linkIn, hbf, linkPrev, hpb, linkNext, hb, eq_comm] using hb2
  have hheap : Function.update (linkIn (Function.update s.heap s.fresh (some
      { stream := blk'.stream, pool := blk'.pool, size := k
        ptr := blk'.ptr, expandableSegment := blk'.expandableSegment })) s.fresh
      { stream := blk'.stream, pool := blk'.pool, size := k
        ptr := blk'.ptr, expandableSegment := blk'.expandableSegment } blk'.prev (some b)) b
      (some { blk' with prev := some s.fresh, ptr := blk'.ptr + k, size := blk'.size - k }) =
      cutFrontHeap s.heap b blk' k s.fresh := by
    funext x
    by_cases hxf : x = s.fresh
    · subst hxf
      simp [cutFrontHeap, linkIn, hbf.symm]
    by_cases hxb : x = b
    · subst hxb
      simp [cutFrontHeap, hxf]
    · simp [cutFrontHeap, linkIn, hxf, hxb, linkPrev, linkNext, Ne.symm hxb]
  have hQ := h hlive
  rw [← hheap] at hQ
  exact hQ

end Cuts

/-! ### Merging -/

/-- The heap after `b` has been merged with the block before it. -/
def mergePrevHeap (heap : BlockId → Option Block) (b : BlockId) (blk : Block) (c : BlockId)
    (src : Block) (x : BlockId) : Option Block :=
  if x = c then none
  else if x = b then some { blk with ptr := src.ptr, size := blk.size + src.size, prev := src.prev }
  else linkNext heap src.prev b x

/-- The heap after `b` has been merged with the block after it. -/
def mergeNextHeap (heap : BlockId → Option Block) (b : BlockId) (blk : Block) (c : BlockId)
    (src : Block) (x : BlockId) : Option Block :=
  if x = c then none
  else if x = b then some { blk with size := blk.size + src.size, next := src.next }
  else linkPrev heap src.next b x

theorem mergePrevHeap_self {heap : BlockId → Option Block} {src : Block} (hcb : c ≠ b) :
    mergePrevHeap heap b blk c src b =
      some { blk with ptr := src.ptr, size := blk.size + src.size, prev := src.prev } := by
  rw [mergePrevHeap, if_neg hcb.symm, if_pos rfl]

theorem mergeNextHeap_self {heap : BlockId → Option Block} {src : Block} (hcb : c ≠ b) :
    mergeNextHeap heap b blk c src b =
      some { blk with size := blk.size + src.size, next := src.next } := by
  rw [mergeNextHeap, if_neg hcb.symm, if_pos rfl]

/-- The state after `c` has been merged into `b`. -/
def State.merge (s : State) (h : BlockId → Option Block) (pool : PoolId) (mapped : Bool)
    (c : BlockId) : State :=
  { s with
    heap := h
    blocks := if mapped then Function.update s.blocks pool (setErase c (s.blocks pool)) else s.blocks
    unmapped :=
      if mapped then s.unmapped else Function.update s.unmapped pool (setErase c (s.unmapped pool)) }

@[simp] theorem State.merge_heap {h : BlockId → Option Block} {m : Bool} :
    (s.merge h pool m c).heap = h := rfl

/-- `try_merge_blocks` goes ahead exactly when `src` is free and mapped as `dst` is. -/
def Mergeable (dst src : Block) : Prop :=
  src.allocated = false ∧ src.eventCount = 0 ∧ src.streamUses = [] ∧ dst.mapped = src.mapped

/-- What `try_merge_blocks` does with `b` and the block before it. -/
inductive MergePrev (b : BlockId) (blk : Block) (s : State) : ℕ → State → Prop
  | kept (hlive : s.Live blk.prev)
      (h : ∀ c src, blk.prev = some c → s.heap c = some src → ¬Mergeable blk src) :
      MergePrev b blk s 0 s
  | joined (c : BlockId) (src : Block) (hprev : blk.prev = some c) (hc : s.heap c = some src)
      (hm : Mergeable blk src) (hlive : s.Live src.prev) :
      MergePrev b blk s src.size (s.merge (mergePrevHeap s.heap b blk c src) blk.pool src.mapped c)

/-- What `try_merge_blocks` does with `b` and the block after it. -/
inductive MergeNext (b : BlockId) (blk : Block) (s : State) : ℕ → State → Prop
  | kept (hlive : s.Live blk.next)
      (h : ∀ c src, blk.next = some c → s.heap c = some src → ¬Mergeable blk src) :
      MergeNext b blk s 0 s
  | joined (c : BlockId) (src : Block) (hnext : blk.next = some c) (hc : s.heap c = some src)
      (hm : Mergeable blk src) (hlive : s.Live src.next) :
      MergeNext b blk s src.size (s.merge (mergeNextHeap s.heap b blk c src) blk.pool src.mapped c)

theorem MergePrev.eq {n : ℕ} (h : MergePrev b blk s n s') :
    s' = { s with heap := s'.heap, blocks := s'.blocks, unmapped := s'.unmapped } := by
  cases h <;> rfl

theorem MergeNext.eq {n : ℕ} (h : MergeNext b blk s n s') :
    s' = { s with heap := s'.heap, blocks := s'.blocks, unmapped := s'.unmapped } := by
  cases h <;> rfl

/-- The test of `try_merge_blocks`. -/
theorem refuses_iff {dst src : Block} :
    (src.allocated || decide (0 < src.eventCount) || !src.streamUses.isEmpty ||
      dst.mapped != src.mapped) = true ↔ ¬Mergeable dst src := by
  simp only [Mergeable, Bool.or_eq_true, decide_eq_true_eq, Bool.not_eq_true', bne_iff_ne]
  rw [not_and_or, not_and_or, not_and_or, Bool.not_eq_false, Nat.pos_iff_ne_zero, or_assoc, or_assoc]
  simp

section Merges

variable {Q : ℕ → State → Prop} (hE : ∀ s, E .badPointer s) (H : Linked s.view)
  (hb : s.heap b = some blk)
include hE H hb

theorem wp_tryMergePrev (h : ∀ n s', MergePrev b blk s n s' → Q n s') :
    wp (tryMergeBlocks b blk.prev blk.pool) s Q E := by
  unfold tryMergeBlocks
  cases hprev : blk.prev with
  | none => exact wp_pure (h 0 s (.kept (by simp [State.Live, hprev]) (by simp [hprev])))
  | some c =>
    refine wp_bind (wp_deref hE fun src hc => wp_bind (wp_deref hE fun blk' hb' => ?_))
    obtain rfl : blk' = blk := Option.some_inj.mp (hb'.symm.trans hb)
    refine wp_ite (fun hm => wp_pure (h 0 s (.kept ?_ ?_))) fun hm => ?_
    · intro x hx
      exact ⟨src, Option.some_inj.mp (hprev.symm.trans hx) ▸ hc⟩
    · intro c' src' hc' hsrc'
      obtain rfl : c = c' := Option.some_inj.mp (hprev.symm.trans hc')
      obtain rfl : src = src' := Option.some_inj.mp (hc.symm.trans hsrc')
      exact refuses_iff.mp hm
    rw [refuses_iff, not_not] at hm
    have hcb : c ≠ b := fun h => H.prev_ne (State.view_eq_some hb) (h ▸ hprev)
    have hloop : src.prev ≠ some b :=
      H.prev_prev_ne (State.view_eq_some hb) (State.view_eq_some hc) hprev
    have hnext : src.next = some b :=
      (H.symm (State.view_eq_some hc) (State.view_eq_some hb)).mpr hprev
    refine wp_bind (wp_assert (fun _ => ?_) fun hfalse => ?_)
    swap
    · simp [Block.isSplit, hprev, hnext] at hfalse
    refine wp_ite (fun _ => ?_) fun hne => absurd hprev hne
    refine wp_bind (wp_store hE fun blk1 hb1 => ?_)
    obtain rfl : blk1 = blk' := Option.some_inj.mp (hb1.symm.trans hb)
    refine wp_bind (wp_setNext hE fun hlive => ?_)
    refine wp_bind (wp_store hE fun blk2 hb2 => ?_)
    obtain rfl : blk2 = { blk1 with ptr := src.ptr, prev := src.prev } := by
      simpa [linkNext, hloop, eq_comm] using hb2
    have hheap : Function.update (Function.update (linkNext (Function.update s.heap b
        (some { blk1 with ptr := src.ptr, prev := src.prev })) src.prev b) b
        (some { blk1 with ptr := src.ptr, prev := src.prev, size := blk1.size + src.size })) c none =
        mergePrevHeap s.heap b blk1 c src := by
      funext x
      by_cases hxc : x = c
      · simp [mergePrevHeap, hxc]
      by_cases hxb : x = b
      · simp [mergePrevHeap, hxb, hcb.symm]
      · simp [mergePrevHeap, linkNext, hxc, hxb]
    have hlive' : s.Live src.prev := by
      intro x hx
      obtain ⟨y, hy⟩ := hlive x hx
      have hxb : x ≠ b := fun h => hloop (h ▸ hx)
      exact ⟨y, by simpa [hxb] using hy⟩
    have hQ := h _ _ (.joined c src hprev hc hm hlive')
    rw [← hheap] at hQ
    cases hmap : src.mapped with
    | true =>
      rw [hmap] at hQ
      exact wp_bind (wp_modify (wp_bind (wp_modify (wp_pure hQ))))
    | false =>
      rw [hmap] at hQ
      exact wp_bind (wp_modify (wp_bind (wp_modify (wp_pure hQ))))

theorem wp_tryMergeNext (h : ∀ n s', MergeNext b blk s n s' → Q n s') :
    wp (tryMergeBlocks b blk.next blk.pool) s Q E := by
  unfold tryMergeBlocks
  cases hnext : blk.next with
  | none => exact wp_pure (h 0 s (.kept (by simp [State.Live, hnext]) (by simp [hnext])))
  | some c =>
    refine wp_bind (wp_deref hE fun src hc => wp_bind (wp_deref hE fun blk' hb' => ?_))
    obtain rfl : blk' = blk := Option.some_inj.mp (hb'.symm.trans hb)
    refine wp_ite (fun hm => wp_pure (h 0 s (.kept ?_ ?_))) fun hm => ?_
    · intro x hx
      exact ⟨src, Option.some_inj.mp (hnext.symm.trans hx) ▸ hc⟩
    · intro c' src' hc' hsrc'
      obtain rfl : c = c' := Option.some_inj.mp (hnext.symm.trans hc')
      obtain rfl : src = src' := Option.some_inj.mp (hc.symm.trans hsrc')
      exact refuses_iff.mp hm
    rw [refuses_iff, not_not] at hm
    have hcb : c ≠ b := fun h => H.next_ne (State.view_eq_some hb) (h ▸ hnext)
    have hloop : src.next ≠ some b :=
      H.next_next_ne (State.view_eq_some hb) (State.view_eq_some hc) hnext
    have hprev : src.prev = some b :=
      (H.symm (State.view_eq_some hb) (State.view_eq_some hc)).mp hnext
    have hprev' : blk'.prev ≠ some c := fun h =>
      hloop ((H.symm (State.view_eq_some hc) (State.view_eq_some hb)).mpr h)
    refine wp_bind (wp_assert (fun _ => ?_) fun hfalse => ?_)
    swap
    · simp [Block.isSplit, hprev, hnext] at hfalse
    refine wp_ite (fun heq => absurd heq hprev') fun _ => ?_
    refine wp_bind (wp_store hE fun blk1 hb1 => ?_)
    obtain rfl : blk1 = blk' := Option.some_inj.mp (hb1.symm.trans hb)
    refine wp_bind (wp_setPrev hE fun hlive => ?_)
    refine wp_bind (wp_store hE fun blk2 hb2 => ?_)
    obtain rfl : blk2 = { blk1 with next := src.next } := by
      simpa [linkPrev, hloop, eq_comm] using hb2
    have hheap : Function.update (Function.update (linkPrev (Function.update s.heap b
        (some { blk1 with next := src.next })) src.next b) b
        (some { blk1 with next := src.next, size := blk1.size + src.size })) c none =
        mergeNextHeap s.heap b blk1 c src := by
      funext x
      by_cases hxc : x = c
      · simp [mergeNextHeap, hxc]
      by_cases hxb : x = b
      · simp [mergeNextHeap, hxb, hcb.symm]
      · simp [mergeNextHeap, linkPrev, hxc, hxb]
    have hlive' : s.Live src.next := by
      intro x hx
      obtain ⟨y, hy⟩ := hlive x hx
      have hxb : x ≠ b := fun h => hloop (h ▸ hx)
      exact ⟨y, by simpa [hxb] using hy⟩
    have hQ := h _ _ (.joined c src hnext hc hm hlive')
    rw [← hheap] at hQ
    cases hmap : src.mapped with
    | true =>
      rw [hmap] at hQ
      exact wp_bind (wp_modify (wp_bind (wp_modify (wp_pure hQ))))
    | false =>
      rw [hmap] at hQ
      exact wp_bind (wp_modify (wp_bind (wp_modify (wp_pure hQ))))

end Merges

/-! ### The steps on tilings -/

theorem view_linkPrev (heap : BlockId → Option Block) (o : Option BlockId) (c x : BlockId) :
    (linkPrev heap o c x).map Block.piece =
      match (heap x).map Block.piece with
      | none => none
      | some q => some { q with prev := if o = some x then some c else q.prev } := by
  rw [linkPrev]
  cases heap x with
  | none => simp
  | some blk => split_ifs <;> rfl

theorem view_linkNext (heap : BlockId → Option Block) (o : Option BlockId) (c x : BlockId) :
    (linkNext heap o c x).map Block.piece =
      match (heap x).map Block.piece with
      | none => none
      | some q => some { q with next := if o = some x then some c else q.next } := by
  rw [linkNext]
  cases heap x with
  | none => simp
  | some blk => split_ifs <;> rfl

theorem info_linkPrev (heap : BlockId → Option Block) (o : Option BlockId) (c x : BlockId) :
    (linkPrev heap o c x).map Block.info = (heap x).map Block.info := by
  rw [linkPrev]
  cases heap x with
  | none => simp
  | some blk => split_ifs <;> rfl

theorem info_linkNext (heap : BlockId → Option Block) (o : Option BlockId) (c x : BlockId) :
    (linkNext heap o c x).map Block.info = (heap x).map Block.info := by
  rw [linkNext]
  cases heap x with
  | none => simp
  | some blk => split_ifs <;> rfl

theorem view_cutBack {k : ℕ} {mapped : Bool} :
    (s.extend (cutBackHeap s.heap b blk k c mapped)).view =
      splitBack s.view b blk.piece k c (some mapped) := by
  funext x
  rw [State.view, State.extend_heap, cutBackHeap, splitBack]
  by_cases hxc : x = c
  · rw [if_pos hxc, if_pos hxc]
    rfl
  by_cases hxb : x = b
  · rw [if_neg hxc, if_neg hxc, if_pos hxb, if_pos hxb]
    rfl
  · rw [if_neg hxc, if_neg hxc, if_neg hxb, if_neg hxb]
    rw [view_linkPrev, State.view]
    cases s.heap x <;> rfl

theorem view_cutFront {k : ℕ} :
    (s.extend (cutFrontHeap s.heap b blk k c)).view =
      splitFront s.view b blk.piece k c (some true) := by
  funext x
  rw [State.view, State.extend_heap, cutFrontHeap, splitFront]
  by_cases hxc : x = c
  · rw [if_pos hxc, if_pos hxc]
    rfl
  by_cases hxb : x = b
  · rw [if_neg hxc, if_neg hxc, if_pos hxb, if_pos hxb]
    rfl
  · rw [if_neg hxc, if_neg hxc, if_neg hxb, if_neg hxb]
    rw [view_linkNext, State.view]
    cases s.heap x <;> rfl

theorem info_cutBack {k : ℕ} {mapped : Bool} (hb : s.heap b = some blk) (x : BlockId) :
    (s.extend (cutBackHeap s.heap b blk k c mapped)).info x =
      if x = c then some ⟨blk.pool, false, mapped, 0, [], blk.expandableSegment.isSome⟩ else s.info x := by
  rw [State.info, State.extend_heap, cutBackHeap]
  split_ifs with hxc hxb
  · rfl
  · subst hxb
    rw [State.info, hb]
    rfl
  · exact info_linkPrev s.heap blk.next c x

theorem info_cutFront {k : ℕ} (hb : s.heap b = some blk) (x : BlockId) :
    (s.extend (cutFrontHeap s.heap b blk k c)).info x =
      if x = c then some ⟨blk.pool, false, true, 0, [], blk.expandableSegment.isSome⟩ else s.info x := by
  rw [State.info, State.extend_heap, cutFrontHeap]
  split_ifs with hxc hxb
  · rfl
  · subst hxb
    rw [State.info, hb]
    rfl
  · exact info_linkNext s.heap blk.prev c x

theorem view_mergePrev {src : Block} {m : Bool} :
    (s.merge (mergePrevHeap s.heap b blk c src) pool m c).view =
      mergePrev s.view b blk.piece c src.piece := by
  funext x
  rw [State.view, State.merge_heap, mergePrevHeap, mergePrev]
  by_cases hxc : x = c
  · rw [if_pos hxc, if_pos hxc]
    rfl
  by_cases hxb : x = b
  · rw [if_neg hxc, if_neg hxc, if_pos hxb, if_pos hxb]
    rfl
  · rw [if_neg hxc, if_neg hxc, if_neg hxb, if_neg hxb]
    rw [view_linkNext, State.view]
    cases s.heap x <;> rfl

theorem view_mergeNext {src : Block} {m : Bool} :
    (s.merge (mergeNextHeap s.heap b blk c src) pool m c).view =
      mergeNext s.view b blk.piece c src.piece := by
  funext x
  rw [State.view, State.merge_heap, mergeNextHeap, mergeNext]
  by_cases hxc : x = c
  · rw [if_pos hxc, if_pos hxc]
    rfl
  by_cases hxb : x = b
  · rw [if_neg hxc, if_neg hxc, if_pos hxb, if_pos hxb]
    rfl
  · rw [if_neg hxc, if_neg hxc, if_neg hxb, if_neg hxb]
    rw [view_linkPrev, State.view]
    cases s.heap x <;> rfl

theorem info_mergePrev {src : Block} {m : Bool} (hb : s.heap b = some blk) (x : BlockId) :
    (s.merge (mergePrevHeap s.heap b blk c src) pool m c).info x =
      if x = c then none else s.info x := by
  rw [State.info, State.merge_heap, mergePrevHeap]
  split_ifs with hxc hxb
  · rfl
  · subst hxb
    rw [State.info, hb]
    rfl
  · exact info_linkNext s.heap src.prev b x

theorem info_mergeNext {src : Block} {m : Bool} (hb : s.heap b = some blk) (x : BlockId) :
    (s.merge (mergeNextHeap s.heap b blk c src) pool m c).info x =
      if x = c then none else s.info x := by
  rw [State.info, State.merge_heap, mergeNextHeap]
  split_ifs with hxc hxb
  · rfl
  · subst hxb
    rw [State.info, hb]
    rfl
  · exact info_linkPrev s.heap src.next b x

end TorchNpu.Allocator
