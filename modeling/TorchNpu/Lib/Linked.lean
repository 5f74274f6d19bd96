/-
  Linked pieces, without the geometry.

  Pieces may vanish without being unlinked.  `Linked h` says that links are symmetric and keep the tag as
  long as both ends are there, and that following them goes up in some order, so that a piece is never its
  own neighbour, nor the neighbour of its neighbour on the same side.  A link to a piece that is gone says
  nothing.

  The operations are those of `Tiling`.
-/
import Mathlib.Algebra.Order.Field.Rat
import Mathlib.Logic.Relation
import Mathlib.Tactic.Linarith
import TorchNpu.Lib.Tiling

namespace TorchNpu.Tiling

variable {ι τ κ : Type*}

/-- Links between pieces that are there are symmetric, keep the tag and go up in `rank`. -/
structure LinkedBy (h : ι → Option (Piece ι τ κ)) (rank : ι → ℚ) : Prop where
  symm : ∀ a p b q, h a = some p → h b = some q → (p.next = some b ↔ q.prev = some a)
  tag : ∀ a p b q, h a = some p → h b = some q → p.next = some b → p.tag = q.tag
  lt : ∀ a p b q, h a = some p → h b = some q → p.next = some b → rank a < rank b

def Linked (h : ι → Option (Piece ι τ κ)) : Prop :=
  ∃ rank, LinkedBy h rank

/-- Nothing points to `c`. -/
def Unreferenced (h : ι → Option (Piece ι τ κ)) (c : ι) : Prop :=
  ∀ a p, h a = some p → p.prev ≠ some c ∧ p.next ≠ some c

variable {h : ι → Option (Piece ι τ κ)} {rank : ι → ℚ} {b c : ι} {p q : Piece ι τ κ} {k : ℕ}
  {kind : Option κ}

theorem LinkedBy.next_ne (H : LinkedBy h rank) (hb : h b = some p) : p.next ≠ some b :=
  fun hn => lt_irrefl _ (H.lt b p b p hb hb hn)

theorem LinkedBy.prev_ne (H : LinkedBy h rank) (hb : h b = some p) : p.prev ≠ some b :=
  fun hn => H.next_ne hb ((H.symm b p b p hb hb).mpr hn)

theorem LinkedBy.next_next_ne (H : LinkedBy h rank) (hb : h b = some p) (hc : h c = some q)
    (hn : p.next = some c) : q.next ≠ some b :=
  fun hn' => lt_asymm (H.lt b p c q hb hc hn) (H.lt c q b p hc hb hn')

theorem LinkedBy.prev_prev_ne (H : LinkedBy h rank) (hb : h b = some p) (hc : h c = some q)
    (hn : p.prev = some c) : q.prev ≠ some b := by
  intro hn'
  exact H.next_next_ne hb hc ((H.symm b p c q hb hc).mpr hn') ((H.symm c q b p hc hb).mpr hn)

theorem Linked.next_ne (H : Linked h) (hb : h b = some p) : p.next ≠ some b :=
  H.elim fun _ H => H.next_ne hb

theorem Linked.prev_ne (H : Linked h) (hb : h b = some p) : p.prev ≠ some b :=
  H.elim fun _ H => H.prev_ne hb

theorem Linked.next_next_ne (H : Linked h) (hb : h b = some p) (hc : h c = some q)
    (hn : p.next = some c) : q.next ≠ some b :=
  H.elim fun _ H => H.next_next_ne hb hc hn

theorem Linked.prev_prev_ne (H : Linked h) (hb : h b = some p) (hc : h c = some q)
    (hn : p.prev = some c) : q.prev ≠ some b :=
  H.elim fun _ H => H.prev_prev_ne hb hc hn

theorem Linked.symm (H : Linked h) (hb : h b = some p) (hc : h c = some q) :
    p.next = some c ↔ q.prev = some b :=
  H.elim fun _ H => H.symm b p c q hb hc

theorem Linked.tag (H : Linked h) (hb : h b = some p) (hc : h c = some q) (hn : p.next = some c) :
    p.tag = q.tag :=
  H.elim fun _ H => H.tag b p c q hb hc hn

/-- There is room for a new rank between a piece and the piece after it. -/
theorem LinkedBy.exists_between (H : LinkedBy h rank) (hb : h b = some p)
    (hnext : ∀ n, p.next = some n → (h n).isSome = true) :
    ∃ r, rank b < r ∧ ∀ n, p.next = some n → r < rank n := by
  cases hn : p.next with
  | none => exact ⟨rank b + 1, by linarith, nofun⟩
  | some n =>
    obtain ⟨q, hq⟩ := Option.isSome_iff_exists.mp (hnext n hn)
    have hlt := H.lt b p n q hb hq hn
    refine ⟨(rank b + rank n) / 2, by linarith, ?_⟩
    rintro n' ⟨⟩
    linarith

/-- There is room for a new rank between a piece and the piece before it. -/
theorem LinkedBy.exists_between_prev (H : LinkedBy h rank) (hb : h b = some p)
    (hprev : ∀ n, p.prev = some n → (h n).isSome = true) :
    ∃ r, r < rank b ∧ ∀ n, p.prev = some n → rank n < r := by
  cases hn : p.prev with
  | none => exact ⟨rank b - 1, by linarith, nofun⟩
  | some n =>
    obtain ⟨q, hq⟩ := Option.isSome_iff_exists.mp (hprev n hn)
    have hlt := H.lt n q b p hq hb ((H.symm n q b p hq hb).mpr hn)
    refine ⟨(rank n + rank b) / 2, by linarith, ?_⟩
    rintro n' ⟨⟩
    linarith

/-! ### The operations -/

variable [DecidableEq ι]

theorem Linked.splitBack (H : Linked h) (hb : h b = some p) (hc : h c = none)
    (hun : Unreferenced h c) (hnext : ∀ n, p.next = some n → (h n).isSome = true) :
    Linked (splitBack h b p k c kind) := by
  obtain ⟨rank, H⟩ := H
  obtain ⟨r, hlo, hhi⟩ := H.exists_between hb hnext
  have hne := H.next_ne hb
  have hne' := H.prev_ne hb
  refine ⟨Function.update rank c r, ?_, ?_, ?_⟩
  · intro x u y v hx hy
    have h1 := fun q q' => H.symm x q y q'
    have h2 := fun q => H.symm b p y q hb
    have h3 := fun q => H.symm x q b p
    have h4 := hun x
    have h5 := hun y
    have h6 := hun b
    grind [Tiling.splitBack]
  · intro x u y v hx hy
    have h1 := fun q q' => H.tag x q y q'
    have h2 := fun q => H.tag b p y q hb
    have h3 := fun q => H.tag x q b p
    have h4 := hun x
    have h5 := hun y
    grind [Tiling.splitBack]
  · intro x u y v hx hy
    have h1 := fun q q' => H.lt x q y q'
    have h2 := fun q => H.lt b p y q hb
    have h3 := fun q => H.lt x q b p
    have h4 := hun x
    have h5 := hun y
    grind [Tiling.splitBack]

theorem Linked.splitFront (H : Linked h) (hb : h b = some p) (hc : h c = none)
    (hun : Unreferenced h c) (hprev : ∀ n, p.prev = some n → (h n).isSome = true) :
    Linked (splitFront h b p k c kind) := by
  obtain ⟨rank, H⟩ := H
  obtain ⟨r, hhi, hlo⟩ := H.exists_between_prev hb hprev
  have hne := H.next_ne hb
  have hne' := H.prev_ne hb
  refine ⟨Function.update rank c r, ?_, ?_, ?_⟩
  · intro x u y v hx hy
    have h1 := fun q q' => H.symm x q y q'
    have h2 := fun q => H.symm b p y q hb
    have h3 := fun q => H.symm x q b p
    have h4 := hun x
    have h5 := hun y
    have h6 := hun b
    grind [Tiling.splitFront]
  · intro x u y v hx hy
    have h0 := fun q q' => H.symm x q y q'
    have h1 := fun q q' => H.tag x q y q'
    have h2 := fun q => H.tag b p y q hb
    have h3 := fun q => H.tag x q b p
    have h4 := hun x
    have h5 := hun y
    have h6 := fun q => H.symm x q b p
    grind [Tiling.splitFront]
  · intro x u y v hx hy
    have h0 := fun q q' => H.symm x q y q'
    have h1 := fun q q' => H.lt x q y q'
    have h2 := fun q => H.lt b p y q hb
    have h3 := fun q => H.lt x q b p
    have h4 := hun x
    have h5 := hun y
    have h6 := fun q => H.symm x q b p
    grind [Tiling.splitFront]

theorem Linked.mergePrev (H : Linked h) (hb : h b = some p) (hc : h c = some q)
    (hprev : p.prev = some c) : Linked (mergePrev h b p c q) := by
  obtain ⟨rank, H⟩ := H
  have hne := H.next_ne hb
  have hne' := H.prev_ne hb
  have hloop := H.prev_prev_ne hb hc hprev
  have hnext := (H.symm c q b p hc hb).mpr hprev
  have hlt := H.lt c q b p hc hb hnext
  have htag := H.tag c q b p hc hb hnext
  refine ⟨rank, ?_, ?_, ?_⟩
  · intro x u y v hx hy
    cases hr : h x with
    | none => grind [Tiling.mergePrev]
    | some r =>
      cases hr' : h y with
      | none => grind [Tiling.mergePrev]
      | some r' =>
        have h1 := H.symm x r y r' hr hr'
        have h2 := H.symm b p y r' hb hr'
        have h3 := H.symm x r b p hr hb
        have h4 := H.symm c q y r' hc hr'
        have h5 := H.symm x r c q hr hc
        simp only [Tiling.mergePrev, hr, hr'] at hx hy
        clear H hlt htag
        grind
  · intro x u y v hx hy
    have h0 := fun r => H.symm x r c q
    have h1 := fun r r' => H.tag x r y r'
    have h2 := fun r => H.tag b p y r hb
    have h3 := fun r => H.tag x r b p
    have h5 := fun r => H.tag x r c q
    grind [Tiling.mergePrev]
  · intro x u y v hx hy
    have h0 := fun r => H.symm x r c q
    have h1 := fun r r' => H.lt x r y r'
    have h2 := fun r => H.lt b p y r hb
    have h3 := fun r => H.lt x r b p
    have h5 := fun r => H.lt x r c q
    grind [Tiling.mergePrev]

theorem Linked.mergeNext (H : Linked h) (hb : h b = some p) (hc : h c = some q)
    (hnext : p.next = some c) : Linked (mergeNext h b p c q) := by
  obtain ⟨rank, H⟩ := H
  have hne := H.next_ne hb
  have hne' := H.prev_ne hb
  have hloop := H.next_next_ne hb hc hnext
  have hprev := (H.symm b p c q hb hc).mp hnext
  have hlt := H.lt b p c q hb hc hnext
  have htag := H.tag b p c q hb hc hnext
  refine ⟨rank, ?_, ?_, ?_⟩
  · intro x u y v hx hy
    cases hr : h x with
    | none => grind [Tiling.mergeNext]
    | some r =>
      cases hr' : h y with
      | none => grind [Tiling.mergeNext]
      | some r' =>
        have h1 := H.symm x r y r' hr hr'
        have h2 := H.symm b p y r' hb hr'
        have h3 := H.symm x r b p hr hb
        have h4 := H.symm c q y r' hc hr'
        have h5 := H.symm x r c q hr hc
        simp only [Tiling.mergeNext, hr, hr'] at hx hy
        clear H hlt htag
        grind
  · intro x u y v hx hy
    have h1 := fun r r' => H.tag x r y r'
    have h2 := fun r => H.tag b p y r hb
    have h3 := fun r => H.tag x r b p
    have h5 := fun r => H.tag c q y r hc
    grind [Tiling.mergeNext]
  · intro x u y v hx hy
    have h1 := fun r r' => H.lt x r y r'
    have h2 := fun r => H.lt b p y r hb
    have h3 := fun r => H.lt x r b p
    have h5 := fun r => H.lt c q y r hc
    grind [Tiling.mergeNext]

omit [DecidableEq ι] in
/-- Pieces change without their links, or vanish. -/
theorem Linked.of_le {h' : ι → Option (Piece ι τ κ)} (H : Linked h)
    (hle : ∀ a p', h' a = some p' →
      ∃ p, h a = some p ∧ p'.prev = p.prev ∧ p'.next = p.next ∧ p'.tag = p.tag) : Linked h' := by
  obtain ⟨rank, H⟩ := H
  refine ⟨rank, ?_, ?_, ?_⟩
  · intro x u y v hx hy
    obtain ⟨p, hp, -, hpn, -⟩ := hle x u hx
    obtain ⟨q, hq, hqp, -, -⟩ := hle y v hy
    rw [hpn, hqp]
    exact H.symm x p y q hp hq
  · intro x u y v hx hy hxy
    obtain ⟨p, hp, -, hpn, hpt⟩ := hle x u hx
    obtain ⟨q, hq, -, -, hqt⟩ := hle y v hy
    rw [hpt, hqt]
    exact H.tag x p y q hp hq (hpn ▸ hxy)
  · intro x u y v hx hy hxy
    obtain ⟨p, hp, -, hpn, -⟩ := hle x u hx
    obtain ⟨q, hq, -⟩ := hle y v hy
    exact H.lt x p y q hp hq (hpn ▸ hxy)

/-- A piece of its own. -/
theorem Linked.add (H : Linked h) (hun : Unreferenced h c) (hprev : p.prev = none)
    (hnext : p.next = none) : Linked (Function.update h c (some p)) := by
  obtain ⟨rank, H⟩ := H
  refine ⟨rank, ?_, ?_, ?_⟩
  · intro x u y v hx hy
    have h1 := H.symm x u y v
    have h2 := hun x u
    have h3 := hun y v
    grind
  · intro x u y v hx hy
    have h1 := H.tag x u y v
    have h2 := hun x u
    grind
  · intro x u y v hx hy
    have h1 := H.lt x u y v
    have h2 := hun x u
    grind

/-! ### What points where -/

theorem Unreferenced.splitBack {x : ι} (H : Unreferenced h x) (hb : h b = some p) (hxb : x ≠ b)
    (hxc : x ≠ c) : Unreferenced (splitBack h b p k c kind) x := by
  intro y q hy
  have h1 := H y
  have h2 := H b p hb
  grind [Tiling.splitBack]

theorem Unreferenced.splitFront {x : ι} (H : Unreferenced h x) (hb : h b = some p) (hxb : x ≠ b)
    (hxc : x ≠ c) : Unreferenced (splitFront h b p k c kind) x := by
  intro y q hy
  have h1 := H y
  have h2 := H b p hb
  grind [Tiling.splitFront]

theorem Unreferenced.mergePrev {x : ι} (H : Unreferenced h x) (hb : h b = some p) (hc : h c = some q)
    (hxb : x ≠ b) : Unreferenced (mergePrev h b p c q) x := by
  intro y r hy
  have h1 := H y
  have h2 := H b p hb
  have h3 := H c q hc
  grind [Tiling.mergePrev]

theorem Unreferenced.mergeNext {x : ι} (H : Unreferenced h x) (hb : h b = some p) (hc : h c = some q)
    (hxb : x ≠ b) : Unreferenced (mergeNext h b p c q) x := by
  intro y r hy
  have h1 := H y
  have h2 := H b p hb
  have h3 := H c q hc
  grind [Tiling.mergeNext]

/-! ### Pieces that touch -/

/-- A piece begins where the piece before it ends. -/
def Abutting (h : ι → Option (Piece ι τ κ)) : Prop :=
  ∀ a p b q, h a = some p → h b = some q → p.next = some b → q.lo = p.lo + p.size

theorem Abutting.splitBack (A : Abutting h) (hb : h b = some p) (hun : Unreferenced h c) (hk : k ≤ p.size) :
    Abutting (splitBack h b p k c kind) := by
  intro x u y v hx hy hxy
  have h1 := A x
  have h2 := A b p y
  have h3 := hun x
  have h4 := hun b p hb
  grind [Tiling.splitBack]

theorem Abutting.splitFront (A : Abutting h) (H : Linked h) (hb : h b = some p) (hc : h c = none)
    (hun : Unreferenced h c) (hk : k ≤ p.size) : Abutting (splitFront h b p k c kind) := by
  intro x u y v hx hy hxy
  have h1 := A x
  have h2 := A b p y
  have h3 := hun x
  have h4 := hun b p hb
  have h5 (q) (hq : h x = some q) := H.symm hq hb
  have h6 := H.next_ne hb
  have h7 (q) (hq : h x = some q) (hn : p.prev = some x) := A x q b p hq hb ((H.symm hq hb).mpr hn)
  grind [Tiling.splitFront]

theorem Abutting.mergePrev (A : Abutting h) (H : Linked h) (hb : h b = some p) (hc : h c = some q)
    (hprev : p.prev = some c) : Abutting (mergePrev h b p c q) := by
  intro x u y v hx hy hxy
  have hcb : q.next = some b := (H.symm hc hb).mpr hprev
  have h1 := A x
  have h2 := A b p y
  have h3 := A c q b p hc hb hcb
  have h4 (r) (hr : h x = some r) := H.symm hr hb
  have h5 (r) (hr : h x = some r) := H.symm hr hc
  grind [Tiling.mergePrev]

theorem Abutting.mergeNext (A : Abutting h) (H : Linked h) (hb : h b = some p) (hc : h c = some q)
    (hnext : p.next = some c) : Abutting (mergeNext h b p c q) := by
  intro x u y v hx hy hxy
  have h1 := A x
  have h2 := A c q y
  have h3 := A b p c q hb hc hnext
  have h4 (r) (hr : h x = some r) := H.symm hr hc
  grind [Tiling.mergeNext]

omit [DecidableEq ι] in
theorem Abutting.of_le {h' : ι → Option (Piece ι τ κ)} (A : Abutting h)
    (hle : ∀ a p', h' a = some p' → ∃ p, h a = some p ∧ p'.lo = p.lo ∧ p'.size = p.size ∧ p'.next = p.next) :
    Abutting h' := by
  intro x u y v hx hy hxy
  obtain ⟨p, hp, hlo, hsize, hnext⟩ := hle x u hx
  obtain ⟨q, hq, hlo', -, -⟩ := hle y v hy
  rw [hlo', hlo, hsize]
  exact A x p y q hp hq (hnext ▸ hxy)

theorem Abutting.add (A : Abutting h) (hun : Unreferenced h c) (hnext : p.next = none) :
    Abutting (Function.update h c (some p)) := by
  intro x u y v hx hy hxy
  have h1 := A x
  have h2 := hun x
  grind

/-- `y` is reached from `x` by links to the next piece. -/
def Follows (h : ι → Option (Piece ι τ κ)) : ι → ι → Prop :=
  Relation.TransGen fun x y => ∃ p q, h x = some p ∧ h y = some q ∧ p.next = some y

omit [DecidableEq ι] in
/-- A piece ends before all that follow it begin. -/
theorem Abutting.le_of_follows (A : Abutting h) (hb : h b = some p) (hc : h c = some q) (hbc : Follows h b c) :
    p.lo + p.size ≤ q.lo := by
  induction hbc generalizing q with
  | single hstep =>
    obtain ⟨p', q', hp', hq', hn⟩ := hstep
    have heq := A _ _ _ _ hp' hq' hn
    grind
  | tail hrest hstep ih =>
    obtain ⟨r, q', hr, hq', hn⟩ := hstep
    have hle := ih hr
    have heq := A _ _ _ _ hr hq' hn
    grind

end TorchNpu.Tiling
