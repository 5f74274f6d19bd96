/-
  What the ring buffer delivers.

  Numbers of reservations do not wrap; `reserved.length`, `pushed.length` and `popped.length` are what the
  three indices count.  The elements whose numbers lie between the pops and the reservations have slots of
  their own as long as there is room, and a count of publications says which elements are in their slots as
  long as the elements are published in the order of their reservations.  The buffer guarantees neither: a
  thread may test for room with a read index that is out of date, and threads may publish in any order.
-/
import TorchNpu.Profiler.RingBuffer
import TorchNpu.Lib.Ring
import Mathlib.Algebra.Order.Ring.Nat

namespace TorchNpu.Profiler

variable {T : Type*}

/-- The element that a thread has reserved a slot for, and the index. -/
def PushPc.owns : PushPc T → Option (Element T × ℕ)
  | .assign element currWriteIndex | .publish element currWriteIndex => some (element, currWriteIndex)
  | .idle | .loadRead .. | .loadWrite .. | .exchange .. => none

namespace RingBuffer

variable {s s' : RingBuffer T} {k : ℕ}

/-! ### What is claimed -/

/-- Every `Pop` that returned an element returned one that had been assigned, and no element was returned
twice or overwritten; and an element whose `Push` returned true is returned once enough calls of `Pop` are
made. -/
structure Delivers (s : RingBuffer T) : Prop where
  complete : ∀ data ∈ s.popped, data ≠ none
  once : s.popped.Nodup
  kept : s.overwritten = []
  delivered : ∀ element ∈ s.pushed, ∃ steps t,
    Machine.run next s (List.replicate steps .consumer) = some t ∧ some element ∈ t.popped

/-- The condition on a step of a thread that is at the given place of `Push`. -/
def CarefulAt (s : RingBuffer T) (weak : Bool) : PushPc T → Prop
  | .exchange _ _ currWriteIndex => s.idleWriteIndex = currWriteIndex ∧ ¬weak →
    (s.idleWriteIndex + 2 ^ 64 - s.readIndex) % 2 ^ 64 + 1 < s.capacity
  | .publish _ currWriteIndex => currWriteIndex = s.writeIndex
  | .idle | .loadRead .. | .loadWrite .. | .assign .. => True

instance (s : RingBuffer T) (weak : Bool) : DecidablePred (s.CarefulAt weak)
  | .exchange _ _ _ => inferInstanceAs (Decidable (_ → _))
  | .publish _ _ => inferInstanceAs (Decidable (_ = _))
  | .idle | .loadRead .. | .loadWrite .. | .assign .. => isTrue trivial

/-- The condition on a step.  A reservation is made while the buffer still has room, and elements are
published in the order of their reservations. -/
def Careful (s : RingBuffer T) : Label T → Prop
  | .producer i weak => s.CarefulAt weak (s.producers i)
  | .push _ _ | .consumer => True

instance (s : RingBuffer T) : DecidablePred s.Careful
  | .producer i weak => inferInstanceAs (Decidable (s.CarefulAt weak (s.producers i)))
  | .push _ _ | .consumer => isTrue trivial

/-! ### The invariant -/

/-- The element of a reservation. -/
def element (s : RingBuffer T) (t : ℕ) : Option (Element T) :=
  (s.reserved[t]?).map fun data => (t, data)

/-- How many elements have been moved out of their slots. -/
def taken (s : RingBuffer T) : ℕ :=
  match s.consumer with
  | .advance _ => s.popped.length + 1
  | .idle | .loadWrite _ | .take _ => s.popped.length

structure Inv (k : ℕ) (s : RingBuffer T) : Prop where
  capacity : s.capacity = 2 ^ k
  read : s.readIndex = s.popped.length % 2 ^ 64
  write : s.writeIndex = s.pushed.length % 2 ^ 64
  idle : s.idleWriteIndex = s.reserved.length % 2 ^ 64
  taken_le : s.taken ≤ s.pushed.length
  pushed_le : s.pushed.length ≤ s.reserved.length
  room : s.reserved.length < s.popped.length + 2 ^ k
  popped : s.popped = (List.range s.popped.length).map s.element
  pushed : ∀ e ∈ s.pushed, e.1 < s.pushed.length ∧ s.element e.1 = some e
  /-- What is in a slot. -/
  slot : ∀ j e, s.dataQueue j = some e → s.taken ≤ e.1 ∧ s.element e.1 = some e ∧ j = e.1 % 2 ^ k
  /-- What has been published is in its slot. -/
  filled : ∀ t, s.taken ≤ t → t < s.pushed.length → s.dataQueue (t % 2 ^ k) = s.element t
  owned : ∀ i e currWriteIndex, (s.producers i).owns = some (e, currWriteIndex) →
    s.pushed.length ≤ e.1 ∧ s.element e.1 = some e ∧ currWriteIndex = e.1 % 2 ^ 64
  assign : ∀ i e currWriteIndex, s.producers i = .assign e currWriteIndex → s.dataQueue (e.1 % 2 ^ k) = none
  publish : ∀ i e currWriteIndex, s.producers i = .publish e currWriteIndex →
    s.dataQueue (e.1 % 2 ^ k) = some e
  distinct : ∀ i j e e' x x', (s.producers i).owns = some (e, x) → (s.producers j).owns = some (e', x') →
    e.1 = e'.1 → i = j
  loadWrite : ∀ r, s.consumer = .loadWrite r → r = s.readIndex
  take : ∀ r, s.consumer = .take r → r = s.readIndex ∧ s.popped.length < s.pushed.length
  advance : ∀ data, s.consumer = .advance data → data = s.element s.popped.length
  overwritten : s.overwritten = []

theorem lt_of_element {t : ℕ} {e : Element T} (h : s.element t = some e) : t < s.reserved.length := by
  obtain ⟨data, hdata, -⟩ := Option.map_eq_some_iff.mp h
  exact (List.getElem?_eq_some_iff.mp hdata).1

theorem fst_of_element {t : ℕ} {e : Element T} (h : s.element t = some e) : e.1 = t := by
  obtain ⟨data, -, rfl⟩ := Option.map_eq_some_iff.mp h
  rfl

theorem exists_element {t : ℕ} (h : t < s.reserved.length) : ∃ e, s.element t = some e :=
  ⟨(t, s.reserved[t]), by rw [element, List.getElem?_eq_getElem h, Option.map_some]⟩

/-- Indices are used through the mask, which wraps as the capacity does. -/
theorem mod_land_mask (hcapacity : s.capacity = 2 ^ k) (hk : k < 64) (x : ℕ) :
    x % 2 ^ 64 &&& s.mask = x % 2 ^ k := by
  have hpos : 0 < 2 ^ k := Nat.two_pow_pos k
  have hlt : 2 ^ k < 2 ^ 64 := Nat.pow_lt_pow_right (by decide) hk
  have hmask : s.mask = 2 ^ k - 1 := by
    rw [mask, hcapacity, show 2 ^ k + (2 ^ 64 - 1) = 2 ^ k - 1 + 2 ^ 64 by omega, Nat.add_mod_right]
    exact Nat.mod_eq_of_lt (by omega)
  rw [hmask, Nat.and_two_pow_sub_one_eq_mod, Nat.mod_mod_of_dvd]
  exact Nat.pow_dvd_pow 2 hk.le

theorem increment_mod (n : ℕ) : increment (n % 2 ^ 64) = (n + 1) % 2 ^ 64 := by
  rw [increment, Nat.mod_add_mod]

theorem init_inv (k : ℕ) : Inv k ({ capacity := 2 ^ k } : RingBuffer T) where
  capacity := rfl
  read := rfl
  write := rfl
  idle := rfl
  taken_le := Nat.le_refl 0
  pushed_le := Nat.le_refl 0
  room := by simp
  popped := rfl
  pushed := nofun
  slot := nofun
  filled := nofun
  owned := nofun
  assign := nofun
  publish := nofun
  distinct := nofun
  loadWrite := nofun
  take := nofun
  advance := nofun
  overwritten := rfl

theorem popped_le_taken : s.popped.length ≤ s.taken := by
  rw [taken]
  split <;> omega

/-- Two elements that have not been popped have different slots. -/
theorem Inv.mod_ne (I : Inv k s) {t u : ℕ} (ht : s.popped.length ≤ t) (hu : u < s.reserved.length)
    (hne : t < u) : t % 2 ^ k ≠ u % 2 ^ k := by
  have hroom := I.room
  exact Ring.mod_ne_mod hne (by omega)

/-! ### The steps of `Push` -/

theorem owns_update {i j : ℕ} {pc : PushPc T} {x : Element T × ℕ}
    (h : (Function.update s.producers i pc j).owns = some x) :
    (j = i ∧ pc.owns = some x) ∨ (j ≠ i ∧ (s.producers j).owns = some x) := by
  by_cases hj : j = i
  · rw [hj, Function.update_self] at h
    exact .inl ⟨hj, h⟩
  · rw [Function.update_of_ne hj] at h
    exact .inr ⟨hj, h⟩

theorem eq_of_update {i j : ℕ} {pc pc' : PushPc T} (h : Function.update s.producers i pc j = pc') :
    (j = i ∧ pc = pc') ∨ (j ≠ i ∧ s.producers j = pc') := by
  by_cases hj : j = i
  · rw [hj, Function.update_self] at h
    exact .inl ⟨hj, h⟩
  · rw [Function.update_of_ne hj] at h
    exact .inr ⟨hj, h⟩

theorem Inv.owned_of_assign (I : Inv k s) {i x : ℕ} {e : Element T} (h : s.producers i = .assign e x) :
    s.pushed.length ≤ e.1 ∧ s.element e.1 = some e ∧ x = e.1 % 2 ^ 64 :=
  I.owned i e x (by rw [h]; rfl)

theorem Inv.owned_of_publish (I : Inv k s) {i x : ℕ} {e : Element T} (h : s.producers i = .publish e x) :
    s.pushed.length ≤ e.1 ∧ s.element e.1 = some e ∧ x = e.1 % 2 ^ 64 :=
  I.owned i e x (by rw [h]; rfl)

/-- A thread goes to a place where it has no slot. -/
theorem Inv.goTo (I : Inv k s) (i : ℕ) (pc : PushPc T) (hpc : pc.owns = none) :
    Inv k { s with producers := Function.update s.producers i pc } :=
  { I with
    owned := by
      intro j e x hj
      rcases owns_update hj with ⟨-, h⟩ | ⟨-, h⟩
      · exact absurd (hpc.symm.trans h) nofun
      · exact I.owned j e x h
    assign := by
      intro j e x hj
      rcases eq_of_update hj with ⟨-, rfl⟩ | ⟨-, h⟩
      · cases hpc
      · exact I.assign j e x h
    publish := by
      intro j e x hj
      rcases eq_of_update hj with ⟨-, rfl⟩ | ⟨-, h⟩
      · cases hpc
      · exact I.publish j e x h
    distinct := by
      intro j j' e e' x x' hj hj' heq
      rcases owns_update hj with ⟨-, h⟩ | ⟨-, h⟩
      · exact absurd (hpc.symm.trans h) nofun
      rcases owns_update hj' with ⟨-, h'⟩ | ⟨-, h'⟩
      · exact absurd (hpc.symm.trans h') nofun
      exact I.distinct j j' e e' x x' h h' heq }

/-- An element of an earlier reservation. -/
theorem element_reserve {t : ℕ} {data : T} {e : Element T} (h : s.element t = some e) :
    ((s.reserved ++ [data])[t]?).map (fun data => (t, data)) = some e := by
  rw [List.getElem?_append_left (lt_of_element h)]
  exact h

theorem Inv.reserve (I : Inv k s) (i : ℕ) (data : T) (hroom : s.reserved.length + 1 < s.popped.length + 2 ^ k) :
    Inv k { s with
      producers := Function.update s.producers i (.assign (s.reserved.length, data) s.idleWriteIndex)
      idleWriteIndex := increment s.idleWriteIndex
      reserved := s.reserved ++ [data] } := by
  have hself : ((s.reserved ++ [data])[s.reserved.length]?).map (fun d => (s.reserved.length, d)) =
      some (s.reserved.length, data) := by
    simp
  have hpushed := I.pushed_le
  -- The slot of the new element belongs to no element that has not been popped.
  have hfree : s.dataQueue (s.reserved.length % 2 ^ k) = none := by
    by_contra hsome
    obtain ⟨e, he⟩ := Option.ne_none_iff_exists'.mp hsome
    obtain ⟨htaken, helement, hmod⟩ := I.slot _ e he
    have hlt := lt_of_element helement
    have hle := popped_le_taken (s := s)
    have hroom := I.room
    exact Ring.mod_ne_mod hlt (by omega) hmod.symm
  have hold : ∀ t u, t < s.reserved.length → t = u →
      ((s.reserved ++ [data])[t]?).map (fun d => (t, d)) = s.element u := by
    rintro t _ ht rfl
    obtain ⟨e, he⟩ := exists_element ht
    rw [he]
    exact element_reserve he
  refine
    { I with
      idle := ?_
      pushed_le := ?_
      room := ?_
      popped := ?_
      pushed := ?_
      slot := ?_
      filled := ?_
      owned := ?_
      assign := ?_
      publish := ?_
      distinct := ?_
      advance := ?_ }
  · rw [I.idle, increment_mod, List.length_append]
    rfl
  · rw [List.length_append]
    exact Nat.le_succ_of_le hpushed
  · rw [List.length_append]
    exact hroom
  · refine I.popped.trans (List.map_congr_left fun t ht => ?_)
    have hlt : t < s.popped.length := List.mem_range.mp ht
    have hle := popped_le_taken (s := s)
    have hle' := I.taken_le
    exact (hold t t (by omega) rfl).symm
  · intro e he
    obtain ⟨hlt, helement⟩ := I.pushed e he
    exact ⟨hlt, element_reserve helement⟩
  · intro j e he
    obtain ⟨htaken, helement, hmod⟩ := I.slot j e he
    exact ⟨htaken, element_reserve helement, hmod⟩
  · intro t ht hlt
    rw [I.filled t ht hlt]
    exact (hold t t (Nat.lt_of_lt_of_le hlt hpushed) rfl).symm
  · intro j e x hj
    rcases owns_update hj with ⟨-, h⟩ | ⟨-, h⟩
    · cases h
      exact ⟨hpushed, hself, I.idle⟩
    · obtain ⟨hle, helement, hx⟩ := I.owned j e x h
      exact ⟨hle, element_reserve helement, hx⟩
  · intro j e x hj
    rcases eq_of_update hj with ⟨-, h⟩ | ⟨-, h⟩
    · cases h
      exact hfree
    · exact I.assign j e x h
  · intro j e x hj
    rcases eq_of_update hj with ⟨-, h⟩ | ⟨-, h⟩
    · cases h
    · exact I.publish j e x h
  · intro j j' e e' x x' hj hj' heq
    rcases owns_update hj with ⟨hj, h⟩ | ⟨hj, h⟩
    · rcases owns_update hj' with ⟨hj', h'⟩ | ⟨hj', h'⟩
      · rw [hj, hj']
      · cases h
        exact absurd (lt_of_element (I.owned j' e' x' h').2.1) (by rw [← heq]; exact Nat.lt_irrefl _)
    · rcases owns_update hj' with ⟨hj', h'⟩ | ⟨hj', h'⟩
      · cases h'
        exact absurd (lt_of_element (I.owned j e x h).2.1) (by rw [heq]; exact Nat.lt_irrefl _)
      · exact I.distinct j j' e e' x x' h h' heq
  · intro d hd
    rw [I.advance d hd]
    have htaken : s.taken = s.popped.length + 1 := by
      rw [taken]
      have hd' : s.consumer = .advance d := hd
      rw [hd']
    have hle := I.taken_le
    exact (hold _ _ (by omega) rfl).symm

/-- The number of reservations that have not been popped, from the indices. -/
theorem Inv.sub_mod (I : Inv k s) (hk : k < 64) :
    (s.idleWriteIndex + 2 ^ 64 - s.readIndex) % 2 ^ 64 = s.reserved.length - s.popped.length := by
  have hlt : 2 ^ k < 2 ^ 64 := Nat.pow_lt_pow_right (by decide) hk
  have hroom := I.room
  have hle := popped_le_taken (s := s)
  have hle' := I.taken_le
  have hle'' := I.pushed_le
  rw [I.idle, I.read]
  omega

theorem Inv.assignSlot (I : Inv k s) (hk : k < 64) {i x : ℕ} {e : Element T}
    (hpc : s.producers i = .assign e x) : Inv k { s with
      producers := Function.update s.producers i (.publish e x)
      dataQueue := Function.update s.dataQueue (x &&& s.mask) (some e)
      overwritten := s.overwritten ++ (s.dataQueue (x &&& s.mask)).toList } := by
  obtain ⟨hpushed, helement, hx⟩ := I.owned_of_assign hpc
  have hslot : x &&& s.mask = e.1 % 2 ^ k := by
    rw [hx, mod_land_mask I.capacity hk]
  have hlt := lt_of_element helement
  have htaken := I.taken_le
  have hpopped := popped_le_taken (s := s)
  have hne : ∀ u, s.popped.length ≤ u → u < s.reserved.length → u ≠ e.1 → u % 2 ^ k ≠ e.1 % 2 ^ k := by
    intro u hu hu' hne
    rcases Nat.lt_or_gt_of_ne hne with h | h
    · exact I.mod_ne hu hlt h
    · exact (I.mod_ne (by omega) hu' h).symm
  rw [hslot, I.assign i e x hpc, Option.toList_none, List.append_nil]
  refine { I with slot := ?_, filled := ?_, owned := ?_, assign := ?_, publish := ?_, distinct := ?_ }
  · intro j e' he'
    by_cases hj : j = e.1 % 2 ^ k
    · dsimp only at he'
      rw [hj, Function.update_self] at he'
      cases he'
      exact ⟨htaken.trans hpushed, helement, hj⟩
    · dsimp only at he'
      rw [Function.update_of_ne hj] at he'
      exact I.slot j e' he'
  · intro t ht hlt'
    have hlt'' : t < s.pushed.length := hlt'
    have ht' : s.taken ≤ t := ht
    have hother := hne t (by omega) (by omega) (by omega)
    dsimp only
    rw [Function.update_of_ne hother]
    exact I.filled t ht hlt'
  · intro j e' x' hj
    rcases owns_update hj with ⟨-, h⟩ | ⟨-, h⟩
    · cases h
      exact I.owned_of_assign hpc
    · exact I.owned j e' x' h
  · intro j e' x' hj
    rcases eq_of_update hj with ⟨-, h⟩ | ⟨hji, h⟩
    · cases h
    · have hticket : e'.1 ≠ e.1 := fun heq =>
        hji (I.distinct j i e' e x' x (by rw [h]; rfl) (by rw [hpc]; rfl) heq)
      obtain ⟨hle, helement', -⟩ := I.owned_of_assign h
      have hother := hne e'.1 (by omega) (lt_of_element helement') hticket
      dsimp only
      rw [Function.update_of_ne hother]
      exact I.assign j e' x' h
  · intro j e' x' hj
    rcases eq_of_update hj with ⟨-, h⟩ | ⟨hji, h⟩
    · cases h
      exact Function.update_self ..
    · have hticket : e'.1 ≠ e.1 := fun heq =>
        hji (I.distinct j i e' e x' x (by rw [h]; rfl) (by rw [hpc]; rfl) heq)
      obtain ⟨hle, helement', -⟩ := I.owned_of_publish h
      have hother := hne e'.1 (by omega) (lt_of_element helement') hticket
      dsimp only
      rw [Function.update_of_ne hother]
      exact I.publish j e' x' h
  · intro j j' e₁ e₂ x₁ x₂ hj hj' heq
    have hown : ∀ j e₁ x₁, (Function.update s.producers i (.publish e x) j).owns = some (e₁, x₁) →
        (s.producers j).owns = some (e₁, x₁) := by
      intro j e₁ x₁ hj
      rcases owns_update hj with ⟨rfl, h⟩ | ⟨-, h⟩
      · rw [hpc]
        exact h
      · exact h
    exact I.distinct j j' e₁ e₂ x₁ x₂ (hown j e₁ x₁ hj) (hown j' e₂ x₂ hj') heq

/-- The element is the next one to be published. -/
theorem Inv.publishNext (I : Inv k s) (hk : k < 64) {i x : ℕ} {e : Element T}
    (hpc : s.producers i = .publish e x) (hx : x = s.writeIndex) : Inv k { s with
      producers := Function.update s.producers i .idle
      writeIndex := increment s.writeIndex
      pushed := s.pushed ++ [e] } := by
  obtain ⟨hpushed, helement, hx'⟩ := I.owned_of_publish hpc
  have hlt := lt_of_element helement
  have htaken := I.taken_le
  have hpopped := popped_le_taken (s := s)
  have hnext : e.1 = s.pushed.length := by
    have hmod : e.1 % 2 ^ 64 = s.pushed.length % 2 ^ 64 := by
      rw [← hx', hx, I.write]
    have hpow : 2 ^ k < 2 ^ 64 := Nat.pow_lt_pow_right (by decide) hk
    have hroom := I.room
    omega
  have J := I.goTo i .idle rfl
  refine { J with write := ?_, taken_le := ?_, pushed_le := ?_, pushed := ?_, filled := ?_, owned := ?_, take := ?_ }
  · rw [I.write, increment_mod, List.length_append]
    rfl
  · rw [List.length_append]
    exact Nat.le_succ_of_le htaken
  · rw [List.length_append]
    exact Nat.succ_le_of_lt (hnext ▸ hlt)
  · intro e' he'
    rw [List.length_append]
    rcases List.mem_append.mp he' with he' | he'
    · obtain ⟨hlt', helement'⟩ := I.pushed e' he'
      exact ⟨Nat.lt_succ_of_lt hlt', helement'⟩
    · rw [List.mem_singleton.mp he']
      exact ⟨Nat.lt_succ_of_le hnext.le, helement⟩
  · intro t ht hlt'
    have hlt'' : t < s.pushed.length + 1 := by simpa using hlt'
    by_cases heq : t = e.1
    · subst heq
      exact (I.publish i e x hpc).trans helement.symm
    · exact I.filled t ht (by omega)
  · intro j e' x' hj
    obtain ⟨hle, helement', hx''⟩ := J.owned j e' x' hj
    refine ⟨?_, helement', hx''⟩
    have hji : j ≠ i := by
      rintro rfl
      dsimp only at hj
      rw [Function.update_self] at hj
      cases hj
    dsimp only at hj
    rw [Function.update_of_ne hji] at hj
    have hticket : e'.1 ≠ e.1 := fun heq => hji (I.distinct j i e' e x' x hj (by rw [hpc]; rfl) heq)
    have hle' : s.pushed.length ≤ e'.1 := hle
    rw [List.length_append, List.length_singleton]
    omega
  · intro r hr
    obtain ⟨hread, hlt'⟩ := I.take r hr
    rw [List.length_append]
    exact ⟨hread, Nat.lt_succ_of_lt hlt'⟩

/-! ### The steps of `Pop` -/

theorem Inv.takeSlot (I : Inv k s) (hk : k < 64) {r : ℕ} (hpc : s.consumer = .take r) : Inv k { s with
      consumer := .advance (s.dataQueue (r &&& s.mask))
      dataQueue := Function.update s.dataQueue (r &&& s.mask) none } := by
  obtain ⟨hread, hlt⟩ := I.take r hpc
  have htaken : s.taken = s.popped.length := by
    rw [taken, hpc]
  have hpushed := I.pushed_le
  have hslot : r &&& s.mask = s.popped.length % 2 ^ k := by
    rw [hread, I.read, mod_land_mask I.capacity hk]
  have hne : ∀ u, s.popped.length < u → u < s.reserved.length → u % 2 ^ k ≠ s.popped.length % 2 ^ k :=
    fun u hu hu' => (I.mod_ne (Nat.le_refl _) hu' hu).symm
  rw [hslot, I.filled s.popped.length htaken.le hlt]
  refine { I with
    taken_le := hlt, slot := ?_, filled := ?_, assign := ?_, publish := ?_, loadWrite := nofun, take := nofun,
    advance := ?_ }
  · intro j e he
    by_cases hj : j = s.popped.length % 2 ^ k
    · dsimp only at he
      rw [hj, Function.update_self] at he
      cases he
    · dsimp only at he
      rw [Function.update_of_ne hj] at he
      obtain ⟨hle, helement, hmod⟩ := I.slot j e he
      refine ⟨Nat.lt_of_le_of_ne (htaken ▸ hle) fun heq => hj ?_, helement, hmod⟩
      rw [hmod, heq]
  · intro t ht hlt'
    have ht' : s.popped.length < t := ht
    have hlt'' : t < s.pushed.length := hlt'
    dsimp only
    rw [Function.update_of_ne (hne t ht' (by omega))]
    exact I.filled t (by omega) hlt'
  · intro j e x hj
    obtain ⟨hle, helement, -⟩ := I.owned_of_assign hj
    dsimp only
    rw [Function.update_of_ne (hne e.1 (by omega) (lt_of_element helement))]
    exact I.assign j e x hj
  · intro j e x hj
    obtain ⟨hle, helement, -⟩ := I.owned_of_publish hj
    dsimp only
    rw [Function.update_of_ne (hne e.1 (by omega) (lt_of_element helement))]
    exact I.publish j e x hj
  · rintro data hdata
    cases hdata
    rfl

theorem Inv.advanceRead (I : Inv k s) {data : Option (Element T)} (hpc : s.consumer = .advance data) :
    Inv k { s with
      consumer := .idle
      readIndex := increment s.readIndex
      popped := s.popped ++ [data] } := by
  have htaken : s.taken = s.popped.length + 1 := by
    rw [taken, hpc]
  have hsame : taken { s with
      consumer := .idle, readIndex := increment s.readIndex, popped := s.popped ++ [data] } = s.taken := by
    rw [htaken, taken]
    exact List.length_append
  refine { I with
    read := ?_, taken_le := hsame ▸ I.taken_le, room := ?_, popped := ?_, slot := ?_, filled := ?_,
    loadWrite := nofun, take := nofun, advance := nofun }
  · rw [I.read, increment_mod, List.length_append]
    rfl
  · rw [List.length_append, List.length_singleton]
    exact Nat.lt_of_lt_of_le I.room (by omega)
  · rw [List.length_append, List.length_singleton, List.range_succ, List.map_append, List.map_singleton,
      I.advance data hpc]
    exact congrArg (· ++ [s.element s.popped.length]) I.popped
  · rw [hsame]
    exact I.slot
  · rw [hsame]
    exact I.filled

/-- The consumer goes to a place where it has taken nothing. -/
theorem Inv.consumerTo (I : Inv k s) (pc : PopPc T) (htaken : s.taken = s.popped.length)
    (hload : ∀ r, pc = .loadWrite r → r = s.readIndex)
    (htake : ∀ r, pc = .take r → r = s.readIndex ∧ s.popped.length < s.pushed.length)
    (hadvance : ∀ data, pc ≠ .advance data) : Inv k { s with consumer := pc } := by
  have hsame : taken { s with consumer := pc } = s.taken := by
    rw [htaken, taken]
    cases pc with
    | advance data => exact absurd rfl (hadvance data)
    | idle | loadWrite r | take r => rfl
  refine { I with
    taken_le := hsame ▸ I.taken_le, slot := ?_, filled := ?_, loadWrite := hload, take := htake
    advance := fun data hdata => absurd hdata (hadvance data) }
  · rw [hsame]
    exact I.slot
  · rw [hsame]
    exact I.filled

theorem Inv.stepPop (I : Inv k s) (hk : k < 64) : Inv k s.stepPop := by
  rw [RingBuffer.stepPop]
  split
  next hpc =>
    have htaken : s.taken = s.popped.length := by
      rw [taken, hpc]
    exact I.consumerTo _ htaken (fun r hr => by cases hr; rfl) nofun nofun
  next r hpc =>
    have htaken : s.taken = s.popped.length := by
      rw [taken, hpc]
    have hread := I.loadWrite r hpc
    split_ifs with hempty
    · exact I.consumerTo _ htaken nofun nofun nofun
    · refine I.consumerTo _ htaken nofun (fun r' hr' => ?_) nofun
      cases hr'
      -- The buffer is not empty, since the two indices have different slots.
      rw [hread, I.read, I.write, mod_land_mask I.capacity hk, mod_land_mask I.capacity hk] at hempty
      have hle := I.taken_le
      have hne : s.popped.length ≠ s.pushed.length := fun heq => hempty (by rw [heq])
      exact ⟨hread, by omega⟩
  next r hpc => exact I.takeSlot hk hpc
  next data hpc => exact I.advanceRead hpc

theorem Inv.stepPush (I : Inv k s) (hk : k < 64) {i : ℕ} {weak : Bool}
    (hcareful : s.Careful (.producer i weak)) (h : s.stepPush i weak = some s') : Inv k s' := by
  rw [Careful] at hcareful
  rw [RingBuffer.stepPush] at h
  cases hpc : s.producers i with
  | idle =>
    rw [hpc] at h
    cases h
  | loadRead data cycles =>
    rw [hpc] at h
    dsimp only at h
    split_ifs at h
    · cases h
      exact I.goTo i _ rfl
    · cases h
      exact I.goTo i _ rfl
  | loadWrite data cycles currReadIndex =>
    rw [hpc] at h
    dsimp only at h
    split_ifs at h
    · cases h
      exact I.goTo i _ rfl
    · cases h
      exact I.goTo i _ rfl
  | exchange data cycles currWriteIndex =>
    rw [hpc] at h hcareful
    dsimp only at h
    split_ifs at h with hsuccess
    · cases h
      have hroom := hcareful hsuccess
      rw [I.sub_mod hk, I.capacity] at hroom
      obtain ⟨rfl, -⟩ := hsuccess
      exact I.reserve i data (by omega)
    · cases h
      exact I.goTo i _ rfl
  | assign element currWriteIndex =>
    rw [hpc] at h
    cases h
    exact I.assignSlot hk hpc
  | publish element currWriteIndex =>
    rw [hpc] at h hcareful
    cases h
    exact I.publishNext hk hpc hcareful

theorem Inv.next (I : Inv k s) (hk : k < 64) {l : Label T} (hcareful : s.Careful l)
    (h : s.next l = some s') : Inv k s' := by
  cases l with
  | push i data =>
    rw [RingBuffer.next] at h
    split at h
    next hpc =>
      cases h
      exact I.goTo i _ rfl
    next => cases h
  | producer i weak => exact I.stepPush hk hcareful h
  | consumer =>
    cases h
    exact I.stepPop hk

/-! ### Delivery -/

/-- The steps of the consumer alone pop one more element. -/
def Pops (s : RingBuffer T) : Prop :=
  ∃ n t, Machine.run RingBuffer.next s (List.replicate n .consumer) = some t ∧
    t.popped.length = s.popped.length + 1 ∧ t.pushed = s.pushed

theorem Pops.step (h : s.stepPop.Pops) (hpopped : s.stepPop.popped = s.popped)
    (hpushed : s.stepPop.pushed = s.pushed) : s.Pops := by
  obtain ⟨n, t, hrun, hlength, heq⟩ := h
  exact ⟨n + 1, t, hrun, by rw [hlength, hpopped], heq.trans hpushed⟩

theorem pops_of_advance {data : Option (Element T)} (hpc : s.consumer = .advance data) : s.Pops := by
  refine ⟨1, s.stepPop, rfl, ?_, ?_⟩
  · rw [stepPop, hpc]
    exact List.length_append
  · rw [stepPop, hpc]

theorem pops_of_take {r : ℕ} (hpc : s.consumer = .take r) : s.Pops := by
  have hstep : s.stepPop = { s with
      consumer := .advance (s.dataQueue (r &&& s.mask))
      dataQueue := Function.update s.dataQueue (r &&& s.mask) none } := by
    rw [stepPop, hpc]
  refine Pops.step ?_ (by rw [hstep]) (by rw [hstep])
  rw [hstep]
  exact pops_of_advance rfl

theorem Inv.pops_of_loadWrite (I : Inv k s) (hk : k < 64) (hlt : s.popped.length < s.pushed.length) {r : ℕ}
    (hpc : s.consumer = .loadWrite r) : s.Pops := by
  have hne : ¬r &&& s.mask = s.writeIndex &&& s.mask := by
    rw [I.loadWrite r hpc, I.read, I.write, mod_land_mask I.capacity hk, mod_land_mask I.capacity hk]
    have hpushed := I.pushed_le
    have hroom := I.room
    exact Ring.mod_ne_mod hlt (by omega)
  have hstep : s.stepPop = { s with consumer := .take r } := by
    rw [RingBuffer.stepPop, hpc]
    exact if_neg hne
  refine Pops.step ?_ (by rw [hstep]) (by rw [hstep])
  rw [hstep]
  exact pops_of_take rfl

/-- The consumer gets on to the next element when one has been published. -/
theorem Inv.pops (I : Inv k s) (hk : k < 64) (hlt : s.popped.length < s.pushed.length) : s.Pops := by
  cases hpc : s.consumer with
  | idle =>
    have hstep : s.stepPop = { s with consumer := .loadWrite s.readIndex } := by
      rw [RingBuffer.stepPop, hpc]
    refine Pops.step ?_ (by rw [hstep]) (by rw [hstep])
    have J : Inv k s.stepPop := I.stepPop hk
    rw [hstep] at J ⊢
    exact J.pops_of_loadWrite hk hlt rfl
  | loadWrite r => exact I.pops_of_loadWrite hk hlt hpc
  | take r => exact pops_of_take hpc
  | advance data => exact pops_of_advance hpc

theorem Inv.runConsumer (I : Inv k s) (hk : k < 64) {n : ℕ}
    (h : Machine.run RingBuffer.next s (List.replicate n .consumer) = some s') : Inv k s' := by
  induction n generalizing s with
  | zero =>
    cases h
    exact I
  | succ n ih =>
    have hrun : Machine.run RingBuffer.next s.stepPop (List.replicate n .consumer) = some s' := h
    exact ih (I.stepPop hk) hrun

/-- Enough steps of the consumer pop every element that has been published. -/
theorem Inv.exists_popped (I : Inv k s) (hk : k < 64) {t : ℕ} (ht : t < s.pushed.length) :
    ∃ n u, Machine.run RingBuffer.next s (List.replicate n .consumer) = some u ∧ Inv k u ∧
      t < u.popped.length ∧ u.pushed = s.pushed := by
  induction hn : t + 1 - s.popped.length generalizing s with
  | zero => exact ⟨0, s, rfl, I, by omega, rfl⟩
  | succ n ih =>
    obtain ⟨a, v, hrun, hlength, hpushed⟩ := I.pops hk (by omega)
    have J := I.runConsumer hk hrun
    obtain ⟨b, u, hrun', K, hlt, hpushed'⟩ := ih J (hpushed ▸ ht) (by omega)
    refine ⟨a + b, u, ?_, K, hlt, hpushed'.trans hpushed⟩
    rw [List.replicate_add, Machine.run_append]
    exact ⟨v, hrun, hrun'⟩

theorem Inv.delivers (I : Inv k s) (hk : k < 64) : s.Delivers := by
  have hlt : ∀ t ∈ List.range s.popped.length, t < s.reserved.length := by
    intro t ht
    have hle := popped_le_taken (s := s)
    have hle' := I.taken_le
    have hle'' := I.pushed_le
    have ht' := List.mem_range.mp ht
    omega
  refine ⟨fun data hdata => ?_, ?_, I.overwritten, fun e he => ?_⟩
  · rw [I.popped] at hdata
    obtain ⟨t, ht, rfl⟩ := List.mem_map.mp hdata
    obtain ⟨e, he⟩ := exists_element (hlt t ht)
    rw [he]
    exact Option.some_ne_none e
  · rw [I.popped]
    refine List.Nodup.map_on (fun t ht u hu heq => ?_) List.nodup_range
    obtain ⟨e, he⟩ := exists_element (hlt t ht)
    rw [← fst_of_element he, fst_of_element (heq ▸ he)]
  · obtain ⟨hpushed, -⟩ := I.pushed e he
    obtain ⟨n, u, hrun, K, hpopped, heq⟩ := I.exists_popped hk hpushed
    refine ⟨n, u, hrun, ?_⟩
    rw [K.popped, ← (K.pushed e (heq ▸ he)).2]
    exact List.mem_map_of_mem (List.mem_range.mpr hpopped)

/-- The buffer delivers what it was given in every run in which reservations are made while there is room
and elements are published in the order of their reservations, if its capacity is a power of two. -/
theorem delivers_of_careful {k : ℕ} (hk : k < 64) (ls : List (Label T))
    (hguard : Machine.Guarded next Careful { capacity := 2 ^ k } ls)
    (hrun : Machine.run next { capacity := 2 ^ k } ls = some s) : s.Delivers :=
  (Machine.guarded_run_induction (fun _ _ _ I hG h => I.next hk hG h) (init_inv k) hguard hrun).delivers hk

/-- Two threads that publish in the order of their reservations. -/
def twoPushes : List (Label ℕ) :=
  [.push 0 7, .push 1 8, .producer 0 false, .producer 0 false, .producer 0 false, .producer 1 false,
    .producer 1 false, .producer 1 false, .producer 1 false, .producer 0 false, .producer 0 false,
    .producer 1 false, .consumer, .consumer, .consumer, .consumer]

theorem delivers_twoPushes : ∃ s : RingBuffer ℕ, Machine.run next { capacity := 2 ^ 2 } twoPushes = some s ∧
    s.popped = [some (0, 7)] ∧ s.pushed = [(0, 7), (1, 8)] ∧ s.Delivers := by
  have hrun : (Machine.run next { capacity := 2 ^ 2 } twoPushes).any (fun s : RingBuffer ℕ =>
      decide (s.popped = [some (0, 7)] ∧ s.pushed = [(0, 7), (1, 8)])) = true := by
    decide +kernel
  obtain ⟨s, hs, hend⟩ := (Option.any_eq_true _ _).mp hrun
  obtain ⟨hpopped, hpushed⟩ := of_decide_eq_true hend
  exact ⟨s, hs, hpopped, hpushed, delivers_of_careful (by decide) twoPushes (by decide +kernel) hs⟩

/-- The second thread is faster than the first. -/
def overtaking : List (Label ℕ) :=
  [.push 0 7, .push 1 8, .producer 0 false, .producer 0 false, .producer 0 false, .producer 1 false,
    .producer 1 false, .producer 1 false, .producer 1 false, .producer 1 false, .consumer, .consumer,
    .consumer, .consumer]

/-- `Pop` returns the slot of the first thread, which is still empty. -/
theorem not_delivers_overtaking : ¬∀ (capacity : ℕ) (ls : List (Label ℕ)) (s : RingBuffer ℕ),
    Machine.run next { capacity } ls = some s → s.Delivers := by
  intro h
  have hrun : (Machine.run next { capacity := 4 } overtaking).any (fun s : RingBuffer ℕ =>
      decide (s.popped = [none])) = true := by
    decide +kernel
  obtain ⟨s, hs, hend⟩ := (Option.any_eq_true _ _).mp hrun
  have hdelivers := h 4 overtaking s hs
  refine hdelivers.complete none ?_ rfl
  rw [of_decide_eq_true hend]
  exact List.mem_singleton_self none

end RingBuffer

end TorchNpu.Profiler
