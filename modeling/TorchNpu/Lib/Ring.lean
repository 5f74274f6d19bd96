/-
  Circular buffers: a read and a write index below a capacity, each moving round the buffer one slot
  at a time.

  `slots cap r w` lists the slots from the read index `r` up to the write index `w`, in the order in
  which they are read.  A buffer whose indices are equal is empty, so one slot always stays unused.
-/
import Mathlib.Data.List.Infix
import Mathlib.Data.List.Nodup
import Mathlib.Data.Nat.ModEq

namespace TorchNpu

namespace Ring

variable {α : Type*} {cap r w v : ℕ}

/-- The index after `i`. -/
def next (cap i : ℕ) : ℕ :=
  (i + 1) % cap

/-- How many slots lie between the read index and the write index. -/
def pending (cap r w : ℕ) : ℕ :=
  if r ≤ w then w - r else w + cap - r

/-- The slots between the read index and the write index, the next one to read first. -/
def slots (cap r w : ℕ) : List ℕ :=
  (List.range (pending cap r w)).map fun k => (r + k) % cap

/-! ### The indices -/

theorem next_eq_ite (hr : r < cap) : next cap r = if r + 1 = cap then 0 else r + 1 := by
  rw [next]
  split_ifs with h
  · rw [h, Nat.mod_self]
  · exact Nat.mod_eq_of_lt (by omega)

theorem next_lt (hr : r < cap) : next cap r < cap :=
  Nat.mod_lt _ (by omega)

theorem next_ne_next (hr : r < cap) (hw : w < cap) (h : r ≠ w) : next cap r ≠ next cap w := by
  rw [next_eq_ite hr, next_eq_ite hw]
  split_ifs <;> omega

theorem pending_lt (hr : r < cap) (hw : w < cap) : pending cap r w < cap := by
  rw [pending]
  split_ifs <;> omega

theorem pending_eq_zero (hr : r < cap) : pending cap r w = 0 ↔ r = w := by
  rw [pending]
  split_ifs <;> omega

/-- The test for a full buffer. -/
theorem next_eq_iff (hr : r < cap) (hw : w < cap) :
    next cap w = r ↔ pending cap r w + 1 = cap := by
  rw [next_eq_ite hw, pending]
  split_ifs <;> omega

theorem pending_next_write (hr : r < cap) (hw : w < cap) (h : next cap w ≠ r) :
    pending cap r (next cap w) = pending cap r w + 1 := by
  rw [next_eq_ite hw] at h ⊢
  simp only [pending]
  split_ifs at h ⊢ <;> omega

theorem pending_next_read (hr : r < cap) (hw : w < cap) (h : r ≠ w) :
    pending cap (next cap r) w + 1 = pending cap r w := by
  rw [next_eq_ite hr]
  simp only [pending]
  split_ifs <;> omega

/-- Where there are two slots the next index is one step away. -/
theorem pending_next (hr : r < cap) (hw : w < cap) (h : r ≠ w) :
    pending cap r (next cap r) = 1 := by
  rw [next_eq_ite hr]
  simp only [pending]
  split_ifs <;> omega

/-- An index `v` on the way from `r` to `w` splits the way. -/
theorem pending_add (hr : r < cap) (hv : v < cap) (hw : w < cap)
    (h : pending cap r v ≤ pending cap r w) :
    pending cap r v + pending cap v w = pending cap r w := by
  simp only [pending] at h ⊢
  split_ifs at h ⊢ <;> omega

theorem add_pending_mod (hr : r < cap) (hw : w < cap) : (r + pending cap r w) % cap = w := by
  rw [pending]
  split_ifs with h
  · rw [Nat.add_sub_cancel' h, Nat.mod_eq_of_lt hw]
  · rw [show r + (w + cap - r) = w + cap by omega, Nat.add_mod_right, Nat.mod_eq_of_lt hw]

/-- Fewer than `cap` steps lead to another slot. -/
theorem mod_ne_mod {a b : ℕ} (hab : a < b) (hb : b < a + cap) : a % cap ≠ b % cap := by
  intro h
  have hdvd : cap ∣ b - a := (Nat.modEq_iff_dvd' hab.le).mp h
  have hle := Nat.le_of_dvd (by omega) hdvd
  omega

/-! ### The slots -/

@[simp]
theorem slots_self (r : ℕ) : slots cap r r = [] := by
  simp [slots, pending]

@[simp]
theorem length_slots : (slots cap r w).length = pending cap r w := by
  simp [slots]

theorem slots_append (hr : r < cap) (hv : v < cap) (hw : w < cap)
    (h : pending cap r v ≤ pending cap r w) :
    slots cap r w = slots cap r v ++ slots cap v w := by
  simp only [slots]
  rw [← pending_add hr hv hw h, List.range_add, List.map_append, List.map_map]
  congr 1
  apply List.map_congr_left
  intro k _
  -- slot `k` after `v` is slot `pending cap r v + k` after `r`
  calc (r + (pending cap r v + k)) % cap
      = ((r + pending cap r v) % cap + k) % cap := by rw [Nat.mod_add_mod, Nat.add_assoc]
    _ = (v + k) % cap := by rw [add_pending_mod hr hv]

theorem slots_next (hr : r < cap) (hw : w < cap) (h : r ≠ w) :
    slots cap r (next cap r) = [r] := by
  simp [slots, pending_next hr hw h, Nat.mod_eq_of_lt hr]

/-- A read takes the first slot away. -/
theorem slots_next_read (hr : r < cap) (hw : w < cap) (h : r ≠ w) :
    slots cap r w = r :: slots cap (next cap r) w := by
  have hpending := pending_next_read hr hw h
  rw [slots_append hr (next_lt hr) hw (by rw [pending_next hr hw h]; omega), slots_next hr hw h,
    List.singleton_append]

/-- A write adds its slot at the end. -/
theorem slots_next_write (hr : r < cap) (hw : w < cap) (h : next cap w ≠ r) :
    slots cap r (next cap w) = slots cap r w ++ [w] := by
  have hpending := pending_next_write hr hw h
  have hlt : pending cap r (next cap w) < cap := pending_lt hr (next_lt hw)
  have hne : w ≠ next cap w := by
    intro heq
    rw [← heq] at hpending
    omega
  rw [slots_append hr hw (next_lt hw) (by omega), slots_next hw (next_lt hw) hne]

/-- The slot the next write goes to is not waiting to be read. -/
theorem write_notMem_slots (hr : r < cap) (hw : w < cap) : w ∉ slots cap r w := by
  intro hmem
  obtain ⟨k, hk, hslot⟩ := List.mem_map.mp hmem
  rw [List.mem_range] at hk
  have hlt := pending_lt hr hw
  have hend := add_pending_mod hr hw
  -- `k` and `pending cap r w` are both below `cap`, so they lead to different slots
  have hmod : (r + k) % cap = (r + pending cap r w) % cap := hslot.trans hend.symm
  have hk' : k % cap = pending cap r w % cap := Nat.ModEq.add_left_cancel' r hmod
  rw [Nat.mod_eq_of_lt (by omega), Nat.mod_eq_of_lt hlt] at hk'
  omega

/-- The slots that wait to be read are different slots. -/
theorem nodup_slots (hr : r < cap) (hw : w < cap) : (slots cap r w).Nodup := by
  have hlt := pending_lt hr hw
  apply List.Nodup.map_on _ List.nodup_range
  intro k hk l hl heq
  rw [List.mem_range] at hk hl
  rcases Nat.lt_trichotomy k l with h | h | h
  · exact absurd heq (mod_ne_mod (by omega) (by omega))
  · exact h
  · exact absurd heq.symm (mod_ne_mod (by omega) (by omega))

/-- A slot that has been read does not wait any more. -/
theorem read_notMem_slots (hr : r < cap) (hw : w < cap) (h : r ≠ w) : r ∉ slots cap (next cap r) w := by
  have hnodup := nodup_slots hr hw
  rw [slots_next_read hr hw h, List.nodup_cons] at hnodup
  exact hnodup.1

/-- Overwriting the slot of the next write changes nothing that waits to be read. -/
theorem map_slots_update (hr : r < cap) (hw : w < cap) (data : ℕ → α) (x : α) :
    (slots cap r w).map (Function.update data w x) = (slots cap r w).map data := by
  apply List.map_congr_left
  intro i hi
  have hne : i ≠ w := fun heq => write_notMem_slots hr hw (heq ▸ hi)
  exact Function.update_of_ne hne x data

end Ring

end TorchNpu
