/-
  Reading a byte buffer with a record of every access.

  `Traced α` is a computation over one buffer that reports the byte ranges it touches, in order.
  A range that leaves the buffer ends it: what the program would find there is not defined, so
  there is no value and nothing after it is modelled.  `Within n x` says that every range `x`
  touches ends at or before byte `n`; it is closed under sequencing (`within_bind`), which is the
  rule bounds proofs are built from.
-/
import TorchNpu.Lib.LittleEndian

namespace TorchNpu

/-- A byte range `[offset, offset + size)`. -/
structure Access where
  offset : ℕ
  size : ℕ

/-- The first byte after the range. -/
def Access.stop (a : Access) : ℕ := a.offset + a.size

/-- The ranges a computation touched, and its value unless one of them left the buffer. -/
structure Traced (α : Type) where
  accesses : List Access
  value : Option α

namespace Traced

variable {α β : Type}

def pure (a : α) : Traced α := ⟨[], some a⟩

/-- Sequencing: the second computation runs only if every earlier range was in the buffer. -/
def bind (x : Traced α) (f : α → Traced β) : Traced β :=
  match x.value with
  | none => ⟨x.accesses, none⟩
  | some a => ⟨x.accesses ++ (f a).accesses, (f a).value⟩

instance : Monad Traced where
  pure := Traced.pure
  bind := Traced.bind

/-- Touch `[offset, offset + size)` of `buffer`. -/
def read (buffer : List UInt8) (offset size : ℕ) : Traced (List UInt8) :=
  ⟨[⟨offset, size⟩],
    if offset + size ≤ buffer.length then some ((buffer.drop offset).take size) else none⟩

/-- The unsigned integer stored in `size` bytes at `offset`. -/
def readNat (buffer : List UInt8) (offset size : ℕ) : Traced ℕ :=
  do return leDecode (← read buffer offset size)

/-- Every range touched ends at or before byte `n`. -/
def Within (n : ℕ) (x : Traced α) : Prop := ∀ a ∈ x.accesses, a.stop ≤ n

instance (n : ℕ) (x : Traced α) : Decidable (Within n x) :=
  inferInstanceAs (Decidable (∀ a ∈ x.accesses, a.stop ≤ n))

theorem bind_of_some {x : Traced α} {a : α} (h : x.value = some a) (f : α → Traced β) :
    x >>= f = ⟨x.accesses ++ (f a).accesses, (f a).value⟩ := by
  show Traced.bind x f = _
  rw [Traced.bind, h]

theorem value_bind_of_some {x : Traced α} {a : α} (h : x.value = some a) (f : α → Traced β) :
    (x >>= f).value = (f a).value := by rw [bind_of_some h]

theorem value_bind (x : Traced α) (f : α → Traced β) :
    (x >>= f).value = x.value.bind fun a => (f a).value := by
  show (Traced.bind x f).value = _
  rw [Traced.bind]
  cases x.value with
  | none => rfl
  | some a => rfl

theorem value_bind_eq_some {x : Traced α} {f : α → Traced β} {b : β} :
    (x >>= f).value = some b ↔ ∃ a, x.value = some a ∧ (f a).value = some b := by
  show (Traced.bind x f).value = some b ↔ _
  rw [Traced.bind]
  cases x.value with
  | none => simp
  | some a => simp

@[simp] theorem value_pure (a : α) : (Pure.pure a : Traced α).value = some a := rfl

@[simp] theorem within_pure (n : ℕ) (a : α) : Within n (Pure.pure a : Traced α) := by
  intro b hb
  exact absurd hb (List.not_mem_nil)

/-- The sequencing rule for bounds. -/
theorem within_bind {n : ℕ} {x : Traced α} {f : α → Traced β} :
    Within n (x >>= f) ↔ Within n x ∧ ∀ a, x.value = some a → Within n (f a) := by
  show Within n (Traced.bind x f) ↔ _
  rw [Traced.bind]
  cases hx : x.value with
  | none => simp [Within]
  | some a =>
    simp only [Within, List.mem_append, Option.some.injEq, forall_eq']
    constructor
    · intro h
      exact ⟨fun b hb => h b (Or.inl hb), fun b hb => h b (Or.inr hb)⟩
    · rintro ⟨h1, h2⟩ b (hb | hb)
      · exact h1 b hb
      · exact h2 b hb

theorem within_read {n : ℕ} {buffer : List UInt8} {offset size : ℕ} :
    Within n (read buffer offset size) ↔ offset + size ≤ n := by
  simp [Within, read, Access.stop]

theorem value_read_of_le {buffer : List UInt8} {offset size : ℕ}
    (h : offset + size ≤ buffer.length) :
    (read buffer offset size).value = some ((buffer.drop offset).take size) := by
  rw [read, if_pos h]

theorem within_readNat {n : ℕ} {buffer : List UInt8} {offset size : ℕ} :
    Within n (readNat buffer offset size) ↔ offset + size ≤ n := by
  rw [readNat, within_bind, within_read]
  simp

theorem value_readNat_of_le {buffer : List UInt8} {offset size : ℕ}
    (h : offset + size ≤ buffer.length) :
    (readNat buffer offset size).value = some (leDecode ((buffer.drop offset).take size)) := by
  rw [readNat, value_bind_of_some (value_read_of_le h), value_pure]

/-- Bounds of a program that starts by reading a field. -/
theorem within_readNat_bind {n : ℕ} {buffer : List UInt8} {offset size : ℕ} {f : ℕ → Traced β}
    (hn : n ≤ buffer.length) :
    Within n (readNat buffer offset size >>= f)
      ↔ offset + size ≤ n ∧ Within n (f (leDecode ((buffer.drop offset).take size))) := by
  rw [within_bind, within_readNat]
  constructor
  · rintro ⟨hle, h⟩
    exact ⟨hle, h _ (value_readNat_of_le (Nat.le_trans hle hn))⟩
  · rintro ⟨hle, h⟩
    refine ⟨hle, fun v hv => ?_⟩
    rw [value_readNat_of_le (Nat.le_trans hle hn), Option.some.injEq] at hv
    rwa [← hv]

/-! ### A value means that no range left the buffer -/

/-- A computation over a buffer of `n` bytes that has a value only if it stayed inside. -/
def Checked (n : ℕ) (x : Traced α) : Prop := ∀ a, x.value = some a → Within n x

theorem checked_pure (n : ℕ) (a : α) : Checked n (Pure.pure a : Traced α) :=
  fun _ _ => within_pure n a

theorem checked_bind {n : ℕ} {x : Traced α} {f : α → Traced β} (hx : Checked n x)
    (hf : ∀ a, Checked n (f a)) : Checked n (x >>= f) := by
  intro b hb
  obtain ⟨a, ha, hb⟩ := value_bind_eq_some.mp hb
  refine within_bind.mpr ⟨hx a ha, fun a' ha' => ?_⟩
  rw [ha, Option.some.injEq] at ha'
  exact ha' ▸ hf a b hb

theorem checked_read (buffer : List UInt8) (offset size : ℕ) :
    Checked buffer.length (read buffer offset size) := by
  intro a ha
  rw [within_read]
  by_contra h
  rw [read, if_neg h] at ha
  cases ha

theorem checked_readNat (buffer : List UInt8) (offset size : ℕ) :
    Checked buffer.length (readNat buffer offset size) :=
  checked_bind (checked_read buffer offset size) fun _ => checked_pure _ _

end Traced

end TorchNpu
