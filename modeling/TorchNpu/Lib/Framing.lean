/-
  Prefixes of a concatenation of frames.

  `frame b` is the image of `b` on a stream, and a sender writes the frames of a list one behind the
  other.  A receiver that has seen the first elements of the stream has seen some whole frames and
  an incomplete one: `exists_frames_of_seen` splits what was seen that way, and `leftover` is the
  length of the incomplete part.
-/
import Mathlib.Data.List.Infix

namespace TorchNpu

variable {α β : Type*} (frame : β → List α)

/-- Of the first `n` elements of the stream, how many lie behind the last whole frame. -/
def leftover : List β → ℕ → ℕ
  | [], n => n
  | b :: bs, n => if n < (frame b).length then n else leftover bs (n - (frame b).length)

/-- `tail` is what was seen of the next frame, if there is one. -/
def Incomplete (tail : List α) : List β → Prop
  | [] => tail = []
  | b :: _ => tail <+: frame b ∧ tail.length < (frame b).length

variable {frame}

theorem leftover_append (whole rest : List β) (n : ℕ) :
    leftover frame (whole ++ rest) ((whole.flatMap frame).length + n) = leftover frame rest n := by
  induction whole with
  | nil => simp
  | cons b whole ih =>
    rw [List.cons_append, leftover, List.flatMap_cons, List.length_append, if_neg (by omega),
      show (frame b).length + (whole.flatMap frame).length + n - (frame b).length
        = (whole.flatMap frame).length + n by omega, ih]

theorem Incomplete.leftover_eq {tail : List α} {rest : List β} (h : Incomplete frame tail rest) :
    leftover frame rest tail.length = tail.length := by
  cases rest with
  | nil => rfl
  | cons b rest => rw [leftover, if_pos h.2]

/-- Nothing lies behind the last whole frame where a frame ends. -/
theorem exists_frames_of_leftover_eq_zero {bs : List β} {n : ℕ} (h : leftover frame bs n = 0) :
    ∃ whole rest, bs = whole ++ rest ∧ n = (whole.flatMap frame).length := by
  induction bs generalizing n with
  | nil => exact ⟨[], [], rfl, h⟩
  | cons b bs ih =>
    rw [leftover] at h
    split_ifs at h with hlt
    · exact ⟨[], b :: bs, rfl, h⟩
    · obtain ⟨whole, rest, rfl, hn⟩ := ih h
      refine ⟨b :: whole, rest, rfl, ?_⟩
      rw [List.flatMap_cons, List.length_append, ← hn]
      omega

theorem Incomplete.isPrefixOf_flatMap {tail : List α} {rest : List β}
    (h : Incomplete frame tail rest) : tail <+: rest.flatMap frame := by
  cases rest with
  | nil =>
    obtain rfl : tail = [] := h
    exact List.prefix_rfl
  | cons b rest =>
    rw [List.flatMap_cons]
    exact h.1.trans (List.prefix_append _ _)

theorem Incomplete.append {tail : List α} {rest : List β} (h : Incomplete frame tail rest)
    (hpos : ∀ b, 0 < (frame b).length) (later : List β) : Incomplete frame tail (rest ++ later) := by
  cases rest with
  | nil =>
    obtain rfl : tail = [] := h
    cases later with
    | nil => rfl
    | cons b later => exact ⟨List.nil_prefix, hpos b⟩
  | cons b rest => exact h

/-- What was seen of the stream is some whole frames and an incomplete one. -/
theorem exists_frames_of_seen (frame : β → List α) {bs : List β} {seen : List α}
    (h : seen <+: bs.flatMap frame) :
    ∃ whole rest tail, bs = whole ++ rest ∧ seen = whole.flatMap frame ++ tail
      ∧ Incomplete frame tail rest := by
  induction bs generalizing seen with
  | nil =>
    rw [List.flatMap_nil, List.prefix_nil] at h
    exact ⟨[], [], [], rfl, h, rfl⟩
  | cons b bs ih =>
    rw [List.flatMap_cons] at h
    by_cases hlen : seen.length < (frame b).length
    · -- not even the first frame is complete
      have hpre := List.prefix_of_prefix_length_le h (List.prefix_append _ _) (Nat.le_of_lt hlen)
      exact ⟨[], b :: bs, seen, rfl, rfl, hpre, hlen⟩
    · obtain ⟨later, rfl⟩ :=
        List.prefix_of_prefix_length_le (List.prefix_append _ _) h (Nat.le_of_not_lt hlen)
      rw [List.prefix_append_right_inj] at h
      obtain ⟨whole, rest, tail, rfl, rfl, htail⟩ := ih h
      exact ⟨b :: whole, rest, tail, rfl, by rw [List.flatMap_cons, List.append_assoc], htail⟩

end TorchNpu
