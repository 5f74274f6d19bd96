/-
  Cutting `n` places into `p` consecutive chunks of the ceiling size; the last chunks may be shorter, or empty.

  Chunk `r` has the `chunkLen n p r` places from `chunkStart n p r` on.  A place lies in one chunk only
  (`chunk_unique`) and a sum over the places is the sum over the chunks (`sum_range_eq_sum_chunks`).
  `RepeatsEvenly n c p` says when repeating every place `c` times repeats the chunks.
-/
import Mathlib.Algebra.BigOperators.Group.Finset.Basic
import Mathlib.Algebra.BigOperators.Intervals

namespace TorchNpu

def chunkSize (n p : ℕ) : ℕ :=
  (n + p - 1) / p

def chunkStart (n p r : ℕ) : ℕ :=
  min n (chunkSize n p * r)

def chunkLen (n p r : ℕ) : ℕ :=
  chunkStart n p (r + 1) - chunkStart n p r

variable {n p r q : ℕ}

theorem chunkStart_mono (h : r ≤ q) : chunkStart n p r ≤ chunkStart n p q :=
  min_le_min le_rfl (Nat.mul_le_mul_left _ h)

theorem chunkStart_succ : chunkStart n p (r + 1) = chunkStart n p r + chunkLen n p r := by
  have h : chunkStart n p r ≤ chunkStart n p (r + 1) := chunkStart_mono (Nat.le_succ r)
  unfold chunkLen
  omega

@[simp] theorem chunkStart_zero : chunkStart n p 0 = 0 := by
  rw [chunkStart, Nat.mul_zero, Nat.min_zero]

theorem chunkStart_self (hp : 0 < p) : chunkStart n p p = n := by
  have hdiv := Nat.div_add_mod (n + p - 1) p
  have hmod := Nat.mod_lt (n + p - 1) hp
  have hsize : n ≤ chunkSize n p * p := by
    unfold chunkSize
    rw [Nat.mul_comm]
    omega
  exact min_eq_left hsize

theorem chunkStart_add_chunkLen_le : chunkStart n p r + chunkLen n p r ≤ n := by
  rw [← chunkStart_succ]
  exact min_le_left _ _

theorem sum_chunkLen : ∑ q ∈ Finset.range r, chunkLen n p q = chunkStart n p r := by
  induction r with
  | zero => rw [Finset.sum_range_zero, chunkStart_zero]
  | succ r ih => rw [Finset.sum_range_succ, ih, chunkStart_succ]

theorem chunkSize_of_dvd (hp : 0 < p) (h : p ∣ n) : chunkSize n p = n / p := by
  obtain ⟨m, rfl⟩ := h
  have hdecomp : p * m + p - 1 = p - 1 + p * m := by omega
  have hlt : p - 1 < p := by omega
  rw [chunkSize, Nat.mul_div_cancel_left m hp, hdecomp, Nat.add_mul_div_left _ _ hp,
    Nat.div_eq_of_lt hlt, Nat.zero_add]

theorem chunkLen_of_dvd (hp : 0 < p) (h : p ∣ n) (hr : r < p) : chunkLen n p r = n / p := by
  have hstart : ∀ q ≤ p, chunkStart n p q = n / p * q := by
    intro q hq
    rw [chunkStart, chunkSize_of_dvd hp h]
    refine min_eq_right ?_
    calc n / p * q ≤ n / p * p := Nat.mul_le_mul_left _ hq
      _ = n := Nat.div_mul_cancel h
  rw [chunkLen, hstart (r + 1) hr, hstart r hr.le, Nat.mul_add, Nat.mul_one, Nat.add_sub_cancel_left]

/-! ### Chunks of a dimension of which every place is repeated -/

/-- The chunks of the repeated dimension are the repeated chunks. -/
def RepeatsEvenly (n c p : ℕ) : Prop :=
  p ∣ n ∨ c * (p - n % p) < p

instance : Decidable (RepeatsEvenly n c p) :=
  inferInstanceAs (Decidable (_ ∨ _))

theorem chunkSize_spec (hp : 0 < p) (hn : 0 < n) : p * (chunkSize n p - 1) < n ∧ n ≤ p * chunkSize n p ∧
    0 < chunkSize n p := by
  have hdiv := Nat.div_add_mod (n + p - 1) p
  have hmod := Nat.mod_lt (n + p - 1) hp
  have hpos : 0 < chunkSize n p := Nat.div_pos (by omega) hp
  unfold chunkSize at hpos ⊢
  have hsub : p * ((n + p - 1) / p - 1) + p = p * ((n + p - 1) / p) := by
    rw [← Nat.mul_succ, Nat.succ_eq_add_one, Nat.sub_add_cancel hpos]
  omega

theorem chunkSize_unique {m : ℕ} (hp : 0 < p) (hn : 0 < n) (hm : 0 < m) (hlt : p * (m - 1) < n)
    (hle : n ≤ p * m) : chunkSize n p = m := by
  obtain ⟨hlt', hle', hpos⟩ := chunkSize_spec hp hn
  have h₁ : chunkSize n p - 1 < m := Nat.lt_of_mul_lt_mul_left (hlt'.trans_le hle)
  have h₂ : m - 1 < chunkSize n p := Nat.lt_of_mul_lt_mul_left (hlt.trans_le hle')
  omega

/-- For a dimension that does not divide evenly, the distance to the next multiple decides. -/
theorem chunkSize_mul_iff {c : ℕ} (hp : 0 < p) (hn : ¬ p ∣ n) (hc : 0 < c) :
    chunkSize (n * c) p = chunkSize n p * c ↔ c * (p - n % p) < p := by
  have hpos : 0 < n := Nat.pos_of_ne_zero fun h => hn (h ▸ Nat.dvd_zero p)
  have hmod : n % p < p := Nat.mod_lt n hp
  have hmodpos : 0 < n % p := Nat.pos_of_ne_zero fun h => hn (Nat.dvd_of_mod_eq_zero h)
  have hsize : chunkSize n p = n / p + 1 := by
    refine chunkSize_unique hp hpos (Nat.succ_pos _) ?_ ?_
    · rw [Nat.add_sub_cancel]
      have hdiv := Nat.div_add_mod n p
      omega
    · rw [Nat.mul_add, Nat.mul_one]
      have hdiv := Nat.div_add_mod n p
      omega
  -- what the repeated chunks have in excess of the repeated dimension
  have hexcess : n * c + c * (p - n % p) = p * (chunkSize n p * c) := by
    have hdiv := Nat.div_add_mod n p
    have hsum : n + (p - n % p) = p * (n / p + 1) := by
      rw [Nat.mul_add, Nat.mul_one]
      omega
    rw [hsize, Nat.mul_comm c, ← Nat.add_mul, hsum, Nat.mul_assoc]
  have hsizepos : 0 < chunkSize n p * c := Nat.mul_pos (hsize ▸ Nat.succ_pos _) hc
  have hlast : p * (chunkSize n p * c - 1) + p = p * (chunkSize n p * c) := by
    rw [← Nat.mul_succ, Nat.succ_eq_add_one, Nat.sub_add_cancel hsizepos]
  constructor
  · intro h
    obtain ⟨hlt, -, -⟩ := chunkSize_spec hp (Nat.mul_pos hpos hc)
    rw [h] at hlt
    omega
  · intro h
    refine chunkSize_unique hp (Nat.mul_pos hpos hc) hsizepos ?_ ?_ <;> omega

theorem chunkStart_mul {c : ℕ} (hp : 0 < p) (h : RepeatsEvenly n c p) :
    chunkStart (n * c) p r = chunkStart n p r * c := by
  rcases Nat.eq_zero_or_pos c with rfl | hc
  · rw [Nat.mul_zero, Nat.mul_zero]
    exact Nat.min_eq_left (Nat.zero_le _)
  have hsize : chunkSize (n * c) p = chunkSize n p * c := by
    by_cases hdvd : p ∣ n
    · rw [chunkSize_of_dvd hp hdvd, chunkSize_of_dvd hp (Nat.dvd_mul_right_of_dvd hdvd c), Nat.mul_div_right_comm hdvd]
    · exact (chunkSize_mul_iff hp hdvd hc).mpr (h.resolve_left hdvd)
  unfold chunkStart
  rw [hsize, Nat.mul_right_comm]
  exact Nat.mul_min_mul_right ..

theorem chunkLen_mul {c : ℕ} (hp : 0 < p) (h : RepeatsEvenly n c p) :
    chunkLen (n * c) p r = chunkLen n p r * c := by
  rw [chunkLen, chunkStart_mul hp h, chunkStart_mul hp h, chunkLen, Nat.sub_mul]

/-- The first chunk is of full size. -/
theorem chunkLen_first (hp : 0 < p) (hn : 0 < n) : chunkLen n p 0 = chunkSize n p := by
  obtain ⟨hlt, -, hsize⟩ := chunkSize_spec hp hn
  have hle : chunkSize n p ≤ n := by
    have hone : chunkSize n p - 1 ≤ p * (chunkSize n p - 1) := Nat.le_mul_of_pos_left _ hp
    omega
  rw [chunkLen, chunkStart_zero, chunkStart]
  omega

/-- The first chunk decides. -/
theorem repeatsEvenly_of_first {c : ℕ} (hp : 0 < p) (h : chunkLen (n * c) p 0 = chunkLen n p 0 * c) :
    RepeatsEvenly n c p := by
  by_cases hdvd : p ∣ n
  · exact Or.inl hdvd
  refine Or.inr ?_
  rcases Nat.eq_zero_or_pos c with rfl | hc
  · omega
  refine (chunkSize_mul_iff hp hdvd hc).mp ?_
  have hpos : 0 < n := Nat.pos_of_ne_zero fun h => hdvd (h ▸ Nat.dvd_zero p)
  rw [chunkLen_first hp (Nat.mul_pos hpos hc), chunkLen_first hp hpos] at h
  exact h

theorem repeatsEvenly_of_chunkLen {c : ℕ} (hp : 0 < p)
    (h : ∀ r < p, chunkLen (n * c) p r = chunkLen n p r * c) : RepeatsEvenly n c p :=
  repeatsEvenly_of_first hp (h 0 hp)

/-- Two places that are the same place of the whole lie in one chunk. -/
theorem chunk_unique {a b : ℕ} (ha : a < chunkLen n p r) (hb : b < chunkLen n p q)
    (h : a + chunkStart n p r = b + chunkStart n p q) : r = q := by
  rcases lt_trichotomy r q with hlt | heq | hgt
  · have hle : chunkStart n p (r + 1) ≤ chunkStart n p q := chunkStart_mono hlt
    rw [chunkStart_succ] at hle
    omega
  · exact heq
  · have hle : chunkStart n p (q + 1) ≤ chunkStart n p r := chunkStart_mono hgt
    rw [chunkStart_succ] at hle
    omega

theorem sum_range_eq_sum_chunks {M : Type*} [AddCommMonoid M] (f : ℕ → M) (hp : 0 < p) :
    ∑ k ∈ Finset.range n, f k =
      ∑ r ∈ Finset.range p, ∑ k ∈ Finset.range (chunkLen n p r), f (k + chunkStart n p r) := by
  -- the induction is on the number of chunks that have been added up
  have hsum : ∀ r, ∑ k ∈ Finset.range (chunkStart n p r), f k =
      ∑ q ∈ Finset.range r, ∑ k ∈ Finset.range (chunkLen n p q), f (k + chunkStart n p q) := by
    intro r
    induction r with
    | zero => rw [chunkStart_zero, Finset.sum_range_zero, Finset.sum_range_zero]
    | succ r ih =>
      rw [chunkStart_succ, Finset.sum_range_add, ih, Finset.sum_range_succ]
      simp only [Nat.add_comm]
  rw [← hsum p, chunkStart_self hp]

end TorchNpu
