/-
  Contractions of two arrays, and what becomes of them when one loop is cut into chunks.

  A contraction runs over the points of a loop space with the extents `ext`.  Each dimension of an array is
  labelled with a loop; at a point the array is read at the coordinates that the point has in the loops of
  its dimensions, a dimension of size one always at `0` (`read`).  `contract` adds up the products of the
  elements read from two arrays, each into the place of the result that the point reads there.

  `Follows ext v s l cut` says how an array of shape `s` and labels `l` goes along when the loop `v` is cut:
  its dimension `t` is the loop's if `cut = some t`, and nothing of it depends on the loop if `cut = none`.
  An operand is then cut along `t`, or replicated; a result is cut along `t`, or a partial sum.  With these
  placements the ranks' own contractions recombine to the whole one (`recombines_contract`).
-/
import TorchNpu.Lib.Placement
import Mathlib.Algebra.BigOperators.Group.Finset.Piecewise

namespace TorchNpu.Contraction

open Index NdArray

variable {α : Type*}

/-- Two sizes of one loop: a size of one is stretched to the other. -/
def broadcastDim (a b : ℕ) : ℕ :=
  if a = 1 then b else a

/-- The size that an array of shape `s` and labels `l` has in the loop `u`. -/
def size (s : List ℕ) (l : ℕ → ℕ) (u : ℕ) : ℕ :=
  ∏ t ∈ Finset.range s.length, if l t = u then s.getD t 1 else 1

/-- The extents of the first `n` loops that two operands run through. -/
def extents (n : ℕ) (s₁ : List ℕ) (l₁ : ℕ → ℕ) (s₂ : List ℕ) (l₂ : ℕ → ℕ) : List ℕ :=
  (List.range n).map fun u => broadcastDim (size s₁ l₁ u) (size s₂ l₂ u)

/-- The index at which an array of shape `s` and labels `l` is read at the point `J`. -/
def read (s : List ℕ) (l J : ℕ → ℕ) : ℕ → ℕ :=
  fun t => if s.getD t 1 = 1 then 0 else J (l t)

def contract [AddCommMonoid α] [Mul α] (ext so : List ℕ) (lo l₁ l₂ : ℕ → ℕ) (A B : NdArray α) : NdArray α where
  shape := so
  get i := sumBox ext fun J =>
    if ∀ t < so.length, read so lo J t = i t then A.get (read A.shape l₁ J) * B.get (read B.shape l₂ J) else 0

/-! ### Cutting a loop -/

/-- How an array goes along when the loop `v` is cut. -/
def Follows (ext : List ℕ) (v : ℕ) (s : List ℕ) (l : ℕ → ℕ) : Option ℕ → Prop
  | some t => t < s.length ∧ l t = v ∧ s.getD t 1 = ext.getD v 1 ∧ ∀ t' < s.length, l t' = v → t' = t
  | none => ∀ t < s.length, s.getD t 1 = 1 ∨ l t ≠ v

/-- The placement of an operand. -/
def operand : Option ℕ → Placement
  | some t => .shard t
  | none => .replicate

/-- The placement of a result. -/
def result : Option ℕ → Placement
  | some t => .shard t
  | none => .partialSum

/-- The index of the whole array, from that in a piece that begins at `k`. -/
def cutIndex : Option ℕ → (ℕ → ℕ) → ℕ → ℕ → ℕ
  | some t, i, k => shift i t k
  | none, i, _ => i

def cutShape : Option ℕ → List ℕ → ℕ → List ℕ
  | some t, s, len => s.set t len
  | none, s, _ => s

variable {ext s : List ℕ} {l J : ℕ → ℕ} {v p r len start : ℕ} {cut : Option ℕ}

theorem localShape_operand (h : Follows ext v s l cut) :
    (operand cut).localShape p r s = cutShape cut s (chunkLen (ext.getD v 1) p r) := by
  rcases cut with - | t
  · rfl
  · show s.set t (chunkLen (s.getD t 1) p r) = _
    rw [h.2.2.1]
    rfl

theorem localShape_result (h : Follows ext v s l cut) :
    (result cut).localShape p r s = cutShape cut s (chunkLen (ext.getD v 1) p r) := by
  rw [← localShape_operand h]
  rcases cut with - | t <;> rfl

theorem length_cutShape : (cutShape cut s len).length = s.length := by
  rcases cut with - | t
  · rfl
  · exact List.length_set

/-- Reading a piece at a point of the piece of the loop is reading the whole at that point of the whole loop. -/
theorem cutIndex_read (h : Follows ext v s l cut) (hv : v < ext.length) (hlen : start + len ≤ ext.getD v 1)
    (hJ : Within (ext.set v len) J) :
    cutIndex cut (read (cutShape cut s len) l J) start = read s l (shift J v start) := by
  ext t'
  rcases cut with - | t
  · -- no dimension of size other than one is the loop's
    show (if s.getD t' 1 = 1 then 0 else J (l t')) = if s.getD t' 1 = 1 then 0 else shift J v start (l t')
    split_ifs with hone
    · rfl
    · by_cases ht' : t' < s.length
      · rw [shift_of_ne ((h t' ht').resolve_left hone)]
      · exact absurd (List.getD_eq_default _ _ (by omega)) hone
  · obtain ⟨ht, hlt, hsize, hunique⟩ := h
    have hJv : J v < len := by
      have hJv := hJ v
      rw [getD_set_self hv] at hJv
      exact hJv
    by_cases ht' : t' = t
    · subst ht'
      show shift (read (s.set t' len) l J) t' start t' = if s.getD t' 1 = 1 then 0 else _
      rw [shift_self, read, getD_set_self ht, hlt, shift_self]
      split_ifs <;> omega
    · show shift (read (s.set t len) l J) t start t' = if s.getD t' 1 = 1 then 0 else _
      rw [shift_of_ne ht', read, getD_set_of_ne ht']
      split_ifs with hone
      · rfl
      · rw [shift_of_ne]
        intro hl
        by_cases hs : t' < s.length
        · exact ht' (hunique t' hs hl)
        · exact hone (List.getD_eq_default _ _ (by omega))

/-- What a rank reads of its own part of an operand. -/
theorem get_localTensor {A : NdArray α} (h : Follows ext v A.shape l cut) (hv : v < ext.length)
    (hJ : Within (ext.set v (chunkLen (ext.getD v 1) p r)) J) :
    ((operand cut).localTensor p r A).get (read ((operand cut).localTensor p r A).shape l J) =
      A.get (read A.shape l (shift J v (chunkStart (ext.getD v 1) p r))) := by
  have hget : ∀ i, ((operand cut).localTensor p r A).get i =
      A.get (cutIndex cut i (chunkStart (ext.getD v 1) p r)) := by
    intro i
    rcases cut with - | t
    · rfl
    · show A.get (shift i t (chunkStart (A.shape.getD t 1) p r)) = _
      rw [h.2.2.1]
      rfl
  rw [hget, Placement.localTensor_shape, localShape_operand h, cutIndex_read h hv chunkStart_add_chunkLen_le hJ]

section Recombines

variable [AddCommMonoid α] [Mul α] {so : List ℕ} {lo l₁ l₂ : ℕ → ℕ} {A B : NdArray α} {cut₁ cut₂ : Option ℕ}

/-- What the whole contraction adds up at the point `J`. -/
def term (so : List ℕ) (lo l₁ l₂ : ℕ → ℕ) (A B : NdArray α) (i J : ℕ → ℕ) : α :=
  if ∀ t < so.length, read so lo J t = i t then A.get (read A.shape l₁ J) * B.get (read B.shape l₂ J) else 0

theorem get_contract_eq_sum_chunks (hp : 0 < p) (hv : v < ext.length) (i : ℕ → ℕ) :
    (contract ext so lo l₁ l₂ A B).get i =
      ∑ r ∈ Finset.range p, sumBox (ext.set v (chunkLen (ext.getD v 1) p r)) fun J =>
        term so lo l₁ l₂ A B i (shift J v (chunkStart (ext.getD v 1) p r)) :=
  sumBox_eq_sum_chunks hp hv

/-- A rank's own contraction adds up the terms of its chunk of the loop. -/
theorem get_contract_localTensor (hv : v < ext.length) (hA : Follows ext v A.shape l₁ cut₁)
    (hB : Follows ext v B.shape l₂ cut₂) (hO : Follows ext v so lo cut) (i : ℕ → ℕ) :
    (contract (ext.set v (chunkLen (ext.getD v 1) p r)) ((result cut).localShape p r so) lo l₁ l₂
      ((operand cut₁).localTensor p r A) ((operand cut₂).localTensor p r B)).get i =
      sumBox (ext.set v (chunkLen (ext.getD v 1) p r)) fun J => term so lo l₁ l₂ A B
        (cutIndex cut i (chunkStart (ext.getD v 1) p r)) (shift J v (chunkStart (ext.getD v 1) p r)) := by
  refine sumBox_congr fun J hJ => ?_
  have hread := cutIndex_read hO hv chunkStart_add_chunkLen_le hJ
  rw [get_localTensor hA hv hJ, get_localTensor hB hv hJ, term, localShape_result hO, length_cutShape, ← hread]
  refine if_congr ?_ rfl rfl
  rcases cut with - | t
  · rfl
  · refine forall₂_congr fun t' _ => ?_
    show _ ↔ shift _ t _ t' = shift i t _ t'
    by_cases ht' : t' = t
    · subst ht'
      rw [shift_self, shift_self, Nat.add_right_cancel_iff]
    · rw [shift_of_ne ht', shift_of_ne ht']

/-- The ranks' own contractions recombine to the whole one. -/
theorem recombines_contract (hp : 0 < p) (hv : v < ext.length) (hA : Follows ext v A.shape l₁ cut₁)
    (hB : Follows ext v B.shape l₂ cut₂) (hO : Follows ext v so lo cut) :
    (result cut).Recombines p
      (fun r => contract (ext.set v (chunkLen (ext.getD v 1) p r)) ((result cut).localShape p r so) lo l₁ l₂
        ((operand cut₁).localTensor p r A) ((operand cut₂).localTensor p r B))
      (contract ext so lo l₁ l₂ A B) := by
  rcases cut with - | t
  · refine ⟨fun r _ => rfl, fun i _ => ?_⟩
    rw [get_contract_eq_sum_chunks hp hv]
    exact Finset.sum_congr rfl fun r _ => get_contract_localTensor hv hA hB hO i
  · obtain ⟨ht, hlt, hsize, hunique⟩ := id hO
    refine Placement.recombines_shard hp ht fun r hr => ⟨rfl, fun i hi => ?_⟩
    have hi : Within (so.set t (chunkLen (so.getD t 1) p r)) i := hi
    rw [get_contract_localTensor hv hA hB hO]
    show _ = (contract ext so lo l₁ l₂ A B).get (shift i t (chunkStart (so.getD t 1) p r))
    rw [hsize, get_contract_eq_sum_chunks hp hv, Finset.sum_eq_single_of_mem r (Finset.mem_range.mpr hr)]
    · rfl
    · intro q _ hq
      refine sumBox_eq_zero fun J hJ => if_neg fun heq => hq ?_
      -- the point would lie in the chunks of both ranks
      have heq := heq t ht
      rw [← cutIndex_read hO hv chunkStart_add_chunkLen_le hJ] at heq
      have hread : read (so.set t (chunkLen (ext.getD v 1) p q)) lo J t = J v := by
        have hJv := hJ v
        rw [getD_set_self hv] at hJv
        rw [read, getD_set_self ht, hlt]
        split_ifs <;> omega
      have heq : shift (read (so.set t (chunkLen (ext.getD v 1) p q)) lo J) t (chunkStart (ext.getD v 1) p q) t =
        shift i t (chunkStart (ext.getD v 1) p r) t := heq
      rw [shift_self, shift_self, hread] at heq
      have hJv := hJ v
      have hit := hi t
      rw [getD_set_self hv] at hJv
      rw [getD_set_self ht, hsize] at hit
      exact chunk_unique hJv hit heq

end Recombines

/-! ### The extents of the parts -/

theorem size_eq_one (h : ∀ t < s.length, s.getD t 1 = 1 ∨ l t ≠ v) : size s l v = 1 := by
  refine Finset.prod_eq_one fun t ht => ?_
  rcases h t (Finset.mem_range.mp ht) with hone | hne
  · rw [hone, ite_self]
  · exact if_neg hne

theorem size_eq {t : ℕ} (ht : t < s.length) (hl : l t = v) (hunique : ∀ t' < s.length, l t' = v → t' = t) :
    size s l v = s.getD t 1 := by
  unfold size
  rw [Finset.prod_eq_single_of_mem t (Finset.mem_range.mpr ht), if_pos hl]
  intro t' ht' hne
  exact if_neg fun hl' => hne (hunique t' (Finset.mem_range.mp ht') hl')

theorem size_cutShape_self (h : Follows ext v s l cut) : size (cutShape cut s len) l v = cut.elim 1 fun _ => len := by
  rcases cut with - | t
  · exact size_eq_one h
  · obtain ⟨ht, hlt, -, hunique⟩ := h
    show size (s.set t len) l v = len
    rw [size_eq (t := t), getD_set_self ht]
    · rw [List.length_set]
      exact ht
    · exact hlt
    · rw [List.length_set]
      exact hunique

theorem size_cutShape_of_ne {u : ℕ} (h : Follows ext v s l cut) (hu : u ≠ v) :
    size (cutShape cut s len) l u = size s l u := by
  rcases cut with - | t
  · rfl
  · obtain ⟨ht, hlt, -, -⟩ := h
    show ∏ t' ∈ Finset.range (s.set t len).length, _ = _
    rw [List.length_set]
    refine Finset.prod_congr rfl fun t' _ => ?_
    by_cases ht' : t' = t
    · subst ht'
      rw [if_neg, if_neg] <;> exact fun hl => hu (hl.symm.trans hlt)
    · show (if l t' = u then (s.set t len).getD t' 1 else 1) = _
      rw [getD_set_of_ne ht']

variable {n : ℕ} {s₁ s₂ : List ℕ} {l₁ l₂ lo : ℕ → ℕ} {cut₁ cut₂ : Option ℕ}

theorem getD_extents {u : ℕ} (hu : u < n) :
    (extents n s₁ l₁ s₂ l₂).getD u 1 = broadcastDim (size s₁ l₁ u) (size s₂ l₂ u) := by
  rw [extents, List.getD_eq_getElem _ _ (by rw [List.length_map, List.length_range]; exact hu), List.getElem_map,
    List.getElem_range]

theorem length_extents : (extents n s₁ l₁ s₂ l₂).length = n := by
  rw [extents, List.length_map, List.length_range]

/-- The parts of the operands run through the rank's chunk of the loop. -/
theorem extents_localShape (hv : v < n) (h₁ : Follows (extents n s₁ l₁ s₂ l₂) v s₁ l₁ cut₁)
    (h₂ : Follows (extents n s₁ l₁ s₂ l₂) v s₂ l₂ cut₂) (hcut : cut₁ ≠ none ∨ cut₂ ≠ none) :
    extents n ((operand cut₁).localShape p r s₁) l₁ ((operand cut₂).localShape p r s₂) l₂ =
      (extents n s₁ l₁ s₂ l₂).set v (chunkLen ((extents n s₁ l₁ s₂ l₂).getD v 1) p r) := by
  refine ext_getD ?_ fun u => ?_
  · rw [List.length_set, length_extents, length_extents]
  rw [localShape_operand h₁, localShape_operand h₂]
  by_cases hun : u < n
  · by_cases huv : u = v
    · subst huv
      rw [getD_set_self (by rw [length_extents]; exact hun), getD_extents hun, size_cutShape_self h₁,
        size_cutShape_self h₂]
      rcases cut₁ with - | t₁ <;> rcases cut₂ with - | t₂
      · simp at hcut
      · exact if_pos rfl
      · show broadcastDim _ 1 = _
        unfold broadcastDim
        split_ifs with hone
        · exact hone.symm
        · rfl
      · show broadcastDim _ _ = _
        unfold broadcastDim
        exact ite_self _
    · rw [getD_set_of_ne huv, getD_extents hun, getD_extents hun, size_cutShape_of_ne h₁ huv,
        size_cutShape_of_ne h₂ huv]
  · rw [List.getD_eq_default, List.getD_eq_default]
    · rw [List.length_set, length_extents]
      omega
    · rw [length_extents]
      omega

end TorchNpu.Contraction
