/-
  Which statistics are examined.

  As long as the queue is not full when a statistic is submitted, the statistics that have not been examined
  have slots of their own, in the order in which they were submitted: the `k`-th one is in the slot
  `k % queueLen`.  `Queued` is this invariant.  A call that finds the queue full overwrites the name of a
  statistic that has not been examined.
-/
import TorchNpu.SilentCheck.Detection
import Mathlib.Data.List.Infix

namespace TorchNpu.SilentCheck.Detection

variable {V N : Type} {s s' : Detection V N}

/-! ### What is claimed -/

/-- The detection thread finds nothing, and no copy is on its way. -/
def Settled (s : Detection V N) : Prop :=
  s.copies = [] ∧ (∀ val name, s.detector ≠ .examining val name) ∧
    (s.statisticCpuValue s.headIndex = none ∨ s.nameList s.headIndex = none)

/-- What is examined is what was submitted, in this order, and nothing is left behind. -/
structure Complete (s : Detection V N) : Prop where
  ordered : s.examined <+: s.submitted
  settled : s.Settled → s.examined = s.submitted

/-- The condition on a step: the queue is not full when a statistic is submitted. -/
def Careful (s : Detection V N) : DetectionLabel V N → Prop
  | .detectGrad _ _ => s.nameList s.tailIndex = none
  | .producer | .copy | .detector => True

instance [DecidableEq N] (s : Detection V N) : DecidablePred s.Careful
  | .detectGrad _ _ => inferInstanceAs (Decidable (_ = _))
  | .producer | .copy | .detector => isTrue trivial

/-! ### Slots -/

/-- Numbers that are close to each other have different slots. -/
theorem eq_of_slot_eq {k j start : ℕ} (hk : start ≤ k ∧ k < start + queueLen)
    (hj : start ≤ j ∧ j < start + queueLen) (h : k % queueLen = j % queueLen) : k = j := by
  rw [queueLen] at hk hj h
  omega

/-- Another statistic of the next ones is not in the slot of the first one. -/
theorem slot_ne {k start : ℕ} (hk : start < k ∧ k < start + queueLen) : k % queueLen ≠ start % queueLen := by
  intro h
  have hpos : 0 < queueLen := by decide
  have hsame := eq_of_slot_eq ⟨hk.1.le, hk.2⟩ ⟨Nat.le_refl start, by omega⟩ h
  omega

/-- How many statistics have arrived at the host. -/
def arrived (s : Detection V N) : ℕ :=
  s.submitted.length - s.copies.length

/-- The statistics that have not been examined are in the slots from the head on. -/
structure Queued (s : Detection V N) : Prop where
  prefixed : s.examined = s.submitted.take s.examined.length
  fits : s.submitted.length ≤ s.examined.length + queueLen
  pending : s.copies.length ≤ s.submitted.length - s.examined.length
  head : s.headIndex = s.examined.length % queueLen
  tail : s.tailIndex = s.submitted.length % queueLen
  copies : ∀ i : ℕ, s.copies[i]? = s.submitted[s.arrived + i]?.map fun x => ((s.arrived + i) % queueLen, x.1)
  names : ∀ k, s.examined.length ≤ k → k < s.examined.length + queueLen →
    s.nameList (k % queueLen) = s.submitted[k]?.map Prod.snd
  values : ∀ k, s.examined.length ≤ k → k < s.examined.length + queueLen →
    s.statisticCpuValue (k % queueLen) = if k < s.arrived then s.submitted[k]?.map Prod.fst else none
  examining : ∀ val name, s.detector = .examining val name →
    s.examined.length < s.arrived ∧ s.submitted[s.examined.length]? = some (val, name)

namespace Queued

theorem length_le (h : s.Queued) : s.examined.length ≤ s.submitted.length := by
  have hlength := congrArg List.length h.prefixed
  rw [List.length_take] at hlength
  omega

theorem length_le_arrived (h : s.Queued) : s.examined.length ≤ s.arrived ∧ s.arrived ≤ s.submitted.length ∧
    s.submitted.length = s.arrived + s.copies.length := by
  have hle := h.length_le
  have hpending := h.pending
  rw [arrived]
  omega

/-- Only a full queue has a name in the slot of the tail. -/
theorem notFull_of_name_eq_none (h : s.Queued) (hname : s.nameList s.tailIndex = none) :
    s.submitted.length < s.examined.length + queueLen := by
  by_contra hfull
  have hlength : s.submitted.length = s.examined.length + queueLen := by
    have hfits := h.fits
    omega
  have hpos : 0 < queueLen := by decide
  have hfirst := h.names s.examined.length (Nat.le_refl _) (by omega)
  rw [h.tail, hlength, Nat.add_mod_right, hfirst, Option.map_eq_none_iff, List.getElem?_eq_none_iff] at hname
  omega

theorem init : ({} : Detection V N).Queued where
  prefixed := rfl
  fits := Nat.zero_le _
  pending := Nat.le_refl _
  head := rfl
  tail := rfl
  copies _ := rfl
  names _ _ _ := rfl
  values _ _ _ := rfl
  examining := nofun

/-- A step that leaves the queue as it is. -/
theorem frame (h : s.Queued) (producer : Producer) {detector : Detector V N}
    (hexamining : ∀ val name, detector = .examining val name →
      s.examined.length < s.arrived ∧ s.submitted[s.examined.length]? = some (val, name)) :
    ({ s with producer := producer, detector := detector } : Detection V N).Queued where
  prefixed := h.prefixed
  fits := h.fits
  pending := h.pending
  head := h.head
  tail := h.tail
  copies := h.copies
  names := h.names
  values := h.values
  examining := hexamining

/-- A statistic is submitted to a queue that is not full. -/
theorem detectGrad (h : s.Queued) (hname : s.nameList s.tailIndex = none) (hfree : s.lockFree = true)
    (statistic : V) (name : N) : (s.detectGrad statistic name).Queued := by
  obtain ⟨hle, hle', hlength⟩ := h.length_le_arrived
  have hroom := h.notFull_of_name_eq_none hname
  have harrived : (s.detectGrad statistic name).arrived = s.arrived := by
    simp only [arrived, Detection.detectGrad, List.length_append, List.length_singleton]
    omega
  constructor
  · show s.examined = (s.submitted ++ [(statistic, name)]).take s.examined.length
    rw [List.take_append_of_le_length h.length_le]
    exact h.prefixed
  · simp only [Detection.detectGrad, List.length_append, List.length_singleton]
    omega
  · simp only [Detection.detectGrad, List.length_append, List.length_singleton]
    omega
  · exact h.head
  · show (s.tailIndex + 1) % queueLen = (s.submitted ++ [(statistic, name)]).length % queueLen
    rw [h.tail, List.length_append, List.length_singleton, Nat.mod_add_mod]
  · intro i
    rw [harrived]
    show (s.copies ++ [(s.tailIndex, statistic)])[i]? = (s.submitted ++ [(statistic, name)])[s.arrived + i]?.map _
    rcases Nat.lt_trichotomy i s.copies.length with hi | hi | hi
    · rw [List.getElem?_append_left hi, List.getElem?_append_left (by omega), h.copies]
    · rw [hi, ← hlength, List.getElem?_concat_length, List.getElem?_concat_length, h.tail]
      rfl
    · rw [List.getElem?_eq_none (by simp; omega), List.getElem?_eq_none (by simp; omega)]
      rfl
  · intro k hk hk'
    show Function.update s.nameList s.tailIndex (some name) (k % queueLen) =
      (s.submitted ++ [(statistic, name)])[k]?.map Prod.snd
    rw [h.tail]
    by_cases heq : k = s.submitted.length
    · rw [heq, Function.update_self, List.getElem?_concat_length]
      rfl
    · have hne : k % queueLen ≠ s.submitted.length % queueLen := fun hslot =>
        heq (eq_of_slot_eq ⟨hk, hk'⟩ ⟨h.length_le, hroom⟩ hslot)
      rw [Function.update_of_ne hne, h.names k hk hk']
      rcases Nat.lt_or_gt_of_ne heq with hlt | hgt
      · rw [List.getElem?_append_left hlt]
      · rw [List.getElem?_eq_none (by omega), List.getElem?_eq_none (by simp; omega)]
  · intro k hk hk'
    rw [harrived]
    show s.statisticCpuValue (k % queueLen) = _
    rw [h.values k hk hk']
    split_ifs with hlt
    · show _ = (s.submitted ++ [(statistic, name)])[k]?.map Prod.fst
      rw [List.getElem?_append_left (by omega)]
    · rfl
  · intro val name' hexamining
    have hdetector : s.detector = .examining val name' := hexamining
    rw [lockFree, hdetector] at hfree
    cases hfree

/-- A copy arrives. -/
theorem copy (h : s.Queued) (hnext : s.stepCopy = some s') : s'.Queued := by
  obtain ⟨hle, hle', hlength⟩ := h.length_le_arrived
  rw [stepCopy] at hnext
  split at hnext
  · cases hnext
  · rename_i slot statistic copies hcopies
    cases hnext
    rw [hcopies, List.length_cons] at hlength
    have hfits := h.fits
    -- It is the copy of the first statistic that has not arrived.
    have hfirst := h.copies 0
    rw [hcopies, List.getElem?_cons_zero, Nat.add_zero] at hfirst
    have hslot : slot = s.arrived % queueLen ∧ some statistic = s.submitted[s.arrived]?.map Prod.fst := by
      rw [List.getElem?_eq_getElem (by omega)] at hfirst ⊢
      cases hfirst
      exact ⟨rfl, rfl⟩
    have harrived : (arrived { s with
        statisticCpuValue := Function.update s.statisticCpuValue slot (some statistic)
        copies := copies }) = s.arrived + 1 := by
      show s.submitted.length - copies.length = s.arrived + 1
      omega
    constructor
    · exact h.prefixed
    · exact h.fits
    · have hpending := h.pending
      rw [hcopies, List.length_cons] at hpending
      show copies.length ≤ s.submitted.length - s.examined.length
      omega
    · exact h.head
    · exact h.tail
    · intro i
      rw [harrived]
      have hrest := h.copies (i + 1)
      rw [hcopies, List.getElem?_cons_succ, ← Nat.add_assoc, Nat.add_right_comm] at hrest
      exact hrest
    · exact h.names
    · intro k hk hk'
      replace hk : s.examined.length ≤ k := hk
      replace hk' : k < s.examined.length + queueLen := hk'
      rw [harrived]
      show Function.update s.statisticCpuValue slot (some statistic) (k % queueLen) = _
      rw [hslot.1]
      by_cases heq : k = s.arrived
      · rw [heq, Function.update_self, if_pos (by omega)]
        exact hslot.2
      · have hne : k % queueLen ≠ s.arrived % queueLen := fun hmod =>
          heq (eq_of_slot_eq ⟨hk, hk'⟩ ⟨hle, by omega⟩ hmod)
        have hiff : k < s.arrived + 1 ↔ k < s.arrived := by omega
        rw [Function.update_of_ne hne, h.values k hk hk']
        simp only [hiff]
    · intro val name hexamining
      rw [harrived]
      obtain ⟨hlt, hget⟩ := h.examining val name hexamining
      exact ⟨Nat.lt_succ_of_lt hlt, hget⟩

/-- A statistic is examined. -/
theorem examine (h : s.Queued) {val : V} {name : N} (hdetector : s.detector = .examining val name) :
    (s.examine val name).Queued := by
  obtain ⟨hle, hle', hlength⟩ := h.length_le_arrived
  obtain ⟨hlt, hget⟩ := h.examining val name hdetector
  have hfits := h.fits
  have hpos : 0 < queueLen := by decide
  have hexamined : (s.examine val name).examined.length = s.examined.length + 1 := by
    simp [Detection.examine]
  have harrived : (s.examine val name).arrived = s.arrived := rfl
  constructor
  · rw [hexamined]
    show s.examined ++ [(val, name)] = s.submitted.take (s.examined.length + 1)
    rw [List.take_add_one, hget, ← h.prefixed]
    rfl
  · rw [hexamined]
    show s.submitted.length ≤ _
    omega
  · rw [hexamined]
    show s.copies.length ≤ s.submitted.length - _
    omega
  · rw [hexamined]
    show (s.headIndex + 1) % queueLen = _
    rw [h.head, Nat.mod_add_mod]
  · exact h.tail
  · exact h.copies
  · intro k hk hk'
    rw [hexamined] at hk hk'
    show Function.update s.nameList s.headIndex none (k % queueLen) = s.submitted[k]?.map Prod.snd
    rw [h.head]
    by_cases heq : k = s.examined.length + queueLen
    · rw [heq, Nat.add_mod_right, Function.update_self, List.getElem?_eq_none (by omega)]
      rfl
    · have hne : k % queueLen ≠ s.examined.length % queueLen := slot_ne ⟨by omega, by omega⟩
      rw [Function.update_of_ne hne, h.names k (by omega) (by omega)]
  · intro k hk hk'
    rw [hexamined] at hk hk'
    rw [harrived]
    show Function.update s.statisticCpuValue s.headIndex none (k % queueLen) =
      if k < s.arrived then s.submitted[k]?.map Prod.fst else none
    rw [h.head]
    by_cases heq : k = s.examined.length + queueLen
    · rw [heq, Nat.add_mod_right, Function.update_self, if_neg (by omega)]
    · have hne : k % queueLen ≠ s.examined.length % queueLen := slot_ne ⟨by omega, by omega⟩
      rw [Function.update_of_ne hne, h.values k (by omega) (by omega)]
  · exact nofun

/-- What the detection thread finds at the head is the next statistic. -/
theorem look (h : s.Queued) {val : V} {name : N} (hval : s.statisticCpuValue s.headIndex = some val)
    (hname : s.nameList s.headIndex = some name) :
    s.examined.length < s.arrived ∧ s.submitted[s.examined.length]? = some (val, name) := by
  have hpos : 0 < queueLen := by decide
  have hval' := h.values s.examined.length (Nat.le_refl _) (by omega)
  have hname' := h.names s.examined.length (Nat.le_refl _) (by omega)
  rw [← h.head, hval] at hval'
  rw [← h.head, hname] at hname'
  split_ifs at hval' with hlt
  refine ⟨hlt, ?_⟩
  obtain ⟨x, hx⟩ : ∃ x, s.submitted[s.examined.length]? = some x :=
    ⟨_, List.getElem?_eq_getElem (by have := h.length_le_arrived; omega)⟩
  rw [hx] at hval' hname' ⊢
  cases hval'
  cases hname'
  rfl

theorem next (h : s.Queued) {l : DetectionLabel V N} (hcareful : s.Careful l) (hnext : s.next l = some s') :
    s'.Queued := by
  cases l with
  | detectGrad statistic name =>
    rw [Detection.next] at hnext
    split_ifs at hnext with hfree
    cases hnext
    exact h.detectGrad hcareful hfree.2 statistic name
  | producer =>
    rw [Detection.next, stepProducer] at hnext
    split at hnext
    · cases hnext
    · cases hnext
      exact h.frame _ h.examining
    · split_ifs at hnext
      cases hnext
      exact h.frame _ h.examining
  | copy => exact h.copy hnext
  | detector =>
    cases hnext
    rw [stepDetector]
    split
    · exact h.frame _ nofun
    · split
      · rename_i val name hval hname
        apply h.frame s.producer
        rintro val' name' heq
        cases heq
        exact h.look hval hname
      · exact h.frame _ nofun
      · exact h.frame _ nofun
    · rename_i val name hdetector
      exact h.examine hdetector

/-- A queue without full slots and copies has been examined. -/
theorem complete (h : s.Queued) : s.Complete where
  ordered := by
    rw [h.prefixed]
    exact List.take_prefix _ _
  settled := by
    rintro ⟨hcopies, -, hempty⟩
    have harrived : s.arrived = s.submitted.length := by
      rw [arrived, hcopies]
      rfl
    by_contra hne
    have hlt : s.examined.length < s.submitted.length := by
      by_contra hge
      apply hne
      rw [h.prefixed, List.take_of_length_le (by omega)]
    have hpos : 0 < queueLen := by decide
    have hvalue := h.values s.examined.length (Nat.le_refl _) (by omega)
    have hname := h.names s.examined.length (Nat.le_refl _) (by omega)
    rw [← h.head, harrived, if_pos hlt, List.getElem?_eq_getElem hlt] at hvalue
    rw [← h.head, List.getElem?_eq_getElem hlt] at hname
    rcases hempty with hnone | hnone
    · rw [hnone] at hvalue
      cases hvalue
    · rw [hnone] at hname
      cases hname

end Queued

/-! ### Whole runs -/

/-- In a run whose steps are careful, what is examined is what was submitted. -/
theorem complete_of_careful {ls : List (DetectionLabel V N)} (hcareful : Machine.Guarded next Careful {} ls)
    (hrun : runFromStart ls = some s) : s.Complete := by
  have hqueued : s.Queued :=
    Machine.guarded_run_induction (fun _ _ _ h hG hnext => h.next hG hnext) Queued.init hcareful hrun
  exact hqueued.complete

/-- Two statistics, of which the second one arrives late. -/
def twoStatistics : List (DetectionLabel ℕ ℕ) :=
  [.detectGrad 5 1, .producer, .copy, .detectGrad 0 2, .producer, .detector, .detector, .detector, .detector,
    .copy, .detector, .detector, .detector]

theorem complete_twoStatistics :
    ∃ s, runFromStart twoStatistics = some s ∧ s.examined = [(5, 1), (0, 2)] ∧ s.Complete := by
  have hrun : ((runFromStart twoStatistics).any fun s => decide (s.examined = [(5, 1), (0, 2)])) = true := by
    decide +kernel
  obtain ⟨s, hs, hexamined⟩ := (Option.any_eq_true _ _).mp hrun
  refine ⟨s, hs, of_decide_eq_true hexamined, complete_of_careful ?_ hs⟩
  decide +kernel

/-! ### A full queue -/

/-- The statistics have been submitted and have arrived, and none has been examined. -/
structure Filled (xs : List (V × N)) (s : Detection V N) : Prop where
  submitted : s.submitted = xs
  examined : s.examined = []
  copies : s.copies = []
  producer : s.producer = .idle
  detector : s.detector = .outside
  queued : s.Queued

/-- A statistic is submitted and arrives. -/
theorem Filled.submit {xs : List (V × N)} (h : Filled xs s) (hlt : xs.length < queueLen) (x : V × N) :
    ∃ t, Machine.run next s [.detectGrad x.1 x.2, .copy, .producer] = some t ∧
      t.headIndex = 0 ∧ t.tailIndex = (xs.length + 1) % queueLen ∧
      t.producer = (if t.tailIndex = t.headIndex then .synchronizing else .idle) ∧
      Filled (xs ++ [x]) { t with producer := .idle } := by
  have hhead : s.headIndex = 0 := by
    rw [h.queued.head, h.examined]
    rfl
  have htail : s.tailIndex = xs.length % queueLen := by rw [h.queued.tail, h.submitted]
  have hname : s.nameList s.tailIndex = none := by
    have hnames := h.queued.names xs.length (by simp [h.examined]) (by simpa [h.examined] using hlt)
    rw [htail, hnames, h.submitted, List.getElem?_length]
    rfl
  have hfree : s.lockFree = true := by rw [lockFree, h.detector]
  have hqueued := h.queued.detectGrad hname hfree x.1 x.2
  have hcopy : (s.detectGrad x.1 x.2).stepCopy = some { s.detectGrad x.1 x.2 with
      statisticCpuValue := Function.update s.statisticCpuValue s.tailIndex (some x.1)
      copies := [] } := by
    rw [stepCopy, Detection.detectGrad, h.copies]
    rfl
  have hcopied := hqueued.copy hcopy
  refine ⟨{ s.detectGrad x.1 x.2 with
      statisticCpuValue := Function.update s.statisticCpuValue s.tailIndex (some x.1)
      copies := []
      producer := if (s.tailIndex + 1) % queueLen = s.headIndex then .synchronizing else .idle }, ?_, hhead, ?_,
    rfl, ?_⟩
  · rw [Machine.run, next, if_pos ⟨h.producer, hfree⟩, Option.bind_some, Machine.run, next, hcopy]
    rfl
  · show (s.tailIndex + 1) % queueLen = _
    rw [htail, Nat.mod_add_mod]
  · exact ⟨by simp [Detection.detectGrad, h.submitted], h.examined, rfl, rfl, h.detector,
      hcopied.frame _ hcopied.examining⟩

/-- The steps that submit statistics while the detection thread is outside. -/
def submitAll (xs : List (V × N)) : List (DetectionLabel V N) :=
  xs.flatMap fun x => [.detectGrad x.1 x.2, .copy, .producer]

theorem filled_submitAll (xs : List (V × N)) (hlt : xs.length < queueLen) :
    ∃ s, runFromStart (submitAll xs) = some s ∧ Filled xs s := by
  induction xs using List.reverseRecOn with
  | nil => exact ⟨{}, rfl, rfl, rfl, rfl, rfl, rfl, Queued.init⟩
  | append_singleton xs x ih =>
    rw [List.length_append, List.length_singleton] at hlt
    obtain ⟨s, hs, hfilled⟩ := ih (by omega)
    obtain ⟨t, ht, hhead, htail, hproducer, hfilled'⟩ := hfilled.submit (by omega) x
    have hidle : t.producer = .idle := by
      rw [hproducer, hhead, htail, Nat.mod_eq_of_lt hlt]
      exact if_neg (by omega)
    refine ⟨t, ?_, ?_⟩
    · rw [submitAll, List.flatMap_append, List.flatMap_singleton]
      exact Machine.run_append.mpr ⟨s, hs, ht⟩
    · have heq : ({ t with producer := .idle } : Detection V N) = t := by
        rw [← hidle]
      rwa [heq] at hfilled'

/-- What is submitted to a full queue is examined first, in the slot of the first statistic. -/
theorem Filled.overwrite {xs : List (V × N)} (h : Filled xs s) (hfull : xs.length = queueLen) (x : V × N) :
    ∃ t, Machine.run next s [.detectGrad x.1 x.2, .copy, .detector, .detector, .detector] = some t ∧
      t.submitted = xs ++ [x] ∧ t.examined = [x] := by
  have hhead : s.headIndex = 0 := by
    rw [h.queued.head, h.examined]
    rfl
  have htail : s.tailIndex = 0 := by rw [h.queued.tail, h.submitted, hfull, Nat.mod_self]
  have hfree : s.lockFree = true := by rw [lockFree, h.detector]
  have hcopy : (s.detectGrad x.1 x.2).stepCopy = some { s.detectGrad x.1 x.2 with
      statisticCpuValue := Function.update s.statisticCpuValue s.tailIndex (some x.1)
      copies := [] } := by
    rw [stepCopy, Detection.detectGrad, h.copies]
    rfl
  rw [Machine.run, next, if_pos ⟨h.producer, hfree⟩, Option.bind_some, Machine.run, next, hcopy,
    Option.bind_some]
  simp [Machine.run, next, stepDetector, Detection.detectGrad, Detection.examine, h.detector, hhead, htail,
    h.submitted, h.examined]

/-- One statistic more than the queue holds, and a detection thread that begins to examine then. -/
def fullQueue : List (DetectionLabel ℕ ℕ) :=
  submitAll (List.replicate 1023 (0, 0)) ++ ([DetectionLabel.detectGrad 0 0, .copy, .producer] ++
    ([DetectionLabel.producer] ++ [DetectionLabel.detectGrad 1 1, .copy, .detector, .detector, .detector]))

theorem not_complete_fullQueue : ∃ s, runFromStart fullQueue = some s ∧ ¬ s.Complete := by
  have hlength : (List.replicate 1023 ((0, 0) : ℕ × ℕ)).length = 1023 := List.length_replicate
  obtain ⟨s, hs, hfilled⟩ := filled_submitAll (List.replicate 1023 ((0, 0) : ℕ × ℕ)) (by rw [hlength]; decide)
  obtain ⟨t, ht, hhead, htail, hproducer, hfilled'⟩ := hfilled.submit (by rw [hlength]; decide) (0, 0)
  have hsynchronizing : t.producer = .synchronizing := by
    rw [hproducer, htail, hhead, hlength]
    rfl
  -- The training thread has waited for the copies, and not for the detection thread.
  have hsynchronize : Machine.run next t [.producer] = some { t with producer := .idle } := by
    have hcopies : t.copies = [] := hfilled'.copies
    simp [Machine.run, next, stepProducer, hsynchronizing, hcopies]
  obtain ⟨u, hu, hsubmitted, hexamined⟩ := hfilled'.overwrite
    (by rw [List.length_append, hlength]; rfl) (1, 1)
  refine ⟨u, ?_, fun hcomplete => ?_⟩
  · exact Machine.run_append.mpr ⟨s, hs, Machine.run_append.mpr ⟨t, ht, Machine.run_append.mpr
      ⟨_, hsynchronize, hu⟩⟩⟩
  · obtain ⟨rest, hrest⟩ := hcomplete.ordered
    rw [hsubmitted, hexamined, List.replicate_succ] at hrest
    have hhead' := (List.cons.inj hrest).1
    cases hhead'

end TorchNpu.SilentCheck.Detection
