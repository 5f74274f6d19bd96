/-
  A split of the iteration ranges runs through the tuples of a node in row-major order.
-/
import Mathlib.Data.List.GetD
import TorchNpu.Inductor.IterationRanges
import TorchNpu.Lib.Strided

namespace TorchNpu.Inductor

open Strided

/-! ### Lists -/

theorem prod_set {l : List ℕ} {i size expr : ℕ} (hi : l[i]? = some size) (hdvd : expr ∣ size) :
    (l.set i (size / expr)).prod * expr = l.prod := by
  induction l generalizing i with
  | nil => simp at hi
  | cons a l ih =>
    cases i with
    | zero =>
      rw [List.getElem?_cons_zero, Option.some_inj] at hi
      rw [List.set_cons_zero, List.prod_cons, List.prod_cons, Nat.mul_right_comm, Nat.div_mul_cancel hdvd, hi]
    | succ i =>
      rw [List.getElem?_cons_succ] at hi
      rw [List.set_cons_succ, List.prod_cons, List.prod_cons, Nat.mul_assoc, ih hi]

/-- What is appended to the last list with elements comes last. -/
theorem flatten_modify {l : List (List ℕ)} {i : ℕ} (expr : ℕ) (hi : i < l.length)
    (hafter : ∀ j, i < j → l.getD j [] = []) :
    (l.modify i (· ++ [expr])).flatten = l.flatten ++ [expr] := by
  induction l generalizing i with
  | nil => simp at hi
  | cons ranges l ih =>
    cases i with
    | zero =>
      have hempty : l.flatten = [] := by
        rw [List.flatten_eq_nil_iff]
        intro ranges' hmem
        obtain ⟨j, hj, rfl⟩ := List.mem_iff_getElem.mp hmem
        have := hafter (j + 1) (Nat.succ_pos j)
        rwa [List.getD_cons_succ, List.getD_eq_getElem _ _ hj] at this
      simp [hempty]
    | succ i =>
      have hafter' : ∀ j, i < j → l.getD j [] = [] := fun j hj => hafter (j + 1) (Nat.succ_lt_succ hj)
      rw [List.modify_succ_cons, List.flatten_cons, List.flatten_cons,
        ih (Nat.lt_of_succ_lt_succ hi) hafter', List.append_assoc]

theorem eq_one_of_prod_eq_one {l : List ℕ} (h : l.prod = 1) : ∀ a ∈ l, a = 1 := by
  induction l with
  | nil => simp
  | cons a l ih =>
    rw [List.prod_cons] at h
    rw [List.forall_mem_cons]
    exact ⟨Nat.eq_one_of_mul_eq_one_right h, ih (Nat.eq_one_of_mul_eq_one_left h)⟩

/-! ### The state -/

/-- What the ranges and the remaining sizes are between two rounds. -/
structure SplitInv (groups : List ℕ) (s : SplitState) : Prop where
  length_newRanges : s.newRanges.length = groups.length
  length_remaining : s.remaining.length = groups.length
  prod_eq : ∀ i, (s.newRanges.getD i []).prod * s.remaining.getD i 1 = groups.getD i 1
  /-- A group has ranges only when nothing remains of those before it. -/
  used : ∀ i j, i < j → s.newRanges.getD j [] ≠ [] → s.remaining.getD i 1 = 1
  varCount_eq : s.varCount = s.newRanges.flatten.length
  scrolled : ∀ i < s.currentGroup, s.remaining.getD i 1 = 1

theorem SplitInv.currentGroup {groups : List ℕ} {s : SplitState} (h : SplitInv groups s) {g : ℕ}
    (hg : ∀ i < g, s.remaining.getD i 1 = 1) : SplitInv groups { s with currentGroup := g } :=
  ⟨h.length_newRanges, h.length_remaining, h.prod_eq, h.used, h.varCount_eq, hg⟩

theorem getD_of_getElem? {α : Type*} {l : List α} {i : ℕ} {a d : α} (h : l[i]? = some a) : l.getD i d = a := by
  rw [List.getD_eq_getElem?_getD, h, Option.getD_some]

theorem getD_set_of_ne (l : List ℕ) {i j : ℕ} (hne : i ≠ j) (a d : ℕ) : (l.set i a).getD j d = l.getD j d := by
  rw [List.getD_eq_getElem?_getD, List.getElem?_set_ne hne, ← List.getD_eq_getElem?_getD]

theorem getD_modify_of_ne (l : List (List ℕ)) {i j : ℕ} (hne : i ≠ j) (f : List ℕ → List ℕ) :
    (l.modify i f).getD j [] = l.getD j [] := by
  rw [List.getD_eq_getElem?_getD, List.getElem?_modify_ne f l hne, ← List.getD_eq_getElem?_getD]

/-- What `add_range` does with a group of which something remains, when nothing remains of those before. -/
theorem addRange_ok {groups : List ℕ} {s : SplitState} (h : SplitInv groups s) {i expr size : ℕ}
    (hi : s.remaining[i]? = some size) (hlarge : 1 < size) (hdvd : expr ∣ size)
    (hbefore : ∀ j < i, s.remaining.getD j 1 = 1) :
    ∃ s', addRange s i expr = .ok (s.newRanges.flatten.length, s') ∧ SplitInv groups s' ∧
      s'.newRanges.flatten = s.newRanges.flatten ++ [expr] ∧ s'.remaining = s.remaining.set i (size / expr) ∧
      s'.currentGroup = s.currentGroup := by
  have hlt : i < s.remaining.length := (List.getElem?_eq_some_iff.mp hi).1
  have hlt' : i < s.newRanges.length := by
    rw [h.length_newRanges, ← h.length_remaining]
    exact hlt
  have hgetD : s.remaining.getD i 1 = size := getD_of_getElem? hi
  -- The groups after this one have no ranges yet.
  have hafter : ∀ j, i < j → s.newRanges.getD j [] = [] := by
    intro j hj
    by_contra hne
    have := h.used i j hj hne
    omega
  have hflatten := flatten_modify expr hlt' hafter
  refine ⟨{ s with
      remaining := s.remaining.set i (size / expr)
      newRanges := s.newRanges.modify i (· ++ [expr])
      varCount := s.varCount + 1 }, ?_, ⟨?_, ?_, ?_, ?_, ?_, ?_⟩, hflatten, rfl, rfl⟩
  · rw [addRange, getRemaining, hi, ← h.varCount_eq]
    change (if expr ∣ size then _ else _) = _
    rw [if_pos hdvd]
    rfl
  · rw [List.length_modify]
    exact h.length_newRanges
  · rw [List.length_set]
    exact h.length_remaining
  · intro j
    by_cases hj : i = j
    · subst hj
      have hget : s.newRanges.getD i [] = s.newRanges[i] := List.getD_eq_getElem _ _ hlt'
      have hmodify : (s.newRanges.modify i (· ++ [expr])).getD i [] = s.newRanges[i] ++ [expr] := by
        rw [List.getD_eq_getElem?_getD, List.getElem?_modify_eq, List.getElem?_eq_getElem hlt']
        rfl
      have hset : (s.remaining.set i (size / expr)).getD i 1 = size / expr := by
        apply getD_of_getElem?
        rw [List.getElem?_set_self hlt]
      rw [hmodify, hset, List.prod_append, List.prod_singleton, ← h.prod_eq, hgetD, hget, Nat.mul_assoc,
        Nat.mul_div_cancel' hdvd]
    · rw [getD_modify_of_ne _ hj, getD_set_of_ne _ hj]
      exact h.prod_eq j
  · intro j k hjk hne
    have hji : j ≠ i := by
      rintro rfl
      rw [getD_modify_of_ne _ (Nat.ne_of_lt hjk)] at hne
      exact hne (hafter k hjk)
    rw [getD_set_of_ne _ hji.symm]
    by_cases hk : i = k
    · exact hbefore j (hk ▸ hjk)
    · rw [getD_modify_of_ne _ hk] at hne
      exact h.used j k hjk hne
  · dsimp only
    rw [hflatten, List.length_append, List.length_singleton, h.varCount_eq]
  · intro j hj
    have hji : i ≠ j := by
      rintro rfl
      have := h.scrolled i hj
      omega
    rw [getD_set_of_ne _ hji]
    exact h.scrolled j hj

theorem addRange_of_not_dvd {s : SplitState} {i expr size : ℕ} (hi : s.remaining[i]? = some size)
    (hdvd : ¬ expr ∣ size) : addRange s i expr = .error .cantSplit := by
  rw [addRange, getRemaining, hi]
  change (if expr ∣ size then _ else _) = _
  rw [if_neg hdvd]
  rfl

/-! ### Getters -/

/-- The getters read the tuple of the sizes from the variables of the ranges, which stand after `start`
others. -/
def Reads (start : ℕ) (getters : List Getter) (ranges sizes : List ℕ) : Prop :=
  ∃ val : List ℕ → List ℕ,
    (∀ v w tail, v.length = start → w.length = ranges.length →
      (getters.mapM fun getter => getter.apply (v ++ w ++ tail)) = .ok (val w)) ∧
    (tuples ranges).map val = tuples sizes

theorem reads_nil (start : ℕ) : Reads start [] [] [] :=
  ⟨fun _ => [], fun _ _ _ _ _ => rfl, rfl⟩

theorem Reads.append {start : ℕ} {getters getters' : List Getter} {ranges ranges' sizes sizes' : List ℕ}
    (h : Reads start getters ranges sizes) (h' : Reads (start + ranges.length) getters' ranges' sizes') :
    Reads start (getters ++ getters') (ranges ++ ranges') (sizes ++ sizes') := by
  obtain ⟨val, hval, htuples⟩ := h
  obtain ⟨val', hval', htuples'⟩ := h'
  refine ⟨fun w => val (w.take ranges.length) ++ val' (w.drop ranges.length), ?_, ?_⟩
  · intro v w tail hv hw
    rw [List.length_append] at hw
    have htake : (w.take ranges.length).length = ranges.length := by
      rw [List.length_take]
      omega
    have hfirst := hval v (w.take ranges.length) (w.drop ranges.length ++ tail) hv htake
    have hsecond := hval' (v ++ w.take ranges.length) (w.drop ranges.length) tail
      (by rw [List.length_append, hv, htake]) (by rw [List.length_drop]; omega)
    have hw' : v ++ w.take ranges.length ++ (w.drop ranges.length ++ tail) = v ++ w ++ tail := by
      rw [List.append_assoc, ← List.append_assoc (w.take _), List.take_append_drop, ← List.append_assoc]
    rw [hw'] at hfirst
    rw [List.append_assoc v, List.take_append_drop] at hsecond
    rw [List.mapM_append, hfirst, hsecond]
    rfl
  · have hsplit : ∀ w₁ ∈ tuples ranges, ((tuples ranges').map (w₁ ++ ·)).map
        (fun w => val (w.take ranges.length) ++ val' (w.drop ranges.length)) =
        (tuples sizes').map (val w₁ ++ ·) := by
      intro w₁ hw₁
      have hlength := length_of_mem_tuples hw₁
      rw [List.map_map, ← htuples', List.map_map]
      apply List.map_congr_left
      intro w₂ _
      simp only [Function.comp]
      rw [← hlength, List.take_left, List.drop_left]
    rw [tuples_append, tuples_append, List.map_flatMap, List.flatMap_congr hsplit, ← htuples,
      List.flatMap_map]
theorem combine_range' {strides w : List ℕ} (hlength : strides.length = w.length) (v tail : List ℕ) (expr : ℕ) :
    combine (v ++ w ++ tail) expr strides (List.range' v.length w.length) = .ok (expr + place strides w) := by
  induction w generalizing v strides expr with
  | nil =>
    obtain rfl := List.length_eq_zero_iff.mp hlength
    rfl
  | cons i w ih =>
    obtain ⟨stride, strides, rfl⟩ := List.exists_cons_of_length_eq_add_one hlength
    have hget : getItem (v ++ (i :: w) ++ tail) v.length = .ok i := by
      rw [getItem, List.append_assoc, List.getElem?_append_right le_rfl, Nat.sub_self]
      rfl
    have hmove : v ++ (i :: w) ++ tail = (v ++ [i]) ++ w ++ tail := by simp
    have hrest := ih (Nat.succ_inj.mp hlength) (v ++ [i]) (stride * i + expr)
    rw [List.length_append, List.length_singleton] at hrest
    rw [List.length_cons, List.range'_succ, combine, hget]
    change combine (v ++ (i :: w) ++ tail) (stride * i + expr) strides _ = _
    rw [hmove, hrest, place]
    congr 1
    rw [Nat.mul_comm stride i]
    omega

theorem mapM_singleton (flatVars : List ℕ) (getter : Getter) {value : ℕ}
    (h : getter.apply flatVars = .ok value) :
    ([getter].mapM fun getter => getter.apply flatVars) = .ok [value] := by
  rw [List.mapM_cons, h]
  rfl

/-- A getter that has the place of the variables in row-major order reads one size. -/
theorem reads_place {start : ℕ} {getter : Getter} {ranges : List ℕ}
    (h : ∀ v w tail, v.length = start → w.length = ranges.length →
      getter.apply (v ++ w ++ tail) = .ok (place (contiguousStrides ranges) w)) :
    Reads start [getter] ranges [ranges.prod] := by
  refine ⟨fun w => [place (contiguousStrides ranges) w], ?_, ?_⟩
  · intro v w tail hv hw
    exact mapM_singleton _ _ (h v w tail hv hw)
  · rw [tuples_singleton, ← map_place_contiguousStrides, List.map_map]
    rfl

/-! ### One size -/

/-- What a step of the split gives: it cannot split, or it goes on with new ranges that its getters read. -/
def Splits (groups : List ℕ) (s : SplitState) (sizes : List ℕ) (s' : SplitState) (getters : List Getter) :
    Prop :=
  SplitInv groups s' ∧ s'.remaining.prod * sizes.prod = s.remaining.prod ∧
    ∃ ranges, s'.newRanges.flatten = s.newRanges.flatten ++ ranges ∧
      Reads s.newRanges.flatten.length getters ranges sizes

/-- The loop of `add_multiple_range` takes what remains of whole groups. -/
theorem multipleLoop_spec {groups : List ℕ} (rounds : ℕ) {s : SplitState} (h : SplitInv groups s)
    {group : ℕ} (hbefore : ∀ i < group, s.remaining.getD i 1 = 1) (remainedSize : ℕ)
    (indexList strideList : List ℕ) :
    multipleLoop rounds s group remainedSize indexList strideList = .error .cantSplit ∨
      ∃ s' left ranges, multipleLoop rounds s group remainedSize indexList strideList =
          .ok (s', left, indexList ++ List.range' s.newRanges.flatten.length ranges.length,
            strideList ++ (contiguousStrides ranges).map (· * left)) ∧
        SplitInv groups s' ∧ s'.newRanges.flatten = s.newRanges.flatten ++ ranges ∧
        ranges.prod * left = remainedSize ∧ s'.remaining.prod * ranges.prod = s.remaining.prod := by
  -- The loop may stop before it takes anything more.
  have hstop : ∀ {s : SplitState} (remainedSize : ℕ) (indexList strideList : List ℕ), SplitInv groups s →
      ∃ s' left ranges, Except.ok (s, remainedSize, indexList, strideList) =
          (.ok (s', left, indexList ++ List.range' s.newRanges.flatten.length ranges.length,
            strideList ++ (contiguousStrides ranges).map (· * left)) :
            Except SplitError (SplitState × ℕ × List ℕ × List ℕ)) ∧
        SplitInv groups s' ∧ s'.newRanges.flatten = s.newRanges.flatten ++ ranges ∧
        ranges.prod * left = remainedSize ∧ s'.remaining.prod * ranges.prod = s.remaining.prod := by
    intro s remainedSize indexList strideList h
    exact ⟨s, remainedSize, [], by simp [contiguousStrides], h, by simp, by simp, by simp⟩
  induction rounds generalizing s group remainedSize indexList strideList with
  | zero => exact Or.inr (hstop remainedSize indexList strideList h)
  | succ rounds ih =>
    rw [multipleLoop]
    cases hgroup : s.remaining[group]? with
    | none => exact Or.inr (hstop remainedSize indexList strideList h)
    | some groupSize =>
      dsimp only
      split_ifs with hlarge hdvd
      · obtain ⟨s', hadd, hs', hflatten, hremaining, -⟩ :=
          addRange_ok h hgroup hlarge.1 dvd_rfl hbefore
        have hpos : 0 < groupSize := by omega
        rw [Nat.div_self hpos] at hremaining
        have hbefore' : ∀ i < group + 1, s'.remaining.getD i 1 = 1 := by
          intro i hi
          rw [hremaining]
          rcases Nat.lt_succ_iff_lt_or_eq.mp hi with hi | rfl
          · rw [getD_set_of_ne _ (Nat.ne_of_gt hi)]
            exact hbefore i hi
          · apply getD_of_getElem?
            rw [List.getElem?_set_self (List.getElem?_eq_some_iff.mp hgroup).1]
        rw [hadd]
        change multipleLoop rounds s' (group + 1) (remainedSize / groupSize) _ _ = _ ∨ _
        rcases ih hs' hbefore' (remainedSize / groupSize)
          (indexList ++ [s.newRanges.flatten.length]) (strideList ++ [remainedSize / groupSize]) with
          herror | ⟨s'', left, ranges, hloop, hs'', hflatten', hleft, hprod⟩
        · exact Or.inl herror
        · refine Or.inr ⟨s'', left, groupSize :: ranges, ?_, hs'', ?_, ?_, ?_⟩
          · change multipleLoop rounds s' (group + 1) (remainedSize / groupSize) _ _ = _
            rw [hloop, hflatten, List.length_append, List.length_singleton, List.length_cons,
              List.range'_succ, contiguousStrides, List.map_cons, ← hleft]
            simp only [List.append_assoc, List.singleton_append]
          · rw [hflatten', hflatten, List.append_assoc]
            rfl
          · rw [List.prod_cons, Nat.mul_assoc, hleft, Nat.mul_div_cancel' hdvd]
          · have hset := prod_set hgroup (dvd_refl groupSize)
            rw [Nat.div_self hpos, ← hremaining, ← hprod] at hset
            rw [List.prod_cons, ← hset, Nat.mul_comm groupSize, Nat.mul_assoc]
      · exact Or.inl rfl
      · exact Or.inr (hstop remainedSize indexList strideList h)
theorem scroll_spec {remaining : List ℕ} (rounds : ℕ) {currentGroup : ℕ}
    (hrounds : remaining.length ≤ currentGroup + rounds)
    (hbefore : ∀ i < currentGroup, remaining.getD i 1 = 1) :
    (∀ i < scroll remaining rounds currentGroup, remaining.getD i 1 = 1) ∧
      remaining[scroll remaining rounds currentGroup]? ≠ some 1 := by
  induction rounds generalizing currentGroup with
  | zero =>
    refine ⟨hbefore, ?_⟩
    rw [scroll, List.getElem?_eq_none (by omega)]
    simp
  | succ rounds ih =>
    rw [scroll]
    split
    · rename_i hone
      apply ih (by omega)
      intro i hi
      rcases Nat.lt_succ_iff_lt_or_eq.mp hi with hi | rfl
      · exact hbefore i hi
      · exact getD_of_getElem? hone
    · rename_i hne
      exact ⟨hbefore, hne⟩

/-- Something remains of the group that is scrolled to, as long as there are sizes to come. -/
theorem exists_remaining {groups : List ℕ} (hgroups : ∀ g ∈ groups, 0 < g) {s : SplitState}
    (h : SplitInv groups s) (hprod : s.remaining.prod ≠ 1) {g : ℕ} (hbefore : ∀ i < g, s.remaining.getD i 1 = 1)
    (hg : s.remaining[g]? ≠ some 1) : ∃ size, s.remaining[g]? = some size ∧ 1 < size := by
  cases hsize : s.remaining[g]? with
  | none =>
    -- Nothing remains of any group.
    refine absurd ?_ hprod
    apply List.prod_eq_one
    intro size hmem
    obtain ⟨i, hi, rfl⟩ := List.mem_iff_getElem.mp hmem
    have hlt : i < g := Nat.lt_of_lt_of_le hi (List.getElem?_eq_none_iff.mp hsize)
    have := hbefore i hlt
    rwa [List.getD_eq_getElem _ _ hi] at this
  | some size =>
    refine ⟨size, rfl, ?_⟩
    have hlt : g < groups.length := by
      rw [← h.length_remaining]
      exact (List.getElem?_eq_some_iff.mp hsize).1
    have hpos : 0 < groups.getD g 1 := by
      rw [List.getD_eq_getElem _ _ hlt]
      exact hgroups _ (List.getElem_mem hlt)
    rw [← h.prod_eq g, getD_of_getElem? hsize] at hpos
    have hpos' : 0 < size := Nat.pos_of_mul_pos_left hpos
    have hne : size ≠ 1 := by
      rintro rfl
      exact hg hsize
    omega

theorem splitSize_spec {groups : List ℕ} (hgroups : ∀ g ∈ groups, 0 < g) {s : SplitState}
    (h : SplitInv groups s) {size : ℕ} (hsize : 0 < size) {rest : ℕ} (hprod : s.remaining.prod = size * rest) :
    splitSize s size = .error .cantSplit ∨
      ∃ getter s', splitSize s size = .ok (getter, s') ∧ Splits groups s [size] s' [getter] := by
  rw [splitSize]
  split
  · -- A size of one takes no range.
    rename_i hone
    subst hone
    refine Or.inr ⟨.zero, s, rfl, h, by simp, [], by simp, ?_⟩
    exact reads_place fun _ _ _ _ hw => by rw [List.length_eq_zero_iff.mp hw]; rfl
  · rename_i hne
    obtain ⟨hbefore, hscroll⟩ := scroll_spec (s.remaining.length - s.currentGroup) (by omega) h.scrolled
    generalize hg : scroll s.remaining (s.remaining.length - s.currentGroup) s.currentGroup = g at *
    have hprod' : s.remaining.prod ≠ 1 := by
      intro hone
      rw [hprod] at hone
      exact hne (Nat.eq_one_of_mul_eq_one_right hone)
    obtain ⟨group, hgroup, hlarge⟩ := exists_remaining hgroups h hprod' hbefore hscroll
    have hs := h.currentGroup hbefore
    dsimp only
    rw [getRemaining, hgroup]
    change (if group < size then _ else _) = _ ∨ ∃ _ _, (if group < size then _ else _) = _ ∧ _
    split
    · -- The size takes what remains of several groups.
      rcases multipleLoop_spec (s.remaining.length - g) hs hbefore size [] [] with
        herror | ⟨s', left, ranges, hloop, hs', hflatten, hleft, hremaining⟩
      · left
        rw [addMultipleRange, herror]
        rfl
      · by_cases hone : left = 1
        · subst hone
          rw [Nat.mul_one] at hleft
          refine Or.inr ⟨.combined (contiguousStrides ranges)
            (List.range' s.newRanges.flatten.length ranges.length), s', ?_, hs', ?_, ranges, hflatten, ?_⟩
          · rw [addMultipleRange, hloop]
            change Except.ok (Getter.combined ([] ++ (contiguousStrides ranges).map (· * 1)) ([] ++ _), s') = _
            simp
          · rw [List.prod_singleton, ← hleft]
            exact hremaining
          · rw [← hleft]
            apply reads_place
            intro v w tail hv hw
            have hlength : (contiguousStrides ranges).length = w.length := by
              rw [length_contiguousStrides, hw]
            have hcombine := combine_range' hlength v tail 0
            rw [hv, hw, Nat.zero_add] at hcombine
            simpa [Getter.apply] using hcombine
        · left
          rw [addMultipleRange, hloop]
          simp only [bind, Except.bind, ne_eq, hone, not_false_eq_true, if_true]
          rfl
    · -- The size is taken from one group.
      by_cases hdvd : size ∣ group
      · obtain ⟨s', hadd, hs', hflatten, hremaining, -⟩ := addRange_ok hs hgroup hlarge hdvd hbefore
        refine Or.inr ⟨.item s.newRanges.flatten.length, s', ?_, hs', ?_, [size], hflatten, ?_⟩
        · rw [hadd]
          rfl
        · rw [List.prod_singleton, hremaining]
          exact prod_set hgroup hdvd
        · have hreads : Reads s.newRanges.flatten.length [.item s.newRanges.flatten.length] [size]
              [[size].prod] := by
            apply reads_place
            intro v w tail hv hw
            obtain ⟨i, rfl⟩ := List.length_eq_one_iff.mp hw
            rw [Getter.apply, getItem, List.append_assoc, List.getElem?_append_right (le_of_eq hv), hv,
              Nat.sub_self]
            simp [contiguousStrides, place]
          rwa [List.prod_singleton] at hreads
      · left
        have herror : addRange { s with currentGroup := g } g size = .error .cantSplit :=
          addRange_of_not_dvd hgroup hdvd
        rw [herror]
        rfl
/-! ### All the sizes -/

theorem Splits.append {groups : List ℕ} {s s' s'' : SplitState} {sizes sizes' : List ℕ}
    {getters getters' : List Getter} (h : Splits groups s sizes s' getters)
    (h' : Splits groups s' sizes' s'' getters') :
    Splits groups s (sizes ++ sizes') s'' (getters ++ getters') := by
  obtain ⟨-, hprod, ranges, hflatten, hreads⟩ := h
  obtain ⟨hs'', hprod', ranges', hflatten', hreads'⟩ := h'
  refine ⟨hs'', ?_, ranges ++ ranges', ?_, ?_⟩
  · rw [List.prod_append, Nat.mul_comm sizes.prod, ← Nat.mul_assoc, hprod', hprod]
  · rw [hflatten', hflatten, List.append_assoc]
  · rw [hflatten, List.length_append] at hreads'
    exact hreads.append hreads'

/-- What is left to split after a step. -/
theorem Splits.remaining {groups : List ℕ} {s s' : SplitState} {sizes : List ℕ} {getters : List Getter}
    (h : Splits groups s sizes s' getters) (hsizes : 0 < sizes.prod) {rest : ℕ}
    (hprod : s.remaining.prod = sizes.prod * rest) : s'.remaining.prod = rest := by
  have hstep := h.2.1
  rw [hprod, Nat.mul_comm] at hstep
  exact Nat.eq_of_mul_eq_mul_left hsizes hstep

theorem prod_pos {sizes : List ℕ} (h : ∀ size ∈ sizes, 0 < size) : 0 < sizes.prod := by
  induction sizes with
  | nil => simp
  | cons size sizes ih =>
    rw [List.forall_mem_cons] at h
    rw [List.prod_cons]
    exact Nat.mul_pos h.1 (ih h.2)

theorem splitGroup_spec {groups : List ℕ} (hgroups : ∀ g ∈ groups, 0 < g) (lengthGroup : List ℕ)
    {s : SplitState} (h : SplitInv groups s) (hsizes : ∀ size ∈ lengthGroup, 0 < size) {rest : ℕ}
    (hprod : s.remaining.prod = lengthGroup.prod * rest) :
    splitGroup s lengthGroup = .error .cantSplit ∨
      ∃ getters s', splitGroup s lengthGroup = .ok (getters, s') ∧ getters.length = lengthGroup.length ∧
        Splits groups s lengthGroup s' getters := by
  induction lengthGroup generalizing s with
  | nil =>
    refine Or.inr ⟨[], s, rfl, rfl, h, by simp, [], by simp, ?_⟩
    exact reads_nil _
  | cons size lengthGroup ih =>
    rw [List.forall_mem_cons] at hsizes
    rw [List.prod_cons, Nat.mul_assoc] at hprod
    rcases splitSize_spec hgroups h hsizes.1 hprod with herror | ⟨getter, s', hsize, hsplits⟩
    · left
      rw [splitGroup, herror]
      rfl
    · have hprod' := hsplits.remaining (by simpa using hsizes.1) (by simpa using hprod)
      rcases ih hsplits.1 hsizes.2 hprod' with herror | ⟨getters, s'', hgroup, hlength, hsplits'⟩
      · left
        rw [splitGroup, hsize]
        change (do let result ← splitGroup s' lengthGroup; pure (getter :: result.1, result.2)) = _
        rw [herror]
        rfl
      · refine Or.inr ⟨getter :: getters, s'', ?_, by simp [hlength], hsplits.append hsplits'⟩
        rw [splitGroup, hsize]
        change (do let result ← splitGroup s' lengthGroup; pure (getter :: result.1, result.2)) = _
        rw [hgroup]
        rfl

theorem splitGroups_spec {groups : List ℕ} (hgroups : ∀ g ∈ groups, 0 < g) (lengths : List (List ℕ))
    {s : SplitState} (h : SplitInv groups s) (hsizes : ∀ lengthGroup ∈ lengths, ∀ size ∈ lengthGroup, 0 < size)
    {rest : ℕ} (hprod : s.remaining.prod = lengths.flatten.prod * rest) :
    splitGroups s lengths = .error .cantSplit ∨
      ∃ getters s', splitGroups s lengths = .ok (getters, s') ∧
        getters.map List.length = lengths.map List.length ∧
        Splits groups s lengths.flatten s' getters.flatten := by
  induction lengths generalizing s with
  | nil =>
    refine Or.inr ⟨[], s, rfl, rfl, h, by simp, [], by simp, ?_⟩
    exact reads_nil _
  | cons lengthGroup lengths ih =>
    rw [List.forall_mem_cons] at hsizes
    rw [List.flatten_cons, List.prod_append, Nat.mul_assoc] at hprod
    rcases splitGroup_spec hgroups lengthGroup h hsizes.1 hprod with herror | ⟨getters, s', hgroup, hlength, hsplits⟩
    · left
      rw [splitGroups, herror]
      rfl
    · have hprod' := hsplits.remaining (prod_pos hsizes.1) hprod
      rcases ih hsplits.1 hsizes.2 hprod' with herror | ⟨rest, s'', hgroups', hlength', hsplits'⟩
      · left
        rw [splitGroups, hgroup]
        change (do let result ← splitGroups s' lengths; pure (getters :: result.1, result.2)) = _
        rw [herror]
        rfl
      · refine Or.inr ⟨getters :: rest, s'', ?_, by simp [hlength, hlength'], hsplits.append hsplits'⟩
        rw [splitGroups, hgroup]
        change (do let result ← splitGroups s' lengths; pure (getters :: result.1, result.2)) = _
        rw [hgroups']
        rfl

/-! ### The split -/

/-- The ranges of a group multiply to it, and the getters run through the tuples of the sizes once, in
row-major order, as the variables run through those of the ranges. -/
structure SplitsRowMajor (groups : List ℕ) (lengths : List (List ℕ)) (newRanges : List (List ℕ))
    (getters : List (List Getter)) : Prop where
  prod_newRanges : newRanges.map List.prod = groups
  length_getters : getters.map List.length = lengths.map List.length
  rowMajor : ((tuples newRanges.flatten).map fun flatVars =>
      getters.flatten.mapM fun getter => getter.apply flatVars) =
    (tuples lengths.flatten).map .ok

theorem splitInv_start (groups : List ℕ) :
    SplitInv groups
      { newRanges := groups.map fun _ => [], remaining := groups, varCount := 0, currentGroup := 0 } := by
  have hempty : ∀ i, (groups.map fun _ => ([] : List ℕ)).getD i [] = [] := by
    intro i
    rw [List.getD_eq_getElem?_getD, List.getElem?_map]
    cases groups[i]? <;> rfl
  constructor
  · simp
  · rfl
  · intro i
    rw [hempty]
    simp
  · intro i j _ hne
    exact absurd (hempty j) hne
  · symm
    rw [List.length_eq_zero_iff, List.flatten_eq_nil_iff]
    simp
  · intro i hi
    exact absurd hi (Nat.not_lt_zero i)

/-- Nothing remains of the groups in the end. -/
theorem splitIterationRanges_cases {groups : List ℕ} {lengths : List (List ℕ)} (hgroups : ∀ g ∈ groups, 0 < g)
    (hlengths : ∀ size ∈ lengths.flatten, 0 < size) (hprod : groups.prod = lengths.flatten.prod) :
    splitIterationRanges groups lengths = .error .cantSplit ∨
      ∃ s getters, splitIterationRanges groups lengths = .ok (s.newRanges, getters) ∧ SplitInv groups s ∧
        (∀ size ∈ s.remaining, size = 1) ∧ getters.map List.length = lengths.map List.length ∧
        Reads 0 getters.flatten s.newRanges.flatten lengths.flatten := by
  have hsizes : ∀ lengthGroup ∈ lengths, ∀ size ∈ lengthGroup, 0 < size :=
    fun lengthGroup hmem size hsize => hlengths size (List.mem_flatten_of_mem hmem hsize)
  have hempty : (groups.map fun _ => ([] : List ℕ)).flatten = [] := List.flatten_eq_nil_iff.mpr (by simp)
  rcases splitGroups_spec hgroups lengths (splitInv_start groups) hsizes
    (by rw [hprod, Nat.mul_one]) with herror | ⟨getters, s, hsplit, hlength, hsplits⟩
  · left
    rw [splitIterationRanges, herror]
    rfl
  · have hone := eq_one_of_prod_eq_one (hsplits.remaining (prod_pos hlengths) (by rw [hprod, Nat.mul_one]))
    obtain ⟨hs, -, ranges, hflatten, hreads⟩ := hsplits
    dsimp only at hflatten hreads
    rw [hempty, List.nil_append] at hflatten
    rw [hempty, ← hflatten] at hreads
    refine Or.inr ⟨s, getters, ?_, hs, hone, hlength, hreads⟩
    rw [splitIterationRanges, hsplit]
    change (if s.remaining.all (· = 1) then _ else _) = _
    rw [if_pos (by simpa using hone)]
    rfl

theorem splitIterationRanges_rowMajor {groups : List ℕ} {lengths : List (List ℕ)}
    (hgroups : ∀ g ∈ groups, 0 < g) (hlengths : ∀ size ∈ lengths.flatten, 0 < size)
    (hprod : groups.prod = lengths.flatten.prod) :
    splitIterationRanges groups lengths = .error .cantSplit ∨
      ∃ newRanges getters, splitIterationRanges groups lengths = .ok (newRanges, getters) ∧
        SplitsRowMajor groups lengths newRanges getters := by
  rcases splitIterationRanges_cases hgroups hlengths hprod with
    herror | ⟨s, getters, hok, hs, hone, hlength, val, hval, htuples⟩
  · exact Or.inl herror
  · refine Or.inr ⟨s.newRanges, getters, hok, ?_, hlength, ?_⟩
    · apply List.ext_getElem
      · rw [List.length_map, hs.length_newRanges]
      · intro i hi hi'
        have hlt : i < s.newRanges.length := by simpa using hi
        have hlt' : i < s.remaining.length := by rwa [hs.length_remaining]
        have hi'' := hs.prod_eq i
        rw [List.getD_eq_getElem _ _ hlt, List.getD_eq_getElem _ _ hlt', List.getD_eq_getElem _ _ hi',
          hone _ (List.getElem_mem hlt'), Nat.mul_one] at hi''
        rw [List.getElem_map, hi'']
    · rw [← htuples, List.map_map]
      apply List.map_congr_left
      intro w hw
      have hread := hval [] w [] rfl (length_of_mem_tuples hw)
      rwa [List.nil_append, List.append_nil] at hread

/-- A size of 6 that takes the rest of one group and the whole of another. -/
theorem splitIterationRanges_rowMajor_two :
    splitIterationRanges [4, 3] [[2, 6]] = .error .cantSplit ∨
      ∃ newRanges getters, splitIterationRanges [4, 3] [[2, 6]] = .ok (newRanges, getters) ∧
        SplitsRowMajor [4, 3] [[2, 6]] newRanges getters :=
  splitIterationRanges_rowMajor (by decide) (by decide) (by decide)

example : splitIterationRanges [4, 3] [[2, 6]] =
    .ok ([[2, 2], [3]], [[.item 0, .combined [3, 1] [1, 2]]]) := by
  decide +kernel

end TorchNpu.Inductor
