/-
  Does a call of `map` that fails leave the segment as it was?

  The first loop of `map` gives handles to the pages of the range and the second one maps them, so that in between
  there are pages with a handle that are not mapped.  Only an error that says that the device has no memory takes them
  back.
-/
import TorchNpu.Allocator.MappedSegment
import TorchNpu.Lib.Machine
import TorchNpu.Lib.Wp
import Mathlib.Data.List.DropRight

namespace TorchNpu.Allocator

namespace MappedSegment

/-! ### What a segment holds -/

/-- The handle of a page. -/
def held (m : MappedSegment) (i : ℕ) : Option Handle :=
  m.handles[i]?.join

/-- The handles that the segment and the pool hold. -/
def holdings (m : MappedSegment) : List Handle :=
  m.handles.filterMap id ++ m.freePhysicalHandles

/-- No handle is held for a page that is not mapped to it; none is leaked, and none is held twice. -/
structure Sound (m : MappedSegment) : Prop where
  mapped : ∀ i h, m.held i = some h → m.mapped i = some h
  notLeaked : ∀ h ∈ m.physical, h ∈ m.holdings
  notTwice : m.holdings.Nodup

/-- The state between two calls that did nothing wrong: the driver and the segment agree. -/
structure Clean (m : MappedSegment) : Prop where
  mapped_eq : ∀ i, m.mapped i = m.held i
  physical_perm : m.physical.Perm m.holdings
  nodup : m.physical.Nodup

def RangeFree (m : MappedSegment) (first last : ℕ) : Prop :=
  ∀ i, first ≤ i → i < last → m.held i = none

def AllMapped (m : MappedSegment) (first last : ℕ) : Prop :=
  ∀ i, first ≤ i → i < last → ∃ h, m.held i = some h ∧ m.mapped i = some h

/-- What a call of `map` should end with. -/
def AllOrNothing (e : ExpandableSegment) (first last : ℕ) : EStateM.Result Exception MappedSegment Range → Prop
  | .ok r m => r = e.rangeFromHandles first last ∧ m.AllMapped first last ∨ m.Sound ∧ m.RangeFree first last
  | .error _ m => m.Sound ∧ m.RangeFree first last

theorem Clean.sound {m : MappedSegment} (h : m.Clean) : m.Sound where
  mapped i _ hi := (h.mapped_eq i).trans hi
  notLeaked _ hmem := h.physical_perm.mem_iff.mp hmem
  notTwice := h.physical_perm.nodup_iff.mp h.nodup

/-! ### The answers of the driver -/

/-- The next calls succeed. -/
def allDone : ℕ → List Answer → Bool
  | 0, _ => true
  | n + 1, .done :: answers => allDone n answers
  | _ + 1, _ => false

/-- For a range of so many pages of which some have a handle and the others do not: nothing fails; or the device has
no memory left and takes the handles back; or it fails to give the first one. -/
def harmless (pages got : ℕ) : ℕ → List Answer → Bool
  | 0, answers => allDone pages answers
  | n + 1, .physical _ :: answers => harmless pages (got + 1) n answers
  | _ + 1, .memoryAllocation :: answers => allDone got answers
  | _ + 1, .failure :: _ => got = 0
  | _ + 1, _ => false

/-- When `map` does what it should. -/
def Harmless (hasPool : Bool) (e : ExpandableSegment) (r : Range) (m : MappedSegment) : Prop :=
  let first := e.segmentLeft r.lo
  let last := e.segmentRight (r.lo + r.size)
  let count := (cached hasPool m).length
  m.RangeFree first last ∧
    (e.ptr + first * e.segmentSize = r.lo → first ≠ last →
      harmless (last - first) (min count (last - first)) (last - first - count) m.answers = true)

/-! ### Lists of handles -/

theorem perm_filterMap_set {l : List (Option Handle)} {i : ℕ} (h : l[i]? = some none) (handle : Handle) :
    ((l.set i (some handle)).filterMap id).Perm (handle :: l.filterMap id) := by
  induction l generalizing i with
  | nil => exact absurd h (by simp)
  | cons page l ih =>
    cases i with
    | zero =>
      obtain rfl : page = none := by simpa using h
      exact List.Perm.refl _
    | succ i =>
      rw [List.getElem?_cons_succ] at h
      rw [List.set_cons_succ]
      cases page with
      | none => exact ih h
      | some other => exact ((ih h).cons other).trans (List.Perm.swap _ _ _)

theorem perm_filterMap_set_none {l : List (Option Handle)} {i : ℕ} {handle : Handle}
    (h : l[i]? = some (some handle)) : (l.filterMap id).Perm (handle :: (l.set i none).filterMap id) := by
  obtain ⟨hi, hget⟩ := List.getElem?_eq_some_iff.mp h
  have hnone : (l.set i none)[i]? = some none := by rw [List.getElem?_set_self hi]
  have hperm := perm_filterMap_set hnone handle
  rw [List.set_set, ← hget, List.set_getElem_self] at hperm
  exact hperm

theorem filterMap_append_replicate (l : List (Option Handle)) (n : ℕ) :
    (l ++ List.replicate n none).filterMap id = l.filterMap id := by
  rw [List.filterMap_append, List.filterMap_replicate_of_none rfl, List.append_nil]

theorem join_append_replicate (l : List (Option Handle)) (n i : ℕ) :
    (l ++ List.replicate n none)[i]?.join = l[i]?.join := by
  by_cases hi : i < l.length
  · rw [List.getElem?_append_left hi]
  · rw [List.getElem?_append_right (by omega), List.getElem?_eq_none (by omega : l.length ≤ i), List.getElem?_replicate]
    split_ifs
    · rfl
    · rfl

/-- `trimHandles` takes away nothing but empty elements. -/
theorem exists_trim_append (l : List (Option Handle)) : ∃ n, l = trim l ++ List.replicate n none := by
  have hempty : ∀ page ∈ l.rtakeWhile (·.isNone), page = none := fun page hpage =>
    Option.isNone_iff_eq_none.mp (List.mem_rtakeWhile_imp hpage)
  refine ⟨(l.rtakeWhile (·.isNone)).length, ?_⟩
  rw [← List.eq_replicate_of_mem hempty]
  exact List.rdropWhile_append_rtakeWhile.symm

theorem filterMap_trim (l : List (Option Handle)) : (trim l).filterMap id = l.filterMap id := by
  obtain ⟨n, hn⟩ := exists_trim_append l
  calc (trim l).filterMap id = (trim l ++ List.replicate n none).filterMap id := (filterMap_append_replicate _ n).symm
    _ = l.filterMap id := by rw [← hn]

theorem join_trim (l : List (Option Handle)) (i : ℕ) : (trim l)[i]?.join = l[i]?.join := by
  obtain ⟨n, hn⟩ := exists_trim_append l
  calc (trim l)[i]?.join = (trim l ++ List.replicate n none)[i]?.join := (join_append_replicate _ n i).symm
    _ = l[i]?.join := by rw [← hn]

/-- Only the pages and what is held count. -/
theorem Clean.congr {m m' : MappedSegment} (h : m.Clean) (hheld : ∀ i, m'.held i = m.held i)
    (hmapped : m'.mapped = m.mapped) (hperm : m'.physical.Perm m'.holdings) (hnodup : m'.physical.Nodup) : m'.Clean where
  mapped_eq i := by rw [hmapped, h.mapped_eq, hheld]
  physical_perm := hperm
  nodup := hnodup

theorem rangeFree_congr {m m' : MappedSegment} {first last : ℕ} (hheld : ∀ i, m'.held i = m.held i) :
    m'.RangeFree first last ↔ m.RangeFree first last := by
  unfold RangeFree
  simp only [hheld]

/-! ### The steps of the loops -/

section

variable {m m' : MappedSegment} {i : ℕ} {handle : Handle} {E : Exception → MappedSegment → Prop}

theorem held_set (hi : i < m.handles.length) (page : Option Handle) (j : ℕ) :
    held { m with handles := m.handles.set i page } j = if j = i then page else m.held j := by
  unfold held
  by_cases hj : j = i
  · rw [if_pos hj, hj, List.getElem?_set_self hi]
    rfl
  · rw [if_neg hj, List.getElem?_set_ne (Ne.symm hj)]

theorem wp_handleAt {Q : Option Handle → MappedSegment → Prop} (hi : i < m.handles.length) (hQ : Q (m.held i) m) :
    wp (handleAt i) m Q E := by
  refine wp_bind (wp_get ?_)
  unfold held at hQ
  rw [List.getElem?_eq_getElem hi] at hQ ⊢
  exact wp_pure hQ

theorem wp_handleValue {Q : Handle → MappedSegment → Prop} (h : m.held i = some handle) (hQ : Q handle m) :
    wp (handleValue i) m Q E := by
  have hi : i < m.handles.length := by
    by_contra hle
    unfold held at h
    rw [List.getElem?_eq_none (not_lt.mp hle)] at h
    exact absurd h (by simp)
  refine wp_bind (wp_handleAt hi ?_)
  rw [h]
  exact wp_pure hQ

/-- A call either succeeds, or it fails and changes nothing; the answer is taken from the list. -/
theorem wp_check {effect : MappedSegment → MappedSegment} {Q : PUnit → MappedSegment → Prop}
    (hdone : ∀ answers, m.answers = .done :: answers → Q ⟨⟩ (effect { m with answers }))
    (hfail : ∀ a answers, m.answers = a :: answers → a ≠ .done → E .aclError { m with answers })
    (hunanswered : ∀ m', E .unanswered m') : wp (check effect) m Q E := by
  refine wp_bind (wp_bind (wp_get ?_))
  cases hanswers : m.answers with
  | nil => exact wp_throw (hunanswered m)
  | cons a answers =>
    refine wp_bind (wp_set (wp_pure ?_))
    cases a with
    | done => exact wp_modify (hdone answers hanswers)
    | memoryAllocation => exact wp_throw (hfail _ answers hanswers (by simp))
    | failure => exact wp_throw (hfail _ answers hanswers (by simp))
    | address ptr => exact wp_throw (hunanswered _)
    | reserved ptr n => exact wp_throw (hunanswered _)
    | physical handle => exact wp_throw (hunanswered _)
    | event complete => exact wp_throw (hunanswered _)

/-- The same, where all of the next calls should succeed. -/
theorem wp_check_allDone {effect : MappedSegment → MappedSegment} {Q : PUnit → MappedSegment → Prop} {n : ℕ} {C : Prop}
    (hC : C ↔ allDone (n + 1) m.answers = true)
    (hdone : ∀ answers, (C ↔ allDone n answers = true) → Q ⟨⟩ (effect { m with answers }))
    (hfail : ∀ answers, ¬C → E .aclError { m with answers })
    (hunanswered : ∀ m', E .unanswered m') : wp (check effect) m Q E := by
  refine wp_check (fun answers hanswers => hdone answers ?_) (fun a answers hanswers ha => hfail answers ?_)
    hunanswered
  · rw [hC, hanswers, allDone]
  · rw [hC, hanswers]
    cases a with
    | done => exact absurd rfl ha
    | memoryAllocation => simp [allDone]
    | failure => simp [allDone]
    | address ptr => simp [allDone]
    | reserved ptr n => simp [allDone]
    | physical handle => simp [allDone]
    | event complete => simp [allDone]
end

/-! ### Collecting the handles -/

/-- The pages from `first` on, up to `i`, have got a handle, and none of them is mapped; the others are as they were. -/
structure Collecting (m₀ m : MappedSegment) (first i : ℕ) : Prop where
  length_eq : m.handles.length = m₀.handles.length
  other : ∀ j, ¬(first ≤ j ∧ j < i) → m.held j = m₀.held j
  got : ∀ j, first ≤ j → j < i → m₀.held j = none ∧ ∃ h, m.held j = some h
  mapped_eq : m.mapped = m₀.mapped
  physical_perm : m.physical.Perm m.holdings
  nodup : m.physical.Nodup

namespace Collecting

variable {m₀ m m' : MappedSegment} {first i : ℕ} {handle : Handle}

theorem start (hclean : m₀.Clean) (first : ℕ) : Collecting m₀ m₀ first first where
  length_eq := rfl
  other _ _ := rfl
  got _ hle hlt := absurd hle (not_le.mpr hlt)
  mapped_eq := rfl
  physical_perm := hclean.physical_perm
  nodup := hclean.nodup

theorem answered (h : Collecting m₀ m first i) (answers : List Answer) :
    Collecting m₀ { m with answers } first i :=
  ⟨h.length_eq, h.other, h.got, h.mapped_eq, h.physical_perm, h.nodup⟩

theorem held_eq (h : Collecting m₀ m i i) (j : ℕ) : m.held j = m₀.held j :=
  h.other j fun hj => absurd hj.1 (not_le.mpr hj.2)

/-- Without such pages nothing has changed. -/
theorem clean (h : Collecting m₀ m i i) (hclean : m₀.Clean) : m.Clean :=
  hclean.congr h.held_eq h.mapped_eq h.physical_perm h.nodup

/-- With such a page the segment must not be left alone. -/
theorem not_sound (h : Collecting m₀ m first i) (hclean : m₀.Clean) (hlt : first < i) : ¬m.Sound := by
  intro hsound
  obtain ⟨hnone, handle, hheld⟩ := h.got first le_rfl hlt
  have hmapped := hsound.mapped first handle hheld
  rw [h.mapped_eq, hclean.mapped_eq, hnone] at hmapped
  cases hmapped

/-- The next page gets a handle, from the cache or from the driver. -/
theorem collect (h : Collecting m₀ m first i) (hle : first ≤ i) (hi : i < m.handles.length) (hnone : m.held i = none)
    (hhandles : m'.handles = m.handles.set i (some handle)) (hmapped : m'.mapped = m.mapped)
    (hperm : m'.physical.Perm (handle :: (m.handles.filterMap id ++ m'.freePhysicalHandles)))
    (hnodup : m'.physical.Nodup) : Collecting m₀ m' first (i + 1) := by
  have hheld (j : ℕ) : m'.held j = if j = i then some handle else m.held j := by
    rw [← held_set hi, held, held, hhandles]
  have hpage : m.handles[i]? = some none := by
    unfold held at hnone
    rw [List.getElem?_eq_getElem hi] at hnone ⊢
    exact congrArg some hnone
  refine ⟨?_, fun j hj => ?_, fun j hj hlt => ?_, hmapped.trans h.mapped_eq, ?_, hnodup⟩
  · rw [hhandles, List.length_set, h.length_eq]
  · rw [hheld, if_neg (by omega)]
    exact h.other j (by omega)
  · rw [hheld]
    by_cases heq : j = i
    · rw [if_pos heq]
      refine ⟨?_, handle, rfl⟩
      rw [heq, ← h.other i (by omega), hnone]
    · rw [if_neg heq]
      exact h.got j hj (by omega)
  · refine hperm.trans (List.Perm.symm ?_)
    unfold holdings
    rw [hhandles]
    exact (perm_filterMap_set hpage handle).append_right _

/-- The holdings are a handle and the others, once it has been taken from its page. -/
theorem perm_cons (h : Collecting m₀ m first i) {j : ℕ} (hheld : m.held j = some handle) :
    m.physical.Perm (handle :: holdings { m with handles := m.handles.set j none }) := by
  have hpage : m.handles[j]? = some (some handle) := Option.join_eq_some_iff.mp hheld
  refine h.physical_perm.trans ?_
  exact (perm_filterMap_set_none hpage).append_right _

/-- The first of the pages gives its handle back. -/
theorem giveBack (h : Collecting m₀ m first i) (hlt : first < i) (hheld : m.held first = some handle)
    (answers : List Answer) :
    Collecting m₀
      { m with handles := m.handles.set first none, physical := m.physical.erase handle, answers } (first + 1) i := by
  have hlength : first < m.handles.length := by
    have hpage : m.handles[first]? = some (some handle) := Option.join_eq_some_iff.mp hheld
    exact (List.getElem?_eq_some_iff.mp hpage).1
  refine ⟨?_, fun j hj => ?_, fun j hj hlt' => ?_, h.mapped_eq, ?_, h.nodup.erase _⟩
  · rw [← h.length_eq, List.length_set]
  · refine (held_set hlength none j).trans ?_
    split_ifs with heq
    · rw [heq, (h.got first le_rfl hlt).1]
    · exact h.other j (by omega)
  · have hset := held_set hlength none j
    rw [if_neg (by omega)] at hset
    refine ⟨(h.got j (by omega) hlt').1, ?_⟩
    obtain ⟨handle', hhandle'⟩ := (h.got j (by omega) hlt').2
    exact ⟨handle', hset.trans hhandle'⟩
  · have hperm := (h.perm_cons hheld).erase handle
    rw [List.erase_cons_head] at hperm
    exact hperm

/-- A handle that the driver does not take back is lost. -/
theorem not_sound_of_lost (h : Collecting m₀ m first i) {j : ℕ} (hheld : m.held j = some handle)
    (answers : List Answer) : ¬Sound { m with handles := m.handles.set j none, answers } := by
  intro hsound
  have hperm := h.perm_cons hheld
  have hnodup := hperm.nodup_iff.mp h.nodup
  rw [List.nodup_cons] at hnodup
  exact hnodup.1 (hsound.notLeaked handle (hperm.mem_iff.mpr (List.mem_cons_self)))

end Collecting

section

variable {m₀ m : MappedSegment} {first last i n : ℕ} {C : Prop}

/-- The pages are given back, if the driver takes all of their handles. -/
theorem wp_giveBack {Q : PUnit → MappedSegment → Prop} {E : Exception → MappedSegment → Prop}
    (h : Collecting m₀ m i last) (hlast : i + n = last) (hC : C ↔ allDone n m.answers = true)
    (hQ : ∀ m', Collecting m₀ m' last last → C → Q ⟨⟩ m')
    (hlost : ∀ m', ¬m'.Sound → ¬C → E .aclError m') (hunanswered : ∀ m', E .unanswered m') :
    wp (giveBack i n) m Q E := by
  induction n generalizing i m with
  | zero =>
    obtain rfl : i = last := hlast
    exact wp_pure (hQ m h (hC.mpr rfl))
  | succ n ih =>
    obtain ⟨-, handle, hheld⟩ := h.got i le_rfl (by omega)
    refine wp_bind (wp_handleValue hheld (wp_bind (wp_modify (wp_bind ?_))))
    refine wp_check_allDone (C := C) hC (fun answers hC' => ?_) (fun answers hnot => ?_) hunanswered
    · exact ih (h.giveBack (by omega) hheld answers) (by omega) hC'
    · exact hlost _ (h.not_sound_of_lost hheld answers) hnot

/-- What holds after a call that has thrown, if the condition `C` says whether it did no harm. -/
def Thrown (C : Prop) (first last : ℕ) (err : Exception) (m : MappedSegment) : Prop :=
  err = .unanswered ∨ (m.Sound ∧ m.RangeFree first last ↔ C) ∧ (C → m.Clean)

theorem thrown_of_clean {err : Exception} (hm : m.Clean) (h : m.RangeFree first last ↔ C) : Thrown C first last err m :=
  .inr ⟨(and_iff_right hm.sound).trans h, fun _ => hm⟩

theorem thrown_of_not_sound {err : Exception} (hm : ¬m.Sound) (h : ¬C) : Thrown C first last err m :=
  .inr ⟨iff_of_false (fun hs => hm hs.1) h, fun hC => absurd hC h⟩

/-- If the device has no memory left, the range is as it was unless a handle is lost. -/
theorem wp_rollBack {Q : Bool → MappedSegment → Prop} (hclean : m₀.Clean) (h : Collecting m₀ m first i)
    (hle : first ≤ i) (hC : C ↔ m₀.RangeFree first last ∧ allDone (i - first) m.answers = true)
    (hQ : ∀ m', m'.Clean → (m'.RangeFree first last ↔ C) → Q false m') :
    wp (do giveBack first (i - first); trimHandles; pure false) m Q (Thrown C first last) := by
  refine wp_bind (wp_giveBack h (by omega) Iff.rfl (fun m' hm' hdone => ?_) (fun m' hm' hnot => ?_)
    fun _ => .inl rfl)
  · have hheld (j : ℕ) : held { m' with handles := trim m'.handles } j = m₀.held j := by
      rw [← hm'.held_eq]
      exact join_trim _ j
    refine wp_bind (wp_modify (wp_pure (hQ _ ?_ ?_)))
    · refine (hm'.clean hclean).congr (fun j => (hheld j).trans (hm'.held_eq j).symm) rfl ?_ hm'.nodup
      unfold holdings
      rw [filterMap_trim]
      exact hm'.physical_perm
    · rw [rangeFree_congr hheld, hC]
      exact (and_iff_left hdone).symm
  · exact thrown_of_not_sound hm' fun hc => hnot (hC.mp hc).2

theorem wp_allocPages (hasPool : Bool) (hclean : m₀.Clean) (h : Collecting m₀ m first i) (hle : first ≤ i)
    (hlast : i + n = last) (hlength : last ≤ m₀.handles.length)
    (hC : C ↔ m₀.RangeFree first last ∧
      harmless (last - first) (i - first + min (cached hasPool m).length n) (n - (cached hasPool m).length) m.answers =
        true) :
    wp (allocPages hasPool first i n) m
      (fun got m' =>
        if got then Collecting m₀ m' first last ∧ (C ↔ allDone (last - first) m'.answers = true)
        else m'.Clean ∧ (m'.RangeFree first last ↔ C))
      (Thrown C first last) := by
  induction n generalizing i m with
  | zero =>
    obtain rfl : i = last := hlast
    refine wp_pure ?_
    rw [if_pos rfl]
    refine ⟨h, ?_⟩
    rw [hC, Nat.zero_sub, harmless]
    exact and_iff_right fun j hj hlt => (h.got j hj hlt).1
  | succ n ih =>
    have hi : i < m.handles.length := by
      rw [h.length_eq]
      omega
    have hsame : m.held i = m₀.held i := h.other i (by omega)
    rw [allocPages]
    refine wp_bind (wp_handleAt hi ?_)
    cases hpage : m.held i with
    | some handle =>
      -- The range was not free, and it still is not.
      refine wp_ite (fun _ => wp_bind (wp_throw (.inr ⟨iff_of_false (fun hm => ?_) fun hc => ?_, fun hc => ?_⟩)))
        fun hsome => absurd rfl hsome
      · have hnone := hm.2 i hle (by omega)
        rw [hpage] at hnone
        cases hnone
      all_goals
        have hnone := (hC.mp hc).1 i hle (by omega)
        rw [← hsame, hpage] at hnone
        cases hnone
    | none =>
      refine wp_ite (fun hsome => absurd hsome Bool.false_ne_true) fun _ => wp_bind (wp_get ?_)
      cases hcached : (cached hasPool m).getLast? with
      | some handle =>
        have hpool : hasPool = true := by
          by_contra hnot
          unfold cached at hcached
          rw [if_neg hnot] at hcached
          cases hcached
        subst hpool
        obtain ⟨rest, hrest⟩ := List.getLast?_eq_some_iff.mp hcached
        have hfree : m.freePhysicalHandles = rest ++ [handle] := hrest
        have hdrop : m.freePhysicalHandles.dropLast = rest := by rw [hfree, List.dropLast_concat]
        refine wp_bind (wp_modify (wp_bind (wp_modify (ih ?_ (by omega) (by omega) ?_))))
        · refine h.collect hle hi hpage rfl rfl ?_ h.nodup
          refine h.physical_perm.trans ?_
          unfold holdings
          simp only [hdrop]
          rw [hfree, ← List.append_assoc]
          exact List.perm_append_singleton _ _
        · rw [hC]
          have hlengths : (cached true m).length = rest.length + 1 := by
            rw [hrest, List.length_append, List.length_singleton]
          have hlengths' : (m.freePhysicalHandles.dropLast).length = rest.length := by rw [hdrop]
          simp only [cached, if_true, hlengths'] at hlengths ⊢
          rw [hlengths, Nat.add_min_add_right, Nat.add_sub_add_right, Nat.sub_add_comm hle, Nat.add_assoc, Nat.add_comm 1]
      | none =>
        have hempty : (cached hasPool m).length = 0 := by
          rw [List.getLast?_eq_none_iff.mp hcached, List.length_nil]
        rw [hempty, Nat.zero_min, Nat.add_zero, Nat.sub_zero] at hC
        refine wp_bind (wp_bind (wp_get ?_))
        cases hanswers : m.answers with
        | nil => exact wp_throw (.inl rfl)
        | cons a answers =>
          rw [hanswers] at hC
          have hnext := h.answered answers
          refine wp_bind (wp_set (wp_pure ?_))
          cases a with
          | physical handle =>
            refine wp_bind (wp_get (wp_ite (fun _ => wp_bind (wp_throw (.inl rfl))) fun hfresh => ?_))
            refine wp_bind (wp_modify (wp_bind (wp_modify (ih ?_ (by omega) (by omega) ?_))))
            · exact hnext.collect hle hi hpage rfl rfl (hnext.physical_perm.cons handle)
                (List.nodup_cons.mpr ⟨hfresh, hnext.nodup⟩)
            · rw [hC, harmless, Nat.sub_add_comm hle]
              simp only [cached] at hempty ⊢
              rw [hempty, Nat.zero_min, Nat.add_zero, Nat.sub_zero]
          | memoryAllocation =>
            refine wp_rollBack hclean hnext hle hC fun m' hm' hfree => ?_
            rw [if_neg Bool.false_ne_true]
            exact ⟨hm', hfree⟩
          | failure =>
            refine wp_throw ?_
            rw [harmless, decide_eq_true_eq] at hC
            rcases Nat.eq_or_lt_of_le hle with rfl | hlt
            · refine thrown_of_clean (hnext.clean hclean) ?_
              rw [rangeFree_congr hnext.held_eq, hC]
              exact (and_iff_left (Nat.sub_self _)).symm
            · exact thrown_of_not_sound (hnext.not_sound hclean hlt) fun hc => absurd (hC.mp hc).2 (by omega)
          | done => exact wp_throw (.inl rfl)
          | address ptr => exact wp_throw (.inl rfl)
          | reserved ptr n => exact wp_throw (.inl rfl)
          | event complete => exact wp_throw (.inl rfl)

/-! ### Mapping the pages -/

/-- The pages from `first` on, up to `i`, are mapped to their handles. -/
structure Mapping (m₁ m : MappedSegment) (first i : ℕ) : Prop where
  handles_eq : m.handles = m₁.handles
  free_eq : m.freePhysicalHandles = m₁.freePhysicalHandles
  physical_eq : m.physical = m₁.physical
  mapped_eq : ∀ j, m.mapped j = if first ≤ j ∧ j < i then m₁.held j else m₁.mapped j

theorem Mapping.held_eq {m₁ : MappedSegment} (h : Mapping m₁ m first i) (j : ℕ) : m.held j = m₁.held j := by
  rw [held, held, h.handles_eq]

/-- When all of them are mapped, the segment and the driver agree again. -/
theorem Mapping.clean {m₁ : MappedSegment} (h : Mapping m₁ m first last) (hclean : m₀.Clean)
    (hcollected : Collecting m₀ m₁ first last) : m.Clean where
  mapped_eq j := by
    rw [h.mapped_eq, h.held_eq]
    split_ifs with hj
    · rfl
    · rw [hcollected.mapped_eq, hclean.mapped_eq, hcollected.other j hj]
  physical_perm := by
    rw [h.physical_eq, holdings, h.handles_eq, h.free_eq]
    exact hcollected.physical_perm
  nodup := by
    rw [h.physical_eq]
    exact hcollected.nodup

theorem wp_mapPages {m₁ : MappedSegment} {Q : PUnit → MappedSegment → Prop} (hclean : m₀.Clean)
    (hcollected : Collecting m₀ m₁ first last) (h : Mapping m₁ m first i) (hle : first ≤ i) (hlast : i + n = last)
    (hC : C ↔ allDone n m.answers = true)
    (hQ : ∀ m', m'.Clean → m'.AllMapped first last → C → Q ⟨⟩ m') :
    wp (mapPages i n) m Q (Thrown C first last) := by
  induction n generalizing i m with
  | zero =>
    obtain rfl : i = last := hlast
    have hm := h.clean hclean hcollected
    refine wp_pure (hQ m hm (fun j hj hlt => ?_) (hC.mpr rfl))
    obtain ⟨-, handle, hheld⟩ := hcollected.got j hj hlt
    have hheld := (h.held_eq j).trans hheld
    exact ⟨handle, hheld, (hm.mapped_eq j).trans hheld⟩
  | succ n ih =>
    obtain ⟨hnone, handle, hheld⟩ := hcollected.got i hle (by omega)
    have hheld' := (h.held_eq i).trans hheld
    refine wp_bind (wp_handleValue hheld' (wp_bind ?_))
    refine wp_check_allDone (C := C) hC (fun answers hC' => ?_) (fun answers hnot => ?_) fun _ => .inl rfl
    · refine ih ⟨h.handles_eq, h.free_eq, h.physical_eq, fun j => ?_⟩ (by omega) (by omega) hC'
      refine (Function.update_apply _ _ _ _).trans ?_
      by_cases hj : j = i
      · rw [if_pos hj, if_pos (by omega), hj, hheld]
      · rw [if_neg hj]
        refine (h.mapped_eq j).trans ?_
        by_cases hrange : first ≤ j ∧ j < i
        · rw [if_pos hrange, if_pos (by omega)]
        · rw [if_neg hrange, if_neg (by omega)]
    · -- The handle of this page stays where it is.
      refine thrown_of_not_sound (fun hsound => ?_) hnot
      have hmapped := hsound.mapped i handle hheld'
      have hbefore : m.mapped i = none := by
        rw [h.mapped_eq, if_neg (by omega), hcollected.mapped_eq, hclean.mapped_eq, hnone]
      cases hbefore.symm.trans hmapped

end

/-! ### `map` -/

theorem held_append_replicate (m : MappedSegment) (n i : ℕ) :
    held { m with handles := m.handles ++ List.replicate n none } i = m.held i :=
  join_append_replicate _ n i

theorem segmentLeft_le (e : ExpandableSegment) (r : Range) :
    e.segmentLeft r.lo ≤ e.segmentRight (r.lo + r.size) := by
  unfold ExpandableSegment.segmentLeft ExpandableSegment.segmentRight ExpandableSegment.numSegments
  rcases Nat.eq_zero_or_pos e.segmentSize with hzero | hpos
  · rw [hzero, Nat.div_zero]
    exact Nat.zero_le _
  · exact Nat.div_le_div_right (by omega)

/-- An empty range is not the whole of one that has pages. -/
theorem rangeFromHandles_self_ne {e : ExpandableSegment} {r : Range}
    (hne : e.segmentLeft r.lo ≠ e.segmentRight (r.lo + r.size)) (first : ℕ) :
    e.rangeFromHandles first first ≠
      e.rangeFromHandles (e.segmentLeft r.lo) (e.segmentRight (r.lo + r.size)) := by
  intro heq
  have hsize := congrArg Range.size heq
  have hle := segmentLeft_le e r
  rw [ExpandableSegment.rangeFromHandles, ExpandableSegment.rangeFromHandles] at hsize
  dsimp only at hsize
  rw [Nat.sub_self, Nat.mul_zero, eq_comm, Nat.mul_eq_zero] at hsize
  rcases hsize with hzero | hempty
  · apply hne
    unfold ExpandableSegment.segmentLeft ExpandableSegment.segmentRight ExpandableSegment.numSegments
    rw [hzero, Nat.div_zero, Nat.div_zero]
  · omega

/-- A call of `map` ends in one of the two ways exactly if it is harmless, and then the next call finds everything in
order again. -/
theorem wp_mapRange (hasPool : Bool) (e : ExpandableSegment) (r : Range) {m : MappedSegment} (hclean : m.Clean) :
    wp (mapRange hasPool e r) m
      (fun r' m' =>
        (AllOrNothing e (e.segmentLeft r.lo) (e.segmentRight (r.lo + r.size)) (.ok r' m') ↔ Harmless hasPool e r m) ∧
          (Harmless hasPool e r m → m'.Clean))
      (Thrown (Harmless hasPool e r m) (e.segmentLeft r.lo) (e.segmentRight (r.lo + r.size))) := by
  have hle := segmentLeft_le e r
  have hsame := @rangeFromHandles_self_ne e r
  unfold mapRange Harmless
  dsimp only
  generalize e.segmentLeft r.lo = first, e.segmentRight (r.lo + r.size) = last at *
  refine wp_ite (fun hunaligned => wp_bind (wp_throw ?_)) fun haligned => ?_
  · exact thrown_of_clean hclean (and_iff_left fun heq => absurd heq hunaligned).symm
  rw [not_not] at haligned
  refine wp_ite (fun heq => wp_pure ?_) fun hne => ?_
  · subst heq
    have hfree : m.RangeFree first first := fun i hi hlt => absurd hi (not_le.mpr hlt)
    have hmapped : m.AllMapped first first := fun i hi hlt => absurd hi (not_le.mpr hlt)
    exact ⟨iff_of_true (.inl ⟨rfl, hmapped⟩) ⟨hfree, fun _ hne => absurd rfl hne⟩, fun _ => hclean⟩
  have hheld := held_append_replicate m (last - m.handles.length)
  have hclean₀ : Clean { m with handles := m.handles ++ List.replicate (last - m.handles.length) none } := by
    refine hclean.congr hheld rfl ?_ hclean.nodup
    unfold holdings
    rw [filterMap_append_replicate]
    exact hclean.physical_perm
  have hlength : last ≤ (m.handles ++ List.replicate (last - m.handles.length) none).length := by
    rw [List.length_append, List.length_replicate]
    omega
  refine wp_bind (wp_modify (wp_bind ?_))
  refine (wp_allocPages hasPool hclean₀ (.start hclean₀ first) le_rfl (by omega) hlength ?_).post
    (fun got m' hgot => ?_)
  · rw [Nat.sub_self, Nat.zero_add, rangeFree_congr hheld]
    exact and_congr_right fun _ => ⟨fun h => h haligned hne, fun h _ _ => h⟩
  · cases got with
    | true =>
      rw [if_pos rfl] at hgot
      refine wp_ite (fun _ => wp_bind ?_) fun hnot => absurd rfl hnot
      refine wp_mapPages hclean₀ hgot.1 ⟨rfl, rfl, rfl, fun j => ?_⟩ le_rfl (by omega) hgot.2 fun m'' hm'' hmapped hC => ?_
      · rw [if_neg (by omega)]
      · exact wp_pure ⟨iff_of_true (.inl ⟨rfl, hmapped⟩) hC, fun _ => hm''⟩
    | false =>
      rw [if_neg Bool.false_ne_true] at hgot
      refine wp_ite (fun htrue => absurd htrue Bool.false_ne_true) fun _ => wp_pure ⟨?_, fun _ => hgot.1⟩
      rw [← hgot.2]
      constructor
      · rintro (⟨heq, -⟩ | ⟨-, hfree⟩)
        · exact absurd heq (hsame hne first)
        · exact hfree
      · exact fun hfree => .inr ⟨hgot.1.sound, hfree⟩

/-- `map` maps the whole range or leaves everything in order exactly if it is called for a free range, and nothing
fails but a call of `AclrtMallocPhysical`: for the first page, or with an error that says that the memory is used up
and handles that are all taken back. -/
theorem mapRange_allOrNothing_iff (hasPool : Bool) (e : ExpandableSegment) (r : Range) {m : MappedSegment}
    (hclean : m.Clean) (hanswered : ∀ m', mapRange hasPool e r m ≠ .error .unanswered m') :
    AllOrNothing e (e.segmentLeft r.lo) (e.segmentRight (r.lo + r.size)) (mapRange hasPool e r m) ↔
      Harmless hasPool e r m := by
  have h := wp_mapRange hasPool e r hclean
  unfold wp at h
  cases hresult : mapRange hasPool e r m with
  | ok r' m' =>
    rw [hresult] at h
    exact h.1
  | error err m' =>
    rw [hresult] at h
    rcases h with hunanswered | ⟨hiff, -⟩
    · exact absurd (hunanswered ▸ hresult) (hanswered m')
    · exact hiff
/-- A range of two pages, and a device that has memory for one of them. -/
theorem mapRange_allOrNothing_rollBack :
    AllOrNothing ⟨1000, 100, 8⟩ 0 2
      (mapRange true ⟨1000, 100, 8⟩ ⟨1000, 200⟩ { answers := [.physical 7, .memoryAllocation, .done] }) := by
  have hclean : Clean { answers := [.physical 7, .memoryAllocation, .done] } :=
    ⟨fun _ => rfl, List.Perm.refl _, List.nodup_nil⟩
  refine (mapRange_allOrNothing_iff true ⟨1000, 100, 8⟩ ⟨1000, 200⟩ hclean fun m' h => ?_).mpr
    ⟨fun _ _ _ => rfl, fun _ _ => by decide⟩
  cases h

/-- The second page is not mapped but keeps its handle. -/
theorem not_mapRange_allOrNothing :
    ¬∀ (hasPool : Bool) (e : ExpandableSegment) (r : Range) (m : MappedSegment), m.Clean →
      (∀ m', mapRange hasPool e r m ≠ .error .unanswered m') →
        AllOrNothing e (e.segmentLeft r.lo) (e.segmentRight (r.lo + r.size)) (mapRange hasPool e r m) := by
  intro h
  have hclean : Clean { answers := [.physical 7, .physical 8, .done, .failure] } :=
    ⟨fun _ => rfl, List.Perm.refl _, List.nodup_nil⟩
  have hfree : RangeFree _ 0 2 := (h true ⟨1000, 100, 8⟩ ⟨1000, 200⟩ _ hclean fun m' h => by cases h).2
  have hpage := hfree 1 (by decide) (by decide)
  cases hpage

/-! ### `unmap` -/

section

variable {m : MappedSegment} {i n : ℕ} {handle : Handle}

theorem wp_handleValue_of {Q : Handle → MappedSegment → Prop} {E : Exception → MappedSegment → Prop}
    (hQ : ∀ h, m.held i = some h → Q h m) (hE : E .internalAssert m) : wp (handleValue i) m Q E := by
  refine wp_bind (wp_bind (wp_get ?_))
  unfold held at hQ
  cases hpage : m.handles[i]? with
  | none => exact wp_throw hE
  | some page =>
    refine wp_pure ?_
    cases page with
    | none => exact wp_throw hE
    | some h => exact wp_pure (hQ h (by rw [hpage]; rfl))

/-- A page is unmapped, and its handle goes to the pool or to the driver. -/
theorem Clean.unmapPage {m' : MappedSegment} (h : m.Clean) (hheld : m.held i = some handle)
    (hhandles : m'.handles = m.handles.set i none) (hmapped : m'.mapped = Function.update m.mapped i none)
    (hcases : m'.freePhysicalHandles = m.freePhysicalHandles ++ [handle] ∧ m'.physical = m.physical ∨
      m'.freePhysicalHandles = m.freePhysicalHandles ∧ m'.physical = m.physical.erase handle) : m'.Clean := by
  have hpage : m.handles[i]? = some (some handle) := Option.join_eq_some_iff.mp hheld
  have hi := (List.getElem?_eq_some_iff.mp hpage).1
  have hperm : m.physical.Perm (handle :: ((m.handles.set i none).filterMap id ++ m.freePhysicalHandles)) :=
    h.physical_perm.trans ((perm_filterMap_set_none hpage).append_right _)
  refine ⟨fun j => ?_, ?_, ?_⟩
  · rw [hmapped, Function.update_apply, held, hhandles, h.mapped_eq]
    exact (held_set hi none j).symm
  · unfold holdings
    rw [hhandles]
    rcases hcases with ⟨hfree, hphysical⟩ | ⟨hfree, hphysical⟩
    · rw [hfree, hphysical, ← List.append_assoc]
      exact hperm.trans (List.perm_append_singleton _ _).symm
    · have herase := hperm.erase handle
      rw [List.erase_cons_head] at herase
      rw [hfree, hphysical]
      exact herase
  · rcases hcases with ⟨-, hphysical⟩ | ⟨-, hphysical⟩
    · rw [hphysical]
      exact h.nodup
    · rw [hphysical]
      exact h.nodup.erase _

theorem wp_unmapPages (hasPool : Bool) (h : m.Clean) :
    wp (unmapPages hasPool i n) m (fun _ m' => m'.Clean) fun _ _ => True := by
  induction n generalizing i m with
  | zero => exact wp_pure h
  | succ n ih =>
    refine wp_bind (wp_handleValue_of (fun handle hheld => ?_) trivial)
    refine wp_bind (wp_modify (wp_bind (wp_check (fun answers _ => ?_) (fun _ _ _ _ => trivial) fun _ => trivial)))
    refine wp_ite (fun _ => wp_bind (wp_modify (ih ?_))) fun _ => wp_bind ?_
    · exact h.unmapPage hheld rfl rfl (.inl ⟨rfl, rfl⟩)
    · refine wp_check (fun _ _ => ih ?_) (fun _ _ _ _ => trivial) fun _ => trivial
      exact h.unmapPage hheld rfl rfl (.inr ⟨rfl, rfl⟩)

/-- A call of `unmap` that returns leaves everything in order. -/
theorem wp_unmapRange (hasPool : Bool) (e : ExpandableSegment) (r : Range) (h : m.Clean) :
    wp (unmapRange hasPool e r) m (fun _ m' => m'.Clean) fun _ _ => True := by
  refine wp_ite (fun _ => wp_pure h) fun _ => wp_bind ((wp_unmapPages hasPool h).post fun _ m' hm' => ?_)
  refine wp_bind (wp_modify (wp_pure (hm'.congr (join_trim _) rfl ?_ hm'.nodup)))
  unfold holdings
  rw [filterMap_trim]
  exact hm'.physical_perm

end

/-! ### Runs -/

/-- A call, with the answers of the driver. -/
inductive Call
  | map (r : Range) (answers : List Answer)
  | unmap (r : Range) (answers : List Answer)

/-- The state after a call, whether it has returned or thrown. -/
def stateAfter : EStateM.Result Exception MappedSegment Range → Option MappedSegment
  | .ok _ m => some m
  | .error .unanswered _ => none
  | .error _ m => some m

def step (hasPool : Bool) (e : ExpandableSegment) (m : MappedSegment) : Call → Option MappedSegment
  | .map r answers => stateAfter (mapRange hasPool e r { m with answers })
  | .unmap r answers => stateAfter (unmapRange hasPool e r { m with answers })

/-- `map` does no harm, and `unmap` returns. -/
def Allowed (hasPool : Bool) (e : ExpandableSegment) (m : MappedSegment) : Call → Prop
  | .map r answers => Harmless hasPool e r { m with answers }
  | .unmap r answers => ∃ r' m', unmapRange hasPool e r { m with answers } = .ok r' m'

theorem Clean.answered {m : MappedSegment} (h : m.Clean) (answers : List Answer) : Clean { m with answers } :=
  ⟨h.mapped_eq, h.physical_perm, h.nodup⟩

theorem stateAfter_eq_some {result : EStateM.Result Exception MappedSegment Range} {m : MappedSegment}
    (h : stateAfter result = some m) :
    (∃ r, result = .ok r m) ∨ ∃ err, err ≠ .unanswered ∧ result = .error err m := by
  unfold stateAfter at h
  split at h
  · left
    exact ⟨_, by rw [Option.some_inj.mp h]⟩
  · cases h
  · right
    exact ⟨_, by assumption, by rw [Option.some_inj.mp h]⟩

theorem Clean.step {hasPool : Bool} {e : ExpandableSegment} {m m' : MappedSegment} {call : Call} (h : m.Clean)
    (hallowed : Allowed hasPool e m call) (hstep : step hasPool e m call = some m') : m'.Clean := by
  cases call with
  | map r answers =>
    have hmap := wp_mapRange hasPool e r (h.answered answers)
    unfold wp at hmap
    rcases stateAfter_eq_some hstep with ⟨r', heq⟩ | ⟨err, herr, heq⟩
    · rw [heq] at hmap
      exact hmap.2 hallowed
    · rw [heq] at hmap
      exact (hmap.resolve_left herr).2 hallowed
  | unmap r answers =>
    obtain ⟨r', m'', heq⟩ := hallowed
    have hunmap := wp_unmapRange hasPool e r (h.answered answers)
    unfold wp at hunmap
    change stateAfter (unmapRange hasPool e r { m with answers }) = some m' at hstep
    rw [heq] at hunmap hstep
    obtain rfl := Option.some_inj.mp hstep
    exact hunmap

/-- The device has no memory for the second page; then the first page is mapped, and unmapped. -/
def rollBackRun : List Call :=
  [.map ⟨1000, 200⟩ [.physical 7, .memoryAllocation, .done], .map ⟨1000, 100⟩ [.physical 7, .done],
    .unmap ⟨1000, 100⟩ [.done]]

end MappedSegment

end TorchNpu.Allocator
