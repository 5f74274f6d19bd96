/-
  When every call gets to a dequeue around it.

  The list of the dequeues is looked through once.  What a call at some time finds is the first dequeue that ends
  no earlier (`dequeueAt`), whatever the calls before it have left of the list.
-/
import Mathlib.Algebra.BigOperators.Group.Finset.Piecewise
import Mathlib.Algebra.Order.BigOperators.Group.Finset
import TorchNpu.Lib.SortByKey
import TorchNpu.Profiler.FwkCannRelationParser

namespace TorchNpu.Profiler

/-! ### The dequeues -/

def TaskQueueData.endTs (d : TaskQueueData) : ℤ :=
  d.ts + d.dur

/-- The closed interval of the dequeue holds the time. -/
def TaskQueueData.Holds (d : TaskQueueData) (t : ℤ) : Prop :=
  d.ts ≤ t ∧ t ≤ d.endTs

instance (d : TaskQueueData) (t : ℤ) : Decidable (d.Holds t) :=
  inferInstanceAs (Decidable (d.ts ≤ t ∧ t ≤ d.endTs))

namespace OpMarkMatching

/-- The starts are no later than a time, and nothing ends before it starts. -/
structure UpTo (m : OpMarkMatching) (t : ℤ) : Prop where
  starts : ∀ tid name, ∀ x ∈ m.tidOpDict tid name, x.timeNs ≤ t
  dur_nonneg : ∀ d ∈ m.dataList, 0 ≤ d.dur

variable {m : OpMarkMatching} {t t' : ℤ} {opMark : OpMarkBean}

theorem UpTo.mono (h : m.UpTo t) (hle : t ≤ t') : m.UpTo t' :=
  ⟨fun tid name x hx => (h.starts tid name x hx).trans hle, h.dur_nonneg⟩

theorem UpTo.setStartOps (h : m.UpTo opMark.timeNs) {startOpList : List OpMarkBean}
    (hlist : ∀ x ∈ startOpList, x.timeNs ≤ opMark.timeNs) : (m.setStartOps opMark startOpList).UpTo opMark.timeNs where
  starts tid name x hx := by
    rw [OpMarkMatching.setStartOps] at hx
    dsimp only at hx
    by_cases htid : tid = opMark.tid
    · subst htid
      rw [Function.update_self] at hx
      by_cases hname : name = opMark.originName
      · subst hname
        rw [Function.update_self] at hx
        exact hlist x hx
      · rw [Function.update_of_ne hname] at hx
        exact h.starts _ _ x hx
    · rw [Function.update_of_ne htid] at hx
      exact h.starts _ _ x hx
  dur_nonneg := h.dur_nonneg

theorem UpTo.start (h : m.UpTo opMark.timeNs) : (m.start opMark).UpTo opMark.timeNs := by
  apply h.setStartOps
  intro x hx
  rcases List.mem_append.mp hx with hx | hx
  · exact h.starts _ _ x hx
  · rw [List.mem_singleton.mp hx]

theorem UpTo.end (h : m.UpTo opMark.timeNs) : (m.end opMark).UpTo opMark.timeNs := by
  rw [OpMarkMatching.end]
  cases hlast : (m.tidOpDict opMark.tid opMark.originName).getLast? with
  | none => exact ⟨h.starts, h.dur_nonneg⟩
  | some startOp =>
    have hstart := h.starts _ _ startOp (List.mem_of_getLast? hlast)
    have hcleared : (m.setStartOps opMark []).UpTo opMark.timeNs := h.setStartOps (by simp)
    refine ⟨hcleared.starts, fun d hd => ?_⟩
    rcases List.mem_append.mp hd with hd | hd
    · exact h.dur_nonneg d hd
    · rw [List.mem_singleton.mp hd]
      show 0 ≤ opMark.timeNs - startOp.timeNs
      omega

end OpMarkMatching

/-- The marks are sorted by time, so that a start is no later than the end it is matched with. -/
theorem upTo_foldl_next {m : TaskQueueMatching} {opMarks : List OpMarkBean} {t : ℤ}
    (hsorted : opMarks.Pairwise fun x y => x.timeNs ≤ y.timeNs) (hle : ∀ x ∈ opMarks, t ≤ x.timeNs)
    (henqueue : m.enqueue.UpTo t) (hdequeue : m.dequeue.UpTo t) :
    ∃ t', (opMarks.foldl TaskQueueMatching.next m).dequeue.UpTo t' := by
  induction opMarks generalizing m t with
  | nil => exact ⟨t, hdequeue⟩
  | cons opMark opMarks ih =>
    obtain ⟨hhead, hsorted⟩ := List.pairwise_cons.mp hsorted
    have henqueue' := henqueue.mono (hle opMark (by simp))
    have hdequeue' := hdequeue.mono (hle opMark (by simp))
    rw [List.foldl_cons]
    cases hcategory : opMark.category with
    | enqueueStart =>
      exact ih hsorted hhead (by simpa [TaskQueueMatching.next, hcategory] using henqueue'.start)
        (by simpa [TaskQueueMatching.next, hcategory] using hdequeue')
    | enqueueEnd =>
      exact ih hsorted hhead (by simpa [TaskQueueMatching.next, hcategory] using henqueue'.end)
        (by simpa [TaskQueueMatching.next, hcategory] using hdequeue')
    | dequeueStart =>
      exact ih hsorted hhead (by simpa [TaskQueueMatching.next, hcategory] using henqueue')
        (by simpa [TaskQueueMatching.next, hcategory] using hdequeue'.start)
    | dequeueEnd =>
      exact ih hsorted hhead (by simpa [TaskQueueMatching.next, hcategory] using henqueue')
        (by simpa [TaskQueueMatching.next, hcategory] using hdequeue'.end)

theorem dur_nonneg_getTaskQueueData {opMarkData : List OpMarkBean} {d : TaskQueueData}
    (hd : d ∈ (getTaskQueueData opMarkData).2) : 0 ≤ d.dur := by
  set opMarks := opMarkData.insertionSort fun x y => x.timeNs ≤ y.timeNs with hopMarks
  have hsorted : opMarks.Pairwise fun x y => x.timeNs ≤ y.timeNs :=
    SortByKey.pairwise_insertionSort_on OpMarkBean.timeNs opMarkData
  have hempty : ∀ t, OpMarkMatching.UpTo {} t := fun t => ⟨by simp, by simp⟩
  have hbound : ∃ t : ℤ, ∀ x ∈ opMarks, t ≤ x.timeNs := by
    cases hlist : opMarks with
    | nil => exact ⟨0, by simp⟩
    | cons opMark opMarks' =>
      rw [hlist, List.pairwise_cons] at hsorted
      exact ⟨opMark.timeNs, List.forall_mem_cons.mpr ⟨le_rfl, hsorted.1⟩⟩
  obtain ⟨t, hle⟩ := hbound
  obtain ⟨t', hupTo⟩ := upTo_foldl_next hsorted hle (m := {}) (hempty t) (hempty t)
  exact hupTo.dur_nonneg d hd

namespace FwkCannRelationParser

/-! ### What a call finds -/

/-- The first dequeue that ends no earlier than the time, if it has started. -/
def dequeueAt (dequeues : List TaskQueueData) (t : ℤ) : Option TaskQueueData :=
  (dequeues.find? fun d => t ≤ d.endTs).filter fun d => d.ts ≤ t

variable {dequeues : List TaskQueueData} {t t' : ℤ} {d : TaskQueueData}

theorem dequeueAt_cons :
    dequeueAt (d :: dequeues) t =
      if t ≤ d.endTs then (if d.ts ≤ t then some d else none) else dequeueAt dequeues t := by
  rw [dequeueAt, List.find?_cons]
  by_cases hend : t ≤ d.endTs
  · simp [hend, Option.filter]
  · simp [hend, dequeueAt]

theorem dequeueAt_eq_some (h : dequeueAt dequeues t = some d) : d ∈ dequeues ∧ d.Holds t := by
  obtain ⟨hfind, hts⟩ := Option.filter_eq_some_iff.mp h
  exact ⟨List.mem_of_find?_eq_some hfind, by simpa using hts, by simpa using List.find?_some hfind⟩

/-- What the inner loop leaves has lost only dequeues that end before the call. -/
theorem matchDequeue_eq (hdur : ∀ d ∈ dequeues, 0 ≤ d.dur) :
    matchDequeue t dequeues = (dequeues.dropWhile fun d => d.endTs < t, dequeueAt dequeues t) := by
  induction dequeues with
  | nil => rfl
  | cons d dequeues ih =>
    rw [List.forall_mem_cons] at hdur
    have hdur' := hdur.1
    rw [matchDequeue, ih hdur.2, dequeueAt_cons, List.dropWhile_cons]
    rw [← TaskQueueData.endTs]
    have hle : d.ts ≤ d.endTs := by
      rw [TaskQueueData.endTs]
      omega
    by_cases hts : t < d.ts
    · have hend : t ≤ d.endTs := by omega
      have hend' : ¬ d.endTs < t := by omega
      have hts' : ¬ d.ts ≤ t := by omega
      simp [hts, hts', hend, hend']
    · have hts' : d.ts ≤ t := by omega
      by_cases hend : t ≤ d.endTs
      · have hend' : ¬ d.endTs < t := by omega
        simp [hts, hts', hend, hend']
      · have hend' : d.endTs < t := by omega
        simp [hts, hend, hend']

/-- A later call finds the same in what is left. -/
theorem dequeueAt_dropWhile (hle : t ≤ t') :
    dequeueAt (dequeues.dropWhile fun d => d.endTs < t) t' = dequeueAt dequeues t' := by
  induction dequeues with
  | nil => rfl
  | cons d dequeues ih =>
    rw [List.dropWhile_cons]
    by_cases hend : d.endTs < t
    · have hend' : ¬ t' ≤ d.endTs := by omega
      rw [if_pos (by simpa using hend), ih, dequeueAt_cons, if_neg hend']
    · rw [if_neg (by simpa using hend)]

/-! ### The dictionary -/

variable {κ : Type*}

/-- The calls that get to a dequeue, each with that dequeue. -/
def attributions (find : ℤ → Option TaskQueueData) (times : List ℤ) : List (ℤ × TaskQueueData) :=
  times.filterMap fun t => (find t).map fun d => (t, d)

/-- The kernels of a call. -/
def kernelsAt (dict : Dict ℤ (List κ)) (t : ℤ) : List κ :=
  (dict.get? t).getD []

/-- The kernels of some calls under a correlation id. -/
def kernelsOf (dict : Dict ℤ (List κ)) (calls : List (ℤ × TaskQueueData)) (corrId : ℤ) : List κ :=
  (calls.filter fun call => (call.2.corrId : ℤ) = corrId).flatMap fun call => kernelsAt dict call.1

section Attributions

variable {find : ℤ → Option TaskQueueData} {times : List ℤ}

theorem mem_attributions {call : ℤ × TaskQueueData} :
    call ∈ attributions find times ↔ call.1 ∈ times ∧ find call.1 = some call.2 := by
  constructor
  · intro h
    obtain ⟨t, ht, hcall⟩ := List.mem_filterMap.mp h
    obtain ⟨d, hd, rfl⟩ := Option.map_eq_some_iff.mp hcall
    exact ⟨ht, hd⟩
  · intro ⟨ht, hd⟩
    exact List.mem_filterMap.mpr ⟨call.1, ht, by rw [hd]; rfl⟩

theorem nodup_attributions (h : times.Nodup) : ((attributions find times).map Prod.fst).Nodup := by
  suffices hsublist : ((attributions find times).map Prod.fst).Sublist times from h.sublist hsublist
  clear h
  induction times with
  | nil => exact List.Sublist.refl _
  | cons t times ih =>
    rw [attributions, List.filterMap_cons]
    cases find t with
    | none => exact ih.cons t
    | some d => exact ih.cons_cons t

/-- Only where a call with kernels gets to matters for what is under a correlation id. -/
theorem kernelsOf_attributions_congr {dict : Dict ℤ (List κ)} {find' : ℤ → Option TaskQueueData}
    (h : ∀ t ∈ times, kernelsAt dict t ≠ [] → find t = find' t) (corrId : ℤ) :
    kernelsOf dict (attributions find times) corrId = kernelsOf dict (attributions find' times) corrId := by
  have hcons : ∀ (find : ℤ → Option TaskQueueData) (t : ℤ) (times : List ℤ),
      kernelsOf dict (attributions find (t :: times)) corrId =
        ((find t).elim [] fun d => if (d.corrId : ℤ) = corrId then kernelsAt dict t else []) ++
          kernelsOf dict (attributions find times) corrId := by
    intro find t times
    rw [attributions, List.filterMap_cons]
    cases find t with
    | none => rfl
    | some d =>
      rw [kernelsOf, Option.map_some, List.filter_cons, Option.elim_some]
      by_cases hcorr : (d.corrId : ℤ) = corrId
      · simp [hcorr, kernelsOf, attributions]
      · simp [hcorr, kernelsOf, attributions]
  induction times with
  | nil => rfl
  | cons t times ih =>
    obtain ⟨hhead, htail⟩ := List.forall_mem_cons.mp h
    rw [hcons, hcons, ih htail]
    congr 1
    by_cases hkernels : kernelsAt dict t = []
    · cases find t <;> cases find' t <;> simp [hkernels]
    · rw [hhead hkernels]

end Attributions

/-- The outer loop.  What the inner loops leave does not matter. -/
theorem foldl_combineCall (aclToNpuDict : Dict ℤ (List κ)) {times : List ℤ} (hsorted : times.Pairwise (· ≤ ·))
    (hdur : ∀ d ∈ dequeues, 0 ≤ d.dur) (result : Dict ℤ (List κ)) :
    (times.foldl (combineCall aclToNpuDict) (dequeues, result)).2 =
      (attributions (dequeueAt dequeues) times).foldl
        (fun result call => result.modify call.2.corrId fun kernels =>
          kernels.getD [] ++ kernelsAt aclToNpuDict call.1) result := by
  induction times generalizing dequeues result with
  | nil => rfl
  | cons t times ih =>
    obtain ⟨hhead, hsorted⟩ := List.pairwise_cons.mp hsorted
    have hleft : ∀ d ∈ dequeues.dropWhile (fun d => d.endTs < t), 0 ≤ d.dur := fun d hd =>
      hdur d (List.dropWhile_sublist _ |>.mem hd)
    have hsame : attributions (dequeueAt (dequeues.dropWhile fun d => d.endTs < t)) times =
        attributions (dequeueAt dequeues) times :=
      List.filterMap_congr fun t' ht' => by rw [dequeueAt_dropWhile (hhead t' ht')]
    rw [List.foldl_cons, combineCall, matchDequeue_eq hdur, attributions, List.filterMap_cons]
    cases hfound : dequeueAt dequeues t with
    | none =>
      dsimp only [Option.map_none]
      rw [ih hsorted hleft, hsame]
      rfl
    | some d =>
      dsimp only [Option.map_some]
      rw [ih hsorted hleft, hsame, List.foldl_cons]
      rfl

/-- What is under a correlation id are the kernels of the calls that got to its dequeues. -/
theorem kernelsAt_foldl (aclToNpuDict : Dict ℤ (List κ)) (calls : List (ℤ × TaskQueueData)) (corrId : ℤ) :
    kernelsAt (calls.foldl
      (fun result call => result.modify call.2.corrId fun kernels =>
        kernels.getD [] ++ kernelsAt aclToNpuDict call.1) Dict.empty) corrId =
      kernelsOf aclToNpuDict calls corrId := by
  -- What a call adds under its correlation id.
  set extend : Option (List κ) → ℤ × TaskQueueData → Option (List κ) := fun kernels call =>
    some (kernels.getD [] ++ kernelsAt aclToNpuDict call.1) with hextend
  have hstep : ∀ (result : Dict ℤ (List κ)) (call : ℤ × TaskQueueData) (key : ℤ),
      (result.modify call.2.corrId fun kernels => kernels.getD [] ++ kernelsAt aclToNpuDict call.1).get? key =
        if key = call.2.corrId then extend (result.get? key) call else result.get? key := by
    intro result call key
    rw [Dict.get?_modify]
    split_ifs with hkey
    · rw [hkey]
    · rfl
  have hkernels : ∀ (calls : List (ℤ × TaskQueueData)) (kernels : Option (List κ)),
      (calls.foldl extend kernels).getD [] =
        kernels.getD [] ++ calls.flatMap fun call => kernelsAt aclToNpuDict call.1 := by
    intro calls
    induction calls with
    | nil => simp
    | cons call calls ih =>
      intro kernels
      rw [List.foldl_cons, ih, List.flatMap_cons, ← List.append_assoc]
      rfl
  rw [kernelsAt, Dict.get?_foldl hstep, hkernels, Dict.get?_empty]
  rfl

/-! ### What a call should get to -/

/-- Each call gets to a dequeue around it at most once, and to one if there is any; under a correlation id are
the kernels of the calls that get to its dequeues, and under anything else there is nothing. -/
structure Attributed (aclToNpuDict : Dict ℤ (List κ)) (dequeues : List TaskQueueData)
    (result : Dict ℤ (List κ)) (calls : List (ℤ × TaskQueueData)) : Prop where
  nodup : (calls.map Prod.fst).Nodup
  holds : ∀ call ∈ calls, call.1 ∈ aclToNpuDict.keys ∧ call.2 ∈ dequeues ∧ call.2.Holds call.1
  complete : ∀ t ∈ aclToNpuDict.keys, (∃ d ∈ dequeues, d.Holds t) → t ∈ calls.map Prod.fst
  kernels : ∀ corrId, (kernelsAt result corrId).Perm (kernelsOf aclToNpuDict calls corrId)

/-- Of the dequeues around a call with kernels, the one that ends first has not to be preceded by one that
starts after the call. -/
def StartedFirst (aclToNpuDict : Dict ℤ (List κ)) (dequeues : List TaskQueueData) : Prop :=
  ∀ t ∈ aclToNpuDict.keys, kernelsAt aclToNpuDict t ≠ [] → (∃ d ∈ dequeues, d.Holds t) →
    ∀ first ∈ dequeues.find? (fun d => t ≤ d.endTs), first.ts ≤ t

/-- The list of the acl calls as the loop goes through it. -/
def callTimes (aclToNpuDict : Dict ℤ (List κ)) : List ℤ :=
  aclToNpuDict.keys.insertionSort (· ≤ ·)

theorem mem_callTimes {aclToNpuDict : Dict ℤ (List κ)} : t ∈ callTimes aclToNpuDict ↔ t ∈ aclToNpuDict.keys :=
  (List.perm_insertionSort _ _).mem_iff

theorem nodup_callTimes (aclToNpuDict : Dict ℤ (List κ)) : (callTimes aclToNpuDict).Nodup :=
  (List.perm_insertionSort _ _).nodup_iff.mpr aclToNpuDict.nodupKeys

theorem kernelsAt_combineKernelDict {aclToNpuDict : Dict ℤ (List κ)} (hne : dequeues ≠ [])
    (hdur : ∀ d ∈ dequeues, 0 ≤ d.dur) (corrId : ℤ) :
    kernelsAt (combineKernelDict aclToNpuDict dequeues) corrId =
      kernelsOf aclToNpuDict (attributions (dequeueAt dequeues) (callTimes aclToNpuDict)) corrId := by
  obtain ⟨d, rest, rfl⟩ := List.exists_cons_of_ne_nil hne
  have hsorted : (callTimes aclToNpuDict).Pairwise (· ≤ ·) := List.pairwise_insertionSort _ _
  have hloop := foldl_combineCall aclToNpuDict hsorted hdur Dict.empty
  rw [← kernelsAt_foldl, ← hloop]
  rfl

/-! #### Counting the kernels -/

/-- How many kernels there are under the correlation ids of some calls. -/
theorem sum_length_kernelsOf {aclToNpuDict : Dict ℤ (List κ)} {calls : List (ℤ × TaskQueueData)}
    (hnodup : (calls.map Prod.fst).Nodup) {corrIds : Finset ℤ} (hcorr : ∀ call ∈ calls, (call.2.corrId : ℤ) ∈ corrIds) :
    ∑ corrId ∈ corrIds, (kernelsOf aclToNpuDict calls corrId).length =
      ∑ t ∈ (calls.map Prod.fst).toFinset, (kernelsAt aclToNpuDict t).length := by
  induction calls with
  | nil => simp [kernelsOf]
  | cons call calls ih =>
    rw [List.forall_mem_cons] at hcorr
    rw [List.map_cons, List.nodup_cons] at hnodup
    have hcons : ∀ corrId, (kernelsOf aclToNpuDict (call :: calls) corrId).length =
        (if (call.2.corrId : ℤ) = corrId then (kernelsAt aclToNpuDict call.1).length else 0) +
          (kernelsOf aclToNpuDict calls corrId).length := by
      intro corrId
      rw [kernelsOf, List.filter_cons]
      by_cases h : (call.2.corrId : ℤ) = corrId
      · simp [h, kernelsOf]
      · simp [h, kernelsOf]
    rw [Finset.sum_congr rfl fun corrId _ => hcons corrId, Finset.sum_add_distrib, ih hnodup.2 hcorr.2,
      Finset.sum_ite_eq, if_pos hcorr.1, List.map_cons, List.toFinset_cons,
      Finset.sum_insert (by simpa using hnodup.1)]


/-- Wherever all calls get to a dequeue as they should, the loop loses no call with kernels. -/
theorem startedFirst_of_attributed {aclToNpuDict : Dict ℤ (List κ)} {calls : List (ℤ × TaskQueueData)}
    (hne : dequeues ≠ []) (hdur : ∀ d ∈ dequeues, 0 ≤ d.dur)
    (h : Attributed aclToNpuDict dequeues (combineKernelDict aclToNpuDict dequeues) calls) :
    StartedFirst aclToNpuDict dequeues := by
  intro t ht hkernels hinside first hfirst
  by_contra hnot
  set found := attributions (dequeueAt dequeues) (callTimes aclToNpuDict) with hfound
  have hnodup : (found.map Prod.fst).Nodup := nodup_attributions (nodup_callTimes aclToNpuDict)
  have hholds : ∀ call ∈ found, call.1 ∈ aclToNpuDict.keys ∧ call.2 ∈ dequeues ∧ call.2.Holds call.1 := by
    intro call hcall
    obtain ⟨htimes, hd⟩ := mem_attributions.mp hcall
    exact ⟨mem_callTimes.mp htimes, dequeueAt_eq_some hd⟩
  have hlost : t ∉ found.map Prod.fst := by
    intro hmem
    obtain ⟨call, hcall, rfl⟩ := List.mem_map.mp hmem
    obtain ⟨hfind, hts⟩ := Option.filter_eq_some_iff.mp (mem_attributions.mp hcall).2
    obtain rfl := Option.some.inj (hfirst.symm.trans hfind)
    exact hnot (by simpa using hts)
  have hsubset : insert t (found.map Prod.fst).toFinset ⊆ (calls.map Prod.fst).toFinset := by
    intro t' ht'
    rw [List.mem_toFinset]
    rcases Finset.mem_insert.mp ht' with rfl | ht'
    · exact h.complete t' ht hinside
    · obtain ⟨call, hcall, rfl⟩ := List.mem_map.mp (List.mem_toFinset.mp ht')
      obtain ⟨htimes, hd⟩ := hholds call hcall
      exact h.complete _ htimes ⟨_, hd⟩
  have hcount := Finset.sum_le_sum_of_subset (f := fun t => (kernelsAt aclToNpuDict t).length) hsubset
  rw [Finset.sum_insert (by simpa using hlost)] at hcount
  -- Both sides count the kernels of the result.
  set corrIds := (dequeues.map fun d => (d.corrId : ℤ)).toFinset with hcorrIds
  have hcorr : ∀ d ∈ dequeues, (d.corrId : ℤ) ∈ corrIds := fun d hd =>
    List.mem_toFinset.mpr (List.mem_map.mpr ⟨d, hd, rfl⟩)
  rw [← sum_length_kernelsOf hnodup fun call hcall => hcorr _ (hholds call hcall).2.1,
    ← sum_length_kernelsOf h.nodup fun call hcall => hcorr _ (h.holds call hcall).2.1] at hcount
  have hsame : ∑ corrId ∈ corrIds, (kernelsOf aclToNpuDict calls corrId).length =
      ∑ corrId ∈ corrIds, (kernelsOf aclToNpuDict found corrId).length := by
    refine Finset.sum_congr rfl fun corrId _ => ?_
    rw [← (h.kernels corrId).length_eq, kernelsAt_combineKernelDict hne hdur]
  have hpos := List.length_pos_iff.mpr hkernels
  omega

/-- Where the first dequeue has started, the calls without kernels can be given to any dequeue around them. -/
theorem exists_attributed_of_startedFirst {aclToNpuDict : Dict ℤ (List κ)} (hne : dequeues ≠ [])
    (hdur : ∀ d ∈ dequeues, 0 ≤ d.dur) (h : StartedFirst aclToNpuDict dequeues) :
    ∃ calls, Attributed aclToNpuDict dequeues (combineKernelDict aclToNpuDict dequeues) calls := by
  set find : ℤ → Option TaskQueueData := fun t =>
    (dequeueAt dequeues t).or (dequeues.find? (·.Holds t)) with hfind
  have hholds : ∀ t d, find t = some d → d ∈ dequeues ∧ d.Holds t := by
    intro t d hd
    rcases Option.or_eq_some_iff.mp hd with hd | ⟨-, hd⟩
    · exact dequeueAt_eq_some hd
    · exact ⟨List.mem_of_find?_eq_some hd, by simpa using List.find?_some hd⟩
  have hsome : ∀ t, (∃ d ∈ dequeues, d.Holds t) → (find t).isSome := by
    intro t ⟨d, hd, hdt⟩
    have : (dequeues.find? (·.Holds t)).isSome := List.find?_isSome.mpr ⟨d, hd, by simpa using hdt⟩
    rw [hfind, Option.isSome_or, this, Bool.or_true]
  refine ⟨attributions find (callTimes aclToNpuDict), nodup_attributions (nodup_callTimes _), ?_, ?_, ?_⟩
  · intro call hcall
    obtain ⟨htimes, hd⟩ := mem_attributions.mp hcall
    exact ⟨mem_callTimes.mp htimes, hholds _ _ hd⟩
  · intro t ht hinside
    obtain ⟨d, hd⟩ := Option.isSome_iff_exists.mp (hsome t hinside)
    exact List.mem_map.mpr ⟨(t, d), mem_attributions.mpr ⟨mem_callTimes.mpr ht, hd⟩, rfl⟩
  · intro corrId
    rw [kernelsAt_combineKernelDict hne hdur]
    apply List.Perm.of_eq
    apply kernelsOf_attributions_congr
    intro t ht hkernels
    cases hat : dequeueAt dequeues t with
    | some d => simp [hfind, hat]
    | none =>
      -- No dequeue holds the time, since the first that could has started.
      by_cases hinside : ∃ d ∈ dequeues, d.Holds t
      · obtain ⟨d, hd, hdt⟩ := hinside
        obtain ⟨first, hfirst⟩ : ∃ first, dequeues.find? (fun d => t ≤ d.endTs) = some first :=
          Option.isSome_iff_exists.mp (List.find?_isSome.mpr ⟨d, hd, by simpa using hdt.2⟩)
        have hts := h t (mem_callTimes.mp ht) hkernels ⟨d, hd, hdt⟩ first hfirst
        rw [dequeueAt, hfirst, Option.filter_some, if_pos (by simpa using hts)] at hat
        exact absurd hat (Option.some_ne_none _)
      · have : find t = none := by
          cases hd : find t with
          | none => rfl
          | some d => exact absurd ⟨d, hholds t d hd⟩ hinside
        exact this.symm

/-- The kernels of the calls all get where they should, once each, exactly when no dequeue that starts after a
call and ends before the dequeues around it is in the way; without any dequeue they stay as they are. -/
theorem combineKernelDict_attributed_iff_startedFirst (opMarkData : List OpMarkBean)
    (aclToNpuDict : Dict ℤ (List κ)) :
    (let dequeues := (getTaskQueueData opMarkData).2
      if dequeues = [] then combineKernelDict aclToNpuDict dequeues = aclToNpuDict
      else ∃ calls, Attributed aclToNpuDict dequeues (combineKernelDict aclToNpuDict dequeues) calls) ↔
      StartedFirst aclToNpuDict (getTaskQueueData opMarkData).2 := by
  dsimp only
  by_cases hne : (getTaskQueueData opMarkData).2 = []
  · rw [if_pos hne, hne]
    exact ⟨fun _ t _ _ ⟨d, hd, _⟩ => absurd hd (List.not_mem_nil), fun _ => rfl⟩
  · rw [if_neg hne]
    have hdur : ∀ d ∈ (getTaskQueueData opMarkData).2, 0 ≤ d.dur := fun d => dur_nonneg_getTaskQueueData
    exact ⟨fun ⟨calls, h⟩ => startedFirst_of_attributed hne hdur h, exists_attributed_of_startedFirst hne hdur⟩

/-! #### Two threads -/

/-- The dequeues of a thread have no time in common. -/
def DisjointInThread (dequeues : List TaskQueueData) : Prop :=
  dequeues.Pairwise fun d d' => d.tid = d'.tid → d.endTs < d'.ts ∨ d'.endTs < d.ts

instance (dequeues : List TaskQueueData) : Decidable (DisjointInThread dequeues) :=
  inferInstanceAs (Decidable (dequeues.Pairwise _))

/-- A short dequeue within a long one of another thread: it ends first, and the calls before it are lost. -/
def overlappingMarks : List OpMarkBean :=
  [⟨.dequeueStart, 2, 2, 0, "long"⟩, ⟨.dequeueStart, 1, 1, 5, "short"⟩, ⟨.dequeueEnd, 1, 1, 6, "short"⟩,
    ⟨.dequeueEnd, 2, 2, 10, "long"⟩]

def overlappingKernels : Dict ℤ (List String) :=
  Dict.empty.modify 3 fun _ => ["kernel"]

theorem not_attributed_overlapping :
    ¬ ∀ (opMarkData : List OpMarkBean) (aclToNpuDict : Dict ℤ (List String)),
      DisjointInThread (getTaskQueueData opMarkData).2 → (getTaskQueueData opMarkData).2 ≠ [] →
        ∃ calls, Attributed aclToNpuDict (getTaskQueueData opMarkData).2
          (combineKernelDict aclToNpuDict (getTaskQueueData opMarkData).2) calls := by
  intro h
  obtain ⟨calls, hcalls⟩ := h overlappingMarks overlappingKernels (by decide) (by decide)
  have hfirst := startedFirst_of_attributed (by decide) (fun d => dur_nonneg_getTaskQueueData) hcalls
  have := hfirst 3 (by decide) (by decide) (by decide) ⟨⟨.dequeueEnd, 1, 1, 6, "short"⟩, 5, 1⟩ (by decide)
  exact absurd this (by decide)

end FwkCannRelationParser

end TorchNpu.Profiler
