/-
  Which mallocs have a row, and what they are paired with.

  The rows of the first process are the ones that stay: there is one for each of its mallocs, with the first free and
  the first free of the block that come before the next malloc of the pointer, or the second record of a type.
-/
import TorchNpu.Profiler.MemoryPrepareParser
import Mathlib.Data.List.Induction
import Mathlib.Data.List.Perm.Basic

namespace TorchNpu.Profiler.MemoryPrepareParser

variable {V : Type} {x : ParserInput V} {records l : List MemoryRecord} {record m : MemoryRecord}
  {queue : QueueData} {cells : Cells V} {s s' : State} {opName : String} {type : ExportType}

/-! ### Groups -/

section GroupBy

variable {α κ : Type} [DecidableEq κ] {key : α → κ}

theorem flatten_modifyEntries (k : κ) (a : α) (entries : List (κ × List α)) :
    ((Dict.modifyEntries k (fun group => group.getD [] ++ [a]) entries).map Prod.snd).flatten.Perm
      ((entries.map Prod.snd).flatten ++ [a]) := by
  induction entries with
  | nil => exact List.Perm.refl _
  | cons entry entries ih =>
    obtain ⟨k', group⟩ := entry
    rw [Dict.modifyEntries]
    split_ifs
    · show (group ++ [a] ++ (entries.map Prod.snd).flatten).Perm (group ++ (entries.map Prod.snd).flatten ++ [a])
      rw [List.append_assoc, List.append_assoc]
      exact (List.perm_append_comm).append_left group
    · show (group ++ _).Perm (group ++ (entries.map Prod.snd).flatten ++ [a])
      rw [List.append_assoc]
      exact ih.append_left group

theorem groupBy_append (key : α → κ) (l : List α) (a : α) :
    groupBy key (l ++ [a]) = (groupBy key l).modify (key a) fun group => group.getD [] ++ [a] := by
  unfold groupBy
  rw [List.foldl_append]
  rfl

/-- The groups have the elements of the list. -/
theorem flatten_groupBy (key : α → κ) (l : List α) : (groupBy key l).values.flatten.Perm l := by
  induction l using List.reverseRecOn with
  | nil => exact List.Perm.refl _
  | append_singleton l a ih =>
    rw [groupBy_append]
    exact (flatten_modifyEntries _ _ _).trans (ih.append_right [a])

theorem foldl_append_some (l : List α) (group : Option (List α)) (h : group ≠ none ∨ l ≠ []) :
    l.foldl (fun group a => some (group.getD [] ++ [a])) group = some (group.getD [] ++ l) := by
  induction l generalizing group with
  | nil =>
    rcases group with _ | group
    · simp at h
    · simp
  | cons a l ih =>
    rw [List.foldl_cons, ih _ (.inl (Option.some_ne_none _)), Option.getD_some, List.append_assoc]
    rfl

/-- A group has the elements with its key, in the order of the list. -/
theorem eq_filter_of_mem_groupBy {k : κ} {group : List α} {l : List α} (h : (k, group) ∈ (groupBy key l).entries) :
    group = l.filter fun a => key a = k := by
  have hstep (d : Dict κ (List α)) (a : α) (k : κ) :
      (d.modify (key a) fun group => group.getD [] ++ [a]).get? k =
        if k = key a then some ((d.get? k).getD [] ++ [a]) else d.get? k := by
    rw [Dict.get?_modify]
    split_ifs with hk
    · rw [hk]
    · rfl
  rw [Dict.mem_entries_iff, groupBy,
    @Dict.get?_foldl κ (List α) α _ _ key (fun old a => some (old.getD [] ++ [a])) hstep, Dict.get?_empty] at h
  by_cases hnil : (l.filter fun a => key a = k) = []
  · rw [hnil] at h
    exact absurd h (by simp)
  · rw [foldl_append_some _ _ (.inr hnil)] at h
    exact (Option.some.inj h).symm

theorem head?_groupBy (key : α → κ) (l : List α) :
    (groupBy key l).entries.head?.map Prod.fst = l.head?.map key := by
  induction l using List.reverseRecOn with
  | nil => rfl
  | append_singleton l a ih =>
    rw [groupBy_append, List.head?_append]
    generalize groupBy key l = dict at ih ⊢
    show (Dict.modifyEntries _ _ dict.entries).head?.map _ = _
    rcases hentries : dict.entries with _ | ⟨⟨k, group⟩, entries⟩
    · rw [hentries] at ih
      rcases l with _ | ⟨b, l⟩
      · rfl
      · exact absurd ih.symm (Option.some_ne_none _)
    · rw [hentries] at ih
      rcases l with _ | ⟨b, l⟩
      · exact absurd ih (Option.some_ne_none _)
      · rw [Dict.modifyEntries]
        split_ifs
        · exact ih
        · exact ih

end GroupBy

/-! ### Entries -/

/-- The records up to the first one of a type that has been seen. -/
def companions : List DataType → List MemoryRecord → List MemoryRecord
  | _, [] => []
  | seen, record :: records =>
    if record.dataType ∈ seen then [] else record :: companions (seen ++ [record.dataType]) records

/-- Every malloc with its companions. -/
def entries : List MemoryRecord → List (List MemoryRecord)
  | [] => []
  | record :: records =>
    if record.dataType = .malloc then (record :: companions [.malloc] records) :: entries records
    else entries records

theorem mem_of_three {types : List DataType} (hnodup : types.Nodup) (hlen : 3 ≤ types.length) (type : DataType) :
    type ∈ types := by
  by_contra hmem
  have hsub : (type :: types) ⊆ [.malloc, .free, .blockFree] := by
    intro t _
    cases t <;> simp
  have hle := (List.nodup_cons.mpr ⟨hmem, hnodup⟩).length_le_of_subset hsub
  simp only [List.length_cons, List.length_nil] at hle
  omega

/-- What the loop makes of a list: the entry in the buffer gets the companions that it lacks. -/
theorem scan_eq (l : List MemoryRecord) :
    scan l [] = entries l ∧
      ∀ first dataBuf, first.dataType = .malloc → ((first :: dataBuf).map MemoryRecord.dataType).Nodup →
        scan l (first :: dataBuf) =
          (first :: dataBuf ++ companions ((first :: dataBuf).map MemoryRecord.dataType) l) :: entries l := by
  induction l with
  | nil =>
    refine ⟨by rw [scan, entries], fun first dataBuf _ _ => ?_⟩
    rw [scan, companions, entries, List.append_nil]
  | cons record l ih =>
    obtain ⟨hskip, hbuf⟩ := ih
    have hstart : (if record.dataType = .malloc then scan l [record] else scan l []) = entries (record :: l) := by
      rw [entries]
      split_ifs with hmalloc
      · rw [hbuf record [] hmalloc (List.nodup_singleton _), List.map_cons, hmalloc]
        rfl
      · exact hskip
    refine ⟨by rw [scan, hstart], fun first dataBuf hfirst hnodup => ?_⟩
    rw [scan, companions, hstart]
    split_ifs with hnew hseen hseen
    · exact absurd hseen hnew.2
    · have hne : record.dataType ≠ .malloc := by
        rintro hmalloc
        refine hseen ?_
        rw [hmalloc, ← hfirst]
        exact List.mem_cons_self
      have hmap : (first :: (dataBuf ++ [record])).map MemoryRecord.dataType =
          (first :: dataBuf).map MemoryRecord.dataType ++ [record.dataType] := by
        rw [← List.cons_append, List.map_append]
        rfl
      rw [List.cons_append, hbuf first (dataBuf ++ [record]) hfirst, hmap, entries, if_neg hne]
      · simp
      · rw [hmap]
        exact List.nodup_append.mpr ⟨hnodup, List.nodup_singleton _, fun a ha b hb => by
          rw [List.mem_singleton.mp hb]
          exact fun h => hseen (h ▸ ha)⟩
    · rw [List.append_nil]
    · -- three types are all that there are
      refine absurd (mem_of_three hnodup ?_ record.dataType) hseen
      rw [List.length_map]
      exact not_lt.mp fun hlt => hnew ⟨hlt, hseen⟩

/-- The records of the pointer that come after a record. -/
def following (records : List MemoryRecord) (m : MemoryRecord) : List MemoryRecord :=
  records.filter fun record => record.pid = m.pid ∧ record.ptr = m.ptr ∧ m.timeNs < record.timeNs

/-- A malloc with its companions. -/
def entry (records : List MemoryRecord) (m : MemoryRecord) : List MemoryRecord :=
  m :: companions [.malloc] (following records m)

def isMalloc (record : MemoryRecord) : Bool :=
  record.dataType = .malloc

theorem entries_eq (hsorted : l.Pairwise fun record record' => record.timeNs < record'.timeNs) :
    entries l = (l.filter isMalloc).map fun m =>
      m :: companions [.malloc] (l.filter fun record => m.timeNs < record.timeNs) := by
  induction l with
  | nil => rfl
  | cons record l ih =>
    obtain ⟨hhead, hsorted⟩ := List.pairwise_cons.mp hsorted
    have htail : (l.filter isMalloc).map (fun m =>
          m :: companions [.malloc] ((record :: l).filter fun record => m.timeNs < record.timeNs)) =
        (l.filter isMalloc).map fun m => m :: companions [.malloc] (l.filter fun record => m.timeNs < record.timeNs) := by
      refine List.map_congr_left fun m hm => ?_
      have := hhead m (List.mem_of_mem_filter hm)
      rw [List.filter_cons_of_neg (by simpa using this.le)]
    have hself : ((record :: l).filter fun record' => record.timeNs < record'.timeNs) = l := by
      rw [List.filter_cons_of_neg (by simp), List.filter_eq_self]
      exact fun record' h => decide_eq_true (hhead record' h)
    rw [entries, ih hsorted]
    split_ifs with hmalloc
    · rw [List.filter_cons_of_pos (by simpa [isMalloc] using hmalloc), List.map_cons, htail, hself]
    · rw [List.filter_cons_of_neg (by simpa [isMalloc] using hmalloc), htail]

/-- The entries of a process are those of its mallocs. -/
theorem pidMemBuf_perm {pid : ℕ} (hsorted : records.Pairwise fun record record' => record.timeNs < record'.timeNs) :
    (pidMemBuf (records.filter fun record => record.pid = pid)).Perm
      (((records.filter fun record => record.pid = pid).filter isMalloc).map (entry records)) := by
  set recordsOfPid := records.filter fun record => record.pid = pid with hpid
  have hgroup : ∀ group ∈ (groupBy MemoryRecord.ptr recordsOfPid).values,
      getValidRecordEntry (sortByTime group) = (group.filter isMalloc).map (entry records) := by
    intro group hgroup
    obtain ⟨⟨ptr, group⟩, hentry, rfl⟩ := List.mem_map.mp hgroup
    obtain rfl := eq_filter_of_mem_groupBy hentry
    dsimp only
    have hlt : (recordsOfPid.filter fun record => record.ptr = ptr).Pairwise
        fun record record' => record.timeNs < record'.timeNs := (hsorted.filter _).filter _
    rw [getValidRecordEntry, sortByTime, (hlt.imp le_of_lt).insertionSort_eq, (scan_eq _).1, entries_eq hlt]
    refine List.map_congr_left fun m hm => ?_
    have hmem := List.mem_of_mem_filter hm
    rw [List.mem_filter, hpid, List.mem_filter] at hmem
    obtain ⟨⟨-, hp⟩, hptr⟩ := hmem
    rw [decide_eq_true_eq] at hp hptr
    rw [entry, following, hpid, List.filter_filter, List.filter_filter]
    congr 2
    refine List.filter_congr fun record _ => ?_
    rw [hp, hptr]
    simp only [← Bool.decide_and]
    exact decide_eq_decide.mpr (by tauto)
  refine (List.perm_insertionSort _ _).trans ?_
  rw [List.flatMap_congr hgroup, ← List.map_flatMap, ← List.filter_flatMap, List.flatMap_id']
  exact ((flatten_groupBy _ _).filter _).map _

/-! ### Rows -/

theorem companions_cases (l : List MemoryRecord) :
    companions [.malloc] l = [] ∨ (∃ r, companions [.malloc] l = [r] ∧ r.dataType ≠ .malloc) ∨
      ∃ r r', companions [.malloc] l = [r, r'] ∧
        (r.dataType = .free ∧ r'.dataType = .blockFree ∨ r.dataType = .blockFree ∧ r'.dataType = .free) := by
  rcases l with _ | ⟨r, l⟩
  · exact .inl rfl
  · rw [companions]
    split_ifs with hr
    · exact .inl rfl
    · rw [List.mem_singleton] at hr
      rcases l with _ | ⟨r', l⟩
      · exact .inr (.inl ⟨r, rfl, hr⟩)
      · rw [companions]
        split_ifs with hr'
        · exact .inr (.inl ⟨r, rfl, hr⟩)
        · have hnil : companions ([.malloc] ++ [r.dataType] ++ [r'.dataType]) l = [] := by
            rcases l with _ | ⟨r'', l⟩
            · rfl
            · rw [companions, if_pos (mem_of_three ?_ (by simp) r''.dataType)]
              simp only [List.cons_append, List.nil_append, List.mem_cons, List.not_mem_nil, or_false] at hr'
              simp only [List.cons_append, List.nil_append, List.nodup_cons, List.mem_cons, List.not_mem_nil]
              tauto
          refine .inr (.inr ⟨r, r', by rw [hnil], ?_⟩)
          simp only [List.cons_append, List.nil_append, List.mem_cons, List.not_mem_nil, or_false, not_or] at hr'
          rcases hfree : r.dataType with _ | _ | _
          · exact absurd hfree hr
          · rcases hfree' : r'.dataType with _ | _ | _
            · exact absurd hfree' hr'.1
            · exact absurd (hfree'.trans hfree.symm) hr'.2
            · exact .inl ⟨rfl, rfl⟩
          · rcases hfree' : r'.dataType with _ | _ | _
            · exact absurd hfree' hr'.1
            · exact .inr ⟨rfl, rfl⟩
            · exact absurd (hfree'.trans hfree.symm) hr'.2

/-- The row of a malloc with the first free and the first free of the block among records. -/
def pairedRow (cells : Cells V) (opName : String) (m : MemoryRecord) (records : List MemoryRecord) : MemoryRow V :=
  let free := records.find? fun record => record.dataType = .free
  let blockFree := records.find? fun record => record.dataType = .blockFree
  cells.row opName m free blockFree (free.or blockFree)

theorem combineData_companions (cells : Cells V) (opName : String) (m : MemoryRecord) (l : List MemoryRecord) :
    combineData cells opName (m :: companions [.malloc] l) =
      some (pairedRow cells opName m (companions [.malloc] l)) := by
  obtain h | ⟨r, h, hr⟩ | ⟨r, r', h, hr | hr⟩ := companions_cases l
  · rw [h]
    rfl
  · rw [h]
    rcases hr' : r.dataType with _ | _ | _
    · exact absurd hr' hr
    · simp [combineData, pairedRow, hr']
    · simp [combineData, pairedRow, hr']
  · rw [h]
    simp [combineData, pairedRow, hr]
  · rw [h]
    simp [combineData, pairedRow, hr]

/-- The names are those that the records have been given. -/
def Agrees (names : MemoryRecord → String) (s : State) : Prop :=
  ∀ record, ∀ opName ∈ s.recordToName record, names record = opName

theorem recordToName_findReal (queue : QueueData) (s : State) (dequeueRecord : OpMark) :
    (findRealOpNameOfRecord queue s dequeueRecord).2.recordToName = s.recordToName := by
  unfold findRealOpNameOfRecord
  rcases queue.findRelatedEnqueueRecord dequeueRecord with _ | enqueueRecord
  · rfl
  · rfl

theorem recordToName_findRelated (queue : QueueData) (s : State) (record : MemoryRecord) :
    (findRelatedDequeueRecord queue s record).2.recordToName = s.recordToName := by
  unfold findRelatedDequeueRecord
  split_ifs
  · rfl
  · rfl

/-- A record keeps the name that it is given. -/
theorem agrees_getOpNameOfRecord {names : MemoryRecord → String}
    (h : Agrees names (getOpNameOfRecord queue s record).2) :
    Agrees names s ∧ names record = (getOpNameOfRecord queue s record).1 := by
  unfold getOpNameOfRecord at h ⊢
  rcases hname : s.recordToName record with _ | opName
  · rw [hname] at h
    dsimp only at h ⊢
    have hkeep : ∀ result : String × State, result.2.recordToName = s.recordToName →
        Agrees names { result.2 with
          recordToName := Function.update result.2.recordToName record (some result.1) } →
        Agrees names s ∧ names record = result.1 := by
      intro result hresult hagrees
      refine ⟨fun record' opName' hopName' => hagrees record' opName' ?_, hagrees record _ ?_⟩
      · show Function.update _ _ _ _ = _
        rw [Function.update_of_ne, hresult]
        · exact hopName'
        · rintro rfl
          rw [hname] at hopName'
          exact absurd hopName' nofun
      · exact Function.update_self _ _ _
    refine hkeep _ ?_ h
    unfold findOpNameOfRecord
    rcases (findRelatedDequeueRecord queue s record).1 with _ | dequeueRecord
    · exact recordToName_findRelated queue s record
    · exact (recordToName_findReal _ _ _).trans (recordToName_findRelated queue s record)
  · rw [hname] at h
    exact ⟨h, h record _ hname⟩

/-- The row of an entry. -/
def entryRow (cells : Cells V) (names : MemoryRecord → String) : List MemoryRecord → Option (MemoryRow V)
  | [] => none
  | record :: records => combineData cells (names record) (record :: records)

theorem completeEntries_eq {names : MemoryRecord → String} {buf : List (List MemoryRecord)}
    (h : Agrees names (completeEntries queue cells s buf).2) :
    Agrees names s ∧ (completeEntries queue cells s buf).1 = buf.filterMap (entryRow cells names) := by
  induction buf generalizing s with
  | nil => exact ⟨h, rfl⟩
  | cons records buf ih =>
    obtain ⟨hagrees, hrows⟩ := ih h
    have hentry : Agrees names s ∧ (completeEntry queue cells s records).1 = entryRow cells names records := by
      rcases records with _ | ⟨record, records⟩
      · exact ⟨hagrees, rfl⟩
      · simp only [completeEntry] at hagrees ⊢
        split_ifs at hagrees ⊢ with hlong
        · refine ⟨hagrees, ?_⟩
          rcases records with _ | ⟨_, _ | ⟨_, _ | ⟨_, _⟩⟩⟩
          · exact absurd hlong (by simp)
          · exact absurd hlong (by simp)
          · exact absurd hlong (by simp)
          · rfl
        · obtain ⟨hs, hname⟩ := agrees_getOpNameOfRecord (fun record' => hagrees record')
          exact ⟨hs, by rw [entryRow, hname]⟩
    refine ⟨hentry.1, ?_⟩
    show (completeEntry queue cells s records).1.toList ++ (completeEntries queue cells _ buf).1 = _
    rw [hrows, hentry.2, List.filterMap_cons]
    rcases entryRow cells names records with _ | row
    · rfl
    · rfl

/-! ### Processes -/

variable {names : MemoryRecord → String} {buf : List (List MemoryRecord)} {torchOps : List OpNode}
  {result : MemoryData V × State} {type' : ExportType}

theorem setDefault_spec (h : Agrees names (setDefault x buf torchOps type result).2) :
    Agrees names result.2 ∧
      (setDefault x buf torchOps type result).1 = Function.update result.1 type
        (some ((result.1 type).getD (buf.filterMap (entryRow (x.cells type) names)))) := by
  unfold setDefault completeRecordEntry at h ⊢
  dsimp only at h ⊢
  obtain ⟨hagrees, hrows⟩ := completeEntries_eq h
  rw [hrows]
  refine ⟨?_, rfl⟩
  rcases htorchOps : result.2.torchOps with _ | ⟨node, torchOps⟩
  · rw [htorchOps] at hagrees
    exact hagrees
  · rw [htorchOps] at hagrees
    exact hagrees

/-- What has been set stays. -/
theorem addProcesses_spec {processes : List (ℕ × List MemoryRecord)}
    (h : Agrees names (addProcesses x processes result).2) :
    Agrees names result.2 ∧ ∀ type, result.1 type ≠ none → (addProcesses x processes result).1 type = result.1 type := by
  have hadd {buf : List (List MemoryRecord)} {torchOps : List OpNode} {type : ExportType}
      {result result' : MemoryData V × State}
      (hspec : Agrees names (setDefault x buf torchOps type result).2 ∧
        ∀ type', (setDefault x buf torchOps type result).1 type' ≠ none →
          result'.1 type' = (setDefault x buf torchOps type result).1 type') :
      Agrees names result.2 ∧ ∀ type', result.1 type' ≠ none → result'.1 type' = result.1 type' := by
    obtain ⟨hagrees, hkeep⟩ := hspec
    obtain ⟨hagrees, hset⟩ := setDefault_spec hagrees
    refine ⟨hagrees, fun type' hne => ?_⟩
    have heq : (setDefault x buf torchOps type result).1 type' = result.1 type' := by
      rw [hset]
      by_cases htype : type' = type
      · subst htype
        obtain ⟨rows, hrows⟩ := Option.ne_none_iff_exists'.mp hne
        rw [Function.update_self, hrows, Option.getD_some]
      · rw [Function.update_of_ne htype]
    rw [hkeep type' (heq.symm ▸ hne), heq]
  induction processes generalizing result with
  | nil => exact ⟨h, fun _ _ => rfl⟩
  | cons process processes ih =>
    obtain ⟨pid, memoryRecords⟩ := process
    unfold addProcesses at h ⊢
    dsimp only at h ⊢
    split_ifs at h ⊢
    · exact ih h
    · exact hadd (hadd ⟨h, fun _ _ => rfl⟩)
    · exact hadd (hadd (ih h))
    · exact hadd (ih h)
    · exact hadd (ih h)
    · exact ih h

/-- The types that are written. -/
def Exports (x : ParserInput V) : ExportType → Prop
  | .text => .text ∈ x.exportType
  | .db => .db ∈ x.exportType ∨ .text ∈ x.exportType ∧ x.isSupportDefaultExportDb

/-- The first process with operators has its rows in every type. -/
theorem addProcesses_first {pid : ℕ} {memoryRecords : List MemoryRecord} {processes : List (ℕ × List MemoryRecord)}
    (hops : ∃ node ∈ x.torchOpNode, node.event.pid = pid) (hresult : ∀ type, result.1 type = none)
    (h : Agrees names (addProcesses x ((pid, memoryRecords) :: processes) result).2) (htype : Exports x type) :
    (addProcesses x ((pid, memoryRecords) :: processes) result).1 type =
      some ((pidMemBuf memoryRecords).filterMap (entryRow (x.cells type) names)) := by
  have hne : ¬((x.torchOpNode.filter (·.event.pid = pid)).insertionSort
      fun node node' => node.event.startTime ≤ node'.event.startTime).isEmpty = true := by
    obtain ⟨node, hnode, hpid⟩ := hops
    rw [List.isEmpty_iff]
    intro hnil
    have hmem : node ∈ x.torchOpNode.filter (·.event.pid = pid) :=
      List.mem_filter.mpr ⟨hnode, decide_eq_true hpid⟩
    rw [← List.mem_insertionSort fun node node' => node.event.startTime ≤ node'.event.startTime, hnil] at hmem
    exact List.not_mem_nil hmem
  unfold addProcesses at h ⊢
  dsimp only at h ⊢
  rw [if_neg hne] at h ⊢
  generalize (x.torchOpNode.filter (·.event.pid = pid)).insertionSort
    (fun node node' => node.event.startTime ≤ node'.event.startTime) = torchOps at h ⊢
  unfold Exports at htype
  split_ifs at h ⊢ with htext hsupport hdb hdb
  · obtain ⟨h₁, hset⟩ := setDefault_spec h
    obtain ⟨-, hset'⟩ := setDefault_spec h₁
    rw [hset, hset']
    cases type with
    | text => simp [hresult]
    | db => simp [hresult]
  · obtain ⟨h₁, hkeep⟩ := addProcesses_spec h
    obtain ⟨h₂, hset⟩ := setDefault_spec h₁
    obtain ⟨-, hset'⟩ := setDefault_spec h₂
    rw [hset, hset'] at hkeep
    cases type with
    | text => rw [hkeep _ (by simp)]; simp [hresult]
    | db => rw [hkeep _ (by simp)]; simp [hresult]
  · obtain ⟨h₁, hkeep⟩ := addProcesses_spec h
    obtain ⟨-, hset⟩ := setDefault_spec h₁
    rw [hset] at hkeep
    cases type with
    | text => rw [hkeep _ (by simp)]; simp [hresult]
    | db => exact absurd htype (by simp [hdb, hsupport])
  · obtain ⟨h₁, hkeep⟩ := addProcesses_spec h
    obtain ⟨-, hset⟩ := setDefault_spec h₁
    rw [hset] at hkeep
    cases type with
    | text => exact absurd htype htext
    | db => rw [hkeep _ (by simp)]; simp [hresult]
  · cases type with
    | text => exact absurd htype htext
    | db => exact absurd htype (by simp [hdb, htext])

/-! ### The mallocs of all processes -/

/-- The records that the rows are made of. -/
def innerRecords (x : ParserInput V) : List MemoryRecord :=
  (sortByTime x.memoryData).filter fun record => record.isNpu && record.isInnerAllocator

def mallocs (x : ParserInput V) : List MemoryRecord :=
  (innerRecords x).filter isMalloc

/-- The rows that the parser reports. -/
def rows (x : ParserInput V) (type : ExportType) : List (MemoryRow V) :=
  ((addPtaMemoryData x).1 type).getD []

/-- The row of a malloc. -/
def mallocRow (x : ParserInput V) (type : ExportType) (opName : String) (m : MemoryRecord) : MemoryRow V :=
  pairedRow (x.cells type) opName m (companions [.malloc] (following (innerRecords x) m))

/-- Every type has one row for each malloc. -/
def EveryMalloc (x : ParserInput V) : Prop :=
  ∃ opName : MemoryRecord → String, ∀ type, Exports x type →
    (rows x type).Perm ((mallocs x).map fun m => mallocRow x type (opName m) m)

theorem innerRecords_sorted (hdistinct : ((innerRecords x).map MemoryRecord.timeNs).Nodup) :
    (innerRecords x).Pairwise fun record record' => record.timeNs < record'.timeNs := by
  have hle : (innerRecords x).Pairwise fun record record' => record.timeNs ≤ record'.timeNs :=
    (List.pairwise_insertionSort _ _).filter _
  exact hle.imp₂ (fun _ _ hle hne => lt_of_le_of_ne hle hne) (List.pairwise_map.mp hdistinct)

/-- The rows of the first process. -/
theorem rows_perm (hdistinct : ((innerRecords x).map MemoryRecord.timeNs).Nodup)
    (hops : ∀ record ∈ innerRecords x, ∃ node ∈ x.torchOpNode, node.event.pid = record.pid) :
    ∃ opName : MemoryRecord → String, ∀ type, Exports x type →
      (rows x type).Perm (((mallocs x).filter fun m => some m.pid = (innerRecords x).head?.map MemoryRecord.pid).map
        fun m => mallocRow x type (opName m) m) := by
  have hsorted := innerRecords_sorted hdistinct
  refine ⟨fun record => ((addPtaMemoryData x).2.recordToName record).getD "", fun type htype => ?_⟩
  set names := fun record => ((addPtaMemoryData x).2.recordToName record).getD "" with hnames
  have hagrees : Agrees names (addPtaMemoryData x).2 := by
    intro record opName hopName
    rw [hnames]
    dsimp only
    rw [hopName, Option.getD_some]
  have hhead := head?_groupBy MemoryRecord.pid (innerRecords x)
  have hgroup {pid : ℕ} {group : List MemoryRecord}
      (h : (pid, group) ∈ (groupBy MemoryRecord.pid (innerRecords x)).entries) :=
    eq_filter_of_mem_groupBy h
  unfold rows addPtaMemoryData npuMemoryDict at *
  change Agrees names (addProcesses x (groupBy MemoryRecord.pid (innerRecords x)).entries _).2 at hagrees
  show (((addProcesses x (groupBy MemoryRecord.pid (innerRecords x)).entries _).1 type).getD []).Perm _
  rcases hentries : (groupBy MemoryRecord.pid (innerRecords x)).entries with _ | ⟨⟨pid, group⟩, processes⟩
  · rw [hentries] at hhead
    rcases hinner : innerRecords x with _ | ⟨record, records⟩
    · rw [mallocs, hinner]
      exact List.Perm.refl _
    · rw [hinner] at hhead
      exact absurd hhead.symm (Option.some_ne_none _)
  · rw [hentries] at hhead hagrees
    obtain ⟨record, hrecord, hpid⟩ := Option.map_eq_some_iff.mp hhead.symm
    dsimp only at hpid
    obtain rfl := hgroup (hentries ▸ List.mem_cons_self)
    have hnode := hops record (List.mem_of_mem_head? hrecord)
    rw [hpid] at hnode
    rw [addProcesses_first hnode (fun _ => rfl) hagrees htype, Option.getD_some, hrecord, Option.map_some, hpid]
    have hrow (m : MemoryRecord) : (entryRow (x.cells type) names ∘ entry (innerRecords x)) m =
        some (mallocRow x type (names m) m) :=
      combineData_companions _ _ _ _
    have hfilter : ((innerRecords x).filter fun record => record.pid = pid).filter isMalloc =
        (mallocs x).filter fun m => some m.pid = some pid := by
      rw [mallocs, List.filter_filter, List.filter_filter]
      refine List.filter_congr fun m _ => ?_
      rw [Bool.and_comm]
      simp only [Option.some_inj]
    refine ((pidMemBuf_perm hsorted).filterMap _).trans (List.Perm.of_eq ?_)
    rw [List.filterMap_map, hfilter, funext hrow]
    exact congrFun (@List.filterMap_eq_map _ _ fun m => mallocRow x type (names m) m) _

/-- Every malloc of every process has its row exactly if all the mallocs are of the process with the first record. -/
theorem everyMalloc_iff (x : ParserInput V) (hdistinct : ((innerRecords x).map MemoryRecord.timeNs).Nodup)
    (hops : ∀ record ∈ innerRecords x, ∃ node ∈ x.torchOpNode, node.event.pid = record.pid) :
    EveryMalloc x ↔ (∀ type, ¬Exports x type) ∨
      ∀ m ∈ mallocs x, some m.pid = (innerRecords x).head?.map MemoryRecord.pid := by
  obtain ⟨opName, hrows⟩ := rows_perm hdistinct hops
  constructor
  · rintro ⟨opName', h⟩
    by_cases hexports : ∃ type, Exports x type
    · obtain ⟨type, htype⟩ := hexports
      refine .inr fun m hm => ?_
      have hlength := ((hrows type htype).symm.trans (h type htype)).length_eq
      rw [List.length_map, List.length_map, List.length_filter_eq_length_iff] at hlength
      exact decide_eq_true_eq.mp (hlength m hm)
    · exact .inl fun type htype => hexports ⟨type, htype⟩
  · rintro (hnone | hfirst)
    · exact ⟨opName, fun type htype => absurd htype (hnone type)⟩
    · refine ⟨opName, fun type htype => ?_⟩
      have hall : (mallocs x).filter (fun m => some m.pid = (innerRecords x).head?.map MemoryRecord.pid) = mallocs x :=
        List.filter_eq_self.mpr fun m hm => decide_eq_true (hfirst m hm)
      rw [← hall]
      exact hrows type htype

/-- A malloc and its free by a process, and a malloc by another one. -/
def twoProcesses (pid : ℕ) : ParserInput ℤ where
  memoryData :=
    [{ record with id := 0, timeNs := 10, dataType := .malloc },
      { record with id := 1, timeNs := 20, dataType := .free },
      { record with id := 2, timeNs := 30, dataType := .malloc, pid := pid }]
  torchOpNode := [⟨⟨"aten::empty", 1, 1, 0, 100⟩, []⟩, ⟨⟨"aten::empty", 2, 1, 0, 100⟩, []⟩]
  queue := ⟨[], []⟩
  exportType := [.text]
  isSupportDefaultExportDb := true
  cells _ := ⟨id, id, id, fun record => record.deviceIndex⟩
where
  record : MemoryRecord :=
    ⟨0, 4096, 0, 512, 512, 1024, 512, 0, true, 0, 0, .malloc, true, 1, 1⟩

theorem everyMalloc_iff_oneProcess : EveryMalloc (twoProcesses 1) :=
  (everyMalloc_iff (twoProcesses 1) (by decide) (by decide)).mpr (.inr (by decide))

/-- The malloc of the second process has no row. -/
theorem not_everyMalloc : ¬EveryMalloc (twoProcesses 2) := by
  rintro ⟨opName, h⟩
  have hlength := (h .text (List.mem_singleton_self _)).length_eq
  rw [List.length_map] at hlength
  exact absurd hlength (by decide)

end TorchNpu.Profiler.MemoryPrepareParser
