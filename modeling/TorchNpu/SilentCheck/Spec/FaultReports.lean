/-
  Which reports rank 0 logs.

  Appending and logging are both a `get` and a `set` without a lock.  As long as no text changes between the two,
  the text of a key is what has been reported since rank 0 has cleared it: `Held` is this invariant, for one
  rank.  The order of the reports is also that of the loop of rank 0, which looks for warnings first.
-/
import TorchNpu.SilentCheck.FaultReports

namespace TorchNpu.SilentCheck.FaultReports

variable {worldSize : ℕ} {s s' : FaultReports worldSize} {rank : Fin worldSize} {kind : LogKind}

/-! ### What is claimed -/

/-- The text of reports. -/
def joined (reports : List Report) : Text :=
  List.intercalate ['\n'] (reports.map Subtype.val)

/-- The reports of texts that have been logged. -/
def ungroup (groups : List (LogKind × List Report)) : List (LogKind × Report) :=
  groups.flatMap fun group => group.2.map (group.1, ·)

/-- What rank 0 has logged of a rank are its first reports, each of them once and in the order of the reports.
Among them are those that had been made when rank 0 polled their key. -/
def Delivered (s : FaultReports worldSize) : Prop :=
  ∀ rank, ∃ groups : List (LogKind × List Report),
    s.logged rank = groups.map (fun group => (group.1, joined group.2)) ∧
    ungroup groups <+: s.reported rank ∧
    ∀ kind, ofKind kind (ungroup groups) = (ofKind kind (s.reported rank)).take (s.polled (rank, kind))

/-- The reports of a rank that rank 0 has not polled. -/
def unpolled (s : FaultReports worldSize) (rank : Fin worldSize) : List (LogKind × Report) :=
  (s.reported rank).drop (s.polled (rank, .warn) + s.polled (rank, .info))

/-- The reports of a kind are the first ones. -/
def ComeFirst (kind : LogKind) (reports : List (LogKind × Report)) : Prop :=
  (ofKind kind reports).map (kind, ·) <+: reports

/-- The condition on a step: a text is set only if it still is what was read before, and rank 0 logs a text only
if no report of the other kind has been waiting for longer. -/
def Careful (s : FaultReports worldSize) : ReportLabel worldSize → Prop
  | .get _ _ _ _ => True
  | .set rank thread => ∀ a ∈ s.appending (rank, thread), s.store (rank, a.kind) = a.currentLog
  | .poll => ∀ key ∈ keyAt worldSize s.position,
      match s.clearing with
      | some msg => s.store key = msg
      | none => ComeFirst key.2 (s.unpolled key.1)

instance (s : FaultReports worldSize) : DecidablePred s.Careful
  | .get _ _ _ _ => isTrue trivial
  | .set _ _ => inferInstanceAs (Decidable (∀ _ ∈ _, _))
  | .poll =>
    haveI : ∀ key : LogKey worldSize, Decidable (match s.clearing with
      | some msg => s.store key = msg
      | none => ComeFirst key.2 (s.unpolled key.1)) := fun _ =>
      match s.clearing with
      | some _ => inferInstanceAs (Decidable (_ = _))
      | none => inferInstanceAs (Decidable (_ <+: _))
    inferInstanceAs (Decidable (∀ _ ∈ _, _))

/-! ### Texts of reports -/

theorem joined_append (reports : List Report) (report : Report) :
    joined (reports ++ [report]) = appendReport (joined reports) report := by
  induction reports with
  | nil => simp [joined, appendReport]
  | cons first reports ih =>
    have hne : joined (first :: reports) ≠ [] := Text.intercalate_ne_nil first.property
    rw [appendReport, if_pos hne]
    cases reports with
    | nil => simp [joined]
    | cons second reports =>
      have hne' : joined (second :: reports) ≠ [] := Text.intercalate_ne_nil second.property
      rw [appendReport, if_pos hne'] at ih
      simp only [joined, List.cons_append, List.map_cons, List.intercalate_cons_cons] at ih ⊢
      rw [ih]
      simp

theorem joined_eq_nil {reports : List Report} (h : joined reports = []) : reports = [] := by
  cases reports with
  | nil => rfl
  | cons report reports => exact absurd h (Text.intercalate_ne_nil report.property)

/-- More reports give a longer text. -/
theorem length_joined_le_append (reports more : List Report) :
    (joined reports).length ≤ (joined (reports ++ more)).length := by
  induction more using List.reverseRecOn with
  | nil => rw [List.append_nil]
  | append_singleton more report ih =>
    refine ih.trans ?_
    rw [← List.append_assoc, joined_append, appendReport]
    split_ifs with hne
    · rw [List.length_append, List.length_append]
      omega
    · rw [not_not.mp hne]
      exact Nat.zero_le _

/-- The text without the last reports is another one. -/
theorem eq_nil_of_joined_append {reports more : List Report} (h : joined (reports ++ more) = joined reports) :
    more = [] := by
  cases more with
  | nil => rfl
  | cons report more =>
    exfalso
    have hpos : 0 < report.val.length := List.length_pos_of_ne_nil report.property
    have hle := length_joined_le_append (reports ++ [report]) more
    rw [List.append_assoc, List.singleton_append, h, joined_append, appendReport] at hle
    split_ifs at hle with hne
    · rw [List.length_append, List.length_append] at hle
      omega
    · rw [not_not.mp hne] at hle
      exact absurd (hpos.trans_le hle) (lt_irrefl 0)

/-! ### Reports of a kind -/

theorem ofKind_append (reports more : List (LogKind × Report)) :
    ofKind kind (reports ++ more) = ofKind kind reports ++ ofKind kind more :=
  List.filterMap_append

theorem ofKind_map_pair (reports : List Report) : ofKind kind (reports.map (kind, ·)) = reports := by
  induction reports with
  | nil => rfl
  | cons report reports ih =>
    simp only [ofKind, List.map_cons, List.filterMap_cons, if_pos] at ih ⊢
    rw [ih]

theorem ofKind_map_of_ne {other : LogKind} (hne : other ≠ kind) (reports : List Report) :
    ofKind kind (reports.map (other, ·)) = [] := by
  induction reports with
  | nil => rfl
  | cons report reports ih =>
    simp [ofKind, hne]

/-- There are no other kinds. -/
theorem length_ofKind_add (reports : List (LogKind × Report)) :
    (ofKind .warn reports).length + (ofKind .info reports).length = reports.length := by
  induction reports with
  | nil => rfl
  | cons report reports ih =>
    obtain ⟨_ | _, report⟩ := report
    · simp [ofKind] at ih ⊢
      omega
    · simp [ofKind] at ih ⊢
      omega

theorem ungroup_append (groups : List (LogKind × List Report)) (reports : List Report) :
    ungroup (groups ++ [(kind, reports)]) = ungroup groups ++ reports.map (kind, ·) := by
  simp [ungroup]

/-! ### One rank -/

/-- The texts of a rank, its logs and its reports.  Rank 0 has logged the reports in `flushed`, and those in
`stale` are still in the text that it is about to clear. -/
structure Held (s : FaultReports worldSize) (rank : Fin worldSize) (flushed pending : List (LogKind × Report))
    (stale : LogKind → List Report) : Prop where
  reported : s.reported rank = flushed ++ pending
  store : ∀ kind, s.store (rank, kind) = joined (stale kind ++ ofKind kind pending)
  polled : ∀ kind, s.polled (rank, kind) = (ofKind kind flushed).length
  logged : ∃ groups : List (LogKind × List Report),
    s.logged rank = groups.map (fun group => (group.1, joined group.2)) ∧ ungroup groups = flushed
  idle : ∀ kind, s.clearing = none ∨ keyAt worldSize s.position ≠ some (rank, kind) → stale kind = []
  clearing : ∀ kind msg, s.clearing = some msg → keyAt worldSize s.position = some (rank, kind) →
    msg = joined (stale kind)

/-- All ranks are held. -/
def AllHeld (s : FaultReports worldSize) : Prop :=
  ∀ rank, ∃ flushed pending stale, s.Held rank flushed pending stale

variable {flushed pending : List (LogKind × Report)} {stale : LogKind → List Report}

theorem Held.unpolled (h : s.Held rank flushed pending stale) : s.unpolled rank = pending := by
  rw [FaultReports.unpolled, h.polled, h.polled, length_ofKind_add, h.reported, List.drop_left]

theorem AllHeld.delivered (h : s.AllHeld) : s.Delivered := by
  intro rank
  obtain ⟨flushed, pending, stale, hheld⟩ := h rank
  obtain ⟨groups, hlogged, hflushed⟩ := hheld.logged
  refine ⟨groups, hlogged, ?_, fun kind => ?_⟩
  · rw [hflushed, hheld.reported]
    exact List.prefix_append _ _
  · rw [hflushed, hheld.reported, hheld.polled, ofKind_append, List.take_left]

/-- A step that leaves the rank as it is. -/
theorem Held.frame (h : s.Held rank flushed pending stale)
    (hstore : ∀ kind, s'.store (rank, kind) = s.store (rank, kind))
    (hlogged : s'.logged rank = s.logged rank) (hreported : s'.reported rank = s.reported rank)
    (hpolled : ∀ kind, s'.polled (rank, kind) = s.polled (rank, kind))
    (hidle : ∀ kind, s'.clearing = none ∨ keyAt worldSize s'.position ≠ some (rank, kind) → stale kind = [])
    (hclearing : ∀ kind msg, s'.clearing = some msg → keyAt worldSize s'.position = some (rank, kind) →
      msg = joined (stale kind)) : s'.Held rank flushed pending stale where
  reported := by rw [hreported, h.reported]
  store kind := by rw [hstore, h.store]
  polled kind := by rw [hpolled, h.polled]
  logged := by
    rw [hlogged]
    exact h.logged
  idle := hidle
  clearing := hclearing

theorem allHeld_start : ({} : FaultReports worldSize).AllHeld := by
  intro rank
  refine ⟨[], [], fun _ => [], rfl, fun _ => rfl, fun _ => rfl, ⟨[], rfl, rfl⟩, fun _ _ => rfl, ?_⟩
  exact nofun

/-- A rank sets the text that it has extended. -/
theorem AllHeld.setLog (h : s.AllHeld) {current : Fin worldSize} {a : Appending} (thread : ReportThread)
    (hcareful : s.store (current, a.kind) = a.currentLog) : (s.setLog current thread a).AllHeld := by
  intro rank
  obtain ⟨flushed, pending, stale, hheld⟩ := h rank
  by_cases hrank : rank = current
  · subst hrank
    refine ⟨flushed, pending ++ [(a.kind, a.report)], stale, ?_, ?_, hheld.polled, hheld.logged, hheld.idle,
      hheld.clearing⟩
    · show Function.update s.reported _ _ _ = _
      rw [Function.update_self, hheld.reported, List.append_assoc]
    · intro kind
      show Function.update s.store _ _ _ = _
      rw [ofKind_append]
      by_cases hkind : kind = a.kind
      · subst hkind
        have hsingle : ofKind a.kind [(a.kind, a.report)] = [a.report] := ofKind_map_pair [a.report]
        rw [Function.update_self, hsingle, ← List.append_assoc, joined_append, ← hheld.store, hcareful]
      · have hsingle : ofKind kind [(a.kind, a.report)] = [] := ofKind_map_of_ne (Ne.symm hkind) [a.report]
        rw [hsingle, List.append_nil, ← hheld.store]
        exact Function.update_of_ne (fun heq => hkind (Prod.ext_iff.mp heq).2) _ _
  · refine ⟨flushed, pending, stale, hheld.frame ?_ rfl ?_ (fun _ => rfl) hheld.idle hheld.clearing⟩
    · intro kind
      exact Function.update_of_ne (fun heq => hrank (Prod.ext_iff.mp heq).1) _ _
    · exact Function.update_of_ne hrank _ _

/-- Rank 0 gets a text, and logs it. -/
theorem AllHeld.pollGet (h : s.AllHeld) {key : LogKey worldSize} (hkey : keyAt worldSize s.position = some key)
    (hidle : s.clearing = none) (hfirst : ComeFirst key.2 (s.unpolled key.1)) : (s.pollGet key).AllHeld := by
  obtain ⟨current, kind⟩ := key
  intro rank
  obtain ⟨flushed, pending, stale, hheld⟩ := h rank
  have hstale (kind : LogKind) : stale kind = [] := hheld.idle kind (.inl hidle)
  have hstore := hheld.store kind
  rw [hstale, List.nil_append] at hstore
  rw [FaultReports.pollGet]
  dsimp only
  split_ifs with hmsg
  · -- There is something to log.
    by_cases hrank : rank = current
    · subst hrank
      rw [hheld.unpolled] at hfirst
      obtain ⟨rest, hrest⟩ := hfirst
      obtain ⟨groups, hlogged, hflushed⟩ := hheld.logged
      generalize hreports : ofKind kind pending = reports at hrest hstore
      have hkinds (other : LogKind) : ofKind other pending = ofKind other (reports.map (kind, ·)) ++
          ofKind other rest := by rw [← hrest, ofKind_append]
      have hnone : ofKind kind rest = [] := by
        have heq := hkinds kind
        rw [hreports, ofKind_map_pair] at heq
        exact List.append_right_eq_self.mp heq.symm
      refine ⟨flushed ++ reports.map (kind, ·), rest, Function.update (fun _ => []) kind reports, ?_, ?_, ?_, ?_,
        ?_, ?_⟩
      · rw [List.append_assoc, hrest]
        exact hheld.reported
      · intro other
        by_cases hother : other = kind
        · subst hother
          rw [Function.update_self, hnone, List.append_nil]
          exact hstore
        · rw [Function.update_of_ne hother, List.nil_append]
          have heq := hheld.store other
          rwa [hstale, List.nil_append, hkinds, ofKind_map_of_ne (Ne.symm hother), List.nil_append] at heq
      · intro other
        show Function.update s.polled _ _ _ = _
        rw [ofKind_append, List.length_append]
        by_cases hother : other = kind
        · subst hother
          rw [Function.update_self, hheld.reported, ofKind_append, List.length_append, hreports, ofKind_map_pair]
        · rw [Function.update_of_ne (fun heq => hother (Prod.ext_iff.mp heq).2), hheld.polled,
            ofKind_map_of_ne (Ne.symm hother)]
          rfl
      · refine ⟨groups ++ [(kind, reports)], ?_, ?_⟩
        · show Function.update s.logged _ _ _ = _
          rw [Function.update_self, hlogged, hstore, List.map_append, List.map_singleton]
        · rw [ungroup_append, hflushed]
      · intro other hother
        apply Function.update_of_ne
        rintro rfl
        rcases hother with hnone | hne
        · cases hnone
        · exact hne hkey
      · intro other msg hsome hat
        cases hsome
        obtain rfl : kind = other := (Prod.ext_iff.mp (Option.some.inj (hkey.symm.trans hat))).2
        rw [Function.update_self, hstore]
    · refine ⟨flushed, pending, stale, hheld.frame (fun _ => rfl) ?_ rfl ?_ (fun kind _ => hstale kind) ?_⟩
      · exact Function.update_of_ne hrank _ _
      · intro kind
        exact Function.update_of_ne (fun heq => hrank (Prod.ext_iff.mp heq).1) _ _
      · intro kind msg _ hat
        exact absurd (Prod.ext_iff.mp (Option.some.inj (hat.symm.trans hkey))).1 hrank
  · -- The text is empty, and so nothing waits.
    refine ⟨flushed, pending, stale, hheld.frame (fun _ => rfl) rfl rfl ?_ (fun kind _ => hstale kind) ?_⟩
    · intro other
      show Function.update s.polled _ _ _ = _
      by_cases hother : (rank, other) = (current, kind)
      · cases hother
        have hnil := joined_eq_nil (hstore.symm.trans (not_not.mp hmsg))
        rw [Function.update_self, hheld.polled, hheld.reported, ofKind_append, hnil, List.append_nil]
      · exact Function.update_of_ne hother _ _
    · intro kind msg hsome
      exact absurd (hidle.symm.trans hsome) nofun

/-- Rank 0 clears a text that is still the one it has logged. -/
theorem AllHeld.pollClear (h : s.AllHeld) {key : LogKey worldSize} {msg : Text}
    (hkey : keyAt worldSize s.position = some key) (hclearing : s.clearing = some msg)
    (hcareful : s.store key = msg) : (s.pollClear key).AllHeld := by
  obtain ⟨current, kind⟩ := key
  intro rank
  obtain ⟨flushed, pending, stale, hheld⟩ := h rank
  refine ⟨flushed, pending, fun _ => [], hheld.reported, ?_, hheld.polled, hheld.logged, fun _ _ => rfl, nofun⟩
  intro other
  show Function.update s.store _ _ _ = _
  rw [List.nil_append]
  by_cases hother : (rank, other) = (current, kind)
  · cases hother
    have hmsg := hheld.clearing kind msg hclearing hkey
    have hnil : ofKind kind pending = [] := by
      apply eq_nil_of_joined_append
      rw [← hheld.store, hcareful, hmsg]
    rw [Function.update_self, hnil]
    rfl
  · have hstale : stale other = [] :=
      hheld.idle other (.inr fun hat => hother (Option.some.inj (hat.symm.trans hkey)))
    rw [Function.update_of_ne hother, hheld.store, hstale, List.nil_append]

theorem AllHeld.next (h : s.AllHeld) {l : ReportLabel worldSize} (hcareful : s.Careful l)
    (hnext : s.next l = some s') : s'.AllHeld := by
  cases l with
  | get rank thread kind report =>
    rw [FaultReports.next] at hnext
    split_ifs at hnext
    cases hnext
    intro rank
    obtain ⟨flushed, pending, stale, hheld⟩ := h rank
    exact ⟨flushed, pending, stale,
      hheld.frame (fun _ => rfl) rfl rfl (fun _ => rfl) hheld.idle hheld.clearing⟩
  | set rank thread =>
    obtain ⟨a, ha, rfl⟩ := Option.map_eq_some_iff.mp hnext
    exact h.setLog thread (hcareful a ha)
  | poll =>
    obtain ⟨key, hkey, rfl⟩ := Option.map_eq_some_iff.mp hnext
    have hpoll := hcareful key hkey
    cases hclearing : s.clearing with
    | none =>
      rw [hclearing] at hpoll
      exact h.pollGet hkey hclearing hpoll
    | some msg =>
      rw [hclearing] at hpoll
      exact h.pollClear hkey hclearing hpoll

/-! ### Whole runs -/

/-- In a run whose steps are careful, the reports are delivered. -/
theorem delivered_of_careful {ls : List (ReportLabel worldSize)} (hcareful : Machine.Guarded next Careful {} ls)
    (hrun : runFromStart ls = some s) : s.Delivered := by
  have hheld : s.AllHeld :=
    Machine.guarded_run_induction (fun _ _ _ h hG hnext => h.next hG hnext) allHeld_start hcareful hrun
  exact hheld.delivered

local instance reportRanks : NeZero 2 := inferInstance

/-- Two reports of rank 1; the second one is made while rank 0 logs nothing. -/
def orderlyReports : List (ReportLabel 2) :=
  let report : Report := ⟨"event".toList, by decide⟩
  [.get 1 .check .warn report, .set 1 .check, .poll, .poll, .get 1 .checksum .warn report, .set 1 .checksum,
    .poll, .poll, .poll]

theorem delivered_orderlyReports :
    ∃ s : FaultReports 2, runFromStart orderlyReports = some s ∧ s.Delivered ∧
      s.logged 1 = [(.warn, "event".toList), (.warn, "event".toList)] := by
  have hrun : ((runFromStart orderlyReports).any fun s =>
      decide (s.logged 1 = [(.warn, "event".toList), (.warn, "event".toList)])) = true := by decide +kernel
  have hcareful : Machine.Guarded next Careful {} orderlyReports := by decide +kernel
  obtain ⟨s, hs, h⟩ := (Option.any_eq_true _ _).mp hrun
  exact ⟨s, hs, delivered_of_careful hcareful hs, of_decide_eq_true h⟩

/-- Rank 1 reports again between the `get` and the `set` of rank 0, and the report is never logged. -/
def clearedReport : List (ReportLabel 2) :=
  let first : Report := ⟨"event".toList, by decide⟩
  let second : Report := ⟨"warning".toList, by decide⟩
  [.get 1 .check .warn first, .set 1 .check, .poll, .get 1 .checksum .warn second, .set 1 .checksum, .poll,
    .poll, .poll]

theorem not_delivered_clearedReport :
    ∃ s : FaultReports 2, runFromStart clearedReport = some s ∧ ¬ s.Delivered := by
  have hrun : ((runFromStart clearedReport).any fun s => decide
      (s.logged 1 = [(.warn, "event".toList)] ∧ s.polled (1, .warn) = 2 ∧
        joined (ofKind .warn (s.reported 1)) = "event\nwarning".toList ∧
        (ofKind .warn (s.reported 1)).length = 2)) = true := by
    decide +kernel
  obtain ⟨s, hs, h⟩ := (Option.any_eq_true _ _).mp hrun
  obtain ⟨hlogged, hpolled, hreported, hlength⟩ := of_decide_eq_true h
  refine ⟨s, hs, fun hdelivered => ?_⟩
  obtain ⟨groups, hgroups, -, hkinds⟩ := hdelivered 1
  -- There is one log, and so it would have to be of both reports.
  have hwarn := hkinds .warn
  rw [hpolled, List.take_of_length_le hlength.le] at hwarn
  obtain ⟨group, rfl⟩ : ∃ group, groups = [group] := by
    rw [← List.length_eq_one_iff, ← List.length_map, ← hgroups, hlogged]
    rfl
  obtain ⟨kind, reports⟩ := group
  obtain ⟨rfl, htext⟩ : LogKind.warn = kind ∧ "event".toList = joined reports := by
    rw [hlogged, List.map_singleton] at hgroups
    exact Prod.mk.inj (List.head_eq_of_cons_eq hgroups)
  have hungroup : ungroup [(LogKind.warn, reports)] = reports.map (LogKind.warn, ·) :=
    List.flatMap_singleton _ _
  rw [hungroup, ofKind_map_pair] at hwarn
  rw [← hwarn, ← htext] at hreported
  exact absurd hreported (by decide)

end TorchNpu.SilentCheck.FaultReports
