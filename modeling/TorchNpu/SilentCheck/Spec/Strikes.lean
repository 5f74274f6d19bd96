/-
  Which abnormals are counted, and which strikes there are.

  `record` has all abnormals so far with what has become of them; the history is the end of it, and what was removed
  is out of the window (`StrikeInv`).  There are never more abnormals left over in the history than one strike needs,
  so that the second loop collects all of them.  With two strikes to a warning it collects nothing and ends at an
  entry that is not the one it has collected; that, and what happens when all counted entries are removed, is what
  `Sound` excludes.
-/
import TorchNpu.SilentCheck.Detection
import Mathlib.Data.List.Nodup
import Mathlib.Data.List.TakeWhile
import Mathlib.Data.List.Induction
import Mathlib.Tactic.Linarith

namespace TorchNpu.SilentCheck

/-! ### What is claimed -/

/-- A counted abnormal that belongs to no strike. -/
def Abnormal.free (abnormal : Abnormal) : Bool :=
  abnormal.counted && !abnormal.striked

/-- An abnormal after a strike. -/
def Abnormal.mark (strike : Option (List ℕ)) (abnormal : Abnormal) : Abnormal :=
  { abnormal with striked := abnormal.striked || decide (abnormal.id ∈ strike.getD []) }

/-- All abnormals after another one. -/
def recordNext (past : List Abnormal) (event : ℚ × Verdict) : List Abnormal :=
  past.map (Abnormal.mark event.2.strike) ++
    [{ id := past.length, time := event.1, counted := event.2.counted, striked := event.2.strike.isSome }]

/-- All abnormals: their times, whether they are counted and whether they belong to a strike. -/
def record (events : List (ℚ × Verdict)) : List Abnormal :=
  events.foldl recordNext []

namespace StrikeConfig

variable (cfg : StrikeConfig)

/-- The free abnormals within the window before a time. -/
def freeWithin (past : List Abnormal) (time : ℚ) : List Abnormal :=
  past.filter fun a => a.free ∧ time - a.time ≤ cfg.strikesWindow * 60

/-- The strike that a counted abnormal completes: the latest `strikes_num - 1` free ones within the window and
itself. -/
def strikeOf (past : List Abnormal) (time : ℚ) (counted : Bool) : Option (List ℕ) :=
  let free := cfg.freeWithin past time
  if counted ∧ cfg.strikesNum ≤ free.length + 1 then
    some ((free.drop (free.length + 1 - cfg.strikesNum)).map Abnormal.id ++ [past.length])
  else none

/-- The verdict on an abnormal after the past ones: it is counted and logged unless a counted one within the window
is less than the cooldown ago, and the warning is about the strike that it completes. -/
structure Right (past : List Abnormal) (time : ℚ) (verdict : Verdict) : Prop where
  counted : verdict.counted ↔ ∀ a ∈ past, a.counted → time - a.time ≤ cfg.strikesWindow * 60 →
    ¬time - a.time < cfg.cooldown * 60
  logged : verdict.logged = verdict.counted
  strike : verdict.strike = cfg.strikeOf past time verdict.counted

/-- The abnormals with their verdicts. -/
def events (times : List ℚ) : List (ℚ × Verdict) :=
  times.zip (cfg.run times).2

/-- Every verdict is right, and no abnormal belongs to two strikes. -/
structure Obeys (times : List ℚ) : Prop where
  right : ∀ before time verdict after, cfg.events times = before ++ (time, verdict) :: after →
    cfg.Right (record before) time verdict
  disjoint : ((cfg.run times).2.filterMap Verdict.strike).flatten.Nodup

/-! ### The condition -/

/-- The condition on the history and the time of the next abnormal.  Some entry is counted, if there is one at all.
If the latest of these is less than the cooldown ago, it is within the window.  With two strikes to a warning, when
the abnormal is counted, the entry before the latest counted one is out of the window if that one belongs to a
strike, and within it if that one is within it and belongs to none. -/
def Sound (history : List Abnormal) (time : ℚ) : Prop :=
  match history.reverse.dropWhile fun a => ¬a.counted with
  | [] => history = []
  | old :: older =>
    (time - old.time < cfg.cooldown * 60 → time - old.time ≤ cfg.strikesWindow * 60) ∧
      (cfg.strikesNum = 2 → cfg.cooldown * 60 ≤ time - old.time →
        if old.striked then cfg.strikesWindow * 60 < time - (older.head?.getD old).time
        else time - old.time ≤ cfg.strikesWindow * 60 →
          time - (older.head?.getD old).time ≤ cfg.strikesWindow * 60)

instance (history : List Abnormal) (time : ℚ) : Decidable (cfg.Sound history time) := by
  unfold Sound
  split
  · infer_instance
  · infer_instance

/-- Every abnormal meets the condition with the history before it. -/
def AllSound (times : List ℚ) : Prop :=
  ∀ i time, times[i]? = some time → cfg.Sound (cfg.run (times.take i)).1 time

variable {cfg} {history past : List Abnormal} {time : ℚ}

/-! ### The loops -/

theorem scan_eq (new : Abnormal) (entries : List Abnormal) : cfg.scan new entries =
    match entries.dropWhile fun a => ¬a.counted with
    | [] => .exhausted
    | old :: older => if |new.time - old.time| ≥ cfg.cooldown * 60 then .counted old older else .uncounted := by
  induction entries with
  | nil => rfl
  | cons old older ih =>
    rw [scan, List.dropWhile_cons]
    by_cases hcounted : old.counted
    · simp only [hcounted, true_and, not_true, if_false, decide_false, Bool.false_eq_true]
    · simp only [hcounted, false_and, Bool.false_eq_true, if_false, not_false_eq_true, if_true, decide_true, ih]

/-- With no free entry left to find, the second loop ends at once if it has enough of them. -/
theorem collect_of_length_eq {older : List Abnormal} {pos : List ℕ} (last : Abnormal)
    (hnone : older.filter Abnormal.free = []) (hpos : pos.length + 1 = cfg.strikesNum) :
    cfg.collect older pos last = (pos, older.head?.getD last) := by
  cases older with
  | nil => rfl
  | cons old older =>
    have hold : ¬(old.counted ∧ ¬old.striked) := by
      have := (List.filter_eq_nil_iff.mp hnone) old (List.mem_cons_self ..)
      simpa [Abnormal.free] using this
    rw [collect]
    simp only [if_neg hold, if_pos hpos]
    rfl

/-- The second loop collects the free entries, if there are not too many of them: all of them and the oldest one is
where it ends, or not enough of them. -/
theorem collect_spec (cfg : StrikeConfig) {older : List Abnormal} (pos : List ℕ) (last : Abnormal) (hinit : older.reverse <+: history)
    (hle : pos.length + (older.filter Abnormal.free).length + 1 ≤ cfg.strikesNum)
    (hlt : pos.length + 1 < cfg.strikesNum) :
    (pos.length + (older.filter Abnormal.free).length + 1 < cfg.strikesNum →
      (cfg.collect older pos last).1.length + 1 ≠ cfg.strikesNum) ∧
    (pos.length + (older.filter Abnormal.free).length + 1 = cfg.strikesNum →
      (older.filter Abnormal.free).getLast? = some (cfg.collect older pos last).2 ∧
        ∃ more : List ℕ, (cfg.collect older pos last).1 = pos ++ more ∧
          more.map (history[·]?) = (older.filter Abnormal.free).map some) := by
  induction older generalizing pos last with
  | nil =>
    refine ⟨fun h => ?_, fun h => ?_⟩
    · exact h.ne
    · exact absurd h hlt.ne
  | cons old older ih =>
    have hrest : older.reverse <+: history := by
      rw [List.reverse_cons] at hinit
      exact (List.prefix_append _ _).trans hinit
    rw [collect]
    by_cases hfree : old.free
    · have hold : old.counted ∧ ¬old.striked := by simpa [Abnormal.free] using hfree
      have hget : history[older.length]? = some old := by
        obtain ⟨rest, rfl⟩ := hinit
        simp
      rw [List.filter_cons_of_pos hfree] at hle ⊢
      rw [List.length_cons] at hle ⊢
      simp only [if_pos hold]
      by_cases hlast : (pos ++ [older.length]).length + 1 = cfg.strikesNum
      · rw [if_pos hlast]
        rw [List.length_append, List.length_singleton] at hlast
        have hnone : older.filter Abnormal.free = [] := List.length_eq_zero_iff.mp (by omega)
        rw [hnone]
        refine ⟨fun h => absurd h (by simp; omega), fun _ => ⟨rfl, [older.length], rfl, ?_⟩⟩
        simp [hget]
      · rw [if_neg hlast]
        rw [List.length_append, List.length_singleton] at hlast
        obtain ⟨hfew, hall⟩ := ih (pos ++ [older.length]) old hrest (by simp; omega) (by simp; omega)
        rw [List.length_append, List.length_singleton] at hfew hall
        refine ⟨fun h => hfew (by omega), fun h => ?_⟩
        obtain ⟨holdest, more, hmore, hmap⟩ := hall (by omega)
        refine ⟨?_, older.length :: more, ?_, ?_⟩
        · rw [List.getLast?_cons, holdest]
          rfl
        · rw [hmore, List.append_assoc]
          rfl
        · rw [List.map_cons, List.map_cons, hget, hmap]
    · have hold : ¬(old.counted ∧ ¬old.striked) := by simpa [Abnormal.free] using hfree
      rw [List.filter_cons_of_neg hfree] at hle ⊢
      simp only [if_neg hold, if_neg hlt.ne]
      exact ih pos old hrest hle hlt

/-! ### Expiry -/

/-- What is kept of ordered entries is within the window. -/
theorem le_of_mem_expire {entries : List Abnormal} (hsorted : entries.Pairwise fun a b => a.time ≤ b.time)
    (hle : ∀ a ∈ entries, a.time ≤ time) {a : Abnormal} (ha : a ∈ cfg.expire time entries) :
    time - a.time ≤ cfg.strikesWindow * 60 := by
  induction entries with
  | nil => cases ha
  | cons first entries ih =>
    rw [List.pairwise_cons] at hsorted
    rw [List.forall_mem_cons] at hle
    unfold expire at ha ih
    rw [List.dropWhile_cons] at ha
    split_ifs at ha with hexpired
    · exact ih hsorted.2 hle.2 ha
    · -- The first entry that is kept is the oldest one.
      have hfirst : |time - first.time| ≤ cfg.strikesWindow * 60 := by simpa using hexpired
      rw [abs_of_nonneg (by linarith)] at hfirst
      rcases List.mem_cons.mp ha with rfl | ha
      · exact hfirst
      · have := hsorted.1 a ha
        linarith

/-- What is removed is out of the window. -/
theorem lt_of_mem_takeWhile {entries : List Abnormal} (hle : ∀ a ∈ entries, a.time ≤ time) {a : Abnormal}
    (ha : a ∈ entries.takeWhile fun abnormal => ¬|time - abnormal.time| ≤ cfg.strikesWindow * 60) :
    cfg.strikesWindow * 60 < time - a.time := by
  have hexpired := List.mem_takeWhile_imp ha
  have hmem := (List.takeWhile_prefix _).subset ha
  rw [decide_eq_true_iff, not_le, abs_of_nonneg (by linarith [hle a hmem])] at hexpired
  exact hexpired

/-! ### The invariant -/

variable {strike : Option (List ℕ)}

theorem map_mark_of_not_mem {entries : List Abnormal} (h : ∀ a ∈ entries, a.id ∉ strike.getD []) :
    entries.map (Abnormal.mark strike) = entries := by
  refine (List.map_congr_left fun a ha => ?_).trans (List.map_id _)
  simp [Abnormal.mark, h a ha]

/-- If the latest counted entry belongs to a strike, no entry is free. -/
def Struck (entries : List Abnormal) : Prop :=
  ∀ old older, (entries.reverse.dropWhile fun a => ¬a.counted) = old :: older → old.striked →
    entries.filter Abnormal.free = []

/-- The history is the end of all abnormals; the others are out of the window.  There are never as many free entries
as a strike has, and none if the latest counted one belongs to a strike. -/
structure StrikeInv (cfg : StrikeConfig) (past history : List Abnormal) : Prop where
  gone : ∃ gone, past = gone ++ history ∧
    ∀ a ∈ gone, ∀ latest ∈ past.getLast?, cfg.strikesWindow * 60 < latest.time - a.time
  ids : past.map Abnormal.id = List.range past.length
  sorted : past.Pairwise fun a b => a.time ≤ b.time
  few : (history.filter Abnormal.free).length + 1 ≤ cfg.strikesNum
  struck : Struck history

/-- What was out of the window at the latest abnormal is out of it now. -/
theorem lt_of_gone (hle : ∀ a ∈ past, a.time ≤ time) {gone : List Abnormal} (hgone : past = gone ++ history)
    (hout : ∀ a ∈ gone, ∀ latest ∈ past.getLast?, cfg.strikesWindow * 60 < latest.time - a.time) :
    ∀ a ∈ gone, cfg.strikesWindow * 60 < time - a.time := by
  intro a ha
  have hne : past ≠ [] := by
    rw [hgone]
    exact List.append_ne_nil_of_left_ne_nil (List.ne_nil_of_mem ha) _
  have hlt := hout a ha _ (List.getLast?_eq_some_getLast hne)
  have := hle _ (List.getLast_mem hne)
  linarith

/-- The invariant after an abnormal: entries that were removed are out of the window. -/
theorem StrikeInv.next (h : StrikeInv cfg past history) (hle : ∀ a ∈ past, a.time ≤ time) {verdict : Verdict}
    {removed history' : List Abnormal}
    (hkept : history.map (Abnormal.mark verdict.strike) ++
      [{ id := past.length, time, counted := verdict.counted, striked := verdict.strike.isSome }] = removed ++ history')
    (hremoved : ∀ a ∈ removed, cfg.strikesWindow * 60 < time - a.time)
    (hfew : (history'.filter Abnormal.free).length + 1 ≤ cfg.strikesNum)
    (hstruck : Struck history') : StrikeInv cfg (recordNext past (time, verdict)) history' := by
  obtain ⟨gone, hgone, hout⟩ := h.gone
  have hids : (recordNext past (time, verdict)).map Abnormal.id = List.range (past.length + 1) := by
    unfold recordNext
    rw [List.map_append, List.map_map, List.range_succ, ← h.ids]
    rfl
  have hsorted : (recordNext past (time, verdict)).Pairwise fun a b => a.time ≤ b.time := by
    unfold recordNext
    rw [List.pairwise_append]
    refine ⟨List.pairwise_map.mpr h.sorted, List.pairwise_singleton .., fun a ha b hb => ?_⟩
    obtain ⟨a, hmem, rfl⟩ := List.mem_map.mp ha
    rw [List.mem_singleton.mp hb]
    exact hle a hmem
  refine ⟨⟨gone.map (Abnormal.mark verdict.strike) ++ removed, ?_, ?_⟩, ?_, hsorted, hfew, hstruck⟩
  · rw [List.append_assoc, ← hkept, ← List.append_assoc, ← List.map_append, ← hgone]
    rfl
  · intro a ha latest hlatest
    have htime : latest.time = time := by
      unfold recordNext at hlatest
      rw [List.getLast?_concat] at hlatest
      exact congrArg Abnormal.time (Option.some_inj.mp hlatest).symm
    rw [htime]
    rcases List.mem_append.mp ha with ha | ha
    · obtain ⟨a, hmem, rfl⟩ := List.mem_map.mp ha
      exact lt_of_gone hle hgone hout a hmem
    · exact hremoved a ha
  · rw [hids, recordNext, List.length_append, List.length_map, List.length_singleton]

/-! ### One abnormal -/

/-- The latest counted entry, the entries before it, the latest first, and those after it. -/
theorem split_of_dropWhile {old : Abnormal} {older : List Abnormal}
    (h : (history.reverse.dropWhile fun a => ¬a.counted) = old :: older) :
    old.counted = true ∧ ∃ newer, history = older.reverse ++ old :: newer ∧ ∀ a ∈ newer, a.counted = false := by
  refine ⟨?_, (history.reverse.takeWhile fun a => ¬a.counted).reverse, ?_, ?_⟩
  · have hhead := List.head?_dropWhile_not (fun a : Abnormal => decide ¬a.counted) history.reverse
    rw [h] at hhead
    simpa using hhead
  · have happend := List.takeWhile_append_dropWhile (p := fun a : Abnormal => decide ¬a.counted) (l := history.reverse)
    rw [h] at happend
    have hreverse := congrArg List.reverse happend
    rw [List.reverse_append, List.reverse_cons, List.append_assoc, List.reverse_reverse] at hreverse
    exact hreverse.symm
  · intro a ha
    have := List.mem_takeWhile_imp (List.mem_reverse.mp ha)
    simpa using this

theorem abnormalProcess_of_dropWhile {old : Abnormal} {older : List Abnormal} (new : Abnormal) (currentTime : ℚ)
    (h : (history.reverse.dropWhile fun a => ¬a.counted) = old :: older) :
    cfg.abnormalProcess history new currentTime =
      if |new.time - old.time| ≥ cfg.cooldown * 60 then
        if cfg.strikesNum = 1 then
          (cfg.expire currentTime (history ++ [{ new with striked := true }]),
            ⟨new.counted, true, some (warning [] history new)⟩)
        else
          let collected := cfg.collect older [older.length] old
          if collected.1.length + 1 = cfg.strikesNum ∧
              |new.time - collected.2.time| ≤ cfg.strikesWindow * 60 then
            (cfg.expire currentTime (setStriked collected.1 history ++ [{ new with striked := true }]),
              ⟨new.counted, true, some (warning collected.1 history new)⟩)
          else (cfg.expire currentTime (history ++ [new]), ⟨new.counted, true, none⟩)
      else (cfg.expire currentTime (history ++ [{ new with counted := false }]), ⟨false, false, none⟩) := by
  unfold abnormalProcess
  cases hreverse : history.reverse with
  | nil =>
    rw [hreverse] at h
    cases h
  | cons latest rest =>
    rw [hreverse] at h
    dsimp only
    rw [scan_eq, h]
    dsimp only
    by_cases hcounted : |new.time - old.time| ≥ cfg.cooldown * 60
    · rw [if_pos hcounted, if_pos hcounted]
    · rw [if_neg hcounted, if_neg hcounted]

theorem StrikeInv.freeWithin_eq (h : StrikeInv cfg past history) (hle : ∀ a ∈ past, a.time ≤ time) :
    cfg.freeWithin past time =
      (history.filter Abnormal.free).filter fun a => time - a.time ≤ cfg.strikesWindow * 60 := by
  obtain ⟨gone, hgone, hout⟩ := h.gone
  have hlt := lt_of_gone hle hgone hout
  have hnone : gone.filter (fun a => a.free ∧ time - a.time ≤ cfg.strikesWindow * 60) = [] := by
    apply List.filter_eq_nil_iff.mpr
    intro a ha
    have := hlt a ha
    simp only [decide_eq_true_eq, not_and, not_le]
    exact fun _ => this
  unfold freeWithin
  rw [hgone, List.filter_append, hnone, List.nil_append, List.filter_filter]
  congr 1
  ext a
  simp [and_comm]

theorem Struck.of_suffix {entries kept : List Abnormal} (h : Struck entries) (hsuffix : kept <:+ entries) :
    Struck kept := by
  intro old older hold hstriked
  obtain ⟨removed, rfl⟩ := hsuffix
  have hdrop : ((removed ++ kept).reverse.dropWhile fun a => ¬a.counted) = old :: (older ++ removed.reverse) := by
    rw [List.reverse_append, List.dropWhile_append, hold]
    rfl
  have hnone := h old _ hdrop hstriked
  rw [List.filter_append] at hnone
  exact (List.append_eq_nil_iff.mp hnone).2

theorem Struck.of_filter_eq_nil {entries : List Abnormal} (h : entries.filter Abnormal.free = []) : Struck entries :=
  fun _ _ _ _ => h

theorem struck_append_uncounted {entries : List Abnormal} {new : Abnormal} (h : Struck entries)
    (hnew : new.counted = false) : Struck (entries ++ [new]) := by
  intro old older hold hstriked
  rw [List.reverse_append, List.reverse_singleton, List.singleton_append, List.dropWhile_cons_of_pos (by simp [hnew])]
    at hold
  rw [List.filter_append, h old older hold hstriked]
  simp [Abnormal.free, hnew]

theorem struck_append_counted {entries : List Abnormal} {new : Abnormal} (hcounted : new.counted = true)
    (hstriked : new.striked = false) : Struck (entries ++ [new]) := by
  intro old older hold hold'
  rw [List.reverse_append, List.reverse_singleton, List.singleton_append,
    List.dropWhile_cons_of_neg (by simp [hcounted])] at hold
  rw [← (List.cons.inj hold).1, hstriked] at hold'
  exact absurd hold' Bool.false_ne_true

/-- The free entries, by the latest counted one. -/
theorem filter_free_eq {old : Abnormal} {older newer : List Abnormal} (hcounted : old.counted = true)
    (hsplit : history = older.reverse ++ old :: newer) (hnewer : ∀ a ∈ newer, a.counted = false) :
    history.filter Abnormal.free = (older.filter Abnormal.free).reverse ++ if old.striked then [] else [old] := by
  have hnone : newer.filter Abnormal.free = [] := by
    apply List.filter_eq_nil_iff.mpr
    intro a ha
    simp [Abnormal.free, hnewer a ha]
  rw [hsplit, List.filter_append, List.filter_reverse, List.filter_cons, hnone, Abnormal.free, hcounted]
  cases old.striked <;> rfl

/-- Whether the abnormal is to be counted depends on the latest counted entry. -/
theorem StrikeInv.counted_iff (h : StrikeInv cfg past history) (hle : ∀ a ∈ past, a.time ≤ time) {old : Abnormal}
    {older newer : List Abnormal} (hcounted : old.counted = true)
    (hsplit : history = older.reverse ++ old :: newer) (hnewer : ∀ a ∈ newer, a.counted = false) :
    (∀ a ∈ past, a.counted → time - a.time ≤ cfg.strikesWindow * 60 → ¬time - a.time < cfg.cooldown * 60) ↔
      (time - old.time ≤ cfg.strikesWindow * 60 → ¬time - old.time < cfg.cooldown * 60) := by
  obtain ⟨gone, hgone, hout⟩ := h.gone
  have hsorted := h.sorted
  constructor
  · intro hall
    have hmem : old ∈ past := by
      rw [hgone, hsplit]
      simp
    exact hall old hmem hcounted
  · intro hold a ha hcounted' hwithin
    rw [hgone] at ha
    rcases List.mem_append.mp ha with ha | ha
    · exact absurd hwithin (not_le.mpr (lt_of_gone hle hgone hout a ha))
    · have hearlier : a.time ≤ old.time := by
        rw [hgone, hsplit, List.pairwise_append, List.pairwise_append] at hsorted
        rw [hsplit] at ha
        rcases List.mem_append.mp ha with ha | ha
        · exact hsorted.2.1.2.2 a ha old (List.mem_cons_self ..)
        · rcases List.mem_cons.mp ha with rfl | ha
          · exact le_rfl
          · rw [hnewer a ha] at hcounted'
            exact absurd hcounted' Bool.false_ne_true
      have := hold (by linarith)
      linarith

theorem StrikeInv.id_getElem (h : StrikeInv cfg past history) {gone : List Abnormal} (hgone : past = gone ++ history)
    {i : ℕ} {a : Abnormal} (hi : history[i]? = some a) : a.id = gone.length + i := by
  have hget : (past.map Abnormal.id)[gone.length + i]? = some a.id := by
    rw [hgone, List.getElem?_map, List.getElem?_append_right (Nat.le_add_right ..), Nat.add_sub_cancel_left, hi]
    rfl
  rw [h.ids, List.getElem?_eq_some_iff] at hget
  obtain ⟨hlt, hget⟩ := hget
  rw [List.getElem_range] at hget
  exact hget.symm

theorem StrikeInv.id_lt (h : StrikeInv cfg past history) {a : Abnormal} (ha : a ∈ past) : a.id < past.length := by
  have hmem := List.mem_map_of_mem (f := Abnormal.id) ha
  rw [h.ids] at hmem
  exact List.mem_range.mp hmem

/-- What the second loop finds, for a counted abnormal: all free entries, if these and the abnormal make a strike. -/
theorem StrikeInv.collect_spec (h : StrikeInv cfg past history) (hle : ∀ a ∈ past, a.time ≤ time)
    (hsound : cfg.Sound history time) (hne : cfg.strikesNum ≠ 1) {old : Abnormal} {older newer : List Abnormal}
    (hdrop : (history.reverse.dropWhile fun a => ¬a.counted) = old :: older) (hcounted : old.counted = true)
    (hsplit : history = older.reverse ++ old :: newer) (hnewer : ∀ a ∈ newer, a.counted = false)
    (hcooldown : cfg.cooldown * 60 ≤ time - old.time) :
    let collected := cfg.collect older [older.length] old
    ((collected.1.length + 1 = cfg.strikesNum ∧ |time - collected.2.time| ≤ cfg.strikesWindow * 60) ↔
        cfg.strikesNum ≤ (cfg.freeWithin past time).length + 1) ∧
      (cfg.strikesNum ≤ (cfg.freeWithin past time).length + 1 →
        cfg.freeWithin past time = history.filter Abnormal.free ∧
          (history.filter Abnormal.free).length + 1 = cfg.strikesNum ∧
          collected.1.map (history[·]?) = (history.filter Abnormal.free).reverse.map some) := by
  obtain ⟨gone, hgone, -⟩ := h.gone
  have hsorted : history.Pairwise fun a b => a.time ≤ b.time :=
    (hgone ▸ h.sorted).sublist (List.sublist_append_right _ _)
  have hleHistory : ∀ a ∈ history, a.time ≤ time := fun a ha => hle a (hgone ▸ List.mem_append_right _ ha)
  have hfree := filter_free_eq hcounted hsplit hnewer
  have hfew := h.few
  have hget : history[older.length]? = some old := by
    rw [hsplit]
    simp
  have hinit : older.reverse <+: history := ⟨old :: newer, hsplit.symm⟩
  unfold Sound at hsound
  rw [hdrop] at hsound
  rw [h.freeWithin_eq hle]
  intro collected
  -- The entry before the latest counted one is not later.
  have hlast : (older.head?.getD old).time ≤ old.time ∧ (older.head?.getD old).time ≤ time := by
    have hmem : ∀ a ∈ older, a.time ≤ old.time := by
      intro a ha
      rw [hsplit, List.pairwise_append] at hsorted
      exact hsorted.2.2 a (List.mem_reverse.mpr ha) old (List.mem_cons_self ..)
    have hold : old.time ≤ time := hleHistory old (by rw [hsplit]; simp)
    cases older with
    | nil => exact ⟨le_rfl, hold⟩
    | cons a older =>
      have := hmem a (List.mem_cons_self ..)
      exact ⟨this, this.trans hold⟩
  cases hstriked : old.striked with
  | true =>
    -- No entry is free.
    have hnone := h.struck old older hdrop hstriked
    rw [hnone] at hfew hfree ⊢
    have hnoneOlder : older.filter Abnormal.free = [] := by
      simpa using (List.append_eq_nil_iff.mp hfree.symm).1
    have htwo : 2 ≤ cfg.strikesNum := by
      simp only [List.length_nil] at hfew
      omega
    have hno : ¬(cfg.strikesNum ≤ (([] : List Abnormal).filter fun a =>
        time - a.time ≤ cfg.strikesWindow * 60).length + 1) := by
      simp only [List.filter_nil, List.length_nil]
      omega
    refine ⟨iff_of_false ?_ hno, fun hyes => absurd hyes hno⟩
    rintro ⟨hlength, hwithin⟩
    rcases htwo.eq_or_lt with htwo | htwo
    · have hcollected : collected = ([older.length], older.head?.getD old) :=
        collect_of_length_eq old hnoneOlder htwo
      have hout := hsound.2 htwo.symm hcooldown
      rw [if_pos hstriked] at hout
      rw [hcollected] at hwithin
      exact absurd hwithin (not_le.mpr (hout.trans_le (le_abs_self _)))
    · have hspec := StrikeConfig.collect_spec cfg [older.length] old hinit (by rw [hnoneOlder]; simp; omega)
        (by simp; omega)
      exact hspec.1 (by rw [hnoneOlder]; simp; omega) hlength
  | false =>
    rw [hstriked] at hfree
    simp only [Bool.false_eq_true, if_false] at hfree
    have hlengthFree : (history.filter Abnormal.free).length = (older.filter Abnormal.free).length + 1 := by
      rw [hfree, List.length_append, List.length_reverse, List.length_singleton]
    -- Free entries that are all in the window are as many as all free ones.
    have hwithinAll : ∀ oldest : Abnormal, oldest ∈ history.filter Abnormal.free →
        (∀ a ∈ history.filter Abnormal.free, oldest.time ≤ a.time) →
        (history.filter Abnormal.free).length + 1 = cfg.strikesNum →
        (time - oldest.time ≤ cfg.strikesWindow * 60 ↔ cfg.strikesNum ≤
          ((history.filter Abnormal.free).filter fun a => time - a.time ≤ cfg.strikesWindow * 60).length + 1) := by
      intro oldest hmem hoptimal hlength
      constructor
      · intro hwithin
        rw [List.filter_eq_self.mpr fun a ha => by
          have := hoptimal a ha
          simp only [decide_eq_true_eq]
          linarith]
        exact hlength.ge
      · intro hle'
        have hsub := List.filter_sublist (l := history.filter Abnormal.free)
          (p := fun a => time - a.time ≤ cfg.strikesWindow * 60)
        have heq := hsub.eq_of_length (le_antisymm hsub.length_le (by omega))
        rw [← heq] at hmem
        simpa using (List.mem_filter.mp hmem).2
    have hfilter : (history.filter Abnormal.free).length + 1 = cfg.strikesNum → cfg.strikesNum ≤
        ((history.filter Abnormal.free).filter fun a => time - a.time ≤ cfg.strikesWindow * 60).length + 1 →
        ((history.filter Abnormal.free).filter fun a => time - a.time ≤ cfg.strikesWindow * 60) =
          history.filter Abnormal.free := by
      intro hlength hle'
      exact List.filter_sublist.eq_of_length (le_antisymm List.filter_sublist.length_le (by omega))
    rcases (show 2 ≤ cfg.strikesNum by omega).eq_or_lt with htwo | htwo
    · -- The second loop has enough entries from the start.
      have hnoneOlder : older.filter Abnormal.free = [] := List.length_eq_zero_iff.mp (by omega)
      have hcollected : collected = ([older.length], older.head?.getD old) := collect_of_length_eq old hnoneOlder htwo
      have hfree' : history.filter Abnormal.free = [old] := by
        rw [hfree, hnoneOlder]
        rfl
      have hall := hwithinAll old (by simp [hfree']) (by simp [hfree']) (by simp [hfree', ← htwo])
      have hout := hsound.2 htwo.symm hcooldown
      rw [hstriked] at hout
      simp only [Bool.false_eq_true, if_false] at hout
      rw [hcollected, ← hall]
      refine ⟨⟨fun hyes => ?_, fun hyes => ⟨htwo, ?_⟩⟩, fun hyes => ⟨hfilter (by simp [hfree', ← htwo]) (hall.mp hyes),
        by simp [hfree', ← htwo], ?_⟩⟩
      · have := (le_abs_self _).trans hyes.2
        linarith [hlast.1]
      · rw [abs_of_nonneg (by linarith [hlast.2])]
        exact hout hyes
      · simp [hfree', hget]
    · have hspec := StrikeConfig.collect_spec cfg [older.length] old hinit (by simp; omega) (by simp; omega)
      by_cases henough : (older.filter Abnormal.free).length + 2 = cfg.strikesNum
      · obtain ⟨holdest, more, hmore, hmap⟩ := hspec.2 (by simp; omega)
        have hlength : (history.filter Abnormal.free).length + 1 = cfg.strikesNum := by omega
        have hlengthCollected : collected.1.length + 1 = cfg.strikesNum := by
          have := congrArg List.length hmap
          rw [List.length_map, List.length_map] at this
          have hcollected : collected.1 = [older.length] ++ more := hmore
          rw [hcollected, List.length_append, List.length_singleton]
          omega
        -- The second loop ends at the oldest free entry.
        have hoptimal : collected.2 ∈ history.filter Abnormal.free ∧
            ∀ a ∈ history.filter Abnormal.free, collected.2.time ≤ a.time := by
          obtain ⟨front, hfront⟩ := List.getLast?_eq_some_iff.mp holdest
          have hhead : history.filter Abnormal.free = collected.2 :: (front.reverse ++ [old]) := by
            rw [hfree, hfront, List.reverse_append]
            rfl
          have hpairwise := hsorted.sublist (List.filter_sublist (p := Abnormal.free))
          rw [hhead, List.pairwise_cons] at hpairwise
          rw [hhead]
          refine ⟨List.mem_cons_self .., fun a ha => ?_⟩
          rcases List.mem_cons.mp ha with rfl | ha
          · exact le_rfl
          · exact hpairwise.1 a ha
        have hall := hwithinAll _ hoptimal.1 hoptimal.2 hlength
        have hnonneg : 0 ≤ time - collected.2.time := by
          have := hleHistory _ (List.mem_filter.mp hoptimal.1).1
          linarith
        rw [← hall, abs_of_nonneg hnonneg]
        refine ⟨and_iff_right hlengthCollected, fun hyes => ⟨hfilter hlength (hall.mp hyes), hlength, ?_⟩⟩
        rw [show collected.1 = [older.length] ++ more from hmore, List.map_append, hmap, hfree]
        simp [hget]
      · have hno : ¬cfg.strikesNum ≤
            ((history.filter Abnormal.free).filter fun a => time - a.time ≤ cfg.strikesWindow * 60).length + 1 := by
          have := (List.filter_sublist (l := history.filter Abnormal.free)
            (p := fun a => time - a.time ≤ cfg.strikesWindow * 60)).length_le
          omega
        refine ⟨iff_of_false ?_ hno, fun hyes => absurd hyes hno⟩
        rintro ⟨hlength, -⟩
        exact hspec.1 (by simp; omega) hlength

/-- The entries at these positions belong to a strike, and the others do not. -/
theorem StrikeInv.setStriked_eq (h : StrikeInv cfg past history) {pos : List ℕ}
    (hpos : pos.map (history[·]?) = (history.filter Abnormal.free).reverse.map some) :
    setStriked pos history =
      history.map (Abnormal.mark (some ((history.filter Abnormal.free).map Abnormal.id ++ [past.length]))) := by
  obtain ⟨gone, hgone, -⟩ := h.gone
  refine List.ext_getElem? fun i => ?_
  unfold setStriked
  rw [List.getElem?_mapIdx, List.getElem?_map]
  cases hi : history[i]? with
  | none => rfl
  | some a =>
    have hid := h.id_getElem hgone hi
    have hmem : a ∈ past := hgone ▸ List.mem_append_right _ (List.mem_of_getElem? hi)
    have hne : a.id ≠ past.length := (h.id_lt hmem).ne
    have hiff : i ∈ pos ↔ a.id ∈ (history.filter Abnormal.free).map Abnormal.id := by
      constructor
      · intro hip
        have hget := List.mem_map_of_mem (f := (history[·]?)) hip
        rw [hpos] at hget
        obtain ⟨b, hb, heq⟩ := List.mem_map.mp hget
        have hab : b = a := Option.some_inj.mp (heq.trans hi)
        exact List.mem_map_of_mem (hab ▸ List.mem_reverse.mp hb)
      · intro hia
        obtain ⟨b, hb, heq⟩ := List.mem_map.mp hia
        have hget : some b ∈ pos.map (history[·]?) := by
          rw [hpos]
          exact List.mem_map_of_mem (List.mem_reverse.mpr hb)
        obtain ⟨j, hj, hjb⟩ := List.mem_map.mp hget
        have := h.id_getElem hgone hjb
        obtain rfl : i = j := by omega
        exact hj
    simp only [Option.map_some, Option.some_inj, Abnormal.mark, Option.getD_some, List.mem_append, List.mem_singleton,
      hne, or_false, ← hiff]
    by_cases hip : i ∈ pos
    · simp [hip]
    · simp [hip]

theorem warning_eq {pos : List ℕ} (new : Abnormal)
    (hpos : pos.map (history[·]?) = (history.filter Abnormal.free).reverse.map some) :
    warning pos history new = (history.filter Abnormal.free).map Abnormal.id ++ [new.id] := by
  have hreverse := congrArg List.reverse hpos
  rw [← List.map_reverse, ← List.map_reverse, List.reverse_reverse] at hreverse
  unfold warning
  have hmap : pos.reverse.filterMap (fun i => history[i]?.map Abnormal.id) =
      (pos.reverse.map (history[·]?)).filterMap fun a => a.map Abnormal.id := by
    rw [List.filterMap_map]
    rfl
  rw [hmap, hreverse, List.filterMap_map]
  congr 1
  show (history.filter Abnormal.free).filterMap (some ∘ Abnormal.id) = _
  rw [List.filterMap_eq_map]

/-- No entry is free after a strike. -/
theorem filter_free_mark (ids : List ℕ) :
    (history.map (Abnormal.mark (some ((history.filter Abnormal.free).map Abnormal.id ++ ids)))).filter Abnormal.free =
      [] := by
  apply List.filter_eq_nil_iff.mpr
  intro a ha hfree
  obtain ⟨b, hb, rfl⟩ := List.mem_map.mp ha
  have hfreeB : b.free = true := by
    simp only [Abnormal.free, Abnormal.mark, Bool.and_eq_true, Bool.not_eq_true', Bool.or_eq_false_iff] at hfree ⊢
    exact ⟨hfree.1, hfree.2.1⟩
  have hmem : b.id ∈ (history.filter Abnormal.free).map Abnormal.id := List.mem_map_of_mem (List.mem_filter.mpr ⟨hb, hfreeB⟩)
  simp [Abnormal.free, Abnormal.mark, hmem] at hfree

/-- What expiry does to the entries with the new one. -/
theorem StrikeInv.expire (h : StrikeInv cfg past history) (hle : ∀ a ∈ past, a.time ≤ time) {verdict : Verdict}
    {entries : List Abnormal}
    (hentries : history.map (Abnormal.mark verdict.strike) ++
      [{ id := past.length, time, counted := verdict.counted, striked := verdict.strike.isSome }] = entries)
    (hfew : ((cfg.expire time entries).filter Abnormal.free).length + 1 ≤ cfg.strikesNum) (hstruck : Struck entries) :
    StrikeInv cfg (recordNext past (time, verdict)) (cfg.expire time entries) := by
  obtain ⟨gone, hgone, -⟩ := h.gone
  have hleEntries : ∀ a ∈ entries, a.time ≤ time := by
    rw [← hentries]
    intro a ha
    rcases List.mem_append.mp ha with ha | ha
    · obtain ⟨b, hb, rfl⟩ := List.mem_map.mp ha
      exact hle b (hgone ▸ List.mem_append_right _ hb)
    · rw [List.mem_singleton.mp ha]
  refine h.next hle (hentries.trans (List.takeWhile_append_dropWhile).symm) (fun a ha => lt_of_mem_takeWhile hleEntries ha)
    hfew (hstruck.of_suffix (List.dropWhile_suffix _))

theorem filter_expire_sublist (cfg : StrikeConfig) (time : ℚ) (entries : List Abnormal) :
    ((cfg.expire time entries).filter Abnormal.free).Sublist (entries.filter Abnormal.free) :=
  (List.dropWhile_suffix _).sublist.filter Abnormal.free

theorem filter_expire_eq_nil {entries : List Abnormal} (h : entries.filter Abnormal.free = []) (time : ℚ) :
    (cfg.expire time entries).filter Abnormal.free = [] := by
  rw [← List.sublist_nil, ← h]
  exact filter_expire_sublist cfg time entries

/-- What is free after expiry is the new entry or was free within the window. -/
theorem StrikeInv.length_filter_expire (h : StrikeInv cfg past history) (hle : ∀ a ∈ past, a.time ≤ time)
    (new : Abnormal) (hnew : new.time = time) :
    ((cfg.expire time (history ++ [new])).filter Abnormal.free).length ≤ (cfg.freeWithin past time).length + 1 := by
  obtain ⟨gone, hgone, -⟩ := h.gone
  have hleHistory : ∀ a ∈ history, a.time ≤ time := fun a ha => hle a (hgone ▸ List.mem_append_right _ ha)
  have hsorted : (history ++ [new]).Pairwise fun a b => a.time ≤ b.time := by
    refine List.pairwise_append.mpr ⟨(hgone ▸ h.sorted).sublist (List.sublist_append_right _ _),
      List.pairwise_singleton .., fun a ha b hb => ?_⟩
    rw [List.mem_singleton.mp hb, hnew]
    exact hleHistory a ha
  have hleEntries : ∀ a ∈ history ++ [new], a.time ≤ time := by
    intro a ha
    rcases List.mem_append.mp ha with ha | ha
    · exact hleHistory a ha
    · exact (congrArg Abnormal.time (List.mem_singleton.mp ha)).trans hnew |>.le
  have hwithin : (cfg.expire time (history ++ [new])).filter Abnormal.free =
      ((cfg.expire time (history ++ [new])).filter Abnormal.free).filter
        fun a => time - a.time ≤ cfg.strikesWindow * 60 := by
    refine (List.filter_eq_self.mpr fun a ha => ?_).symm
    rw [decide_eq_true_iff]
    exact le_of_mem_expire hsorted hleEntries (List.mem_filter.mp ha).1
  have hsub := (filter_expire_sublist cfg time (history ++ [new])).filter
    fun a => decide (time - a.time ≤ cfg.strikesWindow * 60)
  rw [hwithin, h.freeWithin_eq hle]
  refine hsub.length_le.trans ?_
  rw [List.filter_append, List.filter_append, List.length_append]
  apply Nat.add_le_add_left
  exact (List.length_filter_le _ _).trans (List.length_filter_le _ _)

/-- One abnormal. -/
theorem StrikeInv.process (h : StrikeInv cfg past history) (hle : ∀ a ∈ past, a.time ≤ time)
    (hsound : cfg.Sound history time) :
    cfg.Right past time (cfg.abnormalProcess history { id := past.length, time } time).2 ∧
      StrikeInv cfg (recordNext past (time, (cfg.abnormalProcess history { id := past.length, time } time).2))
        (cfg.abnormalProcess history { id := past.length, time } time).1 := by
  obtain ⟨gone, hgone, hout⟩ := h.gone
  have hpos : 1 ≤ cfg.strikesNum := by
    have := h.few
    omega
  have hsorted : history.Pairwise fun a b => a.time ≤ b.time :=
    (hgone ▸ h.sorted).sublist (List.sublist_append_right _ _)
  have hleHistory : ∀ a ∈ history, a.time ≤ time := fun a ha => hle a (hgone ▸ List.mem_append_right _ ha)
  have hnotMem : ∀ a ∈ history, a.id ∉ (some [past.length]).getD [] := by
    intro a ha
    have := h.id_lt (hgone ▸ List.mem_append_right _ ha)
    simpa using this.ne
  cases hdrop : history.reverse.dropWhile fun a => ¬a.counted with
  | nil =>
    -- There is no entry at all.
    unfold Sound at hsound
    rw [hdrop] at hsound
    have hempty : history = [] := hsound
    subst hempty
    have hwithin : cfg.freeWithin past time = [] := by
      rw [h.freeWithin_eq hle]
      rfl
    have hcounted : ∀ a ∈ past, a.counted → time - a.time ≤ cfg.strikesWindow * 60 →
        ¬time - a.time < cfg.cooldown * 60 := by
      intro a ha _ hwithin
      rw [hgone, List.append_nil] at ha
      exact absurd hwithin (not_le.mpr (lt_of_gone hle hgone hout a ha))
    unfold abnormalProcess
    simp only [List.reverse_nil]
    by_cases hone : cfg.strikesNum = 1
    · rw [if_pos hone]
      refine ⟨⟨iff_of_true rfl hcounted, rfl, ?_⟩, ?_⟩
      · unfold strikeOf
        rw [hwithin, if_pos ⟨rfl, by simp [hone]⟩, List.drop_nil]
        rfl
      · exact h.next hle (List.nil_append _).symm (fun a ha => absurd ha List.not_mem_nil)
          (by simp [Abnormal.free, hone]) (Struck.of_filter_eq_nil (by simp [Abnormal.free]))
    · rw [if_neg hone]
      refine ⟨⟨iff_of_true rfl hcounted, rfl, ?_⟩, ?_⟩
      · unfold strikeOf
        rw [hwithin, if_neg fun hyes => hone (le_antisymm hyes.2 hpos)]
      · have hstruck : Struck ([] ++ [{ id := past.length, time }]) := struck_append_counted rfl rfl
        exact h.next hle (List.nil_append _).symm (fun a ha => absurd ha List.not_mem_nil)
          (by simp [Abnormal.free]; omega) hstruck
  | cons old older =>
    obtain ⟨hcounted, newer, hsplit, hnewer⟩ := split_of_dropWhile hdrop
    have hold : old.time ≤ time := hleHistory old (by rw [hsplit]; simp)
    have hiff := h.counted_iff hle hcounted hsplit hnewer
    rw [abnormalProcess_of_dropWhile _ _ hdrop]
    dsimp only
    rw [abs_of_nonneg (by linarith : 0 ≤ time - old.time)]
    by_cases hcooldown : time - old.time ≥ cfg.cooldown * 60
    · rw [if_pos hcooldown]
      have hright : ∀ a ∈ past, a.counted → time - a.time ≤ cfg.strikesWindow * 60 →
          ¬time - a.time < cfg.cooldown * 60 := hiff.mpr fun _ => not_lt.mpr hcooldown
      by_cases hone : cfg.strikesNum = 1
      · rw [if_pos hone]
        have hnone : history.filter Abnormal.free = [] := by
          have := h.few
          exact List.length_eq_zero_iff.mp (by omega)
        have hnone' : (history ++ [({ id := past.length, time, striked := true } : Abnormal)]).filter Abnormal.free =
            [] := by
          rw [List.filter_append, hnone]
          rfl
        refine ⟨⟨iff_of_true rfl hright, rfl, ?_⟩, ?_⟩
        · unfold strikeOf
          rw [h.freeWithin_eq hle, hnone, if_pos ⟨rfl, by simp [hone]⟩, List.filter_nil, List.drop_nil]
          rfl
        · refine h.expire hle (by rw [show (some (warning [] history _)) = some [past.length] from rfl,
            map_mark_of_not_mem hnotMem]; rfl) ?_ (Struck.of_filter_eq_nil hnone')
          rw [filter_expire_eq_nil hnone']
          exact hpos
      · rw [if_neg hone]
        have hspec := h.collect_spec hle hsound hone hdrop hcounted hsplit hnewer hcooldown
        dsimp only at hspec
        split_ifs with hstrike
        · obtain ⟨hwithin, hlength, hmap⟩ := hspec.2 (hspec.1.mp hstrike)
          have hwarning := warning_eq { id := past.length, time } hmap
          have hnone : (setStriked (cfg.collect older [older.length] old).1 history ++
              [({ id := past.length, time, striked := true } : Abnormal)]).filter Abnormal.free = [] := by
            rw [List.filter_append, h.setStriked_eq hmap, filter_free_mark]
            rfl
          refine ⟨⟨iff_of_true rfl hright, rfl, ?_⟩, ?_⟩
          · unfold strikeOf
            rw [if_pos ⟨rfl, hspec.1.mp hstrike⟩, hwithin, hwarning, hlength, Nat.sub_self, List.drop_zero]
          · refine h.expire hle (by rw [hwarning, h.setStriked_eq hmap]; rfl) ?_ (Struck.of_filter_eq_nil hnone)
            rw [filter_expire_eq_nil hnone]
            exact hpos
        · have hno : ¬cfg.strikesNum ≤ (cfg.freeWithin past time).length + 1 := mt hspec.1.mpr hstrike
          refine ⟨⟨iff_of_true rfl hright, rfl, ?_⟩, ?_⟩
          · unfold strikeOf
            rw [if_neg fun hyes => hno hyes.2]
          · refine h.expire hle (by rw [map_mark_of_not_mem (by simp)]; rfl) ?_ (struck_append_counted rfl rfl)
            have := h.length_filter_expire hle { id := past.length, time } rfl
            omega
    · rw [if_neg hcooldown]
      have hwithin : time - old.time ≤ cfg.strikesWindow * 60 := by
        unfold Sound at hsound
        rw [hdrop] at hsound
        exact hsound.1 (not_le.mp hcooldown)
      refine ⟨⟨iff_of_false Bool.false_ne_true fun hall => hiff.mp hall hwithin (not_le.mp hcooldown), rfl, ?_⟩, ?_⟩
      · unfold strikeOf
        rw [if_neg fun hyes => Bool.false_ne_true hyes.1]
      · refine h.expire hle (by rw [map_mark_of_not_mem (by simp)]; rfl) ?_ (struck_append_uncounted h.struck rfl)
        have hlength := (filter_expire_sublist cfg time
          (history ++ [{ id := past.length, time, counted := false }])).length_le
        have hnew : [({ id := past.length, time, counted := false } : Abnormal)].filter Abnormal.free = [] := rfl
        rw [List.filter_append, hnew, List.append_nil] at hlength
        exact (Nat.add_le_add_right hlength 1).trans h.few

/-! ### Runs -/

variable {times : List ℚ}

theorem record_concat (before : List (ℚ × Verdict)) (event : ℚ × Verdict) :
    record (before ++ [event]) = recordNext (record before) event := by
  unfold record
  rw [List.foldl_append]
  rfl

theorem length_record (before : List (ℚ × Verdict)) : (record before).length = before.length := by
  induction before using List.reverseRecOn with
  | nil => rfl
  | append_singleton before event ih =>
    rw [record_concat, recordNext, List.length_append, List.length_map, ih, List.length_append]
    rfl

theorem time_of_mem_record {before : List (ℚ × Verdict)} {a : Abnormal} (ha : a ∈ record before) :
    a.time ∈ before.map Prod.fst := by
  induction before using List.reverseRecOn generalizing a with
  | nil => cases ha
  | append_singleton before event ih =>
    rw [record_concat, recordNext] at ha
    rw [List.map_append]
    rcases List.mem_append.mp ha with ha | ha
    · obtain ⟨b, hb, rfl⟩ := List.mem_map.mp ha
      exact List.mem_append_left _ (a := b.time) (ih hb)
    · rw [List.mem_singleton.mp ha]
      exact List.mem_append_right _ (List.mem_singleton_self _)

theorem run_concat (times : List ℚ) (time : ℚ) : cfg.run (times ++ [time]) =
    ((cfg.abnormalProcess (cfg.run times).1 { id := (cfg.run times).2.length, time } time).1,
      (cfg.run times).2 ++ [(cfg.abnormalProcess (cfg.run times).1 { id := (cfg.run times).2.length, time } time).2]) := by
  unfold run
  rw [List.foldl_append]
  rfl

theorem length_run (times : List ℚ) : (cfg.run times).2.length = times.length := by
  induction times using List.reverseRecOn with
  | nil => rfl
  | append_singleton times time ih =>
    rw [run_concat, List.length_append, ih, List.length_append]
    rfl

theorem length_events (times : List ℚ) : (cfg.events times).length = times.length := by
  unfold events
  rw [List.length_zip, length_run, Nat.min_self]

theorem map_fst_events (times : List ℚ) : (cfg.events times).map Prod.fst = times :=
  List.map_fst_zip (length_run times).ge

theorem events_concat (times : List ℚ) (time : ℚ) : cfg.events (times ++ [time]) = cfg.events times ++
    [(time, (cfg.abnormalProcess (cfg.run times).1
      { id := (record (cfg.events times)).length, time } time).2)] := by
  rw [length_record, length_events, ← length_run times]
  unfold events
  rw [run_concat, List.zip_append (length_run times).symm]
  rfl

/-- What is known after a run: every abnormal of a strike is marked in the record. -/
structure RunInv (cfg : StrikeConfig) (times : List ℚ) : Prop where
  inv : StrikeInv cfg (record (cfg.events times)) (cfg.run times).1
  obeys : cfg.Obeys times
  marked : ∀ i ∈ ((cfg.run times).2.filterMap Verdict.strike).flatten,
    ∃ a ∈ record (cfg.events times), a.id = i ∧ a.striked

theorem strikeInv_nil (hpos : 1 ≤ cfg.strikesNum) : StrikeInv cfg [] [] :=
  ⟨⟨[], rfl, fun _ ha => absurd ha List.not_mem_nil⟩, rfl, List.Pairwise.nil, hpos, Struck.of_filter_eq_nil rfl⟩

/-- A strike has abnormals that were free and the new one. -/
theorem StrikeInv.nodup_strikeOf (h : StrikeInv cfg past history) {counted : Bool} {strike : List ℕ}
    (hstrike : cfg.strikeOf past time counted = some strike) :
    strike.Nodup ∧ ∀ i ∈ strike, i = past.length ∨ ∃ a ∈ past, a.id = i ∧ a.free := by
  unfold strikeOf at hstrike
  dsimp only at hstrike
  split_ifs at hstrike with hcounted
  obtain rfl := Option.some_inj.mp hstrike
  have hsub : (((cfg.freeWithin past time).drop ((cfg.freeWithin past time).length + 1 - cfg.strikesNum)).map
      Abnormal.id).Sublist (List.range past.length) := by
    rw [← h.ids]
    exact ((List.drop_sublist _ _).trans List.filter_sublist).map _
  have hfree : ∀ i ∈ ((cfg.freeWithin past time).drop ((cfg.freeWithin past time).length + 1 - cfg.strikesNum)).map
      Abnormal.id, ∃ a ∈ past, a.id = i ∧ a.free := by
    intro i hi
    obtain ⟨a, ha, rfl⟩ := List.mem_map.mp hi
    have hmem := List.mem_filter.mp (List.mem_of_mem_drop ha)
    exact ⟨a, hmem.1, rfl, (of_decide_eq_true hmem.2).1⟩
  refine ⟨List.nodup_append.mpr ⟨List.nodup_range.sublist hsub, List.nodup_singleton _, ?_⟩, ?_⟩
  · intro i hi j hj
    have hlt := List.mem_range.mp (hsub.subset hi)
    rw [List.mem_singleton.mp hj]
    exact hlt.ne
  · intro i hi
    rcases List.mem_append.mp hi with hi | hi
    · exact .inr (hfree i hi)
    · exact .inl (List.mem_singleton.mp hi)

theorem RunInv.concat (h : RunInv cfg times) (hle : ∀ t ∈ times, t ≤ time) (hsound : cfg.Sound (cfg.run times).1 time) :
    RunInv cfg (times ++ [time]) := by
  have hleRecord : ∀ a ∈ record (cfg.events times), a.time ≤ time := by
    intro a ha
    have hmem := time_of_mem_record ha
    rw [map_fst_events] at hmem
    exact hle _ hmem
  obtain ⟨hright, hinv⟩ := h.inv.process hleRecord hsound
  have hid : (record (cfg.events times)).length = (cfg.run times).2.length := by
    rw [length_record, length_events, length_run]
  obtain ⟨verdict, hverdict⟩ : ∃ verdict, (cfg.abnormalProcess (cfg.run times).1
      { id := (record (cfg.events times)).length, time } time).2 = verdict := ⟨_, rfl⟩
  rw [hverdict] at hright hinv
  have hrecord : record (cfg.events (times ++ [time])) = recordNext (record (cfg.events times)) (time, verdict) := by
    rw [events_concat, record_concat, hverdict]
  have hverdicts : (cfg.run (times ++ [time])).2 = (cfg.run times).2 ++ [verdict] := by
    rw [run_concat, ← hid, hverdict]
  have hids := h.inv.ids
  have hmarked : ∀ i ∈ ((cfg.run (times ++ [time])).2.filterMap Verdict.strike).flatten,
      ∃ a ∈ record (cfg.events (times ++ [time])), a.id = i ∧ a.striked := by
    intro i hi
    rw [hverdicts, List.filterMap_append, List.flatten_append] at hi
    rw [hrecord, recordNext]
    rcases List.mem_append.mp hi with hi | hi
    · obtain ⟨a, ha, hai, hstriked⟩ := h.marked i hi
      refine ⟨a.mark verdict.strike, List.mem_append_left _ (List.mem_map_of_mem ha), hai, ?_⟩
      simp [Abnormal.mark, hstriked]
    · obtain ⟨strike, hstrike, hi⟩ : ∃ strike, verdict.strike = some strike ∧ i ∈ strike := by
        cases hv : verdict.strike with
        | none => simp [hv] at hi
        | some strike => exact ⟨strike, rfl, by simpa [hv] using hi⟩
      rcases (h.inv.nodup_strikeOf (hright.strike.symm.trans hstrike)).2 i hi with rfl | ⟨a, ha, hai, -⟩
      · exact ⟨_, List.mem_append_right _ (List.mem_singleton_self _), rfl, by simp [hstrike]⟩
      · refine ⟨a.mark verdict.strike, List.mem_append_left _ (List.mem_map_of_mem ha), hai, ?_⟩
        simp [Abnormal.mark, hstrike, hai, hi]
  refine ⟨?_, ⟨?_, ?_⟩, hmarked⟩
  · rw [hrecord, run_concat, ← hid]
    exact hinv
  · intro before t v after heq
    rw [events_concat, hverdict] at heq
    rcases List.eq_nil_or_concat' after with rfl | ⟨after, last, rfl⟩
    · obtain ⟨hbefore, hlast⟩ := List.append_inj' heq rfl
      rw [← hbefore]
      obtain ⟨rfl, rfl⟩ := Prod.mk.inj (List.cons.inj hlast).1
      exact hright
    · rw [← List.cons_append, ← List.append_assoc] at heq
      exact h.obeys.right before t v after (List.append_inj' heq rfl).1
  · rw [hverdicts, List.filterMap_append, List.flatten_append]
    cases hv : verdict.strike with
    | none => simpa [hv] using h.obeys.disjoint
    | some strike =>
      obtain ⟨hnodup, hmem⟩ := h.inv.nodup_strikeOf (hright.strike.symm.trans hv)
      have hstrike : ([verdict].filterMap Verdict.strike).flatten = strike := by simp [hv]
      rw [hstrike]
      refine List.nodup_append.mpr ⟨h.obeys.disjoint, hnodup, ?_⟩
      rintro i hi j hj rfl
      obtain ⟨a, ha, hai, hstriked⟩ := h.marked i hi
      rcases hmem i hj with rfl | ⟨b, hb, hbi, hfree⟩
      · exact absurd hai (h.inv.id_lt ha).ne
      · -- The abnormal of both strikes would be marked and free.
        have hab : a = b := List.inj_on_of_nodup_map (hids ▸ List.nodup_range) ha hb (hai.trans hbi.symm)
        rw [← hab, Abnormal.free, hstriked] at hfree
        simp at hfree

/-- The rule is obeyed as long as every abnormal meets the condition. -/
theorem strikeRule_of_allSound (cfg : StrikeConfig) (times : List ℚ) (hpos : 1 ≤ cfg.strikesNum)
    (hsorted : times.Pairwise (· ≤ ·)) (hsound : cfg.AllSound times) : cfg.Obeys times := by
  suffices hinv : RunInv cfg times from hinv.obeys
  induction times using List.reverseRecOn with
  | nil =>
    refine ⟨strikeInv_nil hpos, ⟨?_, List.nodup_nil⟩, fun i hi => absurd hi List.not_mem_nil⟩
    intro before t v after heq
    exact absurd heq.symm (List.append_ne_nil_of_right_ne_nil _ (List.cons_ne_nil _ _))
  | append_singleton times time ih =>
    rw [List.pairwise_append] at hsorted
    refine RunInv.concat (ih hsorted.1 ?_) (fun t ht => hsorted.2.2 t ht time (List.mem_singleton_self _))
      (by simpa using hsound times.length time (by simp))
    intro i t hi
    have hlt := (List.getElem?_eq_some_iff.mp hi).1
    have := hsound i t (by rw [List.getElem?_append_left hlt, hi])
    rwa [List.take_append_of_le_length hlt.le] at this

theorem obeys_default : Obeys {} [0, 300, 400, 600, 900, 1200, 1500] := by
  apply strikeRule_of_allSound
  · decide
  · decide +kernel
  · intro i time hi
    have hsound : ∀ i : Fin 7, Sound {} (run {} ([0, 300, 400, 600, 900, 1200, 1500].take i)).1
        ([0, 300, 400, 600, 900, 1200, 1500].get i) := by
      decide +kernel
    obtain ⟨hlt, rfl⟩ := List.getElem?_eq_some_iff.mp hi
    exact hsound ⟨i, hlt⟩

/-- With two strikes to a warning, the second of three abnormals belongs to two strikes. -/
theorem not_obeys_twoStrikes :
    ¬∀ (cfg : StrikeConfig) (times : List ℚ), 1 ≤ cfg.strikesNum → times.Pairwise (· ≤ ·) → cfg.Obeys times := by
  intro h
  have hobeys := h { strikesNum := 2 } [0, 300, 600] (by decide) (by decide +kernel)
  have hnodup : ¬((run { strikesNum := 2 } [0, 300, 600]).2.filterMap Verdict.strike).flatten.Nodup := by
    decide +kernel
  exact hnodup hobeys.disjoint

end StrikeConfig

end TorchNpu.SilentCheck
