/-
  Which affinity settings give valid ranges of cores.

  The range of a device is the last one that the text gives it, or else the one that the DCMI or the division of the
  cores by the devices gives.  Nothing compares these with the cores that there are, and `std::stoi` throws for a
  number that does not fit an `int`.
-/
import TorchNpu.Core.AffinityController
import Mathlib.Data.List.GetD
import Mathlib.Order.Interval.Set.Disjoint
import Mathlib.Order.CompletePartialOrder

namespace TorchNpu.Core

open Text

variable {x : AffinityInputs} {conf : AffinityConf} {range : CoreIdRange} {l : List AffinitySetting}
  {str value option : Text} {n d : ℕ}

namespace CoreIdRange

def cores (range : CoreIdRange) : Set ℕ :=
  Set.Icc range.start range.end_

/-- A range that can be bound. -/
structure Valid (coreNums : ℕ) (range : CoreIdRange) : Prop where
  start_le : range.start ≤ range.end_
  end_lt : range.end_ < coreNums

/-- The ranges of the thread types are disjoint parts of the range, if it has a core for each of them. -/
def Divided (range : CoreIdRange) : Prop :=
  range.start ≤ range.end_ → 5 ≤ range.end_ - range.start + 1 →
    (∀ type, (getCpuAffinityMap range type).cores ⊆ range.cores) ∧
      ∀ type type', type ≠ type' →
        Disjoint (getCpuAffinityMap range type).cores (getCpuAffinityMap range type').cores

end CoreIdRange

open CoreIdRange

/-- What the settings and a call of `SetThreadAffinity` with two cores have to give. -/
structure RangesValid (x : AffinityInputs) (coreStart coreEnd : ℕ) : Prop where
  parsed : (parseCPUAffinityConf x).isSome
  bound : ∀ conf ∈ parseCPUAffinityConf x, getThreadAffinityInfo x conf →
    ∀ d < x.deviceNums, ∀ type, Valid x.coreNums (getCoreRange conf d type)
  user : ∀ conf ∈ parseCPUAffinityConf x, getThreadAffinityInfo x conf →
    coreStart ≤ coreEnd → Valid x.coreNums (userRange x.coreNums coreStart coreEnd)
  defaults : (defaultRanges x).Pairwise fun range range' => Disjoint range.cores range'.cores
  types : ∀ conf ∈ parseCPUAffinityConf x, ∀ d < x.deviceNums, Divided (conf.ranges.getD d ⟨0, 0⟩)

/-! ### The range of a device, and the numbers of the text -/

/-- The value of digits. -/
def digitsVal (str : Text) : ℕ :=
  Nat.ofDigitChars 10 str 0

def modeNumerals (value : Text) : List Text :=
  if isAllDigits value then [value] else []

def rangeNumerals (value : Text) : List Text :=
  if '-' ∈ value then
    if isAllDigits (cut '-' value).1 && isAllDigits (cut '-' value).2 then [(cut '-' value).1, (cut '-' value).2]
    else []
  else modeNumerals value

/-- The numerals of an option that are read. -/
def numerals (deviceNums : ℕ) (option : Text) : List Text :=
  if ':' ∈ option then
    if (cut ':' option).1 = ['m', 'o', 'd', 'e'] then modeNumerals (cut ':' option).2
    else if ['n', 'p', 'u'].isPrefixOf (cut ':' option).1 && isAllDigits ((cut ':' option).1.drop 3) then
      (cut ':' option).1.drop 3 ::
        if digitsVal ((cut ':' option).1.drop 3) < deviceNums then rangeNumerals (cut ':' option).2 else []
    else []
  else modeNumerals option

namespace AffinitySetting

def mode? : AffinitySetting → Option ℕ
  | AffinitySetting.mode m => some m
  | _ => none

def range? (d : ℕ) : AffinitySetting → Option CoreIdRange
  | AffinitySetting.range deviceId range => if deviceId = d then some range else none
  | _ => none

end AffinitySetting

namespace AffinityInputs

def options (x : AffinityInputs) : List Text :=
  match x.input with
  | none | some [] => []
  | some input => if isAllDigits input then [input] else split [','] input

def settings (x : AffinityInputs) : List AffinitySetting :=
  x.options.filterMap (readOption x.deviceNums)

/-- The ranges before the text gives any. -/
def baseRanges (x : AffinityInputs) : Option (List CoreIdRange) :=
  if npuAffine (x.input.getD []) then assignRanges x.cards 0 (defaultRanges x) else some (defaultRanges x)

/-- The last mode of the text. -/
def mode (x : AffinityInputs) : ℕ :=
  (x.settings.filterMap AffinitySetting.mode?).getLast?.getD 0

/-- The last range that the text gives a device, or else the one that it has before. -/
def deviceRange (x : AffinityInputs) (d : ℕ) : CoreIdRange :=
  (x.settings.filterMap (AffinitySetting.range? d)).getLast?.getD ((x.baseRanges.getD []).getD d ⟨0, 0⟩)

/-- A mode is asked for, and the thread that asks first may run on the cores of the devices. -/
def Binds (x : AffinityInputs) : Prop :=
  x.mode ≠ 0 ∧ ∀ d < x.deviceNums, ∀ core, (x.deviceRange d).start ≤ core → core < (x.deviceRange d).end_ → x.mask core

end AffinityInputs

/-- When the ranges are valid. -/
structure RangesGiven (x : AffinityInputs) (coreStart coreEnd : ℕ) : Prop where
  /-- The numbers that are read fit an `int`. -/
  fits : ∀ option ∈ x.options, ∀ number ∈ numerals x.deviceNums option, digitsVal number < 2 ^ 31
  /-- The DCMI gives ranges if it is asked. -/
  assigned : x.baseRanges.isSome
  devices_le : x.deviceNums ≤ 1 ∨ x.deviceNums ≤ x.coreNums
  ranges : x.Binds → ∀ d < x.deviceNums, Valid x.coreNums (x.deviceRange d)
  end_lt : x.Binds → coreStart ≤ coreEnd → coreEnd < x.coreNums
  /-- No device has all the numbers of 32 bits, which the DCMI gives where more cards than cores share a range. -/
  ne_all : ∀ d < x.deviceNums, x.deviceRange d ≠ ⟨0, 2 ^ 32 - 1⟩

/-! ### Digits -/

theorem readCore_eq (h : isAllDigits str = true) :
    readCore str = if digitsVal str < 2 ^ 31 then some (digitsVal str) else none := by
  rw [isAllDigits, Bool.and_eq_true, decide_eq_true_eq, List.all_eq_true] at h
  obtain ⟨hne, hdigits⟩ := h
  have hstrtol : strtol str = some (digitsVal str : ℤ) :=
    strtol_of_digits hne hdigits
  unfold readCore stoi
  rw [hstrtol, Option.filter_some]
  by_cases hlt : digitsVal str < 2 ^ 31
  · rw [if_pos (decide_eq_true (by omega)), if_pos hlt]
    rfl
  · rw [if_neg (by rw [decide_eq_true_eq]; omega), if_neg hlt]
    rfl

theorem isSome_readCore (h : isAllDigits str = true) : (readCore str).isSome ↔ digitsVal str < 2 ^ 31 := by
  rw [readCore_eq h]
  split_ifs with hlt
  · exact iff_of_true rfl hlt
  · exact iff_of_false Bool.false_ne_true hlt

theorem lt_of_readCore {v : ℕ} (h : isAllDigits str = true) (hv : readCore str = some v) : v < 2 ^ 31 := by
  rw [readCore_eq h] at hv
  split_ifs at hv with hlt
  exact (Option.some.inj hv) ▸ hlt

theorem isSome_readMode (value : Text) :
    (readMode value).isSome ↔ ∀ number ∈ modeNumerals value, digitsVal number < 2 ^ 31 := by
  unfold readMode modeNumerals
  split_ifs with h
  · rw [Option.isSome_map, isSome_readCore h, List.forall_mem_singleton]
  · simp

theorem isSome_readRange (deviceId : ℕ) (value : Text) :
    (readRange deviceId value).isSome ↔ ∀ number ∈ rangeNumerals value, digitsVal number < 2 ^ 31 := by
  unfold readRange rangeNumerals
  split_ifs with hdash hdigits h
  · rw [Bool.and_eq_true] at hdigits
    rw [List.forall_mem_cons, List.forall_mem_singleton, ← isSome_readCore hdigits.1, ← isSome_readCore hdigits.2]
    rcases readCore (cut '-' value).1 with _ | start
    · simp
    · rcases readCore (cut '-' value).2 with _ | end_
      · simp
      · simp
  · simp
  · rw [modeNumerals, if_pos h, Option.isSome_map, isSome_readCore h, List.forall_mem_singleton]
  · simp [modeNumerals, h]

/-- An option is read if the numbers in it fit. -/
theorem isSome_readOption (n : ℕ) (option : Text) :
    (readOption n option).isSome ↔ ∀ number ∈ numerals n option, digitsVal number < 2 ^ 31 := by
  unfold readOption numerals
  dsimp only
  split_ifs with hcolon hmode hnpu hlt
  · exact isSome_readMode _
  · rw [Bool.and_eq_true] at hnpu
    rw [List.forall_mem_cons, ← isSome_readCore hnpu.2, readCore_eq hnpu.2]
    split_ifs with hfits
    · rw [Option.bind_eq_bind, Option.bind_some, if_pos hlt, isSome_readRange]
      simp
    · simp
  · rw [Bool.and_eq_true] at hnpu
    rw [List.forall_mem_singleton, readCore_eq hnpu.2]
    split_ifs with hfits
    · rw [Option.bind_eq_bind, Option.bind_some, if_neg hlt]
      simpa using hfits
    · simpa using hfits
  · simp
  · exact isSome_readMode _

/-! ### What the text gives -/

theorem mapM_eq_some {α β : Type} {f : α → Option β} {l : List α} {s : List β} (h : l.mapM f = some s) :
    l.filterMap f = s := by
  induction l generalizing s with
  | nil => simpa using h
  | cons a l ih =>
    rw [List.mapM_cons, Option.bind_eq_bind, Option.bind_eq_some_iff] at h
    obtain ⟨b, hb, h⟩ := h
    rw [Option.bind_eq_bind, Option.bind_eq_some_iff] at h
    obtain ⟨rest, hrest, h⟩ := h
    rw [List.filterMap_cons_some hb, ih hrest]
    exact Option.some.inj h

theorem isSome_mapM {α β : Type} {f : α → Option β} {l : List α} :
    (l.mapM f).isSome ↔ ∀ a ∈ l, (f a).isSome := by
  induction l with
  | nil => simp
  | cons a l ih =>
    rw [List.mapM_cons, List.forall_mem_cons, ← ih]
    rcases f a with _ | b
    · simp
    · rcases l.mapM f with _ | rest
      · simp
      · simp

theorem foldlM_map {α β σ : Type} {f : α → Option β} {g : σ → β → σ} (l : List α) (s : σ) :
    l.foldlM (fun s a => (f a).map (g s)) s = (l.mapM f).map (·.foldl g s) := by
  induction l generalizing s with
  | nil => rfl
  | cons a l ih =>
    rw [List.foldlM_cons, List.mapM_cons]
    rcases f a with _ | b
    · rfl
    · show l.foldlM _ (g s b) = _
      rw [ih]
      rcases l.mapM f with _ | rest
      · rfl
      · rfl

/-- The settings of the text are made one after the other, from the ranges without it. -/
theorem parseCPUAffinityConf_eq (x : AffinityInputs) :
    parseCPUAffinityConf x = x.baseRanges.bind fun ranges => (x.options.mapM (readOption x.deviceNums)).map
      (·.foldl AffinityConf.set { ranges := ranges, lazyBind := !notLazy (x.input.getD []) }) := by
  unfold parseCPUAffinityConf AffinityInputs.baseRanges AffinityInputs.options
  rcases x.input with _ | _ | ⟨c, input⟩
  · rfl
  · rfl
  · have hread (conf : AffinityConf) :
        (if isAllDigits (c :: input) then (readCore (c :: input)).map fun mode => { conf with mode := mode }
          else (split [','] (c :: input)).foldlM
            (fun conf option => (readOption x.deviceNums option).map conf.set) conf) =
        ((if isAllDigits (c :: input) then [c :: input] else split [','] (c :: input)).mapM
          (readOption x.deviceNums)).map (·.foldl AffinityConf.set conf) := by
      split_ifs with hdigits
      · -- the text is a mode
        have hcolon : ':' ∉ c :: input := by
          intro hmem
          unfold isAllDigits at hdigits
          rw [Bool.and_eq_true, List.all_eq_true] at hdigits
          exact absurd (hdigits.2 _ hmem) (by decide)
        rw [List.mapM_cons, readOption, if_neg hcolon, readMode, if_pos hdigits]
        rcases readCore (c :: input) with _ | mode
        · rfl
        · rfl
      · exact foldlM_map _ _
    show (if npuAffine (c :: input) = true then _ else _) = _
    dsimp only [Option.getD_some]
    by_cases haffine : npuAffine (c :: input) = true
    · rw [if_pos haffine, if_pos haffine]
      exact Option.bind_congr fun ranges _ => hread _
    · rw [if_neg haffine, if_neg haffine]
      exact Option.bind_congr fun ranges _ => hread _

/-- Of the settings the last one of a kind counts. -/
theorem foldl_set (conf : AffinityConf) (l : List AffinitySetting) :
    (l.foldl AffinityConf.set conf).ranges.length = conf.ranges.length ∧
      (l.foldl AffinityConf.set conf).mode = (l.filterMap AffinitySetting.mode?).getLast?.getD conf.mode ∧
      ∀ d < conf.ranges.length, (l.foldl AffinityConf.set conf).ranges.getD d ⟨0, 0⟩ =
        (l.filterMap (AffinitySetting.range? d)).getLast?.getD (conf.ranges.getD d ⟨0, 0⟩) := by
  induction l generalizing conf with
  | nil => exact ⟨rfl, rfl, fun _ _ => rfl⟩
  | cons setting l ih =>
    obtain ⟨hlength, hmode, hranges⟩ := ih (conf.set setting)
    rw [List.foldl_cons]
    rcases setting with mode | ⟨deviceId, range⟩ | _
    · rw [List.filterMap_cons_some (show AffinitySetting.mode? (.mode mode) = some mode from rfl),
        List.getLast?_cons, Option.getD_some]
      exact ⟨hlength, hmode, hranges⟩
    · have hlength' : (conf.set (.range deviceId range)).ranges.length = conf.ranges.length :=
        List.length_set
      refine ⟨hlength.trans hlength', hmode, fun d hd => ?_⟩
      rw [hranges d (hlength'.symm ▸ hd)]
      by_cases h : deviceId = d
      · subst h
        rw [List.filterMap_cons_some (show AffinitySetting.range? deviceId (.range deviceId range) = some range from
          if_pos rfl), List.getLast?_cons, Option.getD_some]
        congr 1
        show (conf.ranges.set deviceId range).getD deviceId _ = range
        rw [List.getD_eq_getElem?_getD, List.getElem?_set_self hd, Option.getD_some]
      · rw [List.filterMap_cons_none (show AffinitySetting.range? d (.range deviceId range) = none from if_neg h)]
        congr 1
        show (conf.ranges.set deviceId range).getD d _ = _
        rw [List.getD_eq_getElem?_getD, List.getElem?_set_ne h, ← List.getD_eq_getElem?_getD]
    · exact ⟨hlength, hmode, hranges⟩

theorem length_assignRanges {cards : Option (List Text)} {i : ℕ} {ranges ranges' : List CoreIdRange}
    (h : assignRanges cards i ranges = some ranges') : ranges'.length = ranges.length := by
  induction ranges generalizing i ranges' with
  | nil => simp_all [assignRanges]
  | cons range ranges ih =>
    rw [assignRanges, Option.bind_eq_bind, Option.bind_eq_some_iff] at h
    obtain ⟨getRange, -, h⟩ := h
    split_ifs at h
    · rw [← Option.some.inj h]
    · rw [Option.map_eq_some_iff] at h
      obtain ⟨rest, hrest, rfl⟩ := h
      rw [List.length_cons, List.length_cons, ih hrest]

theorem length_baseRanges {ranges : List CoreIdRange} (h : x.baseRanges = some ranges) :
    ranges.length = x.deviceNums := by
  have hdefault : (defaultRanges x).length = x.deviceNums := by
    rw [defaultRanges, List.length_map, List.length_range]
  unfold AffinityInputs.baseRanges at h
  split_ifs at h
  · rw [length_assignRanges h, hdefault]
  · rw [← Option.some.inj h, hdefault]

/-- What has been read. -/
theorem of_parse (h : parseCPUAffinityConf x = some conf) :
    conf.ranges.length = x.deviceNums ∧ conf.mode = x.mode ∧
      ∀ d < x.deviceNums, conf.ranges.getD d ⟨0, 0⟩ = x.deviceRange d := by
  rw [parseCPUAffinityConf_eq, Option.bind_eq_some_iff] at h
  obtain ⟨ranges, hbase, h⟩ := h
  rw [Option.map_eq_some_iff] at h
  obtain ⟨settings, hsettings, rfl⟩ := h
  have hlength := length_baseRanges hbase
  obtain ⟨h₁, h₂, h₃⟩ := foldl_set { ranges := ranges, lazyBind := !notLazy (x.input.getD []) } settings
  have heq : x.settings = settings := mapM_eq_some hsettings
  unfold AffinityInputs.mode AffinityInputs.deviceRange
  rw [heq, hbase]
  exact ⟨h₁.trans hlength, h₂, fun d hd => h₃ d (hlength.symm ▸ hd)⟩

theorem isSome_parse :
    (parseCPUAffinityConf x).isSome ↔ x.baseRanges.isSome ∧
      ∀ option ∈ x.options, ∀ number ∈ numerals x.deviceNums option, digitsVal number < 2 ^ 31 := by
  have hread : (∀ option ∈ x.options, ∀ number ∈ numerals x.deviceNums option, digitsVal number < 2 ^ 31) ↔
      (x.options.mapM (readOption x.deviceNums)).isSome := by
    rw [isSome_mapM]
    exact forall₂_congr fun option _ => (isSome_readOption _ _).symm
  rw [hread, parseCPUAffinityConf_eq]
  rcases x.baseRanges with _ | ranges
  · simp
  · simp

/-- When the settings are taken. -/
theorem getThreadAffinityInfo_iff (h : parseCPUAffinityConf x = some conf) :
    getThreadAffinityInfo x conf = true ↔ x.Binds := by
  obtain ⟨hlength, hmode, hranges⟩ := of_parse h
  unfold getThreadAffinityInfo AffinityInputs.Binds
  rw [Bool.and_eq_true, decide_eq_true_eq, hmode, List.all_eq_true]
  refine and_congr_right fun _ => ?_
  have hmask (range : CoreIdRange) : (List.range' range.start (range.end_ - range.start)).all x.mask = true ↔
      ∀ core, range.start ≤ core → core < range.end_ → x.mask core = true := by
    rw [List.all_eq_true]
    refine forall_congr' fun core => ?_
    rw [List.mem_range'_1, and_imp]
    exact forall_congr' fun hstart => imp_congr_left (by omega)
  constructor
  · intro hall d hd
    rw [← hranges d hd, ← hmask]
    refine hall _ ?_
    rw [List.getD_eq_getElem _ _ (hlength.symm ▸ hd)]
    exact List.getElem_mem _
  · intro hall range hrange
    obtain ⟨d, hd, rfl⟩ := List.mem_iff_getElem.mp hrange
    have hd' := hlength ▸ hd
    rw [hmask, ← List.getD_eq_getElem _ ⟨0, 0⟩ hd, hranges d hd']
    exact hall d hd'

/-! ### Core ids have 32 bits -/

theorem toCoreId_lt (v : ℤ) : toCoreId v < 2 ^ 32 := by
  unfold toCoreId
  omega

theorem toCoreId_of_lt {v : ℕ} (h : v < 2 ^ 32) : toCoreId (v : ℤ) = v := by
  unfold toCoreId
  omega

theorem lt_of_mem_exclusive {cards : List Text} {ranges : List CoreIdRange}
    (h : exclusiveAffinityCPU cards = some ranges) (hmem : range ∈ ranges) : range.end_ < 2 ^ 32 := by
  unfold exclusiveAffinityCPU at h
  split_ifs at h
  · rw [← Option.some.inj h] at hmem
    exact absurd hmem (List.not_mem_nil)
  · rw [← mapM_eq_some h, List.mem_filterMap] at hmem
    obtain ⟨card, -, hcard⟩ := hmem
    rw [exclusiveRange, Option.bind_eq_bind, Option.bind_eq_some_iff] at hcard
    obtain ⟨cpuRange, -, hcard⟩ := hcard
    rw [← Option.some.inj hcard]
    exact toCoreId_lt _

theorem lt_of_assignAffinity {cards : Option (List Text)} {cardId : ℕ}
    (h : getAssignAffinityCPU cards cardId = some range) : range.end_ < 2 ^ 32 := by
  unfold getAssignAffinityCPU at h
  rw [Option.bind_eq_bind, Option.bind_eq_some_iff] at h
  obtain ⟨cards, -, h⟩ := h
  rw [Option.bind_eq_bind, Option.bind_eq_some_iff] at h
  obtain ⟨ranges, hranges, h⟩ := h
  split_ifs at h
  · rw [← Option.some.inj h]
    exact Nat.two_pow_pos 32
  · exact lt_of_mem_exclusive hranges (List.mem_of_getElem? h)

theorem lt_of_mem_assignRanges {cards : Option (List Text)} {i : ℕ} {ranges ranges' : List CoreIdRange}
    (hlt : ∀ range ∈ ranges, range.end_ < 2 ^ 32) (h : assignRanges cards i ranges = some ranges') :
    ∀ range ∈ ranges', range.end_ < 2 ^ 32 := by
  induction ranges generalizing i ranges' with
  | nil =>
    rw [← Option.some.inj h]
    exact hlt
  | cons range ranges ih =>
    rw [assignRanges, Option.bind_eq_bind, Option.bind_eq_some_iff] at h
    obtain ⟨getRange, hget, h⟩ := h
    split_ifs at h
    · rw [← Option.some.inj h]
      exact hlt
    · rw [Option.map_eq_some_iff] at h
      obtain ⟨rest, hrest, rfl⟩ := h
      rw [List.forall_mem_cons] at hlt ⊢
      exact ⟨lt_of_assignAffinity hget, ih hlt.2 hrest⟩

theorem lt_of_readRange {deviceId deviceId' : ℕ} (h : readRange deviceId value = some (.range deviceId' range)) :
    range.end_ < 2 ^ 32 := by
  unfold readRange at h
  split_ifs at h with hdash hdigits hdigits
  · rw [Bool.and_eq_true] at hdigits
    rw [Option.bind_eq_bind, Option.bind_eq_some_iff] at h
    obtain ⟨start, -, h⟩ := h
    rw [Option.bind_eq_some_iff] at h
    obtain ⟨end_, hend, h⟩ := h
    have hlt := lt_of_readCore hdigits.2 hend
    cases h
    show end_ < 2 ^ 32
    omega
  · exact absurd (Option.some.inj h) nofun
  · rw [Option.map_eq_some_iff] at h
    obtain ⟨core, hcore, h⟩ := h
    have hlt := lt_of_readCore hdigits hcore
    cases h
    show core < 2 ^ 32
    omega
  · exact absurd (Option.some.inj h) nofun

theorem lt_of_readOption {deviceId : ℕ} (h : readOption n option = some (.range deviceId range)) :
    range.end_ < 2 ^ 32 := by
  have hmode {value : Text} : readMode value ≠ some (.range deviceId range) := by
    unfold readMode
    split_ifs
    · rcases readCore value with _ | mode
      · exact nofun
      · exact nofun
    · exact nofun
  unfold readOption at h
  dsimp only at h
  split_ifs at h
  · exact absurd h hmode
  · rw [Option.bind_eq_bind, Option.bind_eq_some_iff] at h
    obtain ⟨id, -, h⟩ := h
    split_ifs at h
    · exact lt_of_readRange h
    · exact absurd (Option.some.inj h) nofun
  · exact absurd (Option.some.inj h) nofun
  · exact absurd h hmode

theorem deviceRange_end_lt (x : AffinityInputs) (d : ℕ) : (x.deviceRange d).end_ < 2 ^ 32 := by
  unfold AffinityInputs.deviceRange
  rcases h : (x.settings.filterMap (AffinitySetting.range? d)).getLast? with _ | range
  · have hdefault : ∀ range ∈ defaultRanges x, range.end_ < 2 ^ 32 := by
      intro range hmem
      unfold defaultRanges at hmem
      obtain ⟨i, -, rfl⟩ := List.mem_map.mp hmem
      exact toCoreId_lt _
    have hbase : ∀ range ∈ x.baseRanges.getD [], range.end_ < 2 ^ 32 := by
      unfold AffinityInputs.baseRanges
      split_ifs
      · rcases hassign : assignRanges x.cards 0 (defaultRanges x) with _ | ranges
        · exact nofun
        · exact lt_of_mem_assignRanges hdefault hassign
      · exact hdefault
    rw [Option.getD_none, List.getD_eq_getElem?_getD]
    rcases hget : (x.baseRanges.getD [])[d]? with _ | range
    · exact Nat.two_pow_pos 32
    · exact hbase range (List.mem_of_getElem? hget)
  · rw [Option.getD_some]
    obtain ⟨setting, hsetting, hrange⟩ := List.mem_filterMap.mp (List.mem_of_getLast? h)
    obtain ⟨option, -, hoption⟩ := List.mem_filterMap.mp hsetting
    rcases setting with _ | ⟨deviceId, range'⟩ | _
    · exact absurd hrange nofun
    · unfold AffinitySetting.range? at hrange
      dsimp only at hrange
      split_ifs at hrange
      exact (Option.some.inj hrange) ▸ lt_of_readOption hoption
    · exact absurd hrange nofun

/-! ### The default ranges -/

theorem getCPUDefaultRange_eq {coreNums deviceNums deviceId : ℕ} (h : deviceNums ≤ coreNums)
    (hlt : coreNums < 2 ^ 31) (hid : deviceId < deviceNums) :
    getCPUDefaultRange coreNums deviceNums deviceId =
      ⟨deviceId * (coreNums / deviceNums), (deviceId + 1) * (coreNums / deviceNums) - 1⟩ := by
  have hblock : 0 < coreNums / deviceNums := Nat.div_pos h (by omega)
  have hle : (deviceId + 1) * (coreNums / deviceNums) ≤ coreNums :=
    (Nat.mul_le_mul_right _ hid).trans (Nat.mul_div_le _ _)
  unfold getCPUDefaultRange
  rw [if_pos (show 0 < coreNums ∧ 0 < deviceNums by omega)]
  dsimp only
  generalize coreNums / deviceNums = blockSize at hblock hle ⊢
  have hpos : blockSize ≤ (deviceId + 1) * blockSize := Nat.le_mul_of_pos_left _ (Nat.succ_pos _)
  have hmul : deviceId * blockSize ≤ (deviceId + 1) * blockSize := Nat.mul_le_mul_right _ (Nat.le_succ _)
  congr 1
  · rw [← Nat.cast_mul, toCoreId_of_lt (by omega)]
  · rw [← Nat.cast_add_one, ← Nat.cast_mul, ← Nat.cast_pred (by omega), toCoreId_of_lt (by omega)]

/-- The default ranges are disjoint if every device has a core. -/
theorem defaultRanges_disjoint_iff (hlt : x.coreNums < 2 ^ 31) :
    (defaultRanges x).Pairwise (fun range range' => Disjoint range.cores range'.cores) ↔
      x.deviceNums ≤ 1 ∨ x.deviceNums ≤ x.coreNums := by
  unfold defaultRanges
  rw [List.pairwise_map, List.pairwise_iff_getElem]
  simp only [List.length_range, List.getElem_range]
  constructor
  · intro h
    by_contra hnot
    push Not at hnot
    have hblock : x.coreNums / x.deviceNums = 0 := Nat.div_eq_of_lt hnot.2
    have hrange (i : ℕ) : getCPUDefaultRange x.coreNums x.deviceNums i = ⟨0, 2 ^ 32 - 1⟩ := by
      unfold getCPUDefaultRange
      rw [hblock, ite_self]
      simp [toCoreId]
    refine absurd (h 0 1 (by omega) (by omega) (by omega)) (Set.not_disjoint_iff.mpr ⟨0, ?_, ?_⟩)
    · rw [hrange]
      exact ⟨le_rfl, Nat.zero_le _⟩
    · rw [hrange]
      exact ⟨le_rfl, Nat.zero_le _⟩
  · rintro h i j hi hj hij
    have hle : x.deviceNums ≤ x.coreNums := by omega
    rw [getCPUDefaultRange_eq hle hlt hi, getCPUDefaultRange_eq hle hlt hj]
    have hblock : 0 < x.coreNums / x.deviceNums := Nat.div_pos hle (by omega)
    have hmul : (i + 1) * (x.coreNums / x.deviceNums) ≤ j * (x.coreNums / x.deviceNums) :=
      Nat.mul_le_mul_right _ hij
    have hpos : x.coreNums / x.deviceNums ≤ (i + 1) * (x.coreNums / x.deviceNums) :=
      Nat.le_mul_of_pos_left _ (Nat.succ_pos _)
    rw [Set.disjoint_left]
    rintro core ⟨-, hcore⟩ ⟨hcore', -⟩
    dsimp only at hcore hcore'
    omega

/-! ### The thread types -/

/-- The number of the type in `threadTypeList`. -/
def ThreadType.index : ThreadType → ℕ
  | .main => 0
  | .acl => 1
  | .release => 2
  | .watchdog => 3
  | .other => 4

theorem getCpuAffinityMap_eq (hend : range.end_ < 2 ^ 32) (hle : range.start ≤ range.end_)
    (hfive : 5 ≤ range.end_ - range.start + 1) (hne : range ≠ ⟨0, 2 ^ 32 - 1⟩) (type : ThreadType) :
    getCpuAffinityMap range type =
      ⟨range.start + type.index, if type = .other then range.end_ else range.start + type.index⟩ := by
  have hcount : ¬toCoreId ((range.end_ : ℤ) - range.start + 1) < 5 := by
    have hall : ¬(range.start = 0 ∧ range.end_ = 2 ^ 32 - 1) := by
      rintro ⟨h, h'⟩
      refine hne ?_
      rw [← h, ← h']
    unfold toCoreId
    omega
  have hid (k : ℕ) (hk : k < 5) : toCoreId ((range.start : ℤ) + k) = range.start + k := by
    rw [← Nat.cast_add, toCoreId_of_lt (by omega)]
  unfold getCpuAffinityMap
  rw [if_neg hcount]
  cases type with
  | main => rfl
  | acl => exact congrArg₂ _ (hid 1 (by omega)) (hid 1 (by omega))
  | release => exact congrArg₂ _ (hid 2 (by omega)) (hid 2 (by omega))
  | watchdog => exact congrArg₂ _ (hid 3 (by omega)) (hid 3 (by omega))
  | other => exact congrArg₂ _ (hid 4 (by omega)) rfl

theorem divided_iff (hend : range.end_ < 2 ^ 32) : Divided range ↔ range ≠ ⟨0, 2 ^ 32 - 1⟩ := by
  constructor
  · rintro h rfl
    refine absurd ((h (by decide) (by decide)).2 .main .acl (by decide)) (Set.not_disjoint_iff.mpr ⟨0, ?_, ?_⟩)
    · exact ⟨le_rfl, Nat.zero_le _⟩
    · exact ⟨le_rfl, Nat.zero_le _⟩
  · intro hne hle hfive
    have hindex (type : ThreadType) : type.index ≤ 4 := by
      cases type <;> decide
    have hlast : ThreadType.other.index = 4 := rfl
    have hinj (type type' : ThreadType) (h : type.index = type'.index) : type = type' := by
      revert h
      cases type <;> cases type' <;> decide
    refine ⟨fun type core => ?_, fun type type' htype => Set.disjoint_left.mpr fun core => ?_⟩
    · rw [getCpuAffinityMap_eq hend hle hfive hne]
      rintro ⟨hstart, hcore⟩
      dsimp only at hstart hcore
      have := hindex type
      refine ⟨by omega, ?_⟩
      split_ifs at hcore
      · exact hcore
      · omega
    · rw [getCpuAffinityMap_eq hend hle hfive hne, getCpuAffinityMap_eq hend hle hfive hne]
      rintro ⟨hstart, hcore⟩ ⟨hstart', hcore'⟩
      dsimp only at hstart hcore hstart' hcore'
      have hlt := hindex type
      have hlt' := hindex type'
      -- all the types but the last one have a single core
      split_ifs at hcore hcore' with hother hother' hother'
      · exact htype (hother.trans hother'.symm)
      · subst hother
        exact htype (hinj _ _ (by omega))
      · subst hother'
        exact htype (hinj _ _ (by omega))
      · exact htype (hinj _ _ (by omega))

/-- The cores of the thread types are there if those of the range are. -/
theorem valid_getCpuAffinityMap {coreNums : ℕ} (hlt : coreNums < 2 ^ 31) :
    (∀ type, Valid coreNums (getCpuAffinityMap range type)) ↔ Valid coreNums range := by
  by_cases hfew : toCoreId ((range.end_ : ℤ) - range.start + 1) < 5
  · have hmap (type : ThreadType) : getCpuAffinityMap range type = range := if_pos hfew
    simp only [hmap]
    exact ⟨fun h => h .main, fun h _ => h⟩
  · constructor
    · intro h
      have hmain := (h .main).end_lt
      have hother := h .other
      unfold getCpuAffinityMap at hmain hother
      rw [if_neg hfew] at hmain hother
      obtain ⟨hle, hend⟩ := hother
      dsimp only at hmain hle hend
      have hid : toCoreId ((range.start : ℤ) + 4) = range.start + 4 := by
        unfold toCoreId
        omega
      exact ⟨by omega, hend⟩
    · rintro ⟨hle, hend⟩ type
      have hfive : 5 ≤ range.end_ - range.start + 1 := by
        unfold toCoreId at hfew
        omega
      have hne : range ≠ ⟨0, 2 ^ 32 - 1⟩ := by
        rintro rfl
        exact absurd hend (by dsimp only; omega)
      have hindex : type.index ≤ 4 := by
        cases type <;> decide
      rw [getCpuAffinityMap_eq (by omega) hle hfive hne]
      split_ifs
      · exact ⟨by dsimp only; omega, hend⟩
      · exact ⟨le_rfl, by dsimp only; omega⟩

theorem valid_getCoreRange {coreNums : ℕ} (hlt : coreNums < 2 ^ 31) (conf : AffinityConf) (d : ℕ) :
    (∀ type, Valid coreNums (getCoreRange conf d type)) ↔ Valid coreNums (conf.ranges.getD d ⟨0, 0⟩) := by
  unfold getCoreRange
  dsimp only
  split_ifs
  · exact ⟨fun h => h .main, fun h _ => h⟩
  · exact valid_getCpuAffinityMap hlt

/-- Eight cores, two devices and no setting. -/
def eightCores : AffinityInputs where
  input := some ['1']
  deviceNums := 2
  coreNums := 8
  cards := none
  mask _ := true

end TorchNpu.Core
