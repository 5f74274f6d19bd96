/-
  When the comparison of versions is the order of the releases.

  A version has a list of keys: major, minor, patch, what kind of release it is, its number, and what comes last.  The
  order of the releases is that of the first difference.  Each encoding is a sum of weights of the keys, so that it is
  this order unless later keys outweigh the first difference.
-/
import TorchNpu.Core.GetCANNInfo
import TorchNpu.Lib.WeightedKeys
import Mathlib.Data.Prod.Lex

namespace TorchNpu.Core.GetCANNInfo

open Text WeightedKeys

/-! ### Versions -/

/-- Digits, leading zeros included. -/
structure Numeral where
  digits : Text
  ne_nil : digits ≠ []
  isDigit : ∀ c ∈ digits, c.isDigit = true

namespace Numeral

def val (n : Numeral) : ℕ :=
  Nat.ofDigitChars 10 n.digits 0

/-- The number has 64 bits. -/
def Fits (n : Numeral) : Prop :=
  n.val < 2 ^ 63

end Numeral

inductive Separator
  | dot
  | dash

def Separator.char : Separator → Char
  | .dot => '.'
  | .dash => '-'

inductive Stage
  | alpha
  | beta
  | rc

def Stage.word : Stage → Text
  | .alpha => alphaWord
  | .beta => betaWord
  | .rc => rcWord

/-- A key with what the last place needs besides a number. -/
abbrev Key :=
  ℕ ×ₗ ℕ

def place (n : ℕ) : Key :=
  toLex (n, 0)

/-- What follows the minor version of a CANN version. -/
inductive CannForm
  | release (patch : Numeral)
  | rc (number : Numeral) (alpha : Option Numeral)
  | t (number : Numeral)
  | pre (patch : Numeral) (sep : Separator) (stage : Stage)
  | preNumber (patch : Numeral) (sep : Separator) (stage : Stage) (number : Numeral)
  | preSepNumber (patch : Numeral) (sep : Separator) (stage : Stage) (sep' : Separator) (number : Numeral)

/-- What follows the minor version of a driver version. -/
inductive DriverForm
  | release (release : Numeral) (patch : Option Numeral)
  | rc (number : Numeral) (patch : Option Numeral)
  | rcAlpha (number alpha : Numeral)
  | rcBeta (number beta : Numeral)
  | t (number : Numeral)

/-- The numbers of alpha, beta and rc; a test version comes before them and a release after them. -/
def Stage.rank : Stage → ℕ
  | .alpha => 1
  | .beta => 2
  | .rc => 3

namespace CannForm

def tokens : CannForm → List (Separator × Text)
  | release patch => [(.dot, patch.digits)]
  | rc number none => [(.dot, 'R' :: 'C' :: number.digits)]
  | rc number (some alpha) => [(.dot, 'R' :: 'C' :: number.digits), (.dot, alphaWord ++ alpha.digits)]
  | t number => [(.dot, 'T' :: number.digits)]
  | pre patch sep stage => [(.dot, patch.digits), (sep, stage.word)]
  | preNumber patch sep stage number => [(.dot, patch.digits), (sep, stage.word ++ number.digits)]
  | preSepNumber patch sep stage sep' number => [(.dot, patch.digits), (sep, stage.word), (sep', number.digits)]

def numbers : CannForm → List Numeral
  | release patch => [patch]
  | rc number alpha => number :: alpha.toList
  | t number => [number]
  | pre patch _ _ => [patch]
  | preNumber patch _ _ number => [patch, number]
  | preSepNumber patch _ _ _ number => [patch, number]

/-- Patch, kind, number, and the alpha of an RC, which comes before the RC. -/
def key : CannForm → List Key
  | release patch => [place patch.val, place 4, place 0, place 0]
  | rc number none => [place 0, place 3, place number.val, toLex (1, 0)]
  | rc number (some alpha) => [place 0, place 3, place number.val, toLex (0, alpha.val)]
  | t number => [place 0, place 0, place number.val, place 0]
  | pre patch _ stage => [place patch.val, place stage.rank, place 0, place 0]
  | preNumber patch _ stage number => [place patch.val, place stage.rank, place number.val, place 0]
  | preSepNumber patch _ stage _ number => [place patch.val, place stage.rank, place number.val, place 0]

/-- The formats before 8.5, and those from 8.5 on. -/
def Documented (before : Prop) : CannForm → Prop
  | release _ => True
  | rc _ _ | t _ => before
  | pre _ _ _ | preNumber _ _ _ _ | preSepNumber _ _ _ _ _ => ¬before

end CannForm

namespace DriverForm

def tokens : DriverForm → List (Separator × Text)
  | release number none => [(.dot, number.digits)]
  | release number (some patch) => [(.dot, number.digits), (.dot, patch.digits)]
  | rc number none => [(.dot, 'R' :: 'C' :: number.digits)]
  | rc number (some patch) => [(.dot, 'R' :: 'C' :: number.digits), (.dot, patch.digits)]
  | rcAlpha number alpha => [(.dot, 'R' :: 'C' :: number.digits), (.dot, alphaWord ++ alpha.digits)]
  | rcBeta number beta => [(.dot, 'R' :: 'C' :: number.digits), (.dot, betaWord ++ beta.digits)]
  | t number => [(.dot, 'T' :: number.digits)]

def numbers : DriverForm → List Numeral
  | release number patch => number :: patch.toList
  | rc number patch => number :: patch.toList
  | rcAlpha number alpha => [number, alpha]
  | rcBeta number beta => [number, beta]
  | t number => [number]

/-- Release, kind, number, and alpha, beta or patch. -/
def key : DriverForm → List Key
  | release number patch => [place number.val, place 4, place 0, toLex (3, (patch.map Numeral.val).getD 0)]
  | rc number patch => [place 0, place 3, place number.val, toLex (3, (patch.map Numeral.val).getD 0)]
  | rcAlpha number alpha => [place 0, place 3, place number.val, toLex (1, alpha.val)]
  | rcBeta number beta => [place 0, place 3, place number.val, toLex (2, beta.val)]
  | t number => [place 0, place 0, place number.val, toLex (3, 0)]

end DriverForm

/-- Tokens with the separators before them. -/
def join (token : Text) (tokens : List (Separator × Text)) : Text :=
  token ++ tokens.flatMap fun token => token.1.char :: token.2

structure CannVersion where
  major : Numeral
  minor : Numeral
  form : CannForm
  documented : form.Documented (major.val < 8 ∨ major.val = 8 ∧ minor.val < 5)

structure DriverVersion where
  major : Numeral
  minor : Numeral
  form : DriverForm

namespace CannVersion

def text (v : CannVersion) : Text :=
  join v.major.digits ((.dot, v.minor.digits) :: v.form.tokens)

def key (v : CannVersion) : List Key :=
  place v.major.val :: place v.minor.val :: v.form.key

end CannVersion

namespace DriverVersion

def text (v : DriverVersion) : Text :=
  join v.major.digits ((.dot, v.minor.digits) :: v.form.tokens)

def key (v : DriverVersion) : List Key :=
  place v.major.val :: place v.minor.val :: v.form.key

end DriverVersion

/-- The key of 8.1.RC1. -/
def baseKey : List Key :=
  [place 8, place 1, place 0, place 3, place 1, toLex (1, 0)]

/-! ### Encodings as weights -/

/-- `VersionToNum` -/
def versionWeights : List (Key → ℤ) :=
  [fun k => ((ofLex k).1 + 1) * 100000000, fun k => ((ofLex k).1 + 1) * 1000000, fun k => (ofLex k).1 * 10000,
    fun k => if (ofLex k).1 = 4 then 9900 else if (ofLex k).1 = 3 then 5000 else 0, fun k => (ofLex k).1 * 100,
    fun k => (ofLex k).2]

/-- `VersionV2ToNum` -/
def versionV2Weights : List (Key → ℤ) :=
  [fun k => (ofLex k).1 * 10000000, fun k => (ofLex k).1 * 100000, fun k => (ofLex k).1 * 1000,
    fun k => if (ofLex k).1 = 4 then 0 else (ofLex k).1 * 100 - 400, fun k => (ofLex k).1, fun _ => 0]

/-- `DriverVersionToNum` -/
def driverWeights : List (Key → ℤ) :=
  [fun k => ((ofLex k).1 + 1) * 100000000, fun k => ((ofLex k).1 + 1) * 1000000, fun k => (ofLex k).1 * 10000,
    fun k => if (ofLex k).1 = 4 then 10000 else if (ofLex k).1 = 3 then 5100 else 100, fun k => (ofLex k).1 * 100,
    fun k => if (ofLex k).1 = 1 then (if (ofLex k).2 = 0 then 0 else (ofLex k).2 - 100)
      else if (ofLex k).1 = 2 then (ofLex k).2 - 1 else (ofLex k).2]

def IsInt64 (v : ℤ) : Prop :=
  -2 ^ 63 ≤ v ∧ v < 2 ^ 63

/-- The numbers and the encodings have 64 bits. -/
def CannVersion.Fits (v : CannVersion) : Prop :=
  v.major.Fits ∧ v.minor.Fits ∧ (∀ n ∈ v.form.numbers, n.Fits) ∧ IsInt64 (totalWeight versionWeights v.key) ∧
    IsInt64 (totalWeight versionV2Weights v.key)

/-- The numbers have 64 bits, and the encoding is a `double`. -/
def DriverVersion.Fits (v : DriverVersion) : Prop :=
  v.major.Fits ∧ v.minor.Fits ∧ (∀ n ∈ v.form.numbers, n.Fits) ∧ (totalWeight driverWeights v.key).natAbs < 2 ^ 53

/-! ### Tokens -/

variable {n : Numeral} {token : Text} {tokens : List (Separator × Text)} {c w : Char} {word : Text}

/-- No separator is in a token. -/
def Clean (token : Text) : Prop :=
  ∀ c ∈ token, c ≠ '.' ∧ c ≠ '-'

theorem Numeral.clean (n : Numeral) : Clean n.digits := by
  intro c hc
  have hdigit := n.isDigit c hc
  constructor
  · rintro rfl
    exact absurd hdigit (by decide)
  · rintro rfl
    exact absurd hdigit (by decide)

theorem Clean.append (h : Clean word) (h' : Clean token) : Clean (word ++ token) :=
  List.forall_mem_append.mpr ⟨h, h'⟩

theorem Clean.cons (h : c ≠ '.' ∧ c ≠ '-') (h' : Clean token) : Clean (c :: token) :=
  List.forall_mem_cons.mpr ⟨h, h'⟩

theorem Stage.clean (stage : Stage) : Clean stage.word := by
  unfold Clean
  cases stage <;> simp [Stage.word, alphaWord, betaWord, rcWord]

theorem splitVersionStr_append (h : Clean token) (rest : Text) :
    splitVersionStr (token ++ rest) = match splitVersionStr rest with
      | [] => [token]
      | token' :: tokens => (token ++ token') :: tokens := by
  induction token with
  | nil =>
    have hne : splitVersionStr rest ≠ [] := by
      rcases rest with _ | ⟨c, rest⟩
      · exact List.cons_ne_nil _ _
      · rw [splitVersionStr]
        split_ifs
        · exact List.cons_ne_nil _ _
        · split
          · exact List.cons_ne_nil _ _
          · exact List.cons_ne_nil _ _
    rcases hrest : splitVersionStr rest with _ | ⟨token', tokens⟩
    · exact absurd hrest hne
    · exact hrest
  | cons c token ih =>
    obtain ⟨hc, htoken⟩ := List.forall_mem_cons.mp h
    rw [List.cons_append, splitVersionStr, if_neg (by simp [hc]), ih htoken]
    rcases splitVersionStr rest with _ | ⟨token', tokens⟩
    · rfl
    · rfl

theorem splitVersionStr_join (h : Clean token) (h' : ∀ token ∈ tokens, Clean token.2) :
    splitVersionStr (join token tokens) = token :: tokens.map Prod.snd := by
  induction tokens generalizing token with
  | nil =>
    unfold join
    rw [splitVersionStr_append h]
    simp [splitVersionStr]
  | cons next tokens ih =>
    obtain ⟨sep, token'⟩ := next
    rw [List.forall_mem_cons] at h'
    have hrest : splitVersionStr (sep.char :: join token' tokens) = [] :: token' :: tokens.map Prod.snd := by
      rw [splitVersionStr, if_pos (by cases sep <;> decide), ih h'.1 h'.2]
    have hjoin : join token ((sep, token') :: tokens) = token ++ sep.char :: join token' tokens := by
      unfold join
      rw [List.flatMap_cons, List.cons_append]
    rw [hjoin, splitVersionStr_append h, hrest, List.map_cons]
    simp

theorem CannForm.clean (form : CannForm) : ∀ token ∈ form.tokens, Clean token.2 := by
  have halpha : Clean alphaWord := Stage.clean .alpha
  have hrc (n : Numeral) : Clean ('R' :: 'C' :: n.digits) := (n.clean.cons (by decide)).cons (by decide)
  rcases form with patch | ⟨number, _ | alpha⟩ | number | ⟨patch, sep, stage⟩ | ⟨patch, sep, stage, number⟩ |
    ⟨patch, sep, stage, sep', number⟩
  · simpa [tokens] using patch.clean
  · simpa [tokens] using hrc number
  · simpa [tokens] using ⟨hrc number, halpha.append alpha.clean⟩
  · simpa [tokens] using number.clean.cons (by decide)
  · simpa [tokens] using ⟨patch.clean, stage.clean⟩
  · simpa [tokens] using ⟨patch.clean, stage.clean.append number.clean⟩
  · simpa [tokens] using ⟨patch.clean, stage.clean, number.clean⟩

theorem DriverForm.clean (form : DriverForm) : ∀ token ∈ form.tokens, Clean token.2 := by
  have halpha : Clean alphaWord := Stage.clean .alpha
  have hbeta : Clean betaWord := Stage.clean .beta
  have hrc (n : Numeral) : Clean ('R' :: 'C' :: n.digits) := (n.clean.cons (by decide)).cons (by decide)
  rcases form with ⟨number, _ | patch⟩ | ⟨number, _ | patch⟩ | ⟨number, alpha⟩ | ⟨number, beta⟩ | number
  · simpa [tokens] using number.clean
  · simpa [tokens] using ⟨number.clean, patch.clean⟩
  · simpa [tokens] using hrc number
  · simpa [tokens] using ⟨hrc number, patch.clean⟩
  · simpa [tokens] using ⟨hrc number, halpha.append alpha.clean⟩
  · simpa [tokens] using ⟨hrc number, hbeta.append beta.clean⟩
  · simpa [tokens] using number.clean.cons (by decide)

theorem split_cannVersion (v : CannVersion) :
    splitVersionStr v.text = v.major.digits :: v.minor.digits :: v.form.tokens.map Prod.snd :=
  splitVersionStr_join v.major.clean (List.forall_mem_cons.mpr ⟨v.minor.clean, v.form.clean⟩)

theorem split_driverVersion (v : DriverVersion) :
    splitVersionStr v.text = v.major.digits :: v.minor.digits :: v.form.tokens.map Prod.snd :=
  splitVersionStr_join v.major.clean (List.forall_mem_cons.mpr ⟨v.minor.clean, v.form.clean⟩)

/-! ### Numbers in tokens -/

theorem isDigits_digits (n : Numeral) : isDigits n.digits = true := by
  unfold isDigits
  rw [Bool.and_eq_true, decide_eq_true_eq, List.all_eq_true]
  exact ⟨n.ne_nil, n.isDigit⟩

theorem extractNumFromStr_digits (h : n.Fits) : extractNumFromStr n.digits = n.val := by
  unfold Numeral.Fits Numeral.val at h
  unfold extractNumFromStr stoll
  rw [if_pos (isDigits_digits n), strtol_of_digits n.ne_nil n.isDigit, Option.filter_some,
    if_pos (decide_eq_true (by omega))]
  rfl

theorem numOf_digits (h : n.Fits) : numOf n.digits = some (n.val : ℤ) := by
  unfold numOf
  rw [extractNumFromStr_digits h, if_pos (by omega)]

theorem numOf_cons (h : c.isDigit = false) (token : Text) : numOf (c :: token) = none := by
  have hdigits : isDigits (c :: token) = false := by
    unfold isDigits
    rw [List.all_cons, h, Bool.false_and, Bool.and_false]
  unfold numOf extractNumFromStr
  rw [hdigits]
  rfl

theorem startsWith_append (word token : Text) : startsWith (word ++ token) word = true := by
  unfold startsWith
  rw [List.take_left]
  exact decide_eq_true rfl

theorem numAfter_append (word : Text) (h : n.Fits) : numAfter word (word ++ n.digits) = some (n.val : ℤ) := by
  unfold numAfter
  have hlength : word.length < (word ++ n.digits).length := by
    rw [List.length_append]
    have := List.length_pos_iff.mpr n.ne_nil
    omega
  rw [startsWith_append, decide_eq_true hlength, Bool.true_and, if_pos rfl, List.drop_left, extractNumFromStr_digits h,
    if_pos (by omega)]

theorem startsWith_cons_ne (h : c.toLower ≠ w.toLower) (word token : Text) :
    startsWith (c :: token) (w :: word) = false := by
  unfold startsWith
  rw [decide_eq_false_iff_not, List.length_cons, List.take_succ_cons, List.map_cons, List.map_cons, List.cons.injEq]
  exact fun heq => h heq.1

theorem numAfter_cons_ne (h : c.toLower ≠ w.toLower) (word token : Text) :
    numAfter (w :: word) (c :: token) = none := by
  unfold numAfter
  rw [startsWith_cons_ne h, Bool.false_and]
  rfl

theorem toLower_of_isDigit (h : c.isDigit = true) : c.toLower = c := by
  have hle : c.toNat ≤ 57 := (Char.isDigit_iff_toNat.mp h).2
  unfold Char.toLower
  rw [dif_neg]
  rintro ⟨hge, -⟩
  have : 65 ≤ c.toNat := hge
  omega

theorem numAfter_digits (n : Numeral) (h : w.toLower.isDigit = false) (word : Text) :
    numAfter (w :: word) n.digits = none := by
  rcases hdigits : n.digits with _ | ⟨c, digits⟩
  · exact absurd hdigits n.ne_nil
  · have hc := n.isDigit c (hdigits ▸ List.mem_cons_self)
    refine numAfter_cons_ne ?_ word digits
    rw [toLower_of_isDigit hc]
    rintro rfl
    rw [hc] at h
    exact absurd h (by decide)

theorem toInt64_of_eq {v w : ℤ} (h : v = w) (hw : IsInt64 w) : toInt64 v = w := by
  unfold IsInt64 at hw
  unfold toInt64
  omega

/-! ### The encodings are sums of weights -/

theorem parseRelease_digits (h : n.Fits) : parseRelease n.digits = some { release := n.val } := by
  unfold parseRelease
  rw [numAfter_digits n (by decide), numAfter_digits n (by decide), numOf_digits h]
  rfl

theorem numAfter_rc (h : n.Fits) : numAfter ['R', 'C'] ('R' :: 'C' :: n.digits) = some (n.val : ℤ) :=
  numAfter_append ['R', 'C'] h

theorem parseRelease_rc (h : n.Fits) : parseRelease ('R' :: 'C' :: n.digits) = some { rcVersion := n.val } := by
  unfold parseRelease
  rw [numAfter_rc h]
  rfl

theorem parseRelease_t (h : n.Fits) : parseRelease ('T' :: n.digits) = some { tVersion := n.val } := by
  unfold parseRelease
  rw [numAfter_cons_ne (by decide), show 'T' :: n.digits = ['T'] ++ n.digits from rfl, numAfter_append _ h]
  rfl

/-- The formats that `VersionToNum` is called for. -/
def CannForm.IsOld : CannForm → Prop
  | release _ | rc _ _ | t _ => True
  | _ => False

/-- The formats that `VersionV2ToNum` is called for. -/
def CannForm.IsNew : CannForm → Prop
  | rc _ _ | t _ => False
  | _ => True

theorem versionToNum_of_parse {v : CannVersion} (hmajor : v.major.Fits) (hminor : v.minor.Fits) {f : Fields}
    (hparse : parseVersion (v.form.tokens.map Prod.snd) = some f) :
    versionToNum v.text = toInt64 ((v.major.val + 1) * 100000000 + (v.minor.val + 1) * 1000000 +
      (f.release + 1) * 10000 + ((f.rcVersion + 1) * 100 + 5000) + (f.tVersion + 1) * 100 - (100 - f.alphaVersion) -
      f.weight + f.prerelease) := by
  unfold versionToNum
  rw [split_cannVersion]
  dsimp only
  rw [extractNumFromStr_digits hmajor, extractNumFromStr_digits hminor, if_neg (by omega), hparse]

theorem versionToNum_text (v : CannVersion) (hfits : v.Fits) (hold : v.form.IsOld) :
    versionToNum v.text = totalWeight versionWeights v.key := by
  obtain ⟨major, minor, form, documented⟩ := v
  obtain ⟨hmajor, hminor, hform, hrange, -⟩ := hfits
  rcases form with patch | ⟨number, _ | alpha⟩ | number | _ | _ | _
  · have hpatch : patch.Fits := hform patch (List.mem_singleton_self _)
    rw [versionToNum_of_parse hmajor hminor (parseRelease_digits hpatch)]
    refine toInt64_of_eq ?_ hrange
    simp [totalWeight, versionWeights, CannVersion.key, CannForm.key, place]
    omega
  · have hnumber : number.Fits := hform number (List.mem_singleton_self _)
    rw [versionToNum_of_parse hmajor hminor (parseRelease_rc hnumber)]
    refine toInt64_of_eq ?_ hrange
    simp [totalWeight, versionWeights, CannVersion.key, CannForm.key, place]
    omega
  · have hnumber : number.Fits := hform number (by simp [CannForm.numbers])
    have halpha : alpha.Fits := hform alpha (by simp [CannForm.numbers])
    have hparse : parseVersion ['R' :: 'C' :: number.digits, alphaWord ++ alpha.digits] =
        some { rcVersion := number.val, alphaVersion := alpha.val } := by
      unfold parseVersion
      dsimp only
      rw [numAfter_rc hnumber, numAfter_append _ halpha]
      rfl
    rw [versionToNum_of_parse hmajor hminor hparse]
    refine toInt64_of_eq ?_ hrange
    simp [totalWeight, versionWeights, CannVersion.key, CannForm.key, place]
    omega
  · have hnumber : number.Fits := hform number (List.mem_singleton_self _)
    rw [versionToNum_of_parse hmajor hminor (parseRelease_t hnumber)]
    refine toInt64_of_eq ?_ hrange
    simp [totalWeight, versionWeights, CannVersion.key, CannForm.key, place]
    omega
  · exact absurd hold id
  · exact absurd hold id
  · exact absurd hold id

/-- What a stage subtracts. -/
def Stage.weight (stage : Stage) : ℤ :=
  400 - stage.rank * 100

theorem weightOf_word (stage : Stage) : weightOf stage.word = some stage.weight := by
  cases stage <;> decide

/-- A word with a number is none of the words. -/
theorem weightOf_append (stage : Stage) (n : Numeral) : weightOf (stage.word ++ n.digits) = none := by
  have hne (stage stage' : Stage) : stage.word ++ n.digits ≠ stage'.word := by
    intro h
    have hlast := List.getLast_mem n.ne_nil
    have hmem : n.digits.getLast n.ne_nil ∈ stage'.word := h ▸ List.mem_append_right _ hlast
    have hletters : ∀ c ∈ stage'.word, c.isDigit = false := by
      cases stage' <;> simp [Stage.word, alphaWord, betaWord, rcWord, Char.isDigit]
    exact absurd (n.isDigit _ hlast) (by rw [hletters _ hmem]; exact Bool.false_ne_true)
  have halpha : stage.word ++ n.digits ≠ alphaWord := hne stage .alpha
  have hbeta : stage.word ++ n.digits ≠ betaWord := hne stage .beta
  have hrc : stage.word ++ n.digits ≠ rcWord := hne stage .rc
  unfold weightOf
  rw [if_neg halpha, if_neg hbeta, if_neg hrc]

theorem parsePrerelease_append (stage : Stage) (h : n.Fits) :
    parsePrerelease (stage.word ++ n.digits) = some (stage.weight, (n.val : ℤ)) := by
  have hlength (word : Text) : decide (word.length < (word ++ n.digits).length) = true := by
    rw [decide_eq_true_eq, List.length_append]
    have := List.length_pos_iff.mpr n.ne_nil
    omega
  unfold parsePrerelease
  rw [weightOf_append]
  dsimp only
  cases stage with
  | alpha =>
    rw [show Stage.alpha.word = alphaWord from rfl, startsWith_append, hlength, Bool.and_self,
      if_pos rfl, numAfter_append _ h]
    rfl
  | beta =>
    have hne : startsWith (Stage.beta.word ++ n.digits) alphaWord = false := startsWith_cons_ne (by decide) _ _
    rw [hne, Bool.false_and, if_neg Bool.false_ne_true, show Stage.beta.word = betaWord from rfl, startsWith_append,
      hlength, Bool.and_self, if_pos rfl, numAfter_append _ h]
    rfl
  | rc =>
    have hne : startsWith (Stage.rc.word ++ n.digits) alphaWord = false := startsWith_cons_ne (by decide) _ _
    have hne' : startsWith (Stage.rc.word ++ n.digits) betaWord = false := startsWith_cons_ne (by decide) _ _
    rw [hne, hne', Bool.false_and, if_neg Bool.false_ne_true, Bool.false_and, if_neg Bool.false_ne_true,
      show Stage.rc.word = rcWord from rfl, numAfter_append _ h]
    rfl

theorem versionV2ToNum_of_parse {v : CannVersion} (hmajor : v.major.Fits) (hminor : v.minor.Fits) {patch : Numeral}
    (hpatch : patch.Fits) {tokens : List Text} (htokens : v.form.tokens.map Prod.snd = patch.digits :: tokens)
    {weight prerelease : ℤ} (hparse : parseVersionV2 tokens = some (weight, prerelease)) :
    versionV2ToNum v.text =
      toInt64 (v.major.val * 10000000 + v.minor.val * 100000 + patch.val * 1000 - weight + prerelease) := by
  unfold versionV2ToNum
  rw [split_cannVersion, htokens]
  dsimp only
  rw [extractNumFromStr_digits hmajor, extractNumFromStr_digits hminor, extractNumFromStr_digits hpatch,
    if_neg (by omega), hparse]

theorem Stage.rank_ne (stage : Stage) : stage.rank ≠ 4 := by
  cases stage <;> decide

theorem versionV2ToNum_text (v : CannVersion) (hfits : v.Fits) (hnew : v.form.IsNew) :
    versionV2ToNum v.text = totalWeight versionV2Weights v.key := by
  obtain ⟨major, minor, form, documented⟩ := v
  obtain ⟨hmajor, hminor, hform, -, hrange⟩ := hfits
  rcases form with patch | _ | _ | ⟨patch, sep, stage⟩ | ⟨patch, sep, stage, number⟩ | ⟨patch, sep, stage, sep', number⟩
  · have hpatch : patch.Fits := hform patch (List.mem_singleton_self _)
    rw [versionV2ToNum_of_parse hmajor hminor hpatch rfl rfl]
    refine toInt64_of_eq ?_ hrange
    simp [totalWeight, versionV2Weights, CannVersion.key, CannForm.key, place]
    omega
  · exact absurd hnew id
  · exact absurd hnew id
  · have hpatch : patch.Fits := hform patch (List.mem_singleton_self _)
    have hparse : parseVersionV2 [stage.word] = some (stage.weight, 0) := by
      unfold parseVersionV2 parsePrerelease
      dsimp only
      rw [weightOf_word]
    rw [versionV2ToNum_of_parse hmajor hminor hpatch rfl hparse]
    refine toInt64_of_eq ?_ hrange
    simp [totalWeight, versionV2Weights, CannVersion.key, CannForm.key, place, Stage.weight, stage.rank_ne]
    omega
  · have hpatch : patch.Fits := hform patch (by simp [CannForm.numbers])
    have hnumber : number.Fits := hform number (by simp [CannForm.numbers])
    rw [versionV2ToNum_of_parse hmajor hminor hpatch rfl (parsePrerelease_append stage hnumber)]
    refine toInt64_of_eq ?_ hrange
    simp [totalWeight, versionV2Weights, CannVersion.key, CannForm.key, place, Stage.weight, stage.rank_ne]
    omega
  · have hpatch : patch.Fits := hform patch (by simp [CannForm.numbers])
    have hnumber : number.Fits := hform number (by simp [CannForm.numbers])
    have hparse : parseVersionV2 [stage.word, number.digits] = some (stage.weight, (number.val : ℤ)) := by
      unfold parseVersionV2
      dsimp only
      rw [numOf_digits hnumber, weightOf_word]
      rfl
    rw [versionV2ToNum_of_parse hmajor hminor hpatch rfl hparse]
    refine toInt64_of_eq ?_ hrange
    simp [totalWeight, versionV2Weights, CannVersion.key, CannForm.key, place, Stage.weight, stage.rank_ne]
    omega

theorem driverVersionToNum_of_parse {v : DriverVersion} (hmajor : v.major.Fits) (hminor : v.minor.Fits) {f : Fields}
    (hparse : parseDriverVersion (v.form.tokens.map Prod.snd) = some f) :
    driverVersionToNum v.text = toInt64 ((v.major.val + 1) * 100000000 + (v.minor.val + 1) * 1000000 +
      (f.release + 1) * 10000 + ((f.rcVersion + 1) * 100 + 5000) + (f.tVersion + 1) * 100 -
      (if f.alphaVersion ≠ 0 then 1 else 0) * (100 - f.alphaVersion) + (f.bVersion - 1) + f.patch) := by
  unfold driverVersionToNum
  rw [split_driverVersion]
  dsimp only
  rw [extractNumFromStr_digits hmajor, extractNumFromStr_digits hminor, if_neg (by omega), hparse]

/-- The fields of a driver version. -/
def DriverForm.fields : DriverForm → Fields
  | release number patch => { release := number.val, patch := (patch.map Numeral.val).getD 0 }
  | rc number patch => { rcVersion := number.val, patch := (patch.map Numeral.val).getD 0 }
  | rcAlpha number alpha => { rcVersion := number.val, alphaVersion := alpha.val }
  | rcBeta number beta => { rcVersion := number.val, bVersion := beta.val }
  | t number => { tVersion := number.val }

theorem parseDriverVersion_tokens {form : DriverForm} (h : ∀ n ∈ form.numbers, n.Fits) :
    parseDriverVersion (form.tokens.map Prod.snd) = some form.fields := by
  have hrc (n : Numeral) : numOf ('R' :: 'C' :: n.digits) = none := numOf_cons (by decide) _
  have hword (word : Text) (n : Numeral) (w : Char) (hw : w.isDigit = false) : numOf (w :: word ++ n.digits) = none :=
    numOf_cons hw _
  rcases form with ⟨number, _ | patch⟩ | ⟨number, _ | patch⟩ | ⟨number, alpha⟩ | ⟨number, beta⟩ | number
  · exact parseRelease_digits (h number (List.mem_singleton_self _))
  · have hnumber := h number (by simp [DriverForm.numbers])
    have hpatch := h patch (by simp [DriverForm.numbers])
    show parseDriverVersion [number.digits, patch.digits] = _
    unfold parseDriverVersion
    dsimp only
    rw [numOf_digits hnumber, numOf_digits hpatch]
    rfl
  · exact parseRelease_rc (h number (List.mem_singleton_self _))
  · have hnumber := h number (by simp [DriverForm.numbers])
    have hpatch := h patch (by simp [DriverForm.numbers])
    show parseDriverVersion ['R' :: 'C' :: number.digits, patch.digits] = _
    unfold parseDriverVersion
    dsimp only
    rw [hrc, numAfter_rc hnumber, numOf_digits hpatch]
    rfl
  · have hnumber := h number (by simp [DriverForm.numbers])
    have halpha := h alpha (by simp [DriverForm.numbers])
    show parseDriverVersion ['R' :: 'C' :: number.digits, alphaWord ++ alpha.digits] = _
    unfold parseDriverVersion
    dsimp only
    rw [hrc, numAfter_rc hnumber, show numOf (alphaWord ++ alpha.digits) = none from hword _ _ _ (by decide),
      numAfter_append _ halpha]
    rfl
  · have hnumber := h number (by simp [DriverForm.numbers])
    have hbeta := h beta (by simp [DriverForm.numbers])
    show parseDriverVersion ['R' :: 'C' :: number.digits, betaWord ++ beta.digits] = _
    unfold parseDriverVersion
    dsimp only
    rw [hrc, numAfter_rc hnumber, show numOf (betaWord ++ beta.digits) = none from hword _ _ _ (by decide),
      show numAfter alphaWord (betaWord ++ beta.digits) = none from numAfter_cons_ne (by decide) _ _,
      numAfter_append _ hbeta]
    rfl
  · exact parseRelease_t (h number (List.mem_singleton_self _))

theorem driverVersionToNum_text (v : DriverVersion) (hfits : v.Fits) :
    driverVersionToNum v.text = totalWeight driverWeights v.key := by
  obtain ⟨major, minor, form⟩ := v
  obtain ⟨hmajor, hminor, hform, hrange⟩ := hfits
  rw [driverVersionToNum_of_parse hmajor hminor (parseDriverVersion_tokens hform)]
  refine toInt64_of_eq ?_ (by unfold IsInt64; omega)
  rcases form with ⟨number, patch⟩ | ⟨number, patch⟩ | ⟨number, alpha⟩ | ⟨number, beta⟩ | number
  · simp [totalWeight, driverWeights, DriverVersion.key, DriverForm.key, DriverForm.fields, place]
    omega
  · simp [totalWeight, driverWeights, DriverVersion.key, DriverForm.key, DriverForm.fields, place]
    omega
  · -- An alpha of the number 0 is none.
    by_cases hzero : alpha.val = 0
    · simp [totalWeight, driverWeights, DriverVersion.key, DriverForm.key, DriverForm.fields, place, hzero]
      omega
    · simp [totalWeight, driverWeights, DriverVersion.key, DriverForm.key, DriverForm.fields, place, hzero]
      omega
  · simp [totalWeight, driverWeights, DriverVersion.key, DriverForm.key, DriverForm.fields, place]
    omega
  · simp [totalWeight, driverWeights, DriverVersion.key, DriverForm.key, DriverForm.fields, place]
    omega

/-! ### The comparisons -/

theorem toDouble_eq {v : ℤ} (h : v.natAbs < 2 ^ 53) : toDouble v = v := by
  have hlog : v.natAbs.log2 - 52 = 0 := by
    by_cases hzero : v.natAbs = 0
    · rw [hzero]
      rfl
    · have := (Nat.log2_lt hzero).mpr h
      omega
  unfold toDouble
  rw [hlog]
  simp [Nat.mod_one, Int.sign_mul_abs]

theorem place_lt {a b : ℕ} : place a < place b ↔ a < b := by
  simp [place, Prod.Lex.toLex_lt_toLex]

theorem place_inj {a b : ℕ} : place a = place b ↔ a = b := by
  simp [place]

theorem CannForm.length_key (form : CannForm) : form.key.length = 4 := by
  rcases form with _ | ⟨_, _ | _⟩ | _ | _ | _ | _ <;> rfl

theorem DriverForm.length_key (form : DriverForm) : form.key.length = 4 := by
  rcases form with _ | _ | _ | _ | _ <;> rfl

theorem CannForm.tokens_ne_nil (form : CannForm) : ∃ token tokens, form.tokens.map Prod.snd = token :: tokens := by
  rcases form with _ | ⟨_, _ | _⟩ | _ | _ | _ | _ <;> exact ⟨_, _, rfl⟩

theorem ite_lt_ite_eq {major₁ minor₁ major₂ minor₂ : ℕ} :
    (if (major₁ : ℤ) < major₂ then some false
      else if (major₂ : ℤ) < major₁ then some true
      else some (decide ((minor₂ : ℤ) ≤ minor₁))) =
      some (decide (major₂ < major₁ ∨ major₁ = major₂ ∧ minor₂ ≤ minor₁)) := by
  split_ifs with hlt hgt
  · rw [decide_eq_false (by omega)]
  · rw [decide_eq_true (by omega)]
  · rw [Option.some.injEq, decide_eq_decide]
    omega

/-- Which comparison is made. -/
theorem isGteCANNVersion_text {c v : CannVersion} (hc : c.Fits) (hv : v.Fits) :
    isGteCANNVersion c.text v.text =
      if v.major.val ≤ 8 ∧ v.text < baseVersion then none
      else if c.major.val = 8 ∧ c.minor.val < 5 ∧ v.major.val = 8 ∧ v.minor.val < 5 then
        some (decide (versionToNum v.text ≤ versionToNum c.text))
      else if c.major.val = 8 ∧ c.minor.val = 5 ∧ v.major.val = 8 ∧ v.minor.val = 5 ∨
          8 < c.major.val ∧ 8 < v.major.val then
        some (decide (versionV2ToNum v.text ≤ versionV2ToNum c.text))
      else some (decide (v.major.val < c.major.val ∨ c.major.val = v.major.val ∧ v.minor.val ≤ c.minor.val)) := by
  obtain ⟨token, tokens, htokens⟩ := c.form.tokens_ne_nil
  obtain ⟨token', tokens', htokens'⟩ := v.form.tokens_ne_nil
  unfold isGteCANNVersion
  rw [split_cannVersion, split_cannVersion, htokens, htokens']
  dsimp only
  rw [if_pos (isDigits_digits _), extractNumFromStr_digits hc.1, extractNumFromStr_digits hc.2.1,
    extractNumFromStr_digits hv.1, extractNumFromStr_digits hv.2.1]
  have hguard : ((v.major.val : ℤ) ≤ 8 ∧ v.text < baseVersion) = (v.major.val ≤ 8 ∧ v.text < baseVersion) := by
    norm_cast
  have hold : ((c.major.val : ℤ) = 8 ∧ (c.minor.val : ℤ) < 5 ∧ (v.major.val : ℤ) = 8 ∧ (v.minor.val : ℤ) < 5) =
      (c.major.val = 8 ∧ c.minor.val < 5 ∧ v.major.val = 8 ∧ v.minor.val < 5) := by
    norm_cast
  have hnew : ((c.major.val : ℤ) = 8 ∧ (c.minor.val : ℤ) = 5 ∧ (v.major.val : ℤ) = 8 ∧ (v.minor.val : ℤ) = 5 ∨
      (8 : ℤ) < c.major.val ∧ (8 : ℤ) < v.major.val) =
      (c.major.val = 8 ∧ c.minor.val = 5 ∧ v.major.val = 8 ∧ v.minor.val = 5 ∨
        8 < c.major.val ∧ 8 < v.major.val) := by
    norm_cast
  simp only [hguard, hold, hnew, ite_lt_ite_eq, isDigits_digits, ne_eq, reduceCtorEq, not_false_eq_true, and_self,
    if_true]

/-- `IsGteCANNVersion` is the order of the releases, and does not throw. -/
def CannRight (c v : CannVersion) : Prop :=
  isGteCANNVersion c.text v.text = some (atLeast c.key v.key)

/-- The text of a version 8 is not before the text 8.1.RC1, no key is outweighed in the encoding that is compared, and
where no encoding is compared versions with the same major and minor are in order. -/
def CannAgrees (c v : CannVersion) : Prop :=
  (v.major.val = 8 → ¬v.text < baseVersion) ∧
    if c.major.val = 8 ∧ c.minor.val < 5 ∧ v.major.val = 8 ∧ v.minor.val < 5 then
      Outweighs versionWeights c.key v.key
    else if c.major.val = 8 ∧ c.minor.val = 5 ∧ v.major.val = 8 ∧ v.minor.val = 5 ∨
        8 < c.major.val ∧ 8 < v.major.val then
      Outweighs versionV2Weights c.key v.key
    else c.major.val = v.major.val → c.minor.val = v.minor.val → atLeast c.key v.key = true

/-- `IsGteDriverVersion` is the order of the releases. -/
def DriverRight (cann : Text) (c v : DriverVersion) : Prop :=
  isGteDriverVersion cann c.text v.text = atLeast c.key v.key

/-- No key is outweighed, unless the CANN version has no number or one below that of 8.1.RC1: then the driver must be
older. -/
def DriverAgrees (cann : Text) (c v : DriverVersion) : Prop :=
  if versionToNum cann < versionToNum baseVersion then atLeast c.key v.key = false
  else Outweighs driverWeights c.key v.key

theorem CannVersion.isOld (v : CannVersion) (h : v.major.val = 8 ∧ v.minor.val < 5) : v.form.IsOld := by
  obtain ⟨major, minor, form, documented⟩ := v
  rcases form with _ | _ | _ | _ | _ | _
  · trivial
  · trivial
  · trivial
  · exact documented (Or.inr h)
  · exact documented (Or.inr h)
  · exact documented (Or.inr h)

theorem CannVersion.isNew (v : CannVersion) (h : v.major.val = 8 ∧ v.minor.val = 5 ∨ 8 < v.major.val) :
    v.form.IsNew := by
  obtain ⟨major, minor, form, documented⟩ := v
  dsimp only at h documented
  have hbefore : ¬(major.val < 8 ∨ major.val = 8 ∧ minor.val < 5) := by
    omega
  rcases form with _ | _ | _ | _ | _ | _
  · trivial
  · exact hbefore documented
  · exact hbefore documented
  · trivial
  · trivial
  · trivial

theorem CannVersion.length_key (v : CannVersion) : v.key.length = 6 := by
  unfold CannVersion.key
  rw [List.length_cons, List.length_cons, v.form.length_key]

theorem DriverVersion.length_key (v : DriverVersion) : v.key.length = 6 := by
  unfold DriverVersion.key
  rw [List.length_cons, List.length_cons, v.form.length_key]

theorem atLeast_key (c v : CannVersion) :
    atLeast c.key v.key = true ↔ v.major.val < c.major.val ∨ c.major.val = v.major.val ∧
      (v.minor.val < c.minor.val ∨ c.minor.val = v.minor.val ∧ atLeast c.form.key v.form.key = true) := by
  unfold CannVersion.key
  simp [atLeast, place_lt, place_inj]

theorem major_ge_of_base {v : CannVersion} (h : atLeast v.key baseKey = true) : 8 ≤ v.major.val := by
  unfold CannVersion.key baseKey at h
  simp only [atLeast, place_lt, place_inj, Bool.or_eq_true, decide_eq_true_eq, Bool.and_eq_true] at h
  omega

theorem cannRight_iff {c v : CannVersion} (hc : c.Fits) (hv : v.Fits) (hbase : atLeast v.key baseKey = true) :
    CannRight c v ↔ CannAgrees c v := by
  have hmajor : 8 ≤ v.major.val := major_ge_of_base hbase
  unfold CannRight CannAgrees
  rw [isGteCANNVersion_text hc hv]
  by_cases hguard : v.major.val ≤ 8 ∧ v.text < baseVersion
  · rw [if_pos hguard]
    exact iff_of_false (by simp) fun h => h.1 (by omega) hguard.2
  · rw [if_neg hguard, and_iff_right fun heq hlt => hguard ⟨heq.le, hlt⟩]
    split_ifs with hold hnew
    · rw [versionToNum_text c hc (c.isOld ⟨hold.1, hold.2.1⟩), versionToNum_text v hv (v.isOld hold.2.2),
        Option.some.injEq]
      exact totalWeight_le_iff versionWeights c.length_key v.length_key
    · rw [versionV2ToNum_text c hc (c.isNew (by omega)), versionV2ToNum_text v hv (v.isNew (by omega)),
        Option.some.injEq]
      exact totalWeight_le_iff versionV2Weights c.length_key v.length_key
    · -- Only the majors and the minors are compared.
      rw [Option.some.injEq, Bool.eq_iff_iff, decide_eq_true_eq, atLeast_key]
      constructor
      · intro h hmajor' hminor'
        exact h.mp (Or.inr ⟨hmajor', hminor'.ge⟩)
      · intro h
        constructor
        · intro hle
          by_cases hmajor' : c.major.val = v.major.val
          · by_cases hminor' : c.minor.val = v.minor.val
            · exact h hmajor' hminor'
            · exact Or.inr ⟨hmajor', Or.inl (by omega)⟩
          · exact Or.inl (by omega)
        · rintro (hlt | ⟨heq, hlt | ⟨heq', -⟩⟩)
          · exact Or.inl hlt
          · exact Or.inr ⟨heq, hlt.le⟩
          · exact Or.inr ⟨heq, heq'.ge⟩

theorem driverRight_iff (cann : Text) {c v : DriverVersion} (hc : c.Fits) (hv : v.Fits) :
    DriverRight cann c v ↔ DriverAgrees cann c v := by
  unfold DriverRight DriverAgrees isGteDriverVersion
  split_ifs with hcann
  · exact eq_comm
  · rw [driverVersionToNum_text c hc, driverVersionToNum_text v hv, toDouble_eq hc.2.2.2, toDouble_eq hv.2.2.2]
    exact totalWeight_le_iff driverWeights c.length_key v.length_key

/-- When the comparisons are the order of the releases. -/
theorem versionOrder_iff (cann : Text) {c v : CannVersion} {driver required : DriverVersion} (hc : c.Fits) (hv : v.Fits)
    (hbase : atLeast v.key baseKey = true) (hdriver : driver.Fits) (hrequired : required.Fits) :
    (CannRight c v ↔ CannAgrees c v) ∧ (DriverRight cann driver required ↔ DriverAgrees cann driver required) :=
  ⟨cannRight_iff hc hv hbase, driverRight_iff cann hdriver hrequired⟩

/-- 8.1.RCn, or 8.1.RCn.alpham -/
def rc81 (number : Numeral) (alpha : Option Numeral) : CannVersion where
  major := ⟨['8'], by decide, List.all_eq_true.mp rfl⟩
  minor := ⟨['1'], by decide, List.all_eq_true.mp rfl⟩
  form := .rc number alpha
  documented := by
    show _ ∨ _
    exact Or.inr (by decide)

/-- 25.0 with a form. -/
def driver (form : DriverForm) : DriverVersion where
  major := ⟨['2', '5'], by decide, List.all_eq_true.mp rfl⟩
  minor := ⟨['0'], by decide, List.all_eq_true.mp rfl⟩
  form := form

/-- 8.1.RC2 against 8.1.RC1, and the driver 25.0.RC1 against 25.0.RC1.1 -/
theorem versionOrder_iff_rc :
    let one : Numeral := ⟨['1'], by decide, List.all_eq_true.mp rfl⟩
    let two : Numeral := ⟨['2'], by decide, List.all_eq_true.mp rfl⟩
    (CannRight (rc81 two none) (rc81 one none) ↔ CannAgrees (rc81 two none) (rc81 one none)) ∧
      (DriverRight baseVersion (driver (.rc one none)) (driver (.rc one (some one))) ↔
        DriverAgrees baseVersion (driver (.rc one none)) (driver (.rc one (some one)))) :=
  versionOrder_iff baseVersion (by unfold CannVersion.Fits Numeral.Fits IsInt64; decide)
    (by unfold CannVersion.Fits Numeral.Fits IsInt64; decide) (by decide)
    (by unfold DriverVersion.Fits Numeral.Fits; decide) (by unfold DriverVersion.Fits Numeral.Fits; decide)

/-- 8.1.RC2 is not taken for at least 8.1.RC2.alpha1. -/
theorem not_versionOrder :
    ¬∀ c v : CannVersion, atLeast v.key baseKey = true → CannRight c v := by
  intro h
  have hright := h (rc81 ⟨['2'], by decide, List.all_eq_true.mp rfl⟩ none)
    (rc81 ⟨['2'], by decide, List.all_eq_true.mp rfl⟩ (some ⟨['1'], by decide, List.all_eq_true.mp rfl⟩)) (by decide)
  unfold CannRight at hright
  exact absurd hright (by decide)

end TorchNpu.Core.GetCANNInfo
