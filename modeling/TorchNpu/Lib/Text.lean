/-
  Texts that are put together with separators, and numerals.

  A text is a list of characters.  `split` cuts a text at every occurrence of a separator, from the left;
  `replace`, `strip` and `rstrip` are the string methods of Python with these names.  `parseInt` reads a
  numeral as Python's `int` does, for the digits of ASCII.
-/
import Mathlib.Data.List.Infix
import Mathlib.Data.List.TakeWhile
import Mathlib.Tactic.IntervalCases

namespace TorchNpu

abbrev Text := List Char

namespace Text

/-! ### Separators -/

/-- The pieces between the occurrences of `sep`.  `skip` characters belong to the separator that has been
found, and `piece` has the characters since then, the last one first. -/
def splitAux (sep : Text) : ℕ → Text → Text → List Text
  | _, piece, [] => [piece.reverse]
  | 0, piece, c :: cs =>
    if sep.isPrefixOf (c :: cs) then piece.reverse :: splitAux sep (sep.length - 1) [] cs
    else splitAux sep 0 (c :: piece) cs
  | skip + 1, piece, _ :: cs => splitAux sep skip piece cs

/-- `text.split(sep)`, where `sep` is not empty. -/
def split (sep text : Text) : List Text :=
  splitAux sep 0 [] text

/-- `text.replace(c, new)`. -/
def replace (c : Char) (new text : Text) : Text :=
  text.flatMap fun d => if d = c then new else [d]

variable {sep text piece : Text} {pieces : List Text} {c : Char}

theorem splitAux_skip (sep piece : Text) {skipped : Text} :
    splitAux sep skipped.length piece (skipped ++ text) = splitAux sep 0 piece text := by
  induction skipped with
  | nil => rfl
  | cons c skipped ih => exact ih

theorem splitAux_sep : splitAux (c :: sep) 0 piece (c :: sep ++ text) =
    piece.reverse :: splitAux (c :: sep) 0 [] text := by
  rw [List.cons_append, splitAux, ← List.cons_append, if_pos]
  · rw [List.length_cons, Nat.add_sub_cancel, splitAux_skip]
  · rw [List.isPrefixOf_iff_prefix]
    exact List.prefix_append _ _

/-- A separator does not start in a text without its first character. -/
theorem splitAux_append (sep piece text : Text) {fresh : Text} (h : c ∉ fresh) :
    splitAux (c :: sep) 0 piece (fresh ++ text) =
      splitAux (c :: sep) 0 (fresh.reverse ++ piece) text := by
  induction fresh generalizing piece with
  | nil => rfl
  | cons d fresh ih =>
    rw [List.mem_cons, not_or] at h
    rw [List.cons_append, splitAux, if_neg, ih _ h.2, List.reverse_cons, List.append_assoc,
      List.singleton_append]
    simp [List.isPrefixOf, h.1]

/-- Pieces that are put together are found again. -/
theorem split_intercalate (sep : Text) (hne : pieces ≠ []) (h : ∀ piece ∈ pieces, c ∉ piece) :
    split (c :: sep) (List.intercalate (c :: sep) pieces) = pieces := by
  suffices haux : ∀ piece pieces, (∀ p ∈ piece :: pieces, c ∉ p) →
      splitAux (c :: sep) 0 [] (List.intercalate (c :: sep) (piece :: pieces)) = piece :: pieces by
    obtain ⟨piece, pieces, rfl⟩ := List.exists_cons_of_ne_nil hne
    exact haux piece pieces h
  intro piece pieces h
  induction pieces generalizing piece with
  | nil =>
    have hpiece := splitAux_append sep [] [] (h piece (by simp))
    rw [List.append_nil, List.append_nil] at hpiece
    simp [List.intercalate, hpiece, splitAux]
  | cons next pieces ih =>
    rw [List.forall_mem_cons] at h
    rw [List.intercalate_cons_cons, List.append_assoc, splitAux_append _ _ _ h.1, splitAux_sep, ih next h.2]
    simp

theorem replace_append (new left right : Text) :
    replace c new (left ++ right) = replace c new left ++ replace c new right :=
  List.flatMap_append

theorem replace_of_notMem {new : Text} (h : c ∉ text) : replace c new text = text := by
  induction text with
  | nil => rfl
  | cons d text ih =>
    rw [List.mem_cons, not_or] at h
    show (if d = c then new else [d]) ++ replace c new text = d :: text
    rw [if_neg (Ne.symm h.1), ih h.2, List.singleton_append]

/-- A separator is replaced by another one. -/
theorem replace_intercalate {new : Text} (h : ∀ piece ∈ pieces, c ∉ piece) :
    replace c new (List.intercalate [c] pieces) = List.intercalate new pieces := by
  induction pieces with
  | nil => rfl
  | cons piece pieces ih =>
    rw [List.forall_mem_cons] at h
    cases pieces with
    | nil =>
      rw [List.intercalate_singleton, List.intercalate_singleton]
      exact replace_of_notMem h.1
    | cons next pieces =>
      rw [List.intercalate_cons_cons, List.intercalate_cons_cons, replace_append, replace_append,
        replace_of_notMem h.1, ih h.2]
      simp [replace]

/-- What is left when the separator after the last piece is dropped. -/
theorem dropLast_flatMap (c : Char) (pieces : List Text) :
    (pieces.flatMap (· ++ [c])).dropLast = List.intercalate [c] pieces := by
  induction pieces with
  | nil => rfl
  | cons piece pieces ih =>
    cases pieces with
    | nil => simp
    | cons next pieces =>
      rw [List.flatMap_cons, List.dropLast_append_of_ne_nil, ih, List.intercalate_cons_cons]
      simp

theorem intercalate_ne_nil (h : piece ≠ []) : List.intercalate sep (piece :: pieces) ≠ [] := by
  cases pieces with
  | nil => rwa [List.intercalate_singleton]
  | cons next pieces =>
    rw [List.intercalate_cons_cons]
    simp [h]

theorem mem_intercalate {d : Char} (h : d ∈ List.intercalate sep pieces) :
    d ∈ sep ∨ ∃ piece ∈ pieces, d ∈ piece := by
  induction pieces with
  | nil => cases h
  | cons piece pieces ih =>
    cases pieces with
    | nil =>
      rw [List.intercalate_singleton] at h
      exact .inr ⟨piece, by simp, h⟩
    | cons next pieces =>
      rw [List.intercalate_cons_cons, List.mem_append, List.mem_append] at h
      rcases h with (h | h) | h
      · exact .inr ⟨piece, by simp, h⟩
      · exact .inl h
      · rcases ih h with h | ⟨p, hp, h⟩
        · exact .inl h
        · exact .inr ⟨p, List.mem_cons_of_mem _ hp, h⟩

/-! ### The ends of a text -/

/-- `str.isspace` of one character. -/
def isSpace (c : Char) : Bool :=
  let n := c.toNat
  (9 ≤ n && n ≤ 13) || (28 ≤ n && n ≤ 32) || n = 0x85 || n = 0xa0 || n = 0x1680 ||
    (0x2000 ≤ n && n ≤ 0x200a) || n = 0x2028 || n = 0x2029 || n = 0x202f || n = 0x205f || n = 0x3000

/-- `text.strip()`. -/
def strip (text : Text) : Text :=
  ((text.dropWhile isSpace).reverse.dropWhile isSpace).reverse

/-- `text.rstrip(c)`. -/
def rstrip (c : Char) (text : Text) : Text :=
  (text.reverse.dropWhile (· = c)).reverse

theorem dropWhile_of_head {p : Char → Bool} (h : ∀ d ∈ text.head?, p d = false) :
    text.dropWhile p = text := by
  cases text with
  | nil => rfl
  | cons d text =>
    rw [List.dropWhile_cons, if_neg]
    simpa using h d rfl

/-- The text neither begins nor ends with a space. -/
def Trimmed (text : Text) : Prop :=
  (∀ d ∈ text.head?, isSpace d = false) ∧ ∀ d ∈ text.getLast?, isSpace d = false

-- Not by the instance for `∀ d : Char`, which goes through all characters.
instance (text : Text) : Decidable (Trimmed text) :=
  decidable_of_iff (text.head?.all (!isSpace ·) = true ∧ text.getLast?.all (!isSpace ·) = true) (by
    simp only [Trimmed, Option.all_eq_true, Bool.not_eq_eq_eq_not, Bool.not_true, Option.mem_def])

theorem Trimmed.strip (h : Trimmed text) : strip text = text := by
  rw [Text.strip, dropWhile_of_head h.1, dropWhile_of_head, List.reverse_reverse]
  rw [List.head?_reverse]
  exact h.2

theorem trimmed_of_forall (h : ∀ d ∈ text, isSpace d = false) : Trimmed text := by
  constructor
  · intro d hd
    exact h d (List.mem_of_mem_head? hd)
  · intro d hd
    exact h d (List.mem_of_mem_getLast? hd)

theorem trimmed_of_all (h : text.all (!isSpace ·) = true) : Trimmed text :=
  trimmed_of_forall (by simpa using h)

theorem strip_of_forall (h : ∀ d ∈ text, isSpace d = false) : strip text = text :=
  (trimmed_of_forall h).strip

theorem mem_head?_append {d : Char} {left right : Text} (h : d ∈ (left ++ right).head?) :
    d ∈ left.head? ∨ d ∈ right.head? := by
  cases left with
  | nil => exact .inr h
  | cons c left => exact .inl h

theorem mem_getLast?_append {d : Char} {left right : Text} (h : d ∈ (left ++ right).getLast?) :
    d ∈ left.getLast? ∨ d ∈ right.getLast? := by
  rw [← List.head?_reverse, List.reverse_append] at h
  rw [← List.head?_reverse, ← List.head?_reverse]
  exact (mem_head?_append h).symm

theorem Trimmed.append {left right : Text} (hleft : Trimmed left) (hright : Trimmed right) :
    Trimmed (left ++ right) := by
  constructor
  · intro d hd
    rcases mem_head?_append hd with hd | hd
    · exact hleft.1 d hd
    · exact hright.1 d hd
  · intro d hd
    rcases mem_getLast?_append hd with hd | hd
    · exact hleft.2 d hd
    · exact hright.2 d hd

theorem Trimmed.intercalate (hsep : Trimmed sep) (h : ∀ piece ∈ pieces, Trimmed piece) :
    Trimmed (List.intercalate sep pieces) := by
  induction pieces with
  | nil => exact trimmed_of_forall (by simp)
  | cons piece pieces ih =>
    rw [List.forall_mem_cons] at h
    cases pieces with
    | nil =>
      rw [List.intercalate_singleton]
      exact h.1
    | cons next pieces =>
      rw [List.intercalate_cons_cons]
      exact (h.1.append hsep).append (ih h.2)

/-- Pieces that are not empty hide the ends of the separator. -/
theorem mem_getLast?_intercalate {d : Char} (hne : ∀ piece ∈ pieces, piece ≠ [])
    (h : d ∈ (List.intercalate sep pieces).getLast?) : ∃ piece ∈ pieces, d ∈ piece.getLast? := by
  induction pieces with
  | nil => cases h
  | cons piece pieces ih =>
    rw [List.forall_mem_cons] at hne
    cases pieces with
    | nil =>
      rw [List.intercalate_singleton] at h
      exact ⟨piece, by simp, h⟩
    | cons next pieces =>
      have hnext : List.intercalate sep (next :: pieces) ≠ [] :=
        intercalate_ne_nil (hne.2 next List.mem_cons_self)
      rw [List.intercalate_cons_cons, List.getLast?_append_of_ne_nil _ hnext] at h
      obtain ⟨p, hp, hd⟩ := ih hne.2 h
      exact ⟨p, List.mem_cons_of_mem _ hp, hd⟩

theorem trimmed_intercalate (sep : Text) (h : ∀ piece ∈ pieces, Trimmed piece ∧ piece ≠ []) :
    Trimmed (List.intercalate sep pieces) := by
  constructor
  · intro d hd
    cases pieces with
    | nil => cases hd
    | cons piece pieces =>
      have hpiece := h piece List.mem_cons_self
      apply hpiece.1.1 d
      cases pieces with
      | nil => rwa [List.intercalate_singleton] at hd
      | cons next pieces =>
        rwa [List.intercalate_cons_cons, List.append_assoc, List.head?_append_of_ne_nil _ hpiece.2] at hd
  · intro d hd
    obtain ⟨piece, hpiece, hd⟩ := mem_getLast?_intercalate (fun piece hpiece => (h piece hpiece).2) hd
    exact (h piece hpiece).1.2 d hd

theorem rstrip_append (h : ∀ d ∈ text.getLast?, d ≠ c) : rstrip c (text ++ [c]) = text := by
  rw [rstrip, List.reverse_append, List.reverse_singleton, List.singleton_append,
    List.dropWhile_cons, if_pos (by simp), dropWhile_of_head, List.reverse_reverse]
  simpa using h

/-! ### Numerals -/

/-- The value of a digit. -/
def digitValue (base : ℕ) (c : Char) : Option ℕ :=
  let value :=
    if '0' ≤ c ∧ c ≤ '9' then some (c.toNat - '0'.toNat)
    else if 'a' ≤ c ∧ c ≤ 'z' then some (c.toNat - 'a'.toNat + 10)
    else if 'A' ≤ c ∧ c ≤ 'Z' then some (c.toNat - 'A'.toNat + 10)
    else none
  value.filter (· < base)

/-- The value of digits, the most significant one first. -/
def digitsValue (base : ℕ) (digits : Text) : Option ℕ :=
  digits.foldl (fun value c => value.bind fun v => (digitValue base c).map (v * base + ·)) (some 0)

/-- Digits with single underscores between them. -/
def parseDigits (base : ℕ) (text : Text) : Option ℕ :=
  let groups := split ['_'] text
  if [] ∈ groups then none else digitsValue base groups.flatten

/-- A numeral without a sign; in base 16 it may have the prefix `0x`. -/
def parseNat (base : ℕ) : Text → Option ℕ
  | '0' :: x :: digits =>
    if base = 16 ∧ (x = 'x' ∨ x = 'X') then
      match digits with
      | '_' :: digits => parseDigits base digits
      | digits => parseDigits base digits
    else parseDigits base ('0' :: x :: digits)
  | digits => parseDigits base digits

/-- `int(text, base)`, where `none` is a `ValueError`. -/
def parseInt (base : ℕ) (text : Text) : Option ℤ :=
  match strip text with
  | '-' :: digits => (parseNat base digits).map fun v : ℕ => -(v : ℤ)
  | '+' :: digits => (parseNat base digits).map fun v : ℕ => (v : ℤ)
  | digits => (parseNat base digits).map fun v : ℕ => (v : ℤ)

/-- The decimal numeral of a natural number. -/
def ofNat (v : ℕ) : Text :=
  Nat.toDigits 10 v

/-- The decimal numeral of an integer. -/
def ofInt (v : ℤ) : Text :=
  if v < 0 then '-' :: ofNat v.natAbs else ofNat v.natAbs

variable {base v : ℕ}

/-- A character that can be a digit. -/
theorem digitValue_digitChar (hv : v < base) (hbase : base ≤ 16) :
    digitValue base v.digitChar = some v := by
  have h16 : v < 16 := by omega
  rw [digitValue]
  interval_cases v <;> simp [Nat.digitChar, hv, Option.filter]

theorem isAlphanum_digitChar (hv : v < 16) : v.digitChar.isAlphanum = true := by
  interval_cases v <;> decide

theorem isAlphanum_of_mem_toDigits (hbase : 1 < base) (hbase' : base ≤ 16) (h : c ∈ Nat.toDigits base v) :
    c.isAlphanum = true := by
  induction v using Nat.strong_induction_on with
  | _ v ih =>
    rw [Nat.toDigits_eq_if hbase] at h
    split_ifs at h with hlt
    · rw [List.mem_singleton] at h
      rw [h]
      exact isAlphanum_digitChar (by omega)
    · rw [List.mem_append, List.mem_singleton] at h
      rcases h with h | h
      · exact ih (v / base) (Nat.div_lt_self (by omega) hbase) h
      · have hmod : v % base < base := Nat.mod_lt _ (by omega)
        rw [h]
        exact isAlphanum_digitChar (by omega)

/-- What is no letter and no digit is not in a numeral. -/
theorem notMem_toDigits (hbase : 1 < base) (hbase' : base ≤ 16) (hc : c.isAlphanum = false) :
    c ∉ Nat.toDigits base v := by
  intro h
  rw [isAlphanum_of_mem_toDigits hbase hbase' h] at hc
  cases hc

theorem digitsValue_toDigits (hbase : 1 < base) (hbase' : base ≤ 16) (v : ℕ) :
    digitsValue base (Nat.toDigits base v) = some v := by
  induction v using Nat.strong_induction_on with
  | _ v ih =>
    rw [Nat.toDigits_eq_if hbase]
    split_ifs with hlt
    · simp [digitsValue, digitValue_digitChar hlt hbase']
    · have hmod : v % base < base := Nat.mod_lt _ (by omega)
      have hdiv := ih (v / base) (Nat.div_lt_self (by omega) hbase)
      rw [digitsValue] at hdiv ⊢
      rw [List.foldl_append, hdiv]
      simp only [List.foldl_cons, List.foldl_nil, Option.bind_some, digitValue_digitChar hmod hbase',
        Option.map_some]
      rw [Nat.mul_comm, Nat.div_add_mod]

theorem parseDigits_toDigits (hbase : 1 < base) (hbase' : base ≤ 16) (v : ℕ) :
    parseDigits base (Nat.toDigits base v) = some v := by
  have hsplit : split ['_'] (Nat.toDigits base v) = [Nat.toDigits base v] := by
    have h := split_intercalate (c := '_') [] (List.cons_ne_nil (Nat.toDigits base v) [])
      (by simpa using notMem_toDigits hbase hbase' (by decide))
    rwa [List.intercalate_singleton] at h
  rw [parseDigits, hsplit]
  simp [digitsValue_toDigits hbase hbase' v, Nat.toDigits_ne_nil.symm]

/-- The numeral of an address, in base 16 with its prefix; the one of 0 has none. -/
def ofPointer (v : ℕ) : Text :=
  if v = 0 then ['0'] else '0' :: 'x' :: Nat.toDigits 16 v

theorem isSpace_of_isAlphanum (h : c.isAlphanum = true) : isSpace c = false := by
  delta Char.isAlphanum Char.isAlpha Char.isUpper Char.isLower at h
  simp only [Char.isDigit, Bool.or_eq_true, Bool.and_eq_true, decide_eq_true_eq, UInt32.le_iff_toNat_le] at h
  have hval : c.toNat = c.val.toNat := rfl
  simp only [isSpace, hval, Bool.or_eq_false_iff, Bool.and_eq_false_iff, decide_eq_false_iff_not]
  simp at h
  omega

theorem parseNat_of_ne (h : base ≠ 16) (text : Text) : parseNat base text = parseDigits base text := by
  unfold parseNat
  split
  · rw [if_neg fun hx => h hx.1]
  · rfl

/-- A numeral without a sign begins with a digit. -/
theorem parseInt_of_isAlphanum (hne : text ≠ []) (h : ∀ d ∈ text, d.isAlphanum = true) :
    parseInt base text = (parseNat base text).map fun v : ℕ => (v : ℤ) := by
  have hstrip : strip text = text := strip_of_forall fun d hd => isSpace_of_isAlphanum (h d hd)
  obtain ⟨d, rest, rfl⟩ := List.exists_cons_of_ne_nil hne
  have hd := h d List.mem_cons_self
  rw [parseInt, hstrip]
  split
  · rename_i heq
    rw [(List.cons.inj heq).1] at hd
    cases hd
  · rename_i heq
    rw [(List.cons.inj heq).1] at hd
    cases hd
  · rfl

theorem isAlphanum_of_mem_ofNat (h : c ∈ ofNat v) : c.isAlphanum = true :=
  isAlphanum_of_mem_toDigits (by decide) (by decide) h

theorem parseInt_ofNat (v : ℕ) : parseInt 10 (ofNat v) = some (v : ℤ) := by
  have hne : ofNat v ≠ [] := Nat.toDigits_ne_nil
  rw [parseInt_of_isAlphanum hne fun d => isAlphanum_of_mem_ofNat, parseNat_of_ne (by decide), ofNat,
    parseDigits_toDigits (by decide) (by decide), Option.map_some]

theorem mem_ofInt {z : ℤ} (h : c ∈ ofInt z) : c = '-' ∨ c.isAlphanum = true := by
  rw [ofInt] at h
  split_ifs at h
  · rcases List.mem_cons.mp h with h | h
    · exact .inl h
    · exact .inr (isAlphanum_of_mem_ofNat h)
  · exact .inr (isAlphanum_of_mem_ofNat h)

theorem ofInt_ne_nil (z : ℤ) : ofInt z ≠ [] := by
  rw [ofInt]
  split_ifs
  · exact List.cons_ne_nil _ _
  · exact Nat.toDigits_ne_nil

theorem parseInt_ofInt (z : ℤ) : parseInt 10 (ofInt z) = some z := by
  by_cases hz : z < 0
  · have hstrip : strip (ofInt z) = '-' :: ofNat z.natAbs := by
      rw [strip_of_forall, ofInt, if_pos hz]
      intro d hd
      rcases mem_ofInt hd with rfl | hd
      · decide
      · exact isSpace_of_isAlphanum hd
    rw [parseInt, hstrip]
    simp only [parseNat_of_ne (show 10 ≠ 16 by decide), ofNat, Option.map_some,
      parseDigits_toDigits (show 1 < 10 by decide) (show 10 ≤ 16 by decide)]
    congr 1
    omega
  · rw [ofInt, if_neg hz, parseInt_ofNat]
    congr 1
    omega

theorem isAlphanum_of_mem_ofPointer (h : c ∈ ofPointer v) : c.isAlphanum = true := by
  rw [ofPointer] at h
  split_ifs at h
  · rw [List.mem_singleton.mp h]
    decide
  · rw [List.mem_cons, List.mem_cons] at h
    rcases h with rfl | rfl | h
    · decide
    · decide
    · exact isAlphanum_of_mem_toDigits (by decide) (by decide) h

theorem ofPointer_ne_nil : ofPointer v ≠ [] := by
  rw [ofPointer]
  split_ifs <;> simp

theorem parseInt_ofPointer (v : ℕ) : parseInt 16 (ofPointer v) = some (v : ℤ) := by
  rw [parseInt_of_isAlphanum ofPointer_ne_nil fun d => isAlphanum_of_mem_ofPointer]
  by_cases hv : v = 0
  · subst hv
    decide
  · have hparse : parseDigits 16 (Nat.toDigits 16 v) = some v :=
      parseDigits_toDigits (by decide) (by decide) v
    rw [ofPointer, if_neg hv, parseNat, if_pos ⟨rfl, .inl rfl⟩, hparse, Option.map_some]
    -- A numeral does not begin with an underscore.
    intro digits heq
    have hmem : '_' ∈ Nat.toDigits 16 v := by simp [heq]
    exact absurd hmem (notMem_toDigits (by decide) (by decide) (by decide))

/-! ### The numerals of C++ -/

/-- The number at the front of a text, as `strtol` reads it in base 10: blanks, a sign, and digits up to the first
    other character. -/
def strtol (text : Text) : Option ℤ :=
  match text.dropWhile fun c => c = ' ' ∨ '\t' ≤ c ∧ c ≤ '\r' with
  | '-' :: text => (digits text).map fun v : ℕ => -(v : ℤ)
  | '+' :: text => (digits text).map fun v : ℕ => (v : ℤ)
  | text => (digits text).map fun v : ℕ => (v : ℤ)
where
  digits (text : Text) : Option ℕ :=
    let digits := text.takeWhile Char.isDigit
    if digits = [] then none else some (Nat.ofDigitChars 10 digits 0)

/-- `std::stoi`; `none` when it throws. -/
def stoi (text : Text) : Option ℤ :=
  (strtol text).filter fun v => -2 ^ 31 ≤ v ∧ v < 2 ^ 31

/-- `std::stoll` -/
def stoll (text : Text) : Option ℤ :=
  (strtol text).filter fun v => -2 ^ 63 ≤ v ∧ v < 2 ^ 63

/-- `std::stoull`; a minus sign negates the value modulo `2 ^ 64`. -/
def stoull (text : Text) : Option ℕ :=
  ((strtol text).filter fun v => v.natAbs < 2 ^ 64).map fun v => (v % 2 ^ 64).toNat

theorem isDigit_of_mem_ofNat {c : Char} {v : ℕ} (h : c ∈ ofNat v) : c.isDigit = true :=
  Nat.isDigit_of_mem_toDigits (show 0 < 10 by decide) (by decide) h

/-- `strtol` reads digits to the end. -/
theorem strtol_of_digits (hne : text ≠ []) (h : ∀ c ∈ text, c.isDigit = true) :
    strtol text = some (Nat.ofDigitChars 10 text 0 : ℤ) := by
  have hhead {c : Char} (hc : c ∈ text.head?) : 48 ≤ c.toNat :=
    (Char.isDigit_iff_toNat.mp (h c (List.mem_of_mem_head? hc))).1
  unfold strtol
  rw [dropWhile_of_head]
  · split
    · exact absurd (hhead rfl) (by decide)
    · exact absurd (hhead rfl) (by decide)
    · unfold strtol.digits
      dsimp only
      rw [List.takeWhile_eq_self_iff.mpr h, if_neg hne]
      rfl
  · intro c hc
    have h1 := hhead hc
    rw [decide_eq_false_iff_not]
    rintro (rfl | ⟨-, h2⟩)
    · exact absurd h1 (by decide)
    · have h3 : c.toNat ≤ 13 := h2
      omega

/-- `strtol` reads what `std::to_string` has written. -/
theorem strtol_ofInt (z : ℤ) : strtol (ofInt z) = some z := by
  have hvalue : Nat.ofDigitChars 10 (ofNat z.natAbs) 0 = z.natAbs := by
    unfold ofNat
    rw [Nat.ofDigitChars_ten_toDigits]
  have hne : ofNat z.natAbs ≠ [] := Nat.toDigits_ne_nil
  unfold ofInt
  split_ifs with hneg
  · have hdigits : (ofNat z.natAbs).takeWhile Char.isDigit = ofNat z.natAbs :=
      List.takeWhile_eq_self_iff.mpr fun c hc => isDigit_of_mem_ofNat hc
    unfold strtol
    rw [List.dropWhile_cons_of_neg (by decide)]
    show (strtol.digits (ofNat z.natAbs)).map _ = _
    unfold strtol.digits
    dsimp only
    rw [hdigits, if_neg hne, hvalue, Option.map_some]
    congr 1
    omega
  · rw [strtol_of_digits hne fun c hc => isDigit_of_mem_ofNat hc, hvalue]
    congr 1
    omega

/-- `std::stoll` reads back any number of 64 bits. -/
theorem stoll_ofInt {z : ℤ} (h : -2 ^ 63 ≤ z ∧ z < 2 ^ 63) : stoll (ofInt z) = some z := by
  rw [stoll, strtol_ofInt, Option.filter_some, if_pos (decide_eq_true h)]

end Text

end TorchNpu
