/-
  The comparison of versions (`GetCANNInfo.cpp`).

  The text of the installed version is what `GetCANNVersion` returns.  `none` is an exception.  The module is not
  `DRIVER`, for which `IsGteCANNVersion` always throws.  The numbers have 64 bits, and two of them are compared as
  `double`s.
-/
import TorchNpu.Lib.Text

namespace TorchNpu.Core.GetCANNInfo

open Text

/-- `SplitVersionStr` -/
def splitVersionStr : Text → List Text
  | [] => [[]]
  | c :: str =>
    if c = '.' ∨ c = '-' then [] :: splitVersionStr str
    else
      match splitVersionStr str with
      | [] => [[c]]
      | token :: tokens => (c :: token) :: tokens

/-- `isDigits` -/
def isDigits (s : Text) : Bool :=
  decide (s ≠ []) && s.all Char.isDigit

/-- `ExtractNumFromStr` -/
def extractNumFromStr (str : Text) : ℤ :=
  if isDigits str then (stoll str).getD (-1) else -1

/-- `StartsWith` -/
def startsWith (str pre : Text) : Bool :=
  decide ((str.take pre.length).map Char.toLower = pre.map Char.toLower)

/-- The number after a word, if there is one. -/
def numAfter (word str : Text) : Option ℤ :=
  if startsWith str word && decide (word.length < str.length) then
    if extractNumFromStr (str.drop word.length) ≠ -1 then some (extractNumFromStr (str.drop word.length)) else none
  else none

/-- The number that a token is, if it is one. -/
def numOf (str : Text) : Option ℤ :=
  if extractNumFromStr str ≠ -1 then some (extractNumFromStr str) else none

/-- A number of 64 bits. -/
def toInt64 (v : ℤ) : ℤ :=
  (v + 2 ^ 63) % 2 ^ 64 - 2 ^ 63

def alphaWord : Text := ['a', 'l', 'p', 'h', 'a']

def betaWord : Text := ['b', 'e', 't', 'a']

def rcWord : Text := ['r', 'c']

/-! ### The encodings -/

/-- The variables of `VersionToNum` and `DriverVersionToNum`. -/
structure Fields where
  release : ℤ := -1
  rcVersion : ℤ := -51
  tVersion : ℤ := -1
  alphaVersion : ℤ := 0
  patch : ℤ := 0
  bVersion : ℤ := 1
  weight : ℤ := 0
  prerelease : ℤ := 0

/-- `RCn`, `Tn` or `n` -/
def parseRelease (token : Text) : Option Fields :=
  (numAfter ['R', 'C'] token).map (fun n => { rcVersion := n }) <|>
    (numAfter ['T'] token).map (fun n => { tVersion := n }) <|> (numOf token).map fun n => { release := n }

/-- The last tokens in `VersionToNum`. -/
def parseVersion : List Text → Option Fields
  | [token₂] => parseRelease token₂
  | [token₂, token₃] =>
    (do
      let n ← numAfter ['R', 'C'] token₂
      let alpha ← numAfter alphaWord token₃
      some { rcVersion := n, alphaVersion := alpha }) <|>
    do
      let n ← numOf token₂
      let alpha ← numAfter alphaWord token₃
      some { release := n, weight := 300, prerelease := alpha }
  | _ => none

/-- `VersionToNum` -/
def versionToNum (versionStr : Text) : ℤ :=
  match splitVersionStr versionStr with
  | token₀ :: token₁ :: tokens =>
    let major := extractNumFromStr token₀
    let minor := extractNumFromStr token₁
    if major = -1 ∨ minor = -1 then 0
    else
      match parseVersion tokens with
      | none => 0
      | some f =>
        toInt64 ((major + 1) * 100000000 + (minor + 1) * 1000000 + (f.release + 1) * 10000 +
          ((f.rcVersion + 1) * 100 + 5000) + (f.tVersion + 1) * 100 - (100 - f.alphaVersion) - f.weight + f.prerelease)
  | _ => 0

/-- The weight of a word that is a whole token. -/
def weightOf (token : Text) : Option ℤ :=
  if token = alphaWord then some 300 else if token = betaWord then some 200 else if token = rcWord then some 100
  else none

/-- `weight` and `prerelease` of a token that is a word, or a word with a number. -/
def parsePrerelease (token : Text) : Option (ℤ × ℤ) :=
  match weightOf token with
  | some weight => some (weight, 0)
  | none =>
    if startsWith token alphaWord && decide (alphaWord.length < token.length) then
      (numAfter alphaWord token).map fun n => (300, n)
    else if startsWith token betaWord && decide (betaWord.length < token.length) then
      (numAfter betaWord token).map fun n => (200, n)
    else (numAfter rcWord token).map fun n => (100, n)

/-- The tokens after the patch in `VersionV2ToNum`. -/
def parseVersionV2 : List Text → Option (ℤ × ℤ)
  | [] => some (0, 0)
  | [token₃] => parsePrerelease token₃
  | [token₃, token₄] => do
    let n ← numOf token₄
    let weight ← weightOf token₃
    some (weight, n)
  | _ => none

/-- `VersionV2ToNum` -/
def versionV2ToNum (versionStr : Text) : ℤ :=
  match splitVersionStr versionStr with
  | token₀ :: token₁ :: token₂ :: tokens =>
    let major := extractNumFromStr token₀
    let minor := extractNumFromStr token₁
    let patch := extractNumFromStr token₂
    if major = -1 ∨ minor = -1 ∨ patch = -1 then 0
    else
      match parseVersionV2 tokens with
      | none => 0
      | some (weight, prerelease) =>
        toInt64 (major * 10000000 + minor * 100000 + patch * 1000 - weight + prerelease)
  | _ => 0

/-- The last tokens in `DriverVersionToNum`. -/
def parseDriverVersion : List Text → Option Fields
  | [token₂] => parseRelease token₂
  | [token₂, token₃] =>
    (do
      let n ← numOf token₂
      let patch ← numOf token₃
      some { release := n, patch := patch }) <|>
    (do
      let n ← numAfter ['R', 'C'] token₂
      let patch ← numOf token₃
      some { rcVersion := n, patch := patch }) <|>
    (do
      let n ← numAfter ['R', 'C'] token₂
      let alpha ← numAfter alphaWord token₃
      some { rcVersion := n, alphaVersion := alpha }) <|>
    do
      let n ← numAfter ['R', 'C'] token₂
      let beta ← numAfter betaWord token₃
      some { rcVersion := n, bVersion := beta }
  | _ => none

/-- `DriverVersionToNum` -/
def driverVersionToNum (versionStr : Text) : ℤ :=
  match splitVersionStr versionStr with
  | token₀ :: token₁ :: tokens =>
    let major := extractNumFromStr token₀
    let minor := extractNumFromStr token₁
    if major = -1 ∨ minor = -1 then 0
    else
      match parseDriverVersion tokens with
      | none => 0
      | some f =>
        toInt64 ((major + 1) * 100000000 + (minor + 1) * 1000000 + (f.release + 1) * 10000 +
          ((f.rcVersion + 1) * 100 + 5000) + (f.tVersion + 1) * 100 -
          (if f.alphaVersion ≠ 0 then 1 else 0) * (100 - f.alphaVersion) + (f.bVersion - 1) + f.patch)
  | _ => 0

/-! ### The comparisons -/

def baseVersion : Text :=
  ['8', '.', '1', '.', 'R', 'C', '1']

/-- `IsGteCANNVersion` -/
def isGteCANNVersion (currentVersion version : Text) : Option Bool :=
  match splitVersionStr version with
  | token₀ :: token₁ :: tokens =>
    if isDigits token₀ then
      if extractNumFromStr token₀ ≤ 8 ∧ version < baseVersion then none
      else
        match splitVersionStr currentVersion with
        | current₀ :: current₁ :: _ :: _ =>
          if tokens ≠ [] ∧ isDigits current₀ ∧ isDigits current₁ ∧ isDigits token₁ then
            let major₁ := extractNumFromStr current₀
            let minor₁ := extractNumFromStr current₁
            let major₂ := extractNumFromStr token₀
            let minor₂ := extractNumFromStr token₁
            if major₁ = 8 ∧ minor₁ < 5 ∧ major₂ = 8 ∧ minor₂ < 5 then
              some (decide (versionToNum version ≤ versionToNum currentVersion))
            else if major₁ = 8 ∧ minor₁ = 5 ∧ major₂ = 8 ∧ minor₂ = 5 ∨ 8 < major₁ ∧ 8 < major₂ then
              some (decide (versionV2ToNum version ≤ versionV2ToNum currentVersion))
            else if major₁ < major₂ then some false
            else if major₂ < major₁ then some true
            else some (decide (minor₂ ≤ minor₁))
          else some false
        | _ => some false
    else some false
  | _ => some false

/-- A number as a `double`: 53 bits, rounded to the nearest one, and to the even one of two. -/
def toDouble (v : ℤ) : ℤ :=
  let unit := 2 ^ (v.natAbs.log2 - 52)
  let quotient := v.natAbs / unit
  let rest := v.natAbs % unit
  v.sign * ((if unit < 2 * rest ∨ unit = 2 * rest ∧ quotient % 2 = 1 then quotient + 1 else quotient) * unit : ℕ)

/-- `IsGteDriverVersion` -/
def isGteDriverVersion (currentCANNVersion currentDriverVersion driverVersion : Text) : Bool :=
  if versionToNum currentCANNVersion < versionToNum baseVersion then false
  else decide (toDouble (driverVersionToNum driverVersion) ≤ toDouble (driverVersionToNum currentDriverVersion))

end TorchNpu.Core.GetCANNInfo
