/-
  The option `roundup_power2_divisions` (`NPUAllocatorConfig.cpp`).

  The state is the table of the divisions; an exception leaves what has been written to it.  The tokens that are
  still to be read stand for the index into `config`.
-/
import TorchNpu.Allocator.State
import TorchNpu.Lib.Text
import TorchNpu.Lib.Wp

namespace TorchNpu.Allocator.AllocatorConfig

open Text

/-- `m_roundup_power2_divisions`; every exception is the same here. -/
abbrev M := EStateM Unit (List ℕ)

/-- `TORCH_CHECK` -/
def check (b : Prop) [Decidable b] : M Unit :=
  if b then pure () else throw ()

/-- `c10::llvm::isPowerOf2_64` -/
def isPowerOf2 (value : ℕ) : Bool :=
  decide (2 ^ Nat.log2 value = value)

/-- `stoull` of a token. -/
def number (token : Text) : M ℕ :=
  match stoull token with
  | some value => pure value
  | none => throw ()

/-- The number of divisions of an entry. -/
def divisions (token : Text) : M ℕ := do
  let value ← number token
  check (value = 0 ∨ isPowerOf2 value)
  pure value

/-- `std::fill` of the entries from `first` up to `last`. -/
def fill (first last value : ℕ) (table : List ℕ) : List ℕ :=
  table.mapIdx fun i old => if first ≤ i ∧ i < last then value else old

/-- The entry `token:value`; the result is the new `last_index`, and whether the next entry is the first one. -/
def parseInterval (firstValue : Bool) (lastIndex : ℕ) (token : Text) (value : ℕ) : M (Bool × ℕ) := do
  let table ← get
  if token = ['>'] then
    set (fill (lastIndex + 1) table.length value table)
    pure (firstValue, lastIndex)
  else
    let boundary ← number token
    check (isPowerOf2 boundary)
    let index := min (Nat.log2 boundary) (table.length - 1)
    if firstValue then
      modify (fill 0 index value)
    modify fun table => table.set index value
    pure (false, index)

/-- The entries after `[`. -/
def parseIntervals (firstValue : Bool) (lastIndex : ℕ) : List Text → M (List Text)
  | [] => throw ()
  | [']'] :: rest => pure rest
  | token :: [':'] :: text :: rest => do
    let value ← divisions text
    let (firstValue, lastIndex) ← parseInterval firstValue lastIndex token value
    match rest with
    | [','] :: rest => parseIntervals firstValue lastIndex rest
    | [']'] :: rest => pure rest
    | _ => throw ()
  | _ => throw ()

/-- `parseRoundUpPower2Divisions`, on the tokens after the name of the option. -/
def parseRoundUpPower2Divisions : List Text → M (List Text)
  | [':'] :: ['['] :: rest => parseIntervals true 0 rest
  | [':'] :: text :: rest => do
    let value ← divisions text
    modify fun table => fill 0 table.length value table
    pure rest
  | _ => throw ()

/-- The table after an option has been read, or has thrown. -/
def tableAfter (table : List ℕ) (tokens : List Text) : List ℕ :=
  match parseRoundUpPower2Divisions tokens table with
  | .ok _ table => table
  | .error _ table => table

/-- The table that the options of a setting build, from that of `parseArgs`. -/
def tableOf (options : List (List Text)) : List ℕ :=
  options.foldl tableAfter (List.replicate kRoundUpPowerOfTwoIntervals 0)

end TorchNpu.Allocator.AllocatorConfig
