import MaximalMunch.Text.Quoted

/-!
# Errors in patterns

What can be wrong with the text of a pattern. Offsets count characters from the start of the
pattern.
-/

namespace MaximalMunch

/-- Why a text is not a pattern. -/
inductive Regex.SyntaxError where
  /-- The `)` at `offset` closes no group. -/
  | unmatchedParen (offset : Nat)
  /-- The group opened at `offset` has no `)`. -/
  | unclosedGroup (offset : Nat)
  /-- The `(` at `offset` is followed by its `)`. -/
  | emptyGroup (offset : Nat)
  /-- An alternative ends at `offset` without an item. -/
  | emptyAlternative (offset : Nat)
  /-- The repetition `operator` at `offset` follows no item. -/
  | nothingToRepeat (operator : Char) (offset : Nat)
  /-- The class opened at `offset` has no `]`. -/
  | unterminatedClass (offset : Nat)
  /-- The class opened at `offset` has no member. -/
  | emptyClass (offset : Nat)
  /-- The range that starts at `offset` runs downwards. -/
  | reversedRange (lo hi : Char) (offset : Nat)
  /-- The shorthand at `offset` stands at an end of a range. -/
  | invalidRangeEndpoint (offset : Nat)
  /-- The reference opened at `offset` has no closing brace. -/
  | unterminatedReference (offset : Nat)
  /-- The reference opened at `offset` holds no word. -/
  | invalidReference (name : String) (offset : Nat)
  /-- The pattern ends in a backslash that escapes nothing. -/
  | trailingEscape
deriving DecidableEq, Repr

/-- The error in words. -/
def Regex.SyntaxError.message : Regex.SyntaxError → String
  | .unmatchedParen offset => s!"unmatched ')' at offset {offset}"
  | .unclosedGroup offset => s!"group opened at offset {offset} is never closed"
  | .emptyGroup offset => s!"empty group at offset {offset}"
  | .emptyAlternative offset => s!"empty alternative at offset {offset}"
  | .nothingToRepeat operator offset =>
    s!"'{operator}' at offset {offset} has nothing to repeat"
  | .unterminatedClass offset => s!"character class opened at offset {offset} is never closed"
  | .emptyClass offset => s!"empty character class at offset {offset}"
  | .reversedRange lo hi offset =>
    let low := Text.quoteChar lo
    let high := Text.quoteChar hi
    s!"reversed range {low}-{high} at offset {offset}"
  | .invalidRangeEndpoint offset => s!"shorthand class cannot bound a range at offset {offset}"
  | .unterminatedReference offset => s!"reference opened at offset {offset} is never closed"
  | .invalidReference name offset => s!"invalid reference name \"{name}\" at offset {offset}"
  | .trailingEscape => "pattern ends with a bare '\\'"

end MaximalMunch
