/-!
# Positions

Where a character stands in a text: the bytes before it, and its line and column, both from 1.
Columns count characters.
-/

namespace MaximalMunch

/-- A place in a text. -/
structure Position where
  /-- The number of bytes before it. -/
  offset : Nat
  line : Nat
  column : Nat
deriving DecidableEq, Repr

namespace Position

/-- The beginning of a text. -/
def start : Position := ⟨0, 1, 1⟩

/-- The place after a character. -/
def advance (p : Position) (c : Char) : Position :=
  if c = '\n' then ⟨p.offset + c.utf8Size, p.line + 1, 1⟩
  else ⟨p.offset + c.utf8Size, p.line, p.column + 1⟩

/-- The place after some text. -/
def advanceOver (p : Position) (cs : List Char) : Position :=
  cs.foldl advance p

end Position

end MaximalMunch
