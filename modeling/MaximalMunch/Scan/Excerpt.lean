import MaximalMunch.Text.Offsets

/-!
# Excerpts

A report of an error shows the text around it on one line: up to sixteen bytes on either side, and
as many more as whole characters need. Control characters appear as dots.
-/

namespace MaximalMunch

/-- A part of a text and the offset at which it begins. -/
structure Excerpt where
  start : Nat
  text : String
deriving DecidableEq, Repr

namespace Excerpt

/-- The number of bytes shown on either side. -/
def reach : Nat := 16

/-- A control character: one of the first 32 code points, or from delete up to the last control of
the second half of Latin-1. -/
def isControl (c : Char) : Bool :=
  c.toNat < 0x20 || (0x7F ≤ c.toNat && c.toNat ≤ 0x9F)

/-- A character on a line that shows no controls. -/
def visible (c : Char) : Char :=
  if isControl c then '·' else c

/-- The text around an offset. -/
def around (src : String) (offset : Nat) : Excerpt :=
  let cs := src.toList
  let lo := Text.floorBoundary (offset - reach) cs
  let hi := Text.ceilBoundary (offset + reach) cs
  let shown := Text.takeBytes (hi - lo) ((Text.dropBytes? lo cs).getD [])
  ⟨lo, String.ofList (shown.map visible)⟩

end Excerpt

end MaximalMunch
