import MaximalMunch.CharClass.Basic
import MaximalMunch.Text.Hexadecimal

/-!
# Labels of character classes

A class of one code point is written as that point. Any other class is written in brackets, span
after span, the two ends of a longer span joined by a hyphen.
-/

namespace MaximalMunch

/-- Code points written as themselves: the blank, and the visible ASCII characters but the four that
could be taken for structure. -/
def isPlainInLabel (cp : UInt32) : Bool :=
  0x20 ≤ cp && cp ≤ 0x7E && !(['\\', ']', '-', '^'].any (·.val == cp))

/-- A code point in a label: itself, or its number in hexadecimal. -/
def labelOfCodePoint (cp : UInt32) : List Char :=
  if isPlainInLabel cp then [Char.ofNat cp.toNat]
  else '\\' :: 'u' :: '{' :: (Text.hexUpper cp.toNat ++ ['}'])

/-- A span in a label: one code point, or two ends joined by a hyphen. -/
def Span.labelChars (s : Span) : List Char :=
  if s.lo = s.hi then labelOfCodePoint s.lo
  else labelOfCodePoint s.lo ++ '-' :: labelOfCodePoint s.hi

namespace CharClass

/-- The characters of the label of a class. -/
def labelChars (a : CharClass) : List Char :=
  match a.spans with
  | [s] => if s.lo = s.hi then labelOfCodePoint s.lo else '[' :: (s.labelChars ++ [']'])
  | spans => '[' :: (spans.flatMap Span.labelChars ++ [']'])

/-- The label of a class, as it stands on an edge of a listing. -/
def label (a : CharClass) : String :=
  String.ofList a.labelChars

end CharClass

end MaximalMunch
