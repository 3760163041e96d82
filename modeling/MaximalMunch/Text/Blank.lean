import MaximalMunch.CharClass.Basic

/-!
# White space

`isBlank` is the Unicode property White_Space, and `trim` takes such characters off both ends.
-/

namespace MaximalMunch.Text

/-- The code points with the Unicode property White_Space. -/
def blankSpans : List Span :=
  [⟨0x09, 0x0D⟩, ⟨0x20, 0x20⟩, ⟨0x85, 0x85⟩, ⟨0xA0, 0xA0⟩, ⟨0x1680, 0x1680⟩, ⟨0x2000, 0x200A⟩,
    ⟨0x2028, 0x2029⟩, ⟨0x202F, 0x202F⟩, ⟨0x205F, 0x205F⟩, ⟨0x3000, 0x3000⟩]

/-- The character is white space. -/
def isBlank (c : Char) : Bool :=
  blankSpans.any (·.contains c.val)

/-- The text from its first character that is not white space on. -/
def trimStart (cs : List Char) : List Char :=
  cs.dropWhile isBlank

/-- The text up to its last character that is not white space. -/
def trimEnd (cs : List Char) : List Char :=
  (cs.reverse.dropWhile isBlank).reverse

/-- The text between the white space at its ends. -/
def trim (cs : List Char) : List Char :=
  trimEnd (trimStart cs)

end MaximalMunch.Text
