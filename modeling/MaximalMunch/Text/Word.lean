/-!
# Words

Names of tokens are words over ASCII letters, digits and the underscore.
-/

namespace MaximalMunch.Text

/-- An ASCII letter or digit, or the underscore. -/
def isWordChar (c : Char) : Bool :=
  c.isAlphanum || c = '_'

/-- At least one character, and word characters only. -/
def isWord (cs : List Char) : Bool :=
  !cs.isEmpty && cs.all isWordChar

variable {cs : List Char}

/-- A word has characters, and all of them may stand in words. -/
theorem isWord_iff : isWord cs = true ↔ cs ≠ [] ∧ ∀ c ∈ cs, isWordChar c = true := by
  simp [isWord]

/-- What may not stand in words stands in no word. -/
theorem notMem_of_isWord {c : Char} (h : isWord cs = true) (hc : isWordChar c = false) :
    c ∉ cs := by
  intro hmem
  rw [(isWord_iff.1 h).2 c hmem] at hc
  exact absurd hc (by decide)

end MaximalMunch.Text
