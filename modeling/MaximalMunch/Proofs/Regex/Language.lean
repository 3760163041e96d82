import Mathlib.Computability.Language
import MaximalMunch.Proofs.CharClass.Sets
import MaximalMunch.Regex.Basic

/-!
# Languages of patterns

A pattern denotes a language of words of code points, given the languages of the names it refers
to. A text belongs to a language if the word of its code points does.
-/

namespace MaximalMunch

open scoped Computability

/-- The code points of a text. -/
def codePoints (text : String) : List UInt32 :=
  text.toList.map Char.val

/-- The words that a repetition of the words of `L` makes. -/
def Repetition.language (times : Repetition) (L : Language UInt32) : Language UInt32 :=
  match times with
  | .zeroOrMore => L∗
  | .oneOrMore => L * L∗
  | .zeroOrOne => 1 + L

/-- The words of one code point of a class. -/
def CharClass.language (members : CharClass) : Language UInt32 :=
  {w | ∃ cp, members.contains cp = true ∧ w = [cp]}

namespace Regex

mutual

/-- The words that a pattern matches if `{name}` matches those of `env name`. -/
def language (env : String → Language UInt32) : Regex → Language UInt32
  | .literal c => {[c.val]}
  | .oneOf members => members.language
  | .concat items => (languages env items).prod
  | .alternate branches => (languages env branches).sum
  | .repeated times inner => times.language (language env inner)
  | .group inner => language env inner
  | .reference name => env name

/-- The languages of some patterns. -/
def languages (env : String → Language UInt32) : List Regex → List (Language UInt32)
  | [] => []
  | r :: rest => language env r :: languages env rest

end

end Regex

/-- A class of one character has one word. -/
theorem CharClass.language_single (c : Char) : (CharClass.single c).language = {[c.val]} := by
  apply Language.ext
  intro w
  constructor
  · rintro ⟨cp, h, rfl⟩
    rw [CharClass.contains_single.1 h]
    rfl
  · rintro rfl
    exact ⟨c.val, CharClass.contains_single.2 rfl, rfl⟩

end MaximalMunch
