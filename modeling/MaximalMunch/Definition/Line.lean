import MaximalMunch.Definition.Error
import MaximalMunch.Text.Blank

/-!
# Definition lines

A line declares one pattern for a name:

    # comment
    :digit  : [0-9]
    number  : {digit}+

A colon before the name makes the token internal. The first colon after the name ends it; further
colons belong to the pattern. White space around the parts is dropped, and a line is ignored if
nothing is left of it or if it starts with `#`.
-/

namespace MaximalMunch

/-- The parts of a definition line. -/
structure Declaration where
  name : String
  pattern : String
  internal : Bool
deriving DecidableEq, Repr

namespace Declaration

/-- The text before the first colon and the text after it, if there is a colon. -/
def splitAtColon : List Char → Option (List Char × List Char)
  | [] => none
  | c :: cs =>
    if c = ':' then some ([], cs)
    else (splitAtColon cs).map fun (before, after) => (c :: before, after)

/-- The declaration in `text`, which follows the mark of an internal token if there is one. -/
def ofParts (internal : Bool) (text : List Char) : Except Definition.Fault Declaration :=
  match splitAtColon text with
  | none => .error .missingSeparator
  | some (before, after) =>
    let name := Text.trim before
    let pattern := Text.trim after
    if name.isEmpty then .error .emptyName
    else if !Text.isWord name then .error (.invalidName (String.ofList name))
    else if pattern.isEmpty then .error (.emptyPattern (String.ofList name))
    else .ok ⟨String.ofList name, String.ofList pattern, internal⟩

/-- The declaration in a line, nothing if the line is blank or a comment. -/
def ofChars? (line : List Char) : Except Definition.Fault (Option Declaration) :=
  match Text.trim line with
  | [] => .ok none
  | '#' :: _ => .ok none
  | ':' :: text => (ofParts true text).map some
  | text => (ofParts false text).map some

/-- The declaration in the line with number `number`. -/
def ofLine? (line : String) (number : Nat) : Except Definition.Error (Option Declaration) :=
  (ofChars? line.toList).mapError (⟨number, ·⟩)

end Declaration

end MaximalMunch
