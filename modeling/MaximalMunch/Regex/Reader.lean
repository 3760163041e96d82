import MaximalMunch.Regex.Basic
import MaximalMunch.Regex.SyntaxError
import MaximalMunch.Text.Word

/-!
# Reading patterns

A pattern is read from left to right, one character at a time:

    alternation := concat ('|' concat)*
    concat      := repeat+
    repeat      := atom ('*' | '+' | '?')*
    atom        := char | '\' escape | '.' | '[' class ']' | '(' alternation ')' | '{' name '}'

`Reader` is what must be remembered of the characters read so far: the groups that are still open
with the parts they have collected, and the construct in which the next character falls
(`Reader.Place`). `Reader.step` reads one character and `Reader.finish` takes the end of the
pattern; `Regex.parse` is the fold of the first, followed by the second. So a fault is reported at
the earliest character that rules the text out, whatever comes after it.
-/

namespace MaximalMunch.Regex

/-- What a class item or an escape stands for. -/
inductive ClassItem where
  /-- One character, which may bound a range. -/
  | char (c : Char)
  /-- A shorthand for a set of characters. -/
  | shorthand (members : CharClass)

/-- The set that an item adds to its class. -/
def ClassItem.members : ClassItem → CharClass
  | .char c => .single c
  | .shorthand members => members

/-- The meaning of `c` after a backslash. -/
def escapeItem (c : Char) : ClassItem :=
  match c with
  | 'n' => .char '\n'
  | 't' => .char '\t'
  | 'r' => .char '\r'
  | '0' => .char '\x00'
  | 'd' => .shorthand .digit
  | 'D' => .shorthand CharClass.digit.negate
  | 'w' => .shorthand .word
  | 'W' => .shorthand CharClass.word.negate
  | 's' => .shorthand .space
  | 'S' => .shorthand CharClass.space.negate
  | c => .char c

/-- The tree node of an item outside a class. -/
def ClassItem.node : ClassItem → Regex
  | .char c => .literal c
  | .shorthand members => .oneOf members

/-! ## Classes -/

/-- Where in a class the next character falls. -/
inductive ClassPlace where
  /-- After the opening bracket. -/
  | opened
  /-- After the caret of a negated class, before any item. -/
  | first
  /-- Before a further item or the closing bracket. -/
  | item
  /-- After the backslash of an item that starts at `start`. -/
  | escape (start : Nat)
  /-- After an item that starts at `start` and is no range. -/
  | after (item : ClassItem) (start : Nat)
  /-- After such an item and a hyphen. -/
  | hyphen (item : ClassItem) (start : Nat)
  /-- After the backslash at `escapeStart` of the upper end of a range. -/
  | upperEscape (lo : Char) (start escapeStart : Nat)

/-- A class that is being read. -/
structure OpenClass where
  /-- The offset of its opening bracket. -/
  start : Nat
  /-- It began with a caret. -/
  negated : Bool
  /-- The union of the items read so far. -/
  members : CharClass
  place : ClassPlace

namespace OpenClass

/-- The class with further members, before its next item. -/
def add (k : OpenClass) (members : CharClass) (place : ClassPlace) : OpenClass :=
  { k with members := k.members.union members, place }

/-- The class with the range from `lo` to `hi`, which starts at `start`. -/
def addRange (k : OpenClass) (lo hi : Char) (start : Nat) : Except SyntaxError OpenClass :=
  if hi < lo then .error (.reversedRange lo hi start)
  else .ok (k.add (.range lo hi) .item)

/-- The set of a class at its closing bracket. -/
def close (k : OpenClass) : Except SyntaxError CharClass :=
  let members := if k.negated then k.members.negate else k.members
  if members.isEmpty then .error (.emptyClass k.start) else .ok members

/-- Reads the first character of an item, which stands at `offset`. -/
def startItem (k : OpenClass) (c : Char) (offset : Nat) : OpenClass :=
  if c = '\\' then { k with place := .escape offset }
  else k.add (.single c) (.after (.char c) offset)

/-- Reads one character of a class: the class goes on, or it ends with its set. -/
def step (k : OpenClass) (c : Char) (offset : Nat) : Except SyntaxError (OpenClass ⊕ CharClass) :=
  match k.place with
  | .opened =>
    if c = '^' then .ok (.inl { k with negated := true, place := .first })
    else if c = ']' then .error (.emptyClass k.start)
    else .ok (.inl (k.startItem c offset))
  | .first =>
    if c = ']' then .error (.emptyClass k.start)
    else .ok (.inl (k.startItem c offset))
  | .item =>
    if c = ']' then k.close.map .inr
    else .ok (.inl (k.startItem c offset))
  | .escape start =>
    let item := escapeItem c
    .ok (.inl (k.add item.members (.after item start)))
  | .after item start =>
    if c = '-' then .ok (.inl { k with place := .hyphen item start })
    else if c = ']' then k.close.map .inr
    else .ok (.inl (k.startItem c offset))
  | .hyphen item start =>
    if c = ']' then (k.add (.single '-') .item).close.map .inr
    else
      match item with
      | .shorthand _ => .error (.invalidRangeEndpoint start)
      | .char lo =>
        if c = '\\' then .ok (.inl { k with place := .upperEscape lo start offset })
        else (k.addRange lo c start).map .inl
  | .upperEscape lo start escapeStart =>
    match escapeItem c with
    | .shorthand _ => .error (.invalidRangeEndpoint escapeStart)
    | .char hi => (k.addRange lo hi start).map .inl

/-- What is wrong if the pattern ends inside the class. -/
def atEnd (k : OpenClass) : SyntaxError :=
  match k.place with
  | .escape _ => .trailingEscape
  | .upperEscape .. => .trailingEscape
  | _ => .unterminatedClass k.start

end OpenClass

/-! ## Groups -/

/-- The parts of an alternation that is being read, the latest first. -/
structure Level where
  /-- The alternatives that a bar has ended. -/
  branches : List Regex
  /-- The items of the current alternative. -/
  items : List Regex

namespace Level

/-- An alternation before its first character. -/
def start : Level := ⟨[], []⟩

/-- One item more. -/
def push (l : Level) (item : Regex) : Level :=
  { l with items := item :: l.items }

/-- The current alternative ends, and the next one begins. -/
def bar (l : Level) : Level :=
  ⟨sequence l.items.reverse :: l.branches, []⟩

/-- The tree of an alternation that ends here. -/
def close (l : Level) : Regex :=
  choice (sequence l.items.reverse :: l.branches).reverse

end Level

/-! ## The reader -/

/-- The construct in which the next character falls. -/
inductive Reader.Place where
  /-- Between atoms. -/
  | atom
  /-- After a backslash outside a class. -/
  | escape
  /-- In a reference opened at `start`, after the characters `name`, the latest first. -/
  | reference (start : Nat) (name : List Char)
  /-- In a class. -/
  | inClass (k : OpenClass)

/-- What is remembered of the characters read so far. -/
structure Reader where
  /-- The number of characters read. -/
  offset : Nat
  /-- The open groups, the innermost first: where each begins, and the alternation around it. -/
  outer : List (Nat × Level)
  /-- The innermost alternation. -/
  level : Level
  place : Reader.Place

namespace Reader

/-- The reader before the first character. -/
def start : Reader := ⟨0, [], .start, .atom⟩

/-- The reader after an atom that ends with the character at hand. -/
def push (s : Reader) (item : Regex) : Reader :=
  { s with offset := s.offset + 1, level := s.level.push item, place := .atom }

/-- The reader after a character that only moves it to another place. -/
def goto (s : Reader) (place : Place) : Reader :=
  { s with offset := s.offset + 1, place }

/-- Reads an opening parenthesis. -/
def openGroup (s : Reader) : Reader :=
  ⟨s.offset + 1, (s.offset, s.level) :: s.outer, .start, .atom⟩

/-- Reads a closing parenthesis. -/
def closeGroup (s : Reader) : Except SyntaxError Reader :=
  match s.outer, s.level.items with
  | (start, _) :: _, [] =>
    if s.level.branches.isEmpty then .error (.emptyGroup start)
    else .error (.emptyAlternative s.offset)
  | [], [] => .error (.emptyAlternative s.offset)
  | [], _ :: _ => .error (.unmatchedParen s.offset)
  | (_, around) :: outer, _ :: _ =>
    .ok ⟨s.offset + 1, outer, around.push (.group s.level.close), .atom⟩

/-- Reads a bar. -/
def nextBranch (s : Reader) : Except SyntaxError Reader :=
  if s.level.items.isEmpty then .error (.emptyAlternative s.offset)
  else .ok { s with offset := s.offset + 1, level := s.level.bar }

/-- Reads the repetition operator `operator`, which applies to the latest item. -/
def applyRepetition (s : Reader) (times : Repetition) (operator : Char) :
    Except SyntaxError Reader :=
  match s.level.items with
  | [] => .error (.nothingToRepeat operator s.offset)
  | item :: items =>
    .ok { s with offset := s.offset + 1, level.items := .repeated times item :: items }

/-- Reads a character between atoms. -/
def stepAtom (s : Reader) (c : Char) : Except SyntaxError Reader :=
  match c with
  | '|' => s.nextBranch
  | '(' => .ok s.openGroup
  | ')' => s.closeGroup
  | '*' => s.applyRepetition .zeroOrMore c
  | '+' => s.applyRepetition .oneOrMore c
  | '?' => s.applyRepetition .zeroOrOne c
  | '[' => .ok (s.goto (.inClass ⟨s.offset, false, .empty, .opened⟩))
  | '{' => .ok (s.goto (.reference s.offset []))
  | '.' => .ok (s.push (.oneOf .anyButNewline))
  | '\\' => .ok (s.goto .escape)
  | c => .ok (s.push (.literal c))

/-- Reads a character of a reference opened at `start`. -/
def stepReference (s : Reader) (start : Nat) (name : List Char) (c : Char) :
    Except SyntaxError Reader :=
  if c = '}' then
    let name := name.reverse
    if Text.isWord name then .ok (s.push (.reference (String.ofList name)))
    else .error (.invalidReference (String.ofList name) start)
  else .ok (s.goto (.reference start (c :: name)))

/-- Reads a character of a class. -/
def stepClass (s : Reader) (k : OpenClass) (c : Char) : Except SyntaxError Reader :=
  (k.step c s.offset).map fun
    | .inl k => s.goto (.inClass k)
    | .inr members => s.push (.oneOf members)

/-- Reads one character. -/
def step (s : Reader) (c : Char) : Except SyntaxError Reader :=
  match s.place with
  | .atom => s.stepAtom c
  | .escape => .ok (s.push (escapeItem c).node)
  | .reference start name => s.stepReference start name c
  | .inClass k => s.stepClass k c

/-- Takes the end of the pattern between atoms. -/
def finishAtom (s : Reader) : Except SyntaxError Regex :=
  if s.level.items.isEmpty then .error (.emptyAlternative s.offset)
  else
    match s.outer with
    | [] => .ok s.level.close
    | (start, _) :: _ => .error (.unclosedGroup start)

/-- Takes the end of the pattern. -/
def finish (s : Reader) : Except SyntaxError Regex :=
  match s.place with
  | .atom => s.finishAtom
  | .escape => .error .trailingEscape
  | .reference start _ => .error (.unterminatedReference start)
  | .inClass k => .error k.atEnd

/-- Reads characters from left to right, up to the first fault. -/
def run (s : Reader) (cs : List Char) : Except SyntaxError Reader :=
  cs.foldlM step s

end Reader

/-- The tree of the pattern `cs`. -/
def parseChars (cs : List Char) : Except SyntaxError Regex :=
  Reader.start.run cs >>= Reader.finish

/-- The tree of a pattern. -/
def parse (pattern : String) : Except SyntaxError Regex :=
  parseChars pattern.toList

end MaximalMunch.Regex
