import MaximalMunch.Definition.Builder
import MaximalMunch.Text.Lines
import MaximalMunch.Text.Utf8

/-!
# Reading definitions

A definition is given as text or as bytes. Bytes are decoded line by line, so a line that is not
UTF-8 is an error of that line, and the lines before it come first. The first error ends the
reading.
-/

namespace MaximalMunch

/-- A line, or why it could not be read. -/
abbrev SourceLine := Except ReadFault String

namespace SourceLine

/-- The line that some bytes encode. -/
def ofBytes (bytes : Text.Bytes) : SourceLine :=
  (Text.decode bytes).mapError fun _ => .notUtf8

/-- The lines of a text. -/
def listOfText (text : String) : List SourceLine :=
  (Text.linesOfText text).map .ok

/-- The lines of a file. -/
def listOfBytes (bytes : Text.Bytes) : List SourceLine :=
  (Text.lines 0x0A 0x0D bytes).map ofBytes

end SourceLine

namespace Builder

/-- Takes one line with its number. -/
def sourceLine (b : Builder) (number : Nat) : SourceLine → Except Definition.Error Builder
  | .ok text => b.line text number
  | .error cause => .error ⟨number, .unreadable cause⟩

/-- Takes lines up to the first error, the first of them with number `number`. The builder is the
one before the error. -/
def read (b : Builder) (number : Nat) : List SourceLine → Builder × Option Definition.Error
  | [] => (b, none)
  | l :: rest =>
    match b.sourceLine number l with
    | .ok b => read b (number + 1) rest
    | .error e => (b, some e)

end Builder

namespace Definition

/-- What comes of reading a definition: the definition or its first error, and beside it what has
happened on the way. -/
structure Outcome where
  result : Except Error Definition
  journal : Array Event

/-- Reads a definition from its lines. -/
def ofLines (lines : List SourceLine) : Outcome :=
  match Builder.empty.read 1 lines with
  | (b, none) =>
    let d := b.finish
    ⟨.ok d, d.journal⟩
  | (b, some e) => ⟨.error e, b.journal⟩

/-- Reads a definition from its text. -/
def ofText (text : String) : Outcome :=
  ofLines (SourceLine.listOfText text)

/-- Reads a definition from the bytes of a file. -/
def ofBytes (bytes : Text.Bytes) : Outcome :=
  ofLines (SourceLine.listOfBytes bytes)

end Definition

end MaximalMunch
