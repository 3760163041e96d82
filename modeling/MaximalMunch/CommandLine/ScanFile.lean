import MaximalMunch.CommandLine.Host
import MaximalMunch.CommandLine.Session
import MaximalMunch.Definition.Reading
import MaximalMunch.Dfa.Scanning
import MaximalMunch.Scan.Excerpt
import MaximalMunch.Scan.Scanner
import MaximalMunch.Text.Blank

/-!
# Scanning a file

The command `lex_file` builds a definition from one file and scans another with it. It prints a line
for each token, and for each place where nothing matches the text around it with a mark below.
-/

namespace MaximalMunch

namespace ScanFile

/-- The names in a list with commas, without the blanks around them. -/
def skipNames (text : String) : List String :=
  let names := (text.toList.splitOn ',').map Text.trim
  (names.filter (!·.isEmpty)).map String.ofList

/-- A number of 64 bits in decimal digits, perhaps after a plus sign. -/
def count? (text : String) : Option Nat :=
  let digits :=
    match text.toList with
    | '+' :: digits => digits
    | digits => digits
  if digits.isEmpty || !digits.all Char.isDigit then none
  else
    let n := Nat.ofDigitChars 10 digits 0
    if n < UInt64.size then some n else none

/-- After how many errors the scan ends: at least one, and one if no number is given. -/
def errorLimit (setting : Option String) : Nat :=
  max 1 ((setting.bind count?).getD 1)

/-- The line of a token. -/
def tokenLine (t : Token) : String :=
  let line := padLeft 4 (toString t.position.line)
  let column := padRight 3 (toString t.position.column)
  line ++ ":" ++ column ++ " " ++ padRight 12 t.name ++ " " ++ Text.quoteString t.lexeme

/-- The lines of an error: its words, the text around it, and a mark under the character. -/
def errorLines (source : String) (e : ScanError) : List String :=
  let excerpt := Excerpt.around source e.position.offset
  let before := Text.takeBytes (e.position.offset - excerpt.start)
    ((Text.dropBytes? excerpt.start source.toList).getD [])
  let margin := String.ofList (List.replicate before.length ' ')
  ["error: " ++ e.message, "  | " ++ excerpt.text, "  | " ++ margin ++ "^"]

/-- How many tokens and errors have been reported. -/
structure Tally where
  tokens : Nat
  errors : Nat

/-- Reports pieces of the source, until `limit` errors have been reported. -/
def report {m : Type → Type} [Monad m] (source : String) (limit : Nat) (tally : Tally) :
    List ScanItem → Session m Tally
  | [] => return tally
  | .ok t :: rest => do
    Session.print (.out (tokenLine t))
    report source limit { tally with tokens := tally.tokens + 1 } rest
  | .error e :: rest => do
    let tally := { tally with errors := tally.errors + 1 }
    for line in errorLines source e do
      Session.print (.err line)
    if limit ≤ tally.errors then return tally
    else report source limit tally rest

/-- The definition in a file. -/
def loadDefinition {m : Type → Type} [Monad m] (host : Host m) (path : String) :
    Session m Definition := do
  let building := Failure.ofDefinitionError ("building tokenizer from " ++ path)
  match ← host.read path with
  | .error (.notOpened reason) => throw ⟨"opening definition " ++ path, [reason]⟩
  | .error (.notRead reason) => throw (building ⟨1, .unreadable (.refused reason)⟩)
  | .ok bytes => Session.require building (Definition.ofBytes bytes).result

/-- The text in a file. -/
def loadText {m : Type → Type} [Monad m] (host : Host m) (context path : String) :
    Session m String := do
  let bytes ← Session.require (fun e : AccessError => ⟨context ++ path, [e.reason]⟩)
    (← host.read path)
  Session.require (fun _ => ⟨context ++ path, [ReadFault.notUtf8.message]⟩) (Text.decode bytes)

/-- Scans `source` with the definition and prints the report and its summary. -/
def scanAndReport {m : Type → Type} [Monad m] (host : Host m) (d : Definition)
    (source : String) (skip : List String) (limit : Nat) : Session m Tally := do
  let elapsed ← host.startStopwatch
  let items := (d.master.automaton.scan skip source).items.toList.map (·.1)
  let tally ← report source limit ⟨0, 0⟩ items
  let time ← elapsed
  let bytes := source.utf8ByteSize
  Session.print (.out (s!"[lex_file] {tally.tokens} tokens, {tally.errors} errors, "
    ++ s!"{bytes} bytes in {time} ms"))
  return tally

/-- The command with its arguments: a definition, a source, and perhaps the names of the tokens that
are not printed. -/
def command {m : Type → Type} [Monad m] (host : Host m) (maxErrors : Option String)
    (args : List String) : Session m Unit := do
  match args with
  | definitionPath :: sourcePath :: more =>
    let skip := (more.head?.map skipNames).getD []
    let d ← loadDefinition host definitionPath
    let source ← loadText host "reading " sourcePath
    let tally ← scanAndReport host d source skip (errorLimit maxErrors)
    if 0 < tally.errors then
      throw ⟨s!"{tally.errors} scan error(s) in {sourcePath}", []⟩
  | _ => throw ⟨"usage: lex_file <definition> <input> [skip,names]", []⟩

end ScanFile

end MaximalMunch
