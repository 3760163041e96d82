import MaximalMunch.CommandLine.Path
import MaximalMunch.CommandLine.ScanFile
import MaximalMunch.Tables.BinaryFile
import MaximalMunch.Tables.JsonFile
import MaximalMunch.Tables.Packing

/-!
# Packing tables

The command `gen_lex_tables` builds a definition from a file and writes the tables of its master
automaton to another, in binary form if the name of that file ends in `.bin`.
-/

namespace MaximalMunch

namespace PackTables

/-- Where the tables go if no file is named. -/
def defaultPath : String := "tables/lexer_tables.json"

/-- A count of bytes in units of 1024 with one decimal place. A half goes to the even neighbour. -/
def kibibytes (bytes : Nat) : String :=
  let tenths := 10 * bytes / 1024
  let rest := 10 * bytes % 1024
  let tenths := if 512 < rest ∨ (rest = 512 ∧ tenths % 2 = 1) then tenths + 1 else tenths
  s!"{tenths / 10}.{tenths % 10}"

/-- The bytes of the file at `path`. -/
def fileBytes (path : String) (t : Tables) : Text.Bytes :=
  if Path.extension? path = some "bin" then t.toBinary else t.toJsonFile

/-- The command with its arguments: a definition and perhaps the file to write. -/
def command {m : Type → Type} [Monad m] (host : Host m) (args : List String) :
    Session m Unit := do
  match args with
  | definitionPath :: more =>
    let path := more.head?.getD defaultPath
    let text ← ScanFile.loadText host "reading definition " definitionPath
    let d ← Session.require
      (Failure.ofDefinitionError ("building tokenizer from " ++ definitionPath))
      (Definition.ofText text).result
    Session.print (.out s!"[gen_lex_tables] packing master DFA ({d.master.size} states)...")
    let t := Tables.ofDfa d.master
    match Path.parent? path with
    | some directory =>
      if !directory.isEmpty then
        Session.require (fun reason => ⟨"creating " ++ directory, [reason]⟩)
          (← host.makeDirectories directory)
    | none => pure ()
    let bytes := fileBytes path t
    Session.require (fun reason => ⟨"writing " ++ path, [reason]⟩) (← host.write path bytes)
    let size := kibibytes bytes.length
    Session.print (.out (s!"[gen_lex_tables] {t.nStates} states x {t.nClasses} classes, "
      ++ s!"{t.tokenNames.size} tokens: wrote {bytes.length} bytes (~{size} KiB) → {path}"))
  | [] => throw ⟨"usage: gen_lex_tables <definition> [out.json|out.bin]", []⟩

end PackTables

end MaximalMunch
