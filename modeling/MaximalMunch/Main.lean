import MaximalMunch.CommandLine.PackTables
import MaximalMunch.CommandLine.Sample

/-!
# The program

Runs one of the commands `sample`, `lex_file` and `gen_lex_tables` on the real file system.
-/

namespace MaximalMunch

/-- An error of the system in words and as a number. Some numbers come with their sign turned. -/
def systemReason (code : UInt32) (words : String) : String :=
  let number := if 0x80000000 ≤ code.toNat then UInt32.size - code.toNat else code.toNat
  s!"{words.capitalize} (os error {number})"

/-- Why the system refuses an action. -/
def accessReason : IO.Error → String
  | .alreadyExists _ code words | .invalidArgument _ code words
  | .permissionDenied _ code words | .resourceExhausted _ code words
  | .inappropriateType _ code words | .noSuchThing _ code words
  | .interrupted _ code words | .noFileOrDirectory _ code words
  | .otherError code words | .resourceBusy code words
  | .resourceVanished code words | .unsupportedOperation code words
  | .hardwareFault code words | .unsatisfiedConstraints code words
  | .illegalOperation code words | .protocolError code words
  | .timeExpired code words => systemReason code words
  | e => toString e

/-- Runs an action that may fail. -/
def attempt {α : Type} (action : IO α) : IO (Except String α) := do
  try return .ok (← action) catch e => return .error (accessReason e)

/-- Opens a file and reads it. -/
def readReal (path : String) : IO (Except AccessError Text.Bytes) := do
  match ← attempt (IO.FS.Handle.mk path .read) with
  | .error reason => return .error (.notOpened reason)
  | .ok handle =>
    match ← attempt handle.readBinToEnd with
    | .error reason => return .error (.notRead reason)
    | .ok bytes => return .ok bytes.data.toList

/-- Makes a directory and those around it. If that cannot be done and the directory around it is not
just missing, the reason is the one for the directory itself. -/
def makeRealDirectories (path : String) : IO Unit := do
  try IO.FS.createDir path
  catch e =>
    try IO.FS.createDirAll path
    catch e' =>
      match e with
      | .noFileOrDirectory .. => throw e'
      | _ => throw e

/-- Milliseconds with three decimal places. -/
def milliseconds (nanoseconds : Nat) : String :=
  let micros := nanoseconds / 1000
  let fraction := String.ofList ((Nat.toDigits 10 (micros % 1000)).leftpad 3 '0')
  s!"{micros / 1000}." ++ fraction

/-- The real file system and clock. -/
def realHost : Host IO where
  read := readReal
  write path bytes := attempt (IO.FS.writeBinFile path bytes.toByteArray)
  makeDirectories path := attempt (makeRealDirectories path)
  startStopwatch := do
    let start ← IO.monoNanosNow
    return do
      let stop ← IO.monoNanosNow
      return milliseconds (stop - start)

/-- Prints what a command leaves behind and returns its exit code. -/
def play (command : Session IO Unit) : IO UInt32 := do
  let transcript ← command.run
  for line in transcript.lines do
    match line with
    | .out text => IO.println text
    | .err text => IO.eprintln text
  return transcript.exitCode

end MaximalMunch

open MaximalMunch in
/-- Runs the command named by the first argument. -/
def main (args : List String) : IO UInt32 := do
  match args with
  | "sample" :: _ => play Sample.command
  | "lex_file" :: args =>
    let maxErrors ← IO.getEnv "LEXGEN_MAX_ERRORS"
    play (ScanFile.command realHost maxErrors args)
  | "gen_lex_tables" :: args => play (PackTables.command realHost args)
  | _ =>
    IO.eprintln "usage: (sample | lex_file | gen_lex_tables) [arguments]"
    return 2
