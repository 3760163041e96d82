import MaximalMunch.Definition.Error

/-!
# Sessions

A command prints lines on two streams and may fail. A failure has a text and the causes behind it,
the nearest first; it is printed at the end, and the exit code tells of it.
-/

namespace MaximalMunch

/-- Text that is printed with a line feed after it, and the stream on which it is printed. -/
inductive OutputLine where
  | out (text : String)
  | err (text : String)
deriving DecidableEq, Repr

/-- Why a command fails. -/
structure Failure where
  text : String
  causes : List String
deriving DecidableEq, Repr

namespace Failure

/-- A line for each of several causes, numbered from `i`. -/
def numberedCauses (i : Nat) : List String → List String
  | [] => []
  | cause :: rest =>
    let number := String.ofList ((Nat.toDigits 10 i).leftpad 5 ' ')
    (number ++ ": " ++ cause) :: numberedCauses (i + 1) rest

/-- The lines that tell of a failure. -/
def lines (f : Failure) : List String :=
  let causes :=
    match f.causes with
    | [] => []
    | [cause] => ["", "Caused by:", "    " ++ cause]
    | causes => "" :: "Caused by:" :: numberedCauses 0 causes
  ("Error: " ++ f.text) :: causes

/-- A definition that cannot be built, in the course of something. -/
def ofDefinitionError (text : String) (e : Definition.Error) : Failure :=
  ⟨text, e.message :: e.cause?.toList⟩

end Failure

/-- A command on a host `m`: it prints lines and may fail. -/
abbrev Session (m : Type → Type) := ExceptT Failure (StateT (Array OutputLine) m)

/-- What a command leaves behind. -/
structure Transcript where
  lines : Array OutputLine
  exitCode : UInt32

/-- The text on the standard output. -/
def Transcript.standardOutput (t : Transcript) : String :=
  String.join <| t.lines.toList.map fun
    | .out text => text ++ "\n"
    | .err _ => ""

/-- The text on the standard error. -/
def Transcript.standardError (t : Transcript) : String :=
  String.join <| t.lines.toList.map fun
    | .out _ => ""
    | .err text => text ++ "\n"

namespace Session

variable {m : Type → Type} [Monad m]

/-- Prints a line. -/
def print (line : OutputLine) : Session m Unit :=
  modify (·.push line)

/-- Fails, for the reasons given by `failure`, unless there is a result. -/
def require {ε α : Type} (failure : ε → Failure) : Except ε α → Session m α
  | .ok a => return a
  | .error e => throw (failure e)

/-- Runs a command from its start. -/
def run (command : Session m Unit) : m Transcript := do
  let (result, lines) ← (ExceptT.run command).run #[]
  match result with
  | .ok () => return ⟨lines, 0⟩
  | .error f => return ⟨lines ++ (f.lines.map OutputLine.err).toArray, 1⟩

end Session

/-- A text filled up with blanks on the right. -/
def padRight (width : Nat) (s : String) : String :=
  String.ofList (s.toList.rightpad width ' ')

/-- A text filled up with blanks on the left. -/
def padLeft (width : Nat) (s : String) : String :=
  String.ofList (s.toList.leftpad width ' ')

end MaximalMunch
