import MaximalMunch.Nfa.Fragment

/-!
# Errors in definitions

What can be wrong with a line of a definition. Lines are counted from 1.
-/

namespace MaximalMunch

/-- Why the bytes of a line could not be had. -/
inductive ReadFault where
  /-- The bytes are not UTF-8. -/
  | notUtf8
  /-- The file system refuses to read, with its own words. -/
  | refused (reason : String)
deriving DecidableEq, Repr

/-- The fault in words. -/
def ReadFault.message : ReadFault → String
  | .notUtf8 => "stream did not contain valid UTF-8"
  | .refused reason => reason

namespace Definition

/-- What is wrong with a line. -/
inductive Fault where
  /-- No colon parts the name from the pattern. -/
  | missingSeparator
  /-- Nothing stands before the separating colon. -/
  | emptyName
  /-- The name is no word. -/
  | invalidName (name : String)
  /-- Nothing stands after the separating colon. -/
  | emptyPattern (name : String)
  /-- The pattern is malformed. -/
  | malformed (e : Regex.SyntaxError)
  /-- The pattern refers to a name that has not been declared. -/
  | unresolvedReference (name : String)
  /-- The line could not be read. -/
  | unreadable (cause : ReadFault)
deriving DecidableEq, Repr

/-- The fault in words. -/
def Fault.message : Fault → String
  | .missingSeparator => "invalid token definition, expected `[:]name:pattern`"
  | .emptyName => "token name not defined"
  | .invalidName name => s!"invalid token name \"{name}\""
  | .emptyPattern name => s!"regular expression not defined for token \"{name}\""
  | .malformed e => e.message
  | .unresolvedReference name => s!"reference to undefined token \"{name}\""
  | .unreadable cause => "failed to read definition: " ++ cause.message

/-- The fault of a pattern, as the fault of the line that holds it. -/
def Fault.ofCompileError : Regex.CompileError → Fault
  | .malformed e => .malformed e
  | .unresolvedReference name => .unresolvedReference name

/-- A fault and the line in which it stands. -/
structure Error where
  line : Nat
  fault : Fault
deriving DecidableEq, Repr

/-- The error in words. -/
def Error.message (e : Error) : String :=
  s!"line {e.line}: " ++ e.fault.message

/-- The error inside this one that has words of its own. -/
def Error.cause? (e : Error) : Option String :=
  match e.fault with
  | .malformed inner => some inner.message
  | .unreadable cause => some cause.message
  | _ => none

end Definition

end MaximalMunch
