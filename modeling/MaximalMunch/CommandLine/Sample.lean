import MaximalMunch.CommandLine.Session
import MaximalMunch.Definition.Reading
import MaximalMunch.Dfa.Scanning
import MaximalMunch.Scan.Scanner

/-!
# A sample

The tokens of a small language in the manner of C, and a few lines of it with keywords, numbers,
strings, comments and operators. The command `sample` scans the lines and prints what it finds.
-/

namespace MaximalMunch

namespace Sample

/-- The tokens of the language. The earlier token wins, so keywords come before identifiers. -/
def grammar : List String := [
  ":digit    : [0-9]",
  ":letter   : [A-Za-z_]",
  ":exponent : [eE][+\\-]?\x7bdigit\x7d+",
  "kw_if     : if",
  "kw_else   : else",
  "kw_while  : while",
  "kw_return : return",
  "kw_int    : int",
  "kw_float  : float",
  "float     : \x7bdigit\x7d+\\.\x7bdigit\x7d+\x7bexponent\x7d?",
  "float     : \x7bdigit\x7d+\x7bexponent\x7d",
  "int       : \x7bdigit\x7d+",
  "ident     : \x7bletter\x7d(\x7bletter\x7d|\x7bdigit\x7d)*",
  "string    : \"([^\"\\\\\\n]|\\\\.)*\"",
  "le        : <=",
  "ge        : >=",
  "eqeq      : ==",
  "neq       : !=",
  "op        : [+\\-*/%<>=!]",
  "punct     : [()\x7b\x7d\\[\\];,]",
  "comment   : //[^\\n]*",
  "comment   : /\\*([^*]|\\*+[^*/])*\\*+/",
  "ws        : \\s+"]

/-- Some lines of the language. -/
def source : String := String.intercalate "\n" [
  "int foo = 12 + bar/* cmt */(7); // hello",
  "float baz=3.5e-2/*multi",
  "line*/+qux;",
  "if (foo >= 10) \x7b return \"done\\n\"; \x7d"]

/-- The tokens that are not printed. -/
def skipped : List String := ["ws", "comment"]

/-- The line of a piece of the source. -/
def line : ScanItem → OutputLine
  | .ok t => .out (padRight 10 t.name ++ " " ++ Text.quoteString t.lexeme)
  | .error e => .err ("lex error: " ++ e.message)

/-- The command. -/
def command {m : Type → Type} [Monad m] : Session m Unit := do
  let outcome := Definition.ofLines (grammar.map .ok)
  let d ← Session.require (fun e => ⟨e.message, e.cause?.toList⟩) outcome.result
  Session.print (.out "TOKENS:")
  for (item, _) in (d.master.automaton.scan skipped source).items do
    Session.print (line item)

end Sample

end MaximalMunch
