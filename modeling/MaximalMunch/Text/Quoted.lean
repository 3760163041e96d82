import MaximalMunch.Text.Hexadecimal
import MaximalMunch.Text.Unprintable

/-!
# Quoted characters and strings

Messages show a character in single quotes and a text in double quotes. The five control escapes
are spelled with a letter, the quote in use and the backslash with a backslash, and a character that
cannot be seen as its number.
-/

namespace MaximalMunch.Text

/-- One character between two marks `quote`. -/
def escapeChar (quote c : Char) : List Char :=
  if c = '\x00' then ['\\', '0']
  else if c = '\t' then ['\\', 't']
  else if c = '\n' then ['\\', 'n']
  else if c = '\r' then ['\\', 'r']
  else if c = '\\' || c = quote then ['\\', c]
  else if isUnprintable c then '\\' :: 'u' :: '{' :: (hexLower c.toNat ++ ['}'])
  else [c]

/-- A character in single quotes. -/
def quoteChar (c : Char) : String :=
  String.ofList ('\'' :: (escapeChar '\'' c ++ ['\'']))

/-- A text in double quotes. -/
def quoteString (s : String) : String :=
  String.ofList ('"' :: (s.toList.flatMap (escapeChar '"') ++ ['"']))

end MaximalMunch.Text
