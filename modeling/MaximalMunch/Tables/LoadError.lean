import MaximalMunch.Tables.Validity
import MaximalMunch.Text.Utf8

/-!
# Errors of table files

Why the bytes of a file are not the tables they should be.
-/

namespace MaximalMunch.Tables

/-- What can be wrong with the bytes of a file. -/
inductive LoadError where
  /-- A binary file ends before its header does. -/
  | tooShort
  /-- A binary file begins with other bytes than it must. -/
  | badMagic
  /-- A binary file ends inside a number. -/
  | truncatedWord
  /-- A binary file ends inside a name. -/
  | truncatedName
  /-- A name in a binary file is not UTF-8. -/
  | nameNotUtf8 (fault : Text.Utf8Fault)
  /-- The matrix and the tokens would take more bytes than can be counted in 64 bits. -/
  | sizeOverflow
  /-- A binary file ends before the matrix and the tokens do. -/
  | truncatedTables (needed states available : Nat)
  /-- A JSON file is malformed, or its fields are not those of tables. -/
  | malformedJson
  /-- The tables are complete but not valid. -/
  | invalid (fault : Fault)
deriving DecidableEq, Repr

/-- The error in words. -/
def LoadError.message : LoadError → String
  | .tooShort => "bin too short"
  | .badMagic => "bad magic in tables .bin"
  | .truncatedWord => "truncated u32"
  | .truncatedName => "truncated token name"
  | .nameNotUtf8 fault => "token name is not UTF-8: " ++ fault.message
  | .sizeOverflow => "state table size overflow"
  | .truncatedTables needed states available =>
    s!"truncated state tables: need {needed} bytes for {states} states, have {available}"
  | .malformedJson => "Failed to parse tables JSON"
  | .invalid fault => fault.message

end MaximalMunch.Tables
