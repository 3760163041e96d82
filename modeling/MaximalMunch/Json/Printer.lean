import MaximalMunch.Json.Basic
import MaximalMunch.Text.Hexadecimal

/-!
# Writing JSON

The compact form: no blanks, the fields of an object in their order. In a string the quotation mark,
the backslash and the control characters are escaped, with a letter where there is one.
-/

namespace MaximalMunch.Json

/-- The bytes of ASCII text. -/
def ascii (cs : List Char) : Text.Bytes :=
  cs.map fun c => .ofNat c.toNat

/-- The letter that stands for a byte after a backslash, if there is one. -/
def escapeLetter? (b : UInt8) : Option Char :=
  if b = 0x22 then some '"'
  else if b = 0x5C then some '\\'
  else if b = 0x08 then some 'b'
  else if b = 0x0C then some 'f'
  else if b = 0x0A then some 'n'
  else if b = 0x0D then some 'r'
  else if b = 0x09 then some 't'
  else none

/-- Four hexadecimal digits. -/
def hexFour (code : Nat) : List Char :=
  (Text.hexLower code).leftpad 4 '0'

/-- A part of a string as it is written. -/
def Piece.write : Piece → Text.Bytes
  | .byte b =>
    match escapeLetter? b with
    | some letter => ascii ['\\', letter]
    | none => [b]
  | .unit code => ascii ('\\' :: 'u' :: hexFour code)

/-- The string with a given text: control characters without a letter are given by number. -/
def piecesOfText (text : String) : List Piece :=
  (Text.encode text).map fun b =>
    if b < 0x20 ∧ (escapeLetter? b).isNone then .unit b.toNat else .byte b

/-- The JSON value of a text. -/
def ofText (text : String) : Json := .string (piecesOfText text)

/-- A string with its quotation marks. -/
def writeString (pieces : List Piece) : Text.Bytes :=
  0x22 :: (pieces.flatMap Piece.write ++ [0x22])

mutual

/-- A value in its compact form. -/
def write : Json → Text.Bytes
  | .null => ascii ['n', 'u', 'l', 'l']
  | .bool true => ascii ['t', 'r', 'u', 'e']
  | .bool false => ascii ['f', 'a', 'l', 's', 'e']
  | .number text => ascii text
  | .string pieces => writeString pieces
  | .array items => 0x5B :: (writeItems items ++ [0x5D])
  | .object fields => 0x7B :: (writeFields fields ++ [0x7D])

/-- Values with commas between them. -/
def writeItems : List Json → Text.Bytes
  | [] => []
  | [v] => write v
  | v :: rest => write v ++ 0x2C :: writeItems rest

/-- Fields with commas between them. -/
def writeFields : List (List Piece × Json) → Text.Bytes
  | [] => []
  | [(name, v)] => writeString name ++ 0x3A :: write v
  | (name, v) :: rest => writeString name ++ 0x3A :: (write v ++ 0x2C :: writeFields rest)

end

end MaximalMunch.Json
