import MaximalMunch.Text.Utf8

/-!
# JSON values

JSON as bytes. A number is kept as it is written, and a string as the bytes and escaped code units
of which it is made, because a value that nobody asks for need not mean anything: `Json.toNat?` and
`Json.text?` say what a number or a string means, if it does.
-/

namespace MaximalMunch

/-- A part of a string: a byte of UTF-8, or a UTF-16 code unit given by its number. -/
inductive Json.Piece where
  | byte (b : UInt8)
  | unit (code : Nat)
deriving DecidableEq, Repr

/-- A JSON value. -/
inductive Json where
  | null
  | bool (b : Bool)
  | number (text : List Char)
  | string (pieces : List Json.Piece)
  | array (items : List Json)
  | object (fields : List (List Json.Piece × Json))
deriving Inhabited

namespace Json

/-! ## Numbers -/

/-- The JSON value of a number. -/
def ofNat (n : Nat) : Json := .number (Nat.toDigits 10 n)

/-- The number that a value is, if it is one without sign, fraction and exponent. -/
def toNat? : Json → Option Nat
  | .number text => if text.all Char.isDigit then some (Nat.ofDigitChars 10 text 0) else none
  | _ => none

/-! ## Strings -/

/-- The bytes of one UTF-16 code unit or of a pair of surrogates. -/
def bytesOfCode (code : Nat) : Text.Bytes :=
  Text.encode (String.ofList [Char.ofNat code])

/-- The bytes of a string; nothing if a surrogate stands alone. -/
def bytesOfPieces : List Piece → Option Text.Bytes
  | [] => some []
  | .byte b :: rest => (bytesOfPieces rest).map (b :: ·)
  | .unit code :: rest =>
    if 0xD800 ≤ code ∧ code < 0xDC00 then
      match rest with
      | .unit low :: rest =>
        if 0xDC00 ≤ low ∧ low < 0xE000 then
          let code := 0x10000 + (code - 0xD800) * 0x400 + (low - 0xDC00)
          (bytesOfPieces rest).map (bytesOfCode code ++ ·)
        else none
      | _ => none
    else if 0xDC00 ≤ code ∧ code < 0xE000 then none
    else (bytesOfPieces rest).map (bytesOfCode code ++ ·)

/-- The text of a string; nothing if its bytes are not UTF-8. -/
def textOfPieces (pieces : List Piece) : Option String := do
  (Text.decode (← bytesOfPieces pieces)).toOption

/-- The text that a value is, if it is one. -/
def text? : Json → Option String
  | .string pieces => textOfPieces pieces
  | _ => none

/-- The items of an array. -/
def items? : Json → Option (List Json)
  | .array items => some items
  | _ => none

end Json

end MaximalMunch
