import MaximalMunch.Json.Basic

/-!
# Reading JSON

A strict reader: nothing but the grammar of RFC 8259, no byte order mark, nothing after the value
but blanks. Each reader takes its part from the front of the bytes and leaves the rest. Values nest
freely; `fuel` bounds the number of nested and consecutive parts, and `Json.parse` gives as much of
it as the bytes can use up.
-/

namespace MaximalMunch.Json

open Text (Bytes)

/-- Blank, tab, feed and return. -/
def isBlank (b : UInt8) : Bool :=
  b = 0x20 || b = 0x09 || b = 0x0A || b = 0x0D

/-- The bytes from the first that is not blank on. -/
def skipBlanks (bytes : Bytes) : Bytes := bytes.dropWhile isBlank

/-! ## Strings -/

/-- The byte that a letter after a backslash stands for. -/
def escaped? (letter : UInt8) : Option UInt8 :=
  match Char.ofNat letter.toNat with
  | '"' => some 0x22
  | '\\' => some 0x5C
  | '/' => some 0x2F
  | 'b' => some 0x08
  | 'f' => some 0x0C
  | 'n' => some 0x0A
  | 'r' => some 0x0D
  | 't' => some 0x09
  | _ => none

/-- The value of a hexadecimal digit. -/
def hexDigit? (b : UInt8) : Option Nat :=
  if 0x30 ≤ b && b ≤ 0x39 then some (b.toNat - 0x30)
  else if 0x41 ≤ b && b ≤ 0x46 then some (b.toNat - 0x41 + 10)
  else if 0x61 ≤ b && b ≤ 0x66 then some (b.toNat - 0x61 + 10)
  else none

/-- Where in a string the next byte falls. -/
inductive StringPlace where
  /-- Between pieces. -/
  | plain
  /-- After a backslash. -/
  | escape
  /-- In the digits of a code unit: so many are missing, and those read so far give `code`. -/
  | unit (missing code : Nat)

/-- Reads a string up to its closing quotation mark; `found` holds the pieces before, the latest
first. -/
def readPieces (found : List Piece) (place : StringPlace) : Bytes → Option (List Piece × Bytes)
  | [] => none
  | b :: rest =>
    match place with
    | .plain =>
      if b = 0x22 then some (found.reverse, rest)
      else if b = 0x5C then readPieces found .escape rest
      else if b < 0x20 then none
      else readPieces (.byte b :: found) .plain rest
    | .escape =>
      if b = 0x75 then readPieces found (.unit 4 0) rest
      else
        match escaped? b with
        | some b => readPieces (.byte b :: found) .plain rest
        | none => none
    | .unit missing code =>
      match hexDigit? b with
      | some digit =>
        let code := 16 * code + digit
        if missing ≤ 1 then readPieces (.unit code :: found) .plain rest
        else readPieces found (.unit (missing - 1) code) rest
      | none => none

/-! ## Numbers -/

/-- An ASCII digit. -/
def isDigit (b : UInt8) : Bool := 0x30 ≤ b && b ≤ 0x39

/-- Reads digits, at least one. -/
def readDigits (bytes : Bytes) : Option (Bytes × Bytes) :=
  let (digits, rest) := bytes.span isDigit
  if digits.isEmpty then none else some (digits, rest)

/-- Reads the digits before the point: no zero stands in front of another digit. -/
def readWhole (bytes : Bytes) : Option (Bytes × Bytes) := do
  let (digits, rest) ← readDigits bytes
  if digits.head? = some 0x30 && digits.length ≠ 1 then none else some (digits, rest)

/-- Reads a point and the digits after it, if there is a point. -/
def readFraction : Bytes → Option (Bytes × Bytes)
  | 0x2E :: rest => (readDigits rest).map fun (digits, rest) => (0x2E :: digits, rest)
  | rest => some ([], rest)

/-- Reads the sign of an exponent, if there is one. -/
def readSign : Bytes → Bytes × Bytes
  | 0x2B :: rest => ([0x2B], rest)
  | 0x2D :: rest => ([0x2D], rest)
  | rest => ([], rest)

/-- Reads an exponent, if there is one. -/
def readExponent (bytes : Bytes) : Option (Bytes × Bytes) :=
  match bytes with
  | mark :: rest =>
    if mark = 0x65 || mark = 0x45 then do
      let (sign, rest) := readSign rest
      let (digits, rest) ← readDigits rest
      some (mark :: (sign ++ digits), rest)
    else some ([], bytes)
  | [] => some ([], [])

/-- Reads a number. -/
def readNumber (bytes : Bytes) : Option (Json × Bytes) := do
  let (sign, rest) :=
    match bytes with
    | 0x2D :: rest => ([(0x2D : UInt8)], rest)
    | rest => ([], rest)
  let (whole, rest) ← readWhole rest
  let (fraction, rest) ← readFraction rest
  let (exponent, rest) ← readExponent rest
  let text := (sign ++ whole ++ fraction ++ exponent).map fun b => Char.ofNat b.toNat
  some (.number text, rest)

/-! ## Values -/

/-- Reads a number or one of the three names. -/
def readScalar (bytes : Bytes) : Option (Json × Bytes) :=
  match bytes with
  | 0x6E :: 0x75 :: 0x6C :: 0x6C :: rest => some (.null, rest)
  | 0x74 :: 0x72 :: 0x75 :: 0x65 :: rest => some (.bool true, rest)
  | 0x66 :: 0x61 :: 0x6C :: 0x73 :: 0x65 :: rest => some (.bool false, rest)
  | bytes => readNumber bytes

mutual

/-- Reads a value, after blanks. -/
def readValue : Nat → Bytes → Option (Json × Bytes)
  | 0, _ => none
  | fuel + 1, bytes =>
    match skipBlanks bytes with
    | 0x22 :: rest =>
      match readPieces [] .plain rest with
      | some (pieces, rest) => some (.string pieces, rest)
      | none => none
    | 0x5B :: rest =>
      match skipBlanks rest with
      | 0x5D :: rest => some (.array [], rest)
      | _ => readItems fuel [] rest
    | 0x7B :: rest =>
      match skipBlanks rest with
      | 0x7D :: rest => some (.object [], rest)
      | _ => readFields fuel [] rest
    | bytes => readScalar bytes

/-- Reads the items of an array up to its closing bracket; `found` holds those before, the latest
first. -/
def readItems : Nat → List Json → Bytes → Option (Json × Bytes)
  | 0, _, _ => none
  | fuel + 1, found, bytes =>
    match readValue fuel bytes with
    | none => none
    | some (v, rest) =>
      match skipBlanks rest with
      | 0x2C :: rest => readItems fuel (v :: found) rest
      | 0x5D :: rest => some (.array (v :: found).reverse, rest)
      | _ => none

/-- Reads the fields of an object up to its closing brace; `found` holds those before, the latest
first. -/
def readFields : Nat → List (List Piece × Json) → Bytes → Option (Json × Bytes)
  | 0, _, _ => none
  | fuel + 1, found, bytes =>
    match skipBlanks bytes with
    | 0x22 :: rest =>
      match readPieces [] .plain rest with
      | none => none
      | some (name, rest) =>
        match skipBlanks rest with
        | 0x3A :: rest =>
          match readValue fuel rest with
          | none => none
          | some (v, rest) =>
            match skipBlanks rest with
            | 0x2C :: rest => readFields fuel ((name, v) :: found) rest
            | 0x7D :: rest => some (.object ((name, v) :: found).reverse, rest)
            | _ => none
        | _ => none
    | _ => none

end

/-- The value that the bytes are, with blanks around it. -/
def parse (bytes : Bytes) : Option Json :=
  match readValue (2 * bytes.length + 2) bytes with
  | some (v, rest) => if (skipBlanks rest).isEmpty then some v else none
  | none => none

end MaximalMunch.Json
