import MaximalMunch.Json.Printer
import MaximalMunch.Json.Reader
import MaximalMunch.Tables.LoadError

/-!
# JSON files

Tables as an object with seven fields, `latin1_class`, `class_ranges`, `n_classes`, `next`,
`token_of`, `token_names` and `start`. `Tables.toJsonFile` writes them in this order. For
`Tables.ofJsonFile` they may come in any order, each exactly once, and other fields are ignored; an
array of the seven values in this order will do as well.
-/

namespace MaximalMunch.Tables

open Text (Bytes)

/-! ## Writing -/

/-- The JSON value of a word. -/
def jsonOfWord (w : UInt32) : Json := .ofNat w.toNat

/-- The JSON value of a range. -/
def jsonOfRange (r : ClassRange) : Json :=
  .array [jsonOfWord r.lo, jsonOfWord r.hi, jsonOfWord r.classId]

/-- The names of the fields, in the order of a file. -/
def fieldNames : List String :=
  ["latin1_class", "class_ranges", "n_classes", "next", "token_of", "token_names", "start"]

/-- The values of the fields, in the order of a file. -/
def fieldValues (t : Tables) : List Json :=
  [.array (t.latin1.toList.map jsonOfWord),
    .array (t.classRanges.toList.map jsonOfRange),
    jsonOfWord t.nClasses,
    .array (t.next.toList.map jsonOfWord),
    .array (t.tokenOf.toList.map jsonOfWord),
    .array (t.tokenNames.toList.map Json.ofText),
    jsonOfWord t.start]

/-- The JSON value of tables. -/
def toJson (t : Tables) : Json :=
  .object ((fieldNames.map Json.piecesOfText).zip t.fieldValues)

/-- The bytes of a file that holds the tables. -/
def toJsonFile (t : Tables) : Bytes := t.toJson.write

/-! ## Reading -/

/-- The word that a value is, if it is a number that fits. -/
def wordOfJson? (j : Json) : Option UInt32 := do
  let n ← j.toNat?
  if n < UInt32.size then some (.ofNat n) else none

/-- The words that a value is, if it is an array of them. -/
def wordsOfJson? (j : Json) : Option (List UInt32) := do
  (← j.items?).mapM wordOfJson?

/-- The range that a value is, if it is an array of three words. -/
def rangeOfJson? (j : Json) : Option ClassRange := do
  match ← wordsOfJson? j with
  | [lo, hi, classId] => some { lo, hi, classId }
  | _ => none

/-- Exactly `n` words. -/
def vectorOfList? (n : Nat) (ws : List UInt32) : Option (Vector UInt32 n) :=
  if h : ws.length = n then some ⟨ws.toArray, by simpa using h⟩ else none

/-- The tables with the given values of their fields, in the order of a file. -/
def ofFieldValues? : List Json → Option Tables
  | [latin1, classRanges, nClasses, next, tokenOf, tokenNames, start] => do
    let latin1 ← vectorOfList? 256 (← wordsOfJson? latin1)
    let classRanges ← (← classRanges.items?).mapM rangeOfJson?
    let nClasses ← wordOfJson? nClasses
    let next ← wordsOfJson? next
    let tokenOf ← wordsOfJson? tokenOf
    let tokenNames ← (← tokenNames.items?).mapM Json.text?
    let start ← wordOfJson? start
    some {
      latin1, nClasses, start
      classRanges := classRanges.toArray
      next := next.toArray
      tokenOf := tokenOf.toArray
      tokenNames := tokenNames.toArray }
  | _ => none

/-- The value of the field with a name, if exactly one field has it. -/
def uniqueField? (fields : List (String × Json)) (name : String) : Option Json :=
  match fields.filter (·.1 = name) with
  | [(_, value)] => some value
  | _ => none

/-- The tables that a value is. -/
def ofJson? : Json → Option Tables
  | .array values => ofFieldValues? values
  | .object fields => do
    let fields ← fields.mapM fun (name, value) => do some (← Json.textOfPieces name, value)
    ofFieldValues? (← fieldNames.mapM (uniqueField? fields))
  | _ => none

/-- The valid tables in a file. -/
def ofJsonFile (bytes : Bytes) : Except LoadError Tables :=
  match Json.parse bytes >>= ofJson? with
  | some t => t.validate.mapError .invalid
  | none => .error .malformedJson

end MaximalMunch.Tables
