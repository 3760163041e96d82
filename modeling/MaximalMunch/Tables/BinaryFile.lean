import MaximalMunch.Tables.LoadError

/-!
# Binary files

The compact form of tables: numbers are 32-bit words, the least byte first.

    magic | states classes start names | (length bytes)* | 256 classes |
    ranges | (lo hi class)* | matrix | tokens

`Tables.toBinary` writes it and `Tables.ofBinary` reads it back. A reader takes its part from the
front and leaves the rest, and whatever follows the tables is ignored. The sizes come from the file,
so they are checked against the bytes that are there before anything of that size is read.
-/

namespace MaximalMunch.Tables

open Text (Bytes)

/-- The bytes with which every file begins. -/
def magic : Bytes := [0x4C, 0x58, 0x47, 0x44, 0x46, 0x41, 0x30, 0x31]

/-! ## Writing -/

/-- The four bytes of a word. -/
def wordBytes (w : UInt32) : Bytes :=
  [.ofNat w.toNat, .ofNat (w.toNat / 0x100), .ofNat (w.toNat / 0x10000),
    .ofNat (w.toNat / 0x1000000)]

/-- The bytes of a count, which is below 2 ^ 32. -/
def countBytes (n : Nat) : Bytes := wordBytes (.ofNat n)

/-- The bytes of a name, after their number. -/
def nameBytes (name : String) : Bytes :=
  countBytes (Text.encode name).length ++ Text.encode name

/-- The bytes of a range. -/
def rangeBytes (r : ClassRange) : Bytes :=
  wordBytes r.lo ++ wordBytes r.hi ++ wordBytes r.classId

/-- The bytes of a file that holds the tables. -/
def toBinary (t : Tables) : Bytes :=
  magic ++ countBytes t.nStates ++ wordBytes t.nClasses ++ wordBytes t.start
    ++ countBytes t.tokenNames.size ++ t.tokenNames.toList.flatMap nameBytes
    ++ t.latin1.toList.flatMap wordBytes
    ++ countBytes t.classRanges.size ++ t.classRanges.toList.flatMap rangeBytes
    ++ t.next.toList.flatMap wordBytes ++ t.tokenOf.toList.flatMap wordBytes

/-! ## Reading -/

/-- Takes something from the front of the bytes and leaves the rest. -/
abbrev ByteReader := StateT Bytes (Except LoadError)

/-- The word of four bytes. -/
def wordOf (a b c d : UInt8) : UInt32 :=
  .ofNat (a.toNat + 0x100 * b.toNat + 0x10000 * c.toNat + 0x1000000 * d.toNat)

/-- Reads a word. -/
def readWord : ByteReader UInt32
  | a :: b :: c :: d :: rest => .ok (wordOf a b c d, rest)
  | _ => .error .truncatedWord

/-- Reads `n` words after those in `found`. -/
def readWords (found : Array UInt32) : Nat → ByteReader (Array UInt32)
  | 0 => return found
  | n + 1 => do
    let w ← readWord
    readWords (found.push w) n

/-- Reads exactly `n` words. -/
def readVector : (n : Nat) → ByteReader (Vector UInt32 n)
  | 0 => return #v[]
  | n + 1 => do
    let before ← readVector n
    return before.push (← readWord)

/-- Reads a name of `length` bytes. -/
def readText (length : Nat) : ByteReader String := fun bytes =>
  if bytes.length < length then .error .truncatedName
  else
    match Text.decode (bytes.take length) with
    | .ok name => .ok (name, bytes.drop length)
    | .error fault => .error (.nameNotUtf8 fault)

/-- Reads `n` names after those in `found`. -/
def readNames (found : Array String) : Nat → ByteReader (Array String)
  | 0 => return found
  | n + 1 => do
    let name ← readText (← readWord).toNat
    readNames (found.push name) n

/-- Reads `n` ranges after those in `found`. -/
def readRanges (found : Array ClassRange) : Nat → ByteReader (Array ClassRange)
  | 0 => return found
  | n + 1 => do
    let lo ← readWord
    let hi ← readWord
    let classId ← readWord
    readRanges (found.push { lo, hi, classId }) n

/-- Makes sure that the matrix and the tokens are there: as many words as there are cells and
states. -/
def checkSize (states classes : Nat) : ByteReader Unit := fun bytes =>
  let needed := 4 * (states * classes + states)
  if UInt64.size ≤ needed then .error .sizeOverflow
  else if bytes.length < needed then .error (.truncatedTables needed states bytes.length)
  else .ok ((), bytes)

/-- Reads tables, from behind the magic bytes on. -/
def readTables : ByteReader Tables := do
  let states ← readWord
  let nClasses ← readWord
  let start ← readWord
  let names ← readWord
  let tokenNames ← readNames #[] names.toNat
  let latin1 ← readVector 256
  let ranges ← readWord
  let classRanges ← readRanges #[] ranges.toNat
  checkSize states.toNat nClasses.toNat
  let next ← readWords #[] (states.toNat * nClasses.toNat)
  let tokenOf ← readWords #[] states.toNat
  return { latin1, classRanges, nClasses, next, tokenOf, tokenNames, start }

/-- The number of bytes of the magic and the four counts after it. -/
def headerLength : Nat := 24

/-- The valid tables at the beginning of a file. -/
def ofBinary (bytes : Bytes) : Except LoadError Tables :=
  if bytes.length < headerLength then .error .tooShort
  else if bytes.take magic.length ≠ magic then .error .badMagic
  else do
    let (t, _) ← readTables (bytes.drop magic.length)
    t.validate.mapError .invalid

end MaximalMunch.Tables
