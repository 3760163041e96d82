/-!
# UTF-8

Decoding of bytes to text. `decode` accepts exactly the UTF-8 encodings of texts
(`decode_eq_ok_iff`); for any other bytes it says where the first fault lies and how long the broken
sequence is.
-/

namespace MaximalMunch.Text

/-- Bytes of a file or of a part of it. -/
abbrev Bytes := List UInt8

/-- The first place where bytes are not UTF-8. -/
structure Utf8Fault where
  /-- The number of bytes before the broken sequence. -/
  index : Nat
  /-- The length of the broken sequence, or nothing if the bytes end inside a sequence. -/
  length? : Option Nat
deriving DecidableEq, Repr

/-- A report of the fault. -/
def Utf8Fault.message (fault : Utf8Fault) : String :=
  match fault.length? with
  | some n => s!"invalid utf-8 sequence of {n} bytes from index {fault.index}"
  | none => s!"incomplete utf-8 byte sequence from index {fault.index}"

/-- The bytes that may follow a first byte: for each its least and its greatest value. No list for a
byte that begins no sequence. -/
def continuations (first : UInt8) : Option (List (UInt8 × UInt8)) :=
  let tail := (0x80, 0xBF)
  if first ≤ 0x7F then some []
  else if first < 0xC2 then none
  else if first ≤ 0xDF then some [tail]
  else if first = 0xE0 then some [(0xA0, 0xBF), tail]
  else if first = 0xED then some [(0x80, 0x9F), tail]
  else if first ≤ 0xEF then some [tail, tail]
  else if first = 0xF0 then some [(0x90, 0xBF), tail, tail]
  else if first ≤ 0xF3 then some [tail, tail, tail]
  else if first = 0xF4 then some [(0x80, 0x8F), tail, tail]
  else none

/-- Where a fault lies in `bytes`, which stand at `index`. `owed` holds the bounds of the bytes that
must follow, and `taken` counts the bytes of the sequence that is being read. -/
def findFault (index taken : Nat) (owed : List (UInt8 × UInt8)) : Bytes → Option Utf8Fault
  | [] => if owed.isEmpty then none else some ⟨index, none⟩
  | b :: bytes =>
    match owed with
    | (least, greatest) :: owed =>
      if least ≤ b && b ≤ greatest then
        if owed.isEmpty then findFault (index + taken + 1) 0 [] bytes
        else findFault index (taken + 1) owed bytes
      else some ⟨index, some taken⟩
    | [] =>
      match continuations b with
      | some [] => findFault (index + 1) 0 [] bytes
      | some owed => findFault index 1 owed bytes
      | none => some ⟨index, some 1⟩

/-- The text that the bytes encode, or their first fault. -/
def decode (bytes : Bytes) : Except Utf8Fault String :=
  match String.fromUTF8? bytes.toByteArray with
  | some text => .ok text
  | none => .error ((findFault 0 0 [] bytes).getD ⟨0, none⟩)

/-- The bytes that encode a text. -/
def encode (text : String) : Bytes :=
  text.toByteArray.data.toList

/-- The bytes that encode a text are those of the text. -/
theorem toByteArray_encode (text : String) : (encode text).toByteArray = text.toByteArray :=
  ByteArray.ext List.data_toByteArray

/-- Bytes are decoded to the one text that they encode. -/
theorem decode_eq_ok_iff {bytes : Bytes} {text : String} :
    decode bytes = .ok text ↔ bytes = encode text := by
  rw [decode, String.fromUTF8?]
  by_cases h : bytes.toByteArray.IsValidUTF8
  · rw [dif_pos h]
    constructor
    · intro hok
      obtain rfl := Except.ok.inj hok
      exact List.toList_data_toByteArray.symm
    · rintro rfl
      exact congrArg Except.ok (String.toByteArray_inj.1 (toByteArray_encode text))
  · rw [dif_neg h]
    constructor
    · intro hok
      exact absurd hok (by simp)
    · rintro rfl
      exact absurd (toByteArray_encode text ▸ text.isValidUTF8) h

end MaximalMunch.Text
