import Mathlib.Data.List.TakeDrop
import Mathlib.Tactic.IntervalCases
import MaximalMunch.Json.Printer
import MaximalMunch.Json.Reader

/-!
# Reading what was written

The printer and the reader of JSON are inverse to each other on the values whose numbers are
numerals and whose strings hold no bare control byte, and the texts of such strings are recovered
byte by byte. The reader takes fuel: a byte of the text pays for each of its steps.
-/

namespace MaximalMunch.Json

open Text (Bytes)

/-! ## Strings -/

/-- A piece that is read as it is written: a byte that may stand in a string or has a letter, or a
code unit of four hexadecimal digits. -/
def Piece.Readable : Piece → Prop
  | .byte b => 0x20 ≤ b ∨ (escapeLetter? b).isSome = true
  | .unit code => code < 0x10000

/-- The last of some digits, with zeros in front, is the remainder. -/
theorem leftpad_toDigits (n k : Nat) :
    (Nat.toDigits 16 n).leftpad (k + 2) '0' =
      (Nat.toDigits 16 (n / 16)).leftpad (k + 1) '0' ++ [Nat.digitChar (n % 16)] := by
  by_cases hn : n < 16
  · rw [Nat.toDigits_of_lt_base hn, Nat.div_eq_of_lt hn, Nat.toDigits_zero, Nat.mod_eq_of_lt hn]
    simp [List.leftpad, List.replicate_succ']
  · rw [Nat.toDigits_of_base_le (by decide) (Nat.le_of_not_lt hn)]
    simp [List.leftpad]

/-- The four digits of a code unit, the highest first. -/
theorem hexFour_eq {code : Nat} (h : code < 0x10000) :
    hexFour code = [Nat.digitChar (code / 16 / 16 / 16), Nat.digitChar (code / 16 / 16 % 16),
      Nat.digitChar (code / 16 % 16), Nat.digitChar (code % 16)] := by
  rw [hexFour, Text.hexLower, leftpad_toDigits, leftpad_toDigits, leftpad_toDigits,
    Nat.toDigits_of_lt_base (by omega)]
  rfl

/-- A digit is read back from its character. -/
theorem hexDigit?_digitChar : ∀ d < 16, hexDigit? (.ofNat (Nat.digitChar d).toNat) = some d := by
  decide

/-- A digit inside an escape is taken up into its code unit, and the last one completes it. -/
theorem readPieces_digit {found : List Piece} {missing code d : Nat} (hd : d < 16) (rest : Bytes) :
    readPieces found (.unit missing code) (.ofNat (Nat.digitChar d).toNat :: rest) =
      if missing ≤ 1 then readPieces (.unit (16 * code + d) :: found) .plain rest
      else readPieces found (.unit (missing - 1) (16 * code + d)) rest := by
  rw [readPieces]
  simp only [hexDigit?_digitChar d hd]

/-- Four digits that are written for a code unit are read as this code unit. -/
theorem readPieces_hexFour {found : List Piece} {code : Nat} (h : code < 0x10000) (rest : Bytes) :
    readPieces found (.unit 4 0) (ascii (hexFour code) ++ rest) =
      readPieces (.unit code :: found) .plain rest := by
  have hcode : 16 * (16 * (16 * (16 * 0 + code / 16 / 16 / 16) + code / 16 / 16 % 16) +
      code / 16 % 16) + code % 16 = code := by omega
  have hlead : code / 16 / 16 / 16 < 16 := by omega
  rw [hexFour_eq h]
  simp only [ascii, List.map_cons, List.map_nil, List.cons_append, List.nil_append]
  rw [readPieces_digit hlead, if_neg (by decide),
    readPieces_digit (Nat.mod_lt _ (by decide)), if_neg (by decide),
    readPieces_digit (Nat.mod_lt _ (by decide)), if_neg (by decide),
    readPieces_digit (Nat.mod_lt _ (by decide)), if_pos (by decide), hcode]

/-- A letter is read as the byte for which it stands. -/
theorem escaped?_of_escapeLetter? {b : UInt8} {letter : Char} (h : escapeLetter? b = some letter) :
    UInt8.ofNat letter.toNat ≠ 0x75 ∧ escaped? (.ofNat letter.toNat) = some b := by
  unfold escapeLetter? at h
  split_ifs at h <;> simp only [Option.some.injEq] at h <;> subst h <;> simp_all <;> decide

/-- A piece is read as it is written. -/
theorem readPieces_write {p : Piece} (hp : p.Readable) (found : List Piece) (rest : Bytes) :
    readPieces found .plain (p.write ++ rest) = readPieces (p :: found) .plain rest := by
  cases p with
  | byte b =>
    rw [Piece.write]
    cases hletter : escapeLetter? b with
    | some letter =>
      -- a backslash and a letter other than that of a code unit
      obtain ⟨hne, hescaped⟩ := escaped?_of_escapeLetter? hletter
      show readPieces found .escape (UInt8.ofNat letter.toNat :: rest) = _
      rw [readPieces]
      simp only [if_neg hne, hescaped]
    | none =>
      have hb : ¬ b < 0x20 := by
        rw [Piece.Readable, hletter] at hp
        simpa using hp
      have hquote : b ≠ 0x22 := by rintro rfl; exact absurd hletter (by decide)
      have hslash : b ≠ 0x5C := by rintro rfl; exact absurd hletter (by decide)
      show readPieces found .plain (b :: rest) = _
      rw [readPieces]
      simp only [if_neg hquote, if_neg hslash, if_neg hb]
  | unit code =>
    exact readPieces_hexFour hp rest

/-- The pieces of a string are read up to its closing mark. -/
theorem readPieces_writeAll {pieces : List Piece} (rest : Bytes) :
    ∀ {found : List Piece}, (∀ p ∈ pieces, p.Readable) →
      readPieces found .plain (pieces.flatMap Piece.write ++ 0x22 :: rest) =
        some (found.reverse ++ pieces, rest) := by
  induction pieces with
  | nil =>
    intro found _
    rw [List.append_nil]
    rfl
  | cons p pieces ih =>
    intro found h
    obtain ⟨hp, hpieces⟩ := List.forall_mem_cons.1 h
    rw [List.flatMap_cons, List.append_assoc, readPieces_write hp, ih hpieces,
      List.reverse_cons, List.append_assoc]
    rfl

/-! ## Numbers -/

/-- What may stand behind a number that another value follows or that ends an array, an object or
the text. -/
def Stops (rest : Bytes) : Prop :=
  rest = [] ∨ ∃ b more, rest = b :: more ∧ (b = 0x2C ∨ b = 0x5D ∨ b = 0x7D)

namespace Stops

variable {rest : Bytes} (h : Stops rest)

include h

/-- No digits go on behind the end of a value. -/
theorem takeWhile_isDigit : rest.takeWhile isDigit = [] := by
  rcases h with rfl | ⟨b, more, rfl, rfl | rfl | rfl⟩ <;> rfl

/-- Behind the end of a value there are no digits to drop. -/
theorem dropWhile_isDigit : rest.dropWhile isDigit = rest := by
  rcases h with rfl | ⟨b, more, rfl, rfl | rfl | rfl⟩ <;> rfl

/-- Behind the end of a value there is no fraction. -/
theorem readFraction : readFraction rest = some ([], rest) := by
  rcases h with rfl | ⟨b, more, rfl, rfl | rfl | rfl⟩ <;> rfl

/-- Behind the end of a value there is no exponent. -/
theorem readExponent : readExponent rest = some ([], rest) := by
  rcases h with rfl | ⟨b, more, rfl, rfl | rfl | rfl⟩ <;> rfl

end Stops

/-- A comma or a closing bracket ends a value. -/
theorem stops_cons {b : UInt8} (h : b = 0x2C ∨ b = 0x5D ∨ b = 0x7D) (more : Bytes) :
    Stops (b :: more) :=
  Or.inr ⟨b, more, rfl, h⟩

section Digits

variable {c : Char}

/-- The byte of a digit is its code point, which lies between those of zero and nine. -/
theorem toNat_ascii_of_isDigit (h : c.isDigit = true) :
    (UInt8.ofNat c.toNat).toNat = c.toNat ∧ 48 ≤ c.toNat ∧ c.toNat ≤ 57 := by
  obtain ⟨hlo, hhi⟩ : 48 ≤ c.toNat ∧ c.toNat ≤ 57 := Char.isDigit_iff_toNat.1 h
  refine ⟨?_, hlo, hhi⟩
  rw [UInt8.toNat_ofNat']
  omega

/-- The byte of a digit is read as a digit. -/
theorem isDigit_ascii (h : c.isDigit = true) : isDigit (.ofNat c.toNat) = true := by
  obtain ⟨hnat, hlo, hhi⟩ := toNat_ascii_of_isDigit h
  simp only [isDigit, Bool.and_eq_true, decide_eq_true_eq, UInt8.le_iff_toNat_le, hnat]
  exact ⟨hlo, hhi⟩

/-- A digit is not a byte that is no digit. -/
theorem ne_of_isDigit {b b' : UInt8} (h : isDigit b = true) (h' : isDigit b' = false) :
    b ≠ b' := by
  rintro rfl
  exact absurd (h.symm.trans h') (by decide)

/-- A digit is no blank. -/
theorem isBlank_of_isDigit {b : UInt8} (h : isDigit b = true) : isBlank b = false := by
  simp only [isBlank, Bool.or_eq_false_iff, decide_eq_false_iff_not]
  exact ⟨⟨⟨ne_of_isDigit h rfl, ne_of_isDigit h rfl⟩, ne_of_isDigit h rfl⟩, ne_of_isDigit h rfl⟩

/-- A digit is read back from its byte. -/
theorem ofNat_ascii (h : c.isDigit = true) :
    Char.ofNat (UInt8.ofNat c.toNat).toNat = c := by
  rw [(toNat_ascii_of_isDigit h).1, Char.ofNat_toNat]

end Digits

/-- A numeral that is read as it is written: digits, the first of which is a zero only if it is the
only one. -/
structure Numeral (text : List Char) : Prop where
  ne_nil : text ≠ []
  isDigit : ∀ c ∈ text, c.isDigit = true
  no_lead : text.head? = some '0' → text.length = 1

/-- The digits of a positive number do not begin with zero. -/
theorem head?_toDigits {n : Nat} (h : 0 < n) : (Nat.toDigits 10 n).head? ≠ some '0' := by
  induction n using Nat.strongRecOn with
  | ind n ih =>
    by_cases hn : n < 10
    · rw [Nat.toDigits_of_lt_base hn]
      interval_cases n <;> decide
    · have hlead := ih (n / 10) (by omega) (by omega)
      rw [Nat.toDigits_of_base_le (by decide) (Nat.le_of_not_lt hn), List.head?_append]
      rwa [Option.or_of_isSome (by simp)]

/-- The decimal digits of a number are a numeral of JSON, without zeros in front. -/
theorem numeral_toDigits (n : Nat) : Numeral (Nat.toDigits 10 n) where
  ne_nil := Nat.toDigits_ne_nil
  isDigit _ h := Nat.isDigit_of_mem_toDigits (by decide) (by decide) h
  no_lead h := by
    rcases Nat.eq_zero_or_pos n with rfl | hn
    · rfl
    · exact absurd h (head?_toDigits hn)

/-- Digits are read up to the end of the value. -/
theorem readDigits_append {digits rest : Bytes} (hne : digits ≠ [])
    (hdigits : ∀ b ∈ digits, isDigit b = true) (hrest : Stops rest) :
    readDigits (digits ++ rest) = some (digits, rest) := by
  have htake : (digits ++ rest).takeWhile isDigit = digits := by
    rw [List.takeWhile_append_of_pos hdigits, hrest.takeWhile_isDigit, List.append_nil]
  have hdrop : (digits ++ rest).dropWhile isDigit = rest := by
    rw [List.dropWhile_append_of_pos hdigits]
    exact hrest.dropWhile_isDigit
  rw [readDigits, List.span_eq_takeWhile_dropWhile, htake, hdrop]
  simp [hne]

/-- A numeral is read up to where it stops. -/
theorem readNumber_ascii {text : List Char} (h : Numeral text) {rest : Bytes} (hrest : Stops rest) :
    readNumber (ascii text ++ rest) = some (.number text, rest) := by
  have hdigits : ∀ b ∈ ascii text, isDigit b = true := by
    intro b hb
    obtain ⟨c, hc, rfl⟩ := List.mem_map.1 hb
    exact isDigit_ascii (h.isDigit c hc)
  have hread : readDigits (ascii text ++ rest) = some (ascii text, rest) :=
    readDigits_append (by simpa [ascii] using h.ne_nil) hdigits hrest
  have hback : (ascii text).map (fun b => Char.ofNat b.toNat) = text := by
    rw [ascii, List.map_map]
    exact (List.map_congr_left fun c hc => ofNat_ascii (h.isDigit c hc)).trans (List.map_id' text)
  have hwhole : readWhole (ascii text ++ rest) = some (ascii text, rest) := by
    have hlead : (ascii text).head? = some 0x30 → (ascii text).length = 1 := by
      intro hhead
      rw [ascii, List.length_map]
      refine h.no_lead ?_
      rw [← hback, List.head?_map, hhead]
      rfl
    rw [readWhole, hread]
    simpa using hlead
  rw [readNumber, hwhole]
  · simp [hrest.readFraction, hrest.readExponent, hback]
  · -- a digit is no sign
    intro more hmore
    obtain ⟨c, cs, rfl⟩ := List.exists_cons_of_ne_nil h.ne_nil
    have hsign := hdigits _ List.mem_cons_self
    rw [(List.cons.inj hmore).1] at hsign
    exact absurd hsign (by decide)

/-! ## Values -/

/-- Nothing is skipped in front of a byte that is no blank. -/
theorem skipBlanks_cons {b : UInt8} (h : isBlank b = false) (more : Bytes) :
    skipBlanks (b :: more) = b :: more := by
  rw [skipBlanks, List.dropWhile_cons_of_neg (by simp [h])]

/-- The values that are read as they are written: their numbers are numerals, and their strings
consist of pieces that may stand in a string. -/
inductive Readable : Json → Prop
  | null : Readable .null
  | bool (b : Bool) : Readable (.bool b)
  | number {text : List Char} (h : Numeral text) : Readable (.number text)
  | string {pieces : List Piece} (h : ∀ p ∈ pieces, p.Readable) : Readable (.string pieces)
  | array {items : List Json} (h : ∀ v ∈ items, Readable v) : Readable (.array items)
  | object {fields : List (List Piece × Json)} (hnames : ∀ f ∈ fields, ∀ p ∈ f.1, p.Readable)
      (hvalues : ∀ f ∈ fields, Readable f.2) : Readable (.object fields)

/-- With a step of fuel for each of its bytes and one more, a value is read up to where it stops. -/
def ReadsBack (v : Json) : Prop :=
  ∀ (fuel : Nat) (rest : Bytes), v.write.length < fuel → Stops rest →
    readValue fuel (v.write ++ rest) = some (v, rest)

/-- To be read back with more fuel than it has bytes, a value may spend the first unit at once. -/
theorem ReadsBack.of_succ {v : Json} (h : ∀ (fuel : Nat) (rest : Bytes), v.write.length ≤ fuel →
    Stops rest → readValue (fuel + 1) (v.write ++ rest) = some (v, rest)) : v.ReadsBack := by
  intro fuel rest hfuel hrest
  obtain ⟨fuel, rfl⟩ : ∃ n, fuel = n + 1 := ⟨fuel - 1, by omega⟩
  exact h fuel rest (Nat.le_of_lt_succ hfuel) hrest

/-- A value begins with a byte that is not blank and ends no array. -/
theorem Readable.exists_head {v : Json} (h : v.Readable) :
    ∃ b more, v.write = b :: more ∧ isBlank b = false ∧ b ≠ 0x5D := by
  cases h with
  | null => exact ⟨_, _, by rw [write]; rfl, by decide, by decide⟩
  | bool b => cases b <;> exact ⟨_, _, by rw [write]; rfl, by decide, by decide⟩
  | @number text h =>
    obtain ⟨c, cs, rfl⟩ := List.exists_cons_of_ne_nil h.ne_nil
    have hdigit := isDigit_ascii (h.isDigit c List.mem_cons_self)
    exact ⟨_, _, by rw [write, ascii, List.map_cons], isBlank_of_isDigit hdigit,
      ne_of_isDigit hdigit rfl⟩
  | string h => exact ⟨_, _, by rw [write]; rfl, by decide, by decide⟩
  | array h => exact ⟨_, _, by rw [write], by decide, by decide⟩
  | object h => exact ⟨_, _, by rw [write], by decide, by decide⟩

/-- Items are separated by commas. -/
theorem writeItems_cons_cons (v w : Json) (rest : List Json) :
    writeItems (v :: w :: rest) = write v ++ 0x2C :: writeItems (w :: rest) := by
  rw [writeItems]
  simp

/-- Items that are read back one by one are read back up to the closing bracket. -/
theorem readItems_writeItems {items : List Json} (rest : Bytes) :
    ∀ {fuel : Nat} {found : List Json}, items ≠ [] → (∀ v ∈ items, v.ReadsBack) →
      (writeItems items).length + 1 < fuel →
      readItems fuel found (writeItems items ++ 0x5D :: rest) =
        some (.array (found.reverse ++ items), rest) := by
  induction items with
  | nil => intro fuel found hne; exact absurd rfl hne
  | cons v items ih =>
    intro fuel found _ hread hfuel
    obtain ⟨hv, hitems⟩ := List.forall_mem_cons.1 hread
    obtain ⟨fuel, rfl⟩ : ∃ n, fuel = n + 1 := ⟨fuel - 1, by omega⟩
    cases items with
    | nil =>
      rw [writeItems] at hfuel ⊢
      -- the last item, with the closing bracket behind it
      rw [readItems, hv _ _ (by omega) (stops_cons (by decide) _)]
      simp [skipBlanks, isBlank]
    | cons w items =>
      rw [writeItems_cons_cons] at hfuel ⊢
      rw [List.length_append, List.length_cons] at hfuel
      -- the item counts for the fuel, and so does the comma
      have hrest := @ih fuel (v :: found) (by simp) hitems (by omega)
      rw [readItems, List.append_assoc, List.cons_append,
        hv _ _ (by omega) (stops_cons (by decide) _)]
      simp [skipBlanks, isBlank, hrest]

/-- Fields are separated by commas, and a colon stands between a name and its value. -/
theorem writeFields_cons_cons (name : List Piece) (v : Json) (f : List Piece × Json)
    (rest : List (List Piece × Json)) :
    writeFields ((name, v) :: f :: rest) =
      writeString name ++ 0x3A :: (write v ++ 0x2C :: writeFields (f :: rest)) := by
  rw [writeFields]
  simp

/-- A name is read up to its closing mark, and the colon behind it is found. -/
theorem readPieces_writeString {name : List Piece} (h : ∀ p ∈ name, p.Readable) (rest : Bytes) :
    ∃ more, writeString name ++ rest = 0x22 :: more ∧
      readPieces [] .plain more = some (name, rest) := by
  refine ⟨name.flatMap Piece.write ++ 0x22 :: rest, by simp [writeString], ?_⟩
  exact readPieces_writeAll rest h

/-- Behind a field the reader goes on if there is a comma, and stops at the closing brace. -/
theorem readFields_field {name : List Piece} {v : Json} (hname : ∀ p ∈ name, p.Readable)
    (hv : v.ReadsBack) {fuel : Nat} (hfuel : v.write.length < fuel)
    (found : List (List Piece × Json)) (rest : Bytes) :
    readFields (fuel + 1) found (writeString name ++ 0x3A :: (write v ++ 0x2C :: rest)) =
        readFields fuel ((name, v) :: found) rest ∧
      readFields (fuel + 1) found (writeString name ++ 0x3A :: (write v ++ 0x7D :: rest)) =
        some (.object ((name, v) :: found).reverse, rest) := by
  have hcolon : ∀ more, skipBlanks (0x3A :: more) = 0x3A :: more := skipBlanks_cons rfl
  have hvalue : ∀ b : UInt8, b = 0x2C ∨ b = 0x5D ∨ b = 0x7D →
      readValue fuel (write v ++ b :: rest) = some (v, b :: rest) :=
    fun b hb => hv fuel (b :: rest) hfuel (stops_cons hb rest)
  -- the same reading up to the byte behind the value: a comma goes on, a brace ends it
  constructor
  · obtain ⟨more, hmore, hread⟩ := readPieces_writeString hname (0x3A :: (write v ++ 0x2C :: rest))
    rw [hmore, readFields, skipBlanks_cons rfl]
    simp only [hread, hcolon, hvalue 0x2C (by decide)]
    rfl
  · obtain ⟨more, hmore, hread⟩ := readPieces_writeString hname (0x3A :: (write v ++ 0x7D :: rest))
    rw [hmore, readFields, skipBlanks_cons rfl]
    simp only [hread, hcolon, hvalue 0x7D (by decide)]
    rfl

/-- Fields that are read back one by one are read back up to the closing brace. -/
theorem readFields_writeFields {fields : List (List Piece × Json)} (rest : Bytes) :
    ∀ {fuel : Nat} {found : List (List Piece × Json)}, fields ≠ [] →
      (∀ f ∈ fields, ∀ p ∈ f.1, p.Readable) → (∀ f ∈ fields, f.2.ReadsBack) →
        (writeFields fields).length + 1 < fuel →
          readFields fuel found (writeFields fields ++ 0x7D :: rest) =
            some (.object (found.reverse ++ fields), rest) := by
  induction fields with
  | nil => intro fuel found hne; exact absurd rfl hne
  | cons f fields ih =>
    intro fuel found _ hnames hvalues hfuel
    obtain ⟨name, v⟩ := f
    rw [List.forall_mem_cons] at hnames hvalues
    obtain ⟨hname : ∀ p ∈ name, p.Readable, hnames⟩ := hnames
    obtain ⟨hv : v.ReadsBack, hvalues⟩ := hvalues
    obtain ⟨fuel, rfl⟩ : ∃ n, fuel = n + 1 := ⟨fuel - 1, by omega⟩
    cases fields with
    | nil =>
      rw [writeFields] at hfuel ⊢
      rw [List.length_append, List.length_cons] at hfuel
      -- the last field, with the closing brace behind it
      rw [List.append_assoc, List.cons_append, (readFields_field hname hv (by omega) _ _).2,
        List.reverse_cons]
    | cons f fields =>
      rw [writeFields_cons_cons] at hfuel ⊢
      simp only [List.length_append, List.length_cons] at hfuel
      rw [List.append_assoc, List.cons_append, List.append_assoc, List.cons_append,
        (readFields_field hname hv (by omega) _ _).1, ih (by simp) hnames hvalues (by omega),
        List.reverse_cons, List.append_assoc]
      rfl

/-- What is written for items begins neither with a blank nor with the bracket that closes an array.
-/
theorem exists_head_writeItems {v : Json} (items : List Json) (h : v.Readable) :
    ∃ b more, writeItems (v :: items) = b :: more ∧ isBlank b = false ∧ b ≠ 0x5D := by
  obtain ⟨b, more, hmore, hb⟩ := h.exists_head
  cases items with
  | nil => exact ⟨b, more, by rw [writeItems, hmore], hb⟩
  | cons w items => exact ⟨b, _, by rw [writeItems_cons_cons, hmore, List.cons_append], hb⟩

/-- What is written for fields begins with a quote. -/
theorem exists_head_writeFields (f : List Piece × Json) (fields : List (List Piece × Json)) :
    ∃ more, writeFields (f :: fields) = 0x22 :: more := by
  obtain ⟨name, v⟩ := f
  cases fields with
  | nil => exact ⟨_, by rw [writeFields, writeString, List.cons_append]⟩
  | cons g fields => exact ⟨_, by rw [writeFields_cons_cons, writeString, List.cons_append]⟩

/-- A value that begins with a digit is a number. -/
theorem readValue_of_isDigit {b : UInt8} (h : isDigit b = true) (fuel : Nat) (more : Bytes) :
    readValue (fuel + 1) (b :: more) = readNumber (b :: more) := by
  have hne : ∀ {b' : UInt8} {more' : Bytes}, isDigit b' = false → b :: more ≠ b' :: more' :=
    fun h' heq => ne_of_isDigit h h' (List.cons.inj heq).1
  rw [readValue, skipBlanks_cons (isBlank_of_isDigit h)]
  split
  · rename_i heq; exact absurd heq (hne rfl)
  · rename_i heq; exact absurd heq (hne rfl)
  · rename_i heq; exact absurd heq (hne rfl)
  · rw [readScalar]
    · intro rest heq; exact absurd heq (hne rfl)
    · intro rest heq; exact absurd heq (hne rfl)
    · intro rest heq; exact absurd heq (hne rfl)

/-- Behind the bracket that opens an array its items are read. -/
theorem readValue_array {b : UInt8} (hblank : isBlank b = false) (hb : b ≠ 0x5D) (fuel : Nat)
    (more : Bytes) :
    readValue (fuel + 1) (0x5B :: b :: more) = readItems fuel [] (b :: more) := by
  rw [readValue, skipBlanks_cons rfl]
  simp only [skipBlanks_cons hblank]
  split
  · rename_i heq; exact absurd (List.cons.inj heq).1 hb
  · rfl

/-- Values of the readable kind are read as they are written: by induction on the value, since the
brackets around its parts leave each of them less text than there is fuel. -/
theorem Readable.readsBack {v : Json} (h : v.Readable) : v.ReadsBack := by
  induction h with
  | null =>
    refine .of_succ fun fuel rest hfuel _ => ?_
    rw [write, readValue]
    rfl
  | bool b =>
    refine .of_succ fun fuel rest hfuel _ => ?_
    cases b <;> rw [write, readValue] <;> rfl
  | @number text h =>
    refine .of_succ fun fuel rest _ hrest => ?_
    -- the first digit tells that a number follows
    obtain ⟨c, cs, rfl⟩ := List.exists_cons_of_ne_nil h.ne_nil
    have hdigit := isDigit_ascii (h.isDigit c List.mem_cons_self)
    have hread := readNumber_ascii h hrest
    rw [write]
    exact (readValue_of_isDigit hdigit fuel _).trans hread
  | @string pieces h =>
    refine .of_succ fun fuel rest hfuel _ => ?_
    obtain ⟨more, hmore, hread⟩ := readPieces_writeString h rest
    rw [write, hmore, readValue, skipBlanks_cons rfl]
    simp only [hread]
  | @array items h ih =>
    refine .of_succ fun fuel rest hfuel _ => ?_
    rw [write] at hfuel ⊢
    simp only [List.length_append, List.length_cons, List.length_nil] at hfuel
    rw [List.cons_append, List.append_assoc]
    cases items with
    | nil =>
      rw [writeItems, readValue]
      rfl
    | cons v items =>
      -- the first byte of an item does not close the array
      obtain ⟨b, more, hmore, hblank, hb⟩ := exists_head_writeItems items (h v List.mem_cons_self)
      have hread := @readItems_writeItems _ rest fuel [] (by simp) ih (by omega)
      rw [hmore] at hread ⊢
      exact (readValue_array hblank hb fuel _).trans hread
  | @object fields hnames hvalues ih =>
    refine .of_succ fun fuel rest hfuel _ => ?_
    rw [write] at hfuel ⊢
    simp only [List.length_append, List.length_cons, List.length_nil] at hfuel
    rw [List.cons_append, List.append_assoc]
    cases fields with
    | nil =>
      rw [writeFields, readValue]
      rfl
    | cons f fields =>
      obtain ⟨more, hmore⟩ := exists_head_writeFields f fields
      have hread := @readFields_writeFields _ rest fuel [] (by simp) hnames ih (by omega)
      rw [hmore] at hread ⊢
      rw [readValue]
      exact hread

/-- The reader undoes the printer. -/
theorem parse_write {v : Json} (h : v.Readable) : parse v.write = some v := by
  have hread : readValue (2 * v.write.length + 2) v.write = some (v, []) := by
    simpa using h.readsBack (2 * v.write.length + 2) [] (by omega) (Or.inl rfl)
  rw [parse, hread]
  rfl

/-! ## Texts -/

/-- The piece that stands for a byte of a text. -/
def pieceOfByte (b : UInt8) : Piece :=
  if b < 0x20 ∧ (escapeLetter? b).isNone then .unit b.toNat else .byte b

/-- The pieces of a text are those of its bytes, one by one. -/
theorem piecesOfText_eq (text : String) :
    piecesOfText text = (Text.encode text).map pieceOfByte := rfl

/-- The piece of a byte can be read back. -/
theorem readable_pieceOfByte (b : UInt8) : (pieceOfByte b).Readable := by
  unfold pieceOfByte
  split
  · rename_i h
    exact Nat.lt_trans (UInt8.lt_iff_toNat_lt.1 h.1) (by decide)
  · rename_i h
    rw [Piece.Readable]
    by_cases hb : b < 0x20
    · right
      simpa [hb, Option.isSome_iff_ne_none] using h
    · left
      simpa using hb

/-- The pieces of a text can be read back. -/
theorem readable_piecesOfText (text : String) : ∀ p ∈ piecesOfText text, p.Readable :=
  List.forall_mem_map.2 fun b _ => readable_pieceOfByte b

/-- A control character is one byte. -/
theorem bytesOfCode_of_lt : ∀ n < 0x20, bytesOfCode n = [.ofNat n] := by
  decide

/-- The piece of a byte stands for this byte, whatever follows. -/
theorem bytesOfPieces_pieceOfByte (b : UInt8) (rest : List Piece) :
    bytesOfPieces (pieceOfByte b :: rest) = (bytesOfPieces rest).map (b :: ·) := by
  unfold pieceOfByte
  split
  · rename_i h
    have hb : b.toNat < 0x20 := UInt8.lt_iff_toNat_lt.1 h.1
    rw [bytesOfPieces.eq_def]
    dsimp only
    rw [if_neg (by omega), if_neg (by omega), bytesOfCode_of_lt _ hb, UInt8.ofNat_toNat]
    rfl
  · rw [bytesOfPieces]

/-- The pieces of some bytes stand for these bytes. -/
theorem bytesOfPieces_map (bytes : Bytes) : bytesOfPieces (bytes.map pieceOfByte) = some bytes := by
  induction bytes with
  | nil => rfl
  | cons b bytes ih => rw [List.map_cons, bytesOfPieces_pieceOfByte, ih]; rfl

/-- The text of the string that is made for a text. -/
theorem textOfPieces_piecesOfText (text : String) :
    textOfPieces (piecesOfText text) = some text := by
  rw [textOfPieces, piecesOfText_eq, bytesOfPieces_map]
  show (Text.decode (Text.encode text)).toOption = some text
  rw [Text.decode_eq_ok_iff.2 rfl]
  rfl

end MaximalMunch.Json
