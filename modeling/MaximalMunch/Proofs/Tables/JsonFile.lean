import MaximalMunch.Proofs.Json.RoundTrip
import MaximalMunch.Proofs.Tables.Validity
import MaximalMunch.Tables.JsonFile

/-!
# Tables in JSON

The file that is written for tables is read back: each of the seven fields is recovered from its
value, and the whole is checked as other tables are.
-/

namespace MaximalMunch.Tables

open Json (Readable numeral_toDigits)

/-- A word is written as a number that can be read back. -/
theorem readable_jsonOfWord (w : UInt32) : (jsonOfWord w).Readable :=
  .number (numeral_toDigits w.toNat)

/-- A class range is written as an array that can be read back. -/
theorem readable_jsonOfRange (r : ClassRange) : (jsonOfRange r).Readable := by
  refine .array fun v hv => ?_
  simp only [List.mem_cons, List.not_mem_nil, or_false] at hv
  rcases hv with rfl | rfl | rfl <;> exact readable_jsonOfWord _

/-- A text is written as a string that can be read back. -/
theorem readable_ofText (text : String) : (Json.ofText text).Readable :=
  .string (Json.readable_piecesOfText text)

/-- Arrays of values that are read back are read back. -/
theorem readable_array_map {α : Type} {f : α → Json} (hf : ∀ a, (f a).Readable) (as : List α) :
    (Json.array (as.map f)).Readable :=
  .array (List.forall_mem_map.2 fun a _ => hf a)

/-- The object that is written for tables can be read back, field by field. -/
theorem readable_toJson (t : Tables) : t.toJson.Readable := by
  refine .object (fun f hf => ?_) (fun f hf => ?_)
  · -- the names of the fields
    obtain ⟨name, -, hname⟩ := List.mem_map.1 (List.of_mem_zip hf).1
    rw [← hname]
    exact Json.readable_piecesOfText name
  · -- their values, in the order of the file
    have hvalue := (List.of_mem_zip hf).2
    simp only [fieldValues, List.mem_cons, List.not_mem_nil, or_false] at hvalue
    rcases hvalue with h | h | h | h | h | h | h <;> rw [h]
    · exact readable_array_map readable_jsonOfWord _
    · exact readable_array_map readable_jsonOfRange _
    · exact readable_jsonOfWord _
    · exact readable_array_map readable_jsonOfWord _
    · exact readable_array_map readable_jsonOfWord _
    · exact readable_array_map readable_ofText _
    · exact readable_jsonOfWord _

/-- A word is read back from its number. -/
theorem wordOfJson?_jsonOfWord (w : UInt32) : wordOfJson? (jsonOfWord w) = some w := by
  have hdigits : (Nat.toDigits 10 w.toNat).all Char.isDigit = true :=
    List.all_eq_true.2 (numeral_toDigits w.toNat).isDigit
  rw [wordOfJson?, jsonOfWord, Json.ofNat, Json.toNat?, if_pos hdigits,
    Nat.ofDigitChars_ten_toDigits]
  show (if w.toNat < UInt32.size then _ else _) = _
  rw [if_pos w.toNat_lt, UInt32.ofNat_toNat]

/-- Items that are read one by one are read together. -/
theorem mapM_map_of_some {α : Type} {f : α → Json} {g : Json → Option α}
    (h : ∀ a, g (f a) = some a) (as : List α) : (as.map f).mapM g = some as := by
  induction as with
  | nil => rfl
  | cons a as ih =>
    rw [List.map_cons, List.mapM_cons, h, ih]
    rfl

/-- Words are read back from an array. -/
theorem wordsOfJson?_array (ws : List UInt32) :
    wordsOfJson? (.array (ws.map jsonOfWord)) = some ws :=
  mapM_map_of_some wordOfJson?_jsonOfWord ws

/-- A class range is read back from its three numbers. -/
theorem rangeOfJson?_jsonOfRange (r : ClassRange) : rangeOfJson? (jsonOfRange r) = some r := by
  have hwords : jsonOfRange r = .array ([r.lo, r.hi, r.classId].map jsonOfWord) := rfl
  rw [rangeOfJson?, hwords, wordsOfJson?_array]
  rfl

/-- A list of the right length is a vector. -/
theorem vectorOfList?_toList {n : Nat} (v : Vector UInt32 n) :
    vectorOfList? n v.toList = some v := by
  rw [vectorOfList?, dif_pos v.length_toList, Option.some_inj, ← Vector.toArray_inj]
  exact v.toArray.toArray_toList

/-- Tables are read back from the values of their fields. -/
theorem ofFieldValues?_fieldValues (t : Tables) : ofFieldValues? t.fieldValues = some t := by
  have htexts := mapM_map_of_some (f := Json.ofText) (g := Json.text?)
    Json.textOfPieces_piecesOfText t.tokenNames.toList
  simp only [fieldValues, ofFieldValues?, wordsOfJson?_array, wordOfJson?_jsonOfWord, Json.items?,
    vectorOfList?_toList, mapM_map_of_some rangeOfJson?_jsonOfRange, htexts, Option.bind_eq_bind,
    Option.bind_some, Array.toArray_toList]

/-- Tables are read back from their object: each field is found under its name, once. -/
theorem ofJson?_toJson (t : Tables) : ofJson? t.toJson = some t := by
  have hnames : ((fieldNames.map Json.piecesOfText).zip t.fieldValues).mapM
      (fun field => (Json.textOfPieces field.1).bind fun name => some (name, field.2)) =
        some (fieldNames.zip t.fieldValues) := by
    simp [fieldNames, fieldValues, Json.textOfPieces_piecesOfText]
  have hvalues : fieldNames.mapM (uniqueField? (fieldNames.zip t.fieldValues)) =
      some t.fieldValues := by
    simp [fieldNames, fieldValues, uniqueField?]
  calc ofJson? t.toJson
      = (some (fieldNames.zip t.fieldValues)).bind fun fields =>
          (fieldNames.mapM (uniqueField? fields)).bind ofFieldValues? := by rw [← hnames]; rfl
    _ = (some t.fieldValues).bind ofFieldValues? := by rw [Option.bind_some, hvalues]
    _ = some t := ofFieldValues?_fieldValues t

/-- The file that is written for tables is JSON. Reading it gives the tables again if they are
valid, and otherwise it fails with the words of the fault that they have. -/
theorem ofJsonFile_toJsonFile (t : Tables) :
    Json.parse t.toJsonFile = some t.toJson ∧
      match t.validate with
      | .ok _ => ofJsonFile t.toJsonFile = .ok t
      | .error fault =>
        ∃ e, ofJsonFile t.toJsonFile = .error e ∧ e.message = fault.message := by
  have hparse : Json.parse t.toJsonFile = some t.toJson := Json.parse_write (readable_toJson t)
  have hload : ofJsonFile t.toJsonFile = t.validate.mapError .invalid := by
    rw [ofJsonFile, hparse, Option.bind_eq_bind, Option.bind_some, ofJson?_toJson]
  refine ⟨hparse, ?_⟩
  rw [hload]
  cases hvalidate : t.validate with
  | error fault => exact ⟨_, rfl, rfl⟩
  | ok t' =>
    obtain ⟨-, rfl⟩ := validate_eq_ok_iff.1 hvalidate
    rfl

end MaximalMunch.Tables
