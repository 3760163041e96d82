import Mathlib.Data.List.Basic
import MaximalMunch.Text.Lines
import MaximalMunch.Text.Utf8

/-!
# Lines of bytes and lines of text

Feed and return are single bytes that occur in no other character's encoding. So it makes no
difference whether bytes are cut into lines and then decoded or decoded and then cut
(`lines_encode`). Bytes that are not UTF-8 have a first line that is not (`exists_firstBadLine`);
their lines are those of the text before it, a line that is not UTF-8, and others
(`FirstBadLine.exists_lines_eq`).
-/

namespace MaximalMunch.Text

/-! ## Cutting at feeds -/

section Cutting

variable {α : Type} {feed ret : α} {xs ys : List α}

/-- The list is empty or its last line has ended. -/
def Ended (feed : α) (xs : List α) : Prop :=
  xs = [] ∨ xs.getLast? = some feed

/-- A list without line feeds has ended only if it is empty. -/
theorem Ended.eq_nil (h : Ended feed xs) (hxs : feed ∉ xs) : xs = [] :=
  h.resolve_right fun hlast => hxs (List.mem_of_getLast? hlast)

/-- Whether the last line has ended is seen behind any line feed. -/
theorem ended_append_feed_iff : Ended feed (xs ++ feed :: ys) ↔ Ended feed ys := by
  cases ys with
  | nil => simp [Ended]
  | cons y ys => simp [Ended, List.getLast?_append]

variable [DecidableEq α]

/-- Without a line feed what is left is one line, if there is anything. -/
theorem linesFrom_of_notMem (h : feed ∉ xs) (line : List α) :
    linesFrom feed ret line xs =
      if line.reverse ++ xs = [] then [] else [line.reverse ++ xs] := by
  induction xs generalizing line with
  | nil => cases line <;> simp [linesFrom]
  | cons x xs ih =>
    have hx : x ≠ feed := fun heq => h (by simp [heq])
    rw [linesFrom, if_neg hx, ih (fun hmem => h (List.mem_cons_of_mem x hmem))]
    simp

/-- The first line ends at the first line feed. -/
theorem linesFrom_append_feed (h : feed ∉ xs) (line : List α) :
    linesFrom feed ret line (xs ++ feed :: ys) =
      dropReturn ret (line.reverse ++ xs) :: lines feed ret ys := by
  induction xs generalizing line with
  | nil => simp [linesFrom, lines]
  | cons x xs ih =>
    have hx : x ≠ feed := fun heq => h (by simp [heq])
    rw [List.cons_append, linesFrom, if_neg hx, ih (fun hmem => h (List.mem_cons_of_mem x hmem))]
    simp

/-- Without a feed all is one line, unless there is nothing. -/
theorem lines_of_notMem (h : feed ∉ xs) :
    lines feed ret xs = if xs = [] then [] else [xs] :=
  linesFrom_of_notMem h []

/-- The first feed ends the first line. -/
theorem lines_append_feed (h : feed ∉ xs) :
    lines feed ret (xs ++ feed :: ys) = dropReturn ret xs :: lines feed ret ys :=
  linesFrom_append_feed h []

/-- A list has no feed, or it is a line, a feed and a shorter list. -/
theorem cutting_induction {P : List α → Prop} (feed : α) (last : ∀ xs, feed ∉ xs → P xs)
    (more : ∀ xs ys, feed ∉ xs → P ys → P (xs ++ feed :: ys)) (xs : List α) : P xs := by
  induction hn : xs.length using Nat.strongRecOn generalizing xs with
  | _ n ih =>
    by_cases h : feed ∈ xs
    · obtain ⟨line, rest, rfl, hline⟩ := List.eq_append_cons_of_mem h
      refine more line rest hline (ih rest.length ?_ rest rfl)
      rw [← hn, List.length_append, List.length_cons]
      omega
    · exact last xs h

/-- What has ended takes up whole lines of its own. -/
theorem lines_append (h : Ended feed xs) (ys : List α) :
    lines feed ret (xs ++ ys) = lines feed ret xs ++ lines feed ret ys := by
  induction xs using cutting_induction feed with
  | last xs hxs =>
    rw [h.eq_nil hxs]
    rfl
  | more line rest hline ih =>
    rw [List.append_assoc, List.cons_append, lines_append_feed hline, lines_append_feed hline,
      ih (ended_append_feed_iff.1 h), List.cons_append]

/-- What has ended has as many lines as feeds. -/
theorem length_lines (h : Ended feed xs) : (lines feed ret xs).length = xs.count feed := by
  induction xs using cutting_induction feed with
  | last xs hxs =>
    rw [h.eq_nil hxs]
    rfl
  | more line rest hline ih =>
    rw [lines_append_feed hline, List.length_cons, ih (ended_append_feed_iff.1 h),
      List.count_append, List.count_cons_self, List.count_eq_zero_of_not_mem hline, Nat.zero_add]

end Cutting

/-! ## Encoding character by character -/

/-- The bytes that encode some characters. -/
def encodeChars (cs : List Char) : Bytes :=
  cs.flatMap String.utf8EncodeChar

/-- Texts are encoded piece by piece. -/
theorem encodeChars_append (cs ds : List Char) :
    encodeChars (cs ++ ds) = encodeChars cs ++ encodeChars ds :=
  List.flatMap_append

/-- A single character is encoded by its own bytes. -/
theorem encodeChars_singleton (c : Char) : encodeChars [c] = String.utf8EncodeChar c :=
  List.flatMap_singleton _ c

/-- The bytes of a text are those of its characters. -/
theorem encode_ofList (cs : List Char) : encode (String.ofList cs) = encodeChars cs := by
  rw [encode, String.toByteArray_ofList, List.utf8Encode, List.toList_data_toByteArray, encodeChars]

/-- The bytes of a text are those of its characters. -/
theorem encode_eq (text : String) : encode text = encodeChars text.toList := by
  rw [← encode_ofList, String.ofList_toList]

/-- The bytes of a text are those of its parts. -/
theorem encode_append (s t : String) : encode (s ++ t) = encode s ++ encode t := by
  rw [encode_eq, encode_eq, encode_eq, String.toList_append, encodeChars_append]

section Single

variable {a c : Char} {x : UInt8} {cs : List Char}

/-- A character that is encoded as one byte has that byte for itself. -/
theorem mem_utf8EncodeChar_iff (ha : String.utf8EncodeChar a = [x]) :
    x ∈ String.utf8EncodeChar c ↔ c = a := by
  constructor
  · intro hmem
    rw [String.utf8EncodeChar] at ha hmem
    refine Char.toNat_inj.1 ?_
    rw [← Char.toNat_val, ← Char.toNat_val]
    -- the bytes of a longer encoding are all at least 128
    split_ifs at ha <;> split_ifs at hmem <;>
      simp only [List.cons.injEq, reduceCtorEq, and_false, and_true, List.mem_cons,
        List.not_mem_nil, or_false, UInt8.ext_iff, UInt8.toNat_ofNat'] at ha hmem <;> omega
  · rintro rfl
    simp [ha]

/-- The byte of a character that is encoded by one byte comes from this character alone. -/
theorem mem_encodeChars_iff (ha : String.utf8EncodeChar a = [x]) :
    x ∈ encodeChars cs ↔ a ∈ cs := by
  rw [encodeChars, List.mem_flatMap]
  constructor
  · rintro ⟨c, hc, hmem⟩
    rwa [← (mem_utf8EncodeChar_iff ha).1 hmem]
  · intro hmem
    exact ⟨a, hmem, (mem_utf8EncodeChar_iff ha).2 rfl⟩

/-- Such a byte is the last one if the character is. -/
theorem getLast?_encodeChars_iff (ha : String.utf8EncodeChar a = [x]) :
    (encodeChars cs).getLast? = some x ↔ cs.getLast? = some a := by
  rcases cs.eq_nil_or_concat' with rfl | ⟨init, c, rfl⟩
  · simp [encodeChars]
  · rw [encodeChars_append, encodeChars_singleton,
      List.getLast?_append_of_ne_nil _ String.utf8EncodeChar_ne_nil, List.getLast?_concat,
      Option.some_inj]
    constructor
    · intro hlast
      exact (mem_utf8EncodeChar_iff ha).1 (List.mem_of_getLast? hlast)
    · rintro rfl
      rw [ha]
      rfl

/-- So the last line ends in the bytes if it ends in the text. -/
theorem ended_encodeChars_iff (ha : String.utf8EncodeChar a = [x]) :
    Ended x (encodeChars cs) ↔ Ended a cs := by
  refine or_congr ?_ (getLast?_encodeChars_iff ha)
  cases cs <;> simp [encodeChars]

/-- A carriage return may be dropped before or after encoding. -/
theorem dropReturn_encodeChars (ha : String.utf8EncodeChar a = [x]) :
    dropReturn x (encodeChars cs) = encodeChars (dropReturn a cs) := by
  by_cases h : cs.getLast? = some a
  · rw [dropReturn, dropReturn, if_pos h, if_pos ((getLast?_encodeChars_iff ha).2 h)]
    obtain ⟨init, rfl⟩ := List.getLast?_eq_some_iff.1 h
    rw [encodeChars_append, encodeChars_singleton, ha, List.dropLast_concat, List.dropLast_concat]
  · rw [dropReturn, dropReturn, if_neg h, if_neg (mt (getLast?_encodeChars_iff ha).1 h)]

end Single

/-- A line feed is one byte. -/
theorem utf8EncodeChar_feed : String.utf8EncodeChar '\n' = [0x0A] := rfl

/-- A carriage return is one byte. -/
theorem utf8EncodeChar_return : String.utf8EncodeChar '\r' = [0x0D] := rfl

/-- Cutting the encoding of a text into lines gives the encodings of its lines. -/
theorem lines_encodeChars (cs : List Char) :
    lines 0x0A 0x0D (encodeChars cs) = (lines '\n' '\r' cs).map encodeChars := by
  induction cs using cutting_induction '\n' with
  | last cs hcs =>
    rw [lines_of_notMem hcs, lines_of_notMem (mt (mem_encodeChars_iff utf8EncodeChar_feed).1 hcs)]
    cases cs with
    | nil => rfl
    | cons c cs => simp [encodeChars]
  | more line rest hline ih =>
    have hsplit : encodeChars (line ++ '\n' :: rest) =
        encodeChars line ++ 0x0A :: encodeChars rest := encodeChars_append line ('\n' :: rest)
    have hfeed := mt (mem_encodeChars_iff utf8EncodeChar_feed).1 hline
    rw [hsplit, lines_append_feed hline, lines_append_feed hfeed,
      dropReturn_encodeChars utf8EncodeChar_return, ih, List.map_cons]

/-- Cutting the encoding of a text into lines gives the encodings of its lines. -/
theorem lines_encode (text : String) :
    lines 0x0A 0x0D (encode text) = (linesOfText text).map encode := by
  rw [encode_eq, lines_encodeChars, linesOfText, List.map_map]
  exact List.map_congr_left fun line _ => (encode_ofList line).symm

/-! ## The first line that is not UTF-8 -/

/-- The bytes begin with the encoding of whole lines, and `bad`, the line after these without the
feed that ends it, is not UTF-8. -/
structure FirstBadLine (bytes : Bytes) (before : String) (bad rest : Bytes) : Prop where
  eq_append : bytes = encode before ++ bad ++ rest
  ended : Ended '\n' before.toList
  notMem_bad : 0x0A ∉ bad
  rest_cases : rest = [] ∨ rest.head? = some 0x0A
  not_encoded : ∀ text, bad ≠ encode text

/-- Bytes that are not UTF-8 have a first line that is not. -/
theorem exists_firstBadLine {bytes : Bytes} (h : ∀ text, bytes ≠ encode text) :
    ∃ before bad rest, FirstBadLine bytes before bad rest := by
  induction bytes using cutting_induction (0x0A : UInt8) with
  | last bytes hbytes =>
    exact ⟨"", bytes, [], by simp [encode_eq, encodeChars], .inl rfl, hbytes, .inl rfl, h⟩
  | more line rest hline ih =>
    by_cases hvalid : ∃ text, line = encode text
    · obtain ⟨text, rfl⟩ := hvalid
      -- the first line is good, so a bad one is in the rest
      have hrest : ∀ t, rest ≠ encode t := by
        rintro t rfl
        refine h (text ++ "\n" ++ t) ?_
        rw [encode_append, encode_append, List.append_assoc]
        rfl
      obtain ⟨before, bad, rest, heq, hended, hbad, hcases, hnot⟩ := ih hrest
      refine ⟨text ++ "\n" ++ before, bad, rest, ?_, ?_, hbad, hcases, hnot⟩
      · rw [heq, encode_append, encode_append]
        simp only [List.append_assoc]
        rfl
      · rw [String.toList_append, String.toList_append, List.append_assoc]
        exact ended_append_feed_iff.2 hended
    · exact ⟨"", line, 0x0A :: rest, by simp [encode_eq, encodeChars], .inl rfl, hline, .inr rfl,
        fun text htext => hvalid ⟨text, htext⟩⟩

/-- Without a return at its end a line is UTF-8 only if it is so with it. -/
theorem exists_encode_of_dropReturn {line : Bytes} {text : String}
    (h : dropReturn 0x0D line = encode text) : ∃ t, line = encode t := by
  by_cases hret : line.getLast? = some 0x0D
  · rw [dropReturn, if_pos hret] at h
    refine ⟨text ++ "\r", ?_⟩
    obtain ⟨init, rfl⟩ := List.getLast?_eq_some_iff.1 hret
    rw [encode_append, ← h, List.dropLast_concat]
    rfl
  · rw [dropReturn, if_neg hret] at h
    exact ⟨text, h⟩

/-- The lines of bytes that are not UTF-8 begin with those of the text before the first bad line.
The next one is not UTF-8. -/
theorem FirstBadLine.exists_lines_eq {bytes bad rest : Bytes} {before : String}
    (h : FirstBadLine bytes before bad rest) :
    ∃ line more, lines 0x0A 0x0D bytes = (linesOfText before).map encode ++ line :: more ∧
      ∀ text, line ≠ encode text := by
  have hended : Ended 0x0A (encode before) := by
    rw [encode_eq]
    exact (ended_encodeChars_iff utf8EncodeChar_feed).2 h.ended
  rw [h.eq_append, List.append_assoc, lines_append hended, lines_encode]
  rcases h.rest_cases with rfl | hrest
  · -- the bad line is the last and has no line feed
    have hne : bad ≠ [] := by
      rintro rfl
      exact h.not_encoded "" rfl
    refine ⟨bad, [], ?_, h.not_encoded⟩
    rw [List.append_nil, lines_of_notMem h.notMem_bad, if_neg hne]
  · obtain ⟨tail, rfl⟩ := List.head?_eq_some_iff.1 hrest
    refine ⟨dropReturn 0x0D bad, lines 0x0A 0x0D tail, ?_, ?_⟩
    · rw [lines_append_feed h.notMem_bad]
    · intro text htext
      obtain ⟨t, ht⟩ := exists_encode_of_dropReturn htext
      exact h.not_encoded t ht

end MaximalMunch.Text
