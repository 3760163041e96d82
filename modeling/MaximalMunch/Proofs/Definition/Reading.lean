import MaximalMunch.Definition.Reading
import MaximalMunch.Proofs.Text.Lines

/-!
# Reading bytes and reading text

A definition read from bytes is the definition read from the text that they encode
(`Definition.ofBytes_encode`). Where the bytes are not UTF-8, the lines before the first bad one are
read as a text of their own, and an error among them comes first
(`Definition.result_ofBytes_of_firstBadLine`). `Definition.ofBytes_decides` holds both.
-/

namespace MaximalMunch

namespace SourceLine

/-- The bytes of a text are read as this text. -/
theorem ofBytes_encode (text : String) : ofBytes (Text.encode text) = .ok text := by
  rw [ofBytes, Text.decode_eq_ok_iff.2 rfl]
  rfl

/-- Bytes that encode no text are refused. -/
theorem ofBytes_of_not_encoded {bytes : Text.Bytes} (h : ∀ text, bytes ≠ Text.encode text) :
    ofBytes bytes = .error .notUtf8 := by
  rw [ofBytes]
  cases hdecode : Text.decode bytes with
  | ok text => exact absurd (Text.decode_eq_ok_iff.1 hdecode) (h text)
  | error fault => rfl

/-- The same line by line. -/
theorem map_ofBytes_encode (texts : List String) :
    (texts.map Text.encode).map ofBytes = texts.map .ok := by
  rw [List.map_map]
  exact List.map_congr_left fun text _ => ofBytes_encode text

/-- Decoding line by line or all at once makes no difference to a text. -/
theorem listOfBytes_encode (text : String) : listOfBytes (Text.encode text) = listOfText text := by
  rw [listOfBytes, Text.lines_encode, map_ofBytes_encode, listOfText]

/-- The lines of bytes that are not UTF-8: those of the text before the first bad one, its fault,
and others. -/
theorem exists_listOfBytes_eq {bytes bad rest : Text.Bytes} {before : String}
    (h : Text.FirstBadLine bytes before bad rest) :
    ∃ more, listOfBytes bytes = listOfText before ++ .error .notUtf8 :: more := by
  obtain ⟨line, more, hlines, hline⟩ := h.exists_lines_eq
  refine ⟨more.map ofBytes, ?_⟩
  rw [listOfBytes, hlines, List.map_append, map_ofBytes_encode, List.map_cons,
    ofBytes_of_not_encoded hline, listOfText]

/-- Text of whole lines has as many lines as feeds. -/
theorem length_listOfText {text : String} (h : Text.Ended '\n' text.toList) :
    (listOfText text).length = text.toList.count '\n' := by
  rw [listOfText, List.length_map, Text.linesOfText, List.length_map, Text.length_lines h]

end SourceLine

namespace Builder

/-- More lines are read only after all those before them. -/
theorem read_append (b : Builder) (number : Nat) (xs ys : List SourceLine) :
    b.read number (xs ++ ys) =
      match b.read number xs with
      | (b', none) => b'.read (number + xs.length) ys
      | (b', some e) => (b', some e) := by
  induction xs generalizing b number with
  | nil => rfl
  | cons x xs ih =>
    rw [List.cons_append, read, read]
    cases b.sourceLine number x with
    | error e => rfl
    | ok b =>
      dsimp only
      rw [ih, List.length_cons, Nat.add_right_comm, Nat.add_assoc]

end Builder

namespace Definition

/-- A line that cannot be read ends the reading unless an earlier line does. -/
theorem result_ofLines_append_error (lines more : List SourceLine) (cause : ReadFault) :
    (ofLines (lines ++ .error cause :: more)).result =
      (ofLines lines).result >>= fun _ => .error ⟨lines.length + 1, .unreadable cause⟩ := by
  rw [ofLines, ofLines, Builder.read_append]
  obtain ⟨b, e?⟩ := Builder.empty.read 1 lines
  cases e? with
  | some e => rfl
  | none =>
    rw [Nat.add_comm lines.length]
    rfl

/-- A definition is the same whether it is read from a text or from the bytes of the text. -/
theorem ofBytes_encode (text : String) : ofBytes (Text.encode text) = ofText text := by
  rw [ofBytes, SourceLine.listOfBytes_encode, ofText]

/-- The first line that is not UTF-8 ends the reading, unless an earlier line does. -/
theorem result_ofBytes_of_firstBadLine {bytes bad rest : Text.Bytes} {before : String}
    (h : Text.FirstBadLine bytes before bad rest) :
    (ofBytes bytes).result = (ofText before).result >>= fun _ =>
      .error ⟨before.toList.count '\n' + 1, .unreadable .notUtf8⟩ := by
  obtain ⟨more, hlines⟩ := SourceLine.exists_listOfBytes_eq h
  rw [ofBytes, hlines, result_ofLines_append_error, SourceLine.length_listOfText h.ended, ofText]

/-- What a definition read from bytes is. If they encode a text, it is all that is read from the
text. If not, there is a first line that is not UTF-8, and what stands before it decides: an error
in the text of the lines before it is the error, and without one that line is. -/
theorem ofBytes_decides (bytes : Text.Bytes) :
    (∀ text, bytes = Text.encode text → ofBytes bytes = ofText text) ∧
    ((∀ text, bytes ≠ Text.encode text) →
      ∃ before bad rest, Text.FirstBadLine bytes before bad rest) ∧
    ∀ before bad rest, Text.FirstBadLine bytes before bad rest →
      (ofBytes bytes).result = (ofText before).result >>= fun _ =>
        .error ⟨before.toList.count '\n' + 1, .unreadable .notUtf8⟩ := by
  refine ⟨?_, Text.exists_firstBadLine, fun before bad rest => result_ofBytes_of_firstBadLine⟩
  rintro text rfl
  exact ofBytes_encode text

/-- After a comment and an empty line, the third line is a lone continuation byte and a return. -/
theorem ofBytes_decides_lone_continuation :
    let bytes := Text.encode "# a\r\n\n" ++ [0x80, 0x0D] ++ 0x0A :: Text.encode "x"
    Text.FirstBadLine bytes "# a\r\n\n" [0x80, 0x0D] (0x0A :: Text.encode "x") ∧
    (ofBytes bytes).result = .error ⟨3, .unreadable .notUtf8⟩ ∧
    ofBytes (Text.encode "x\r") = ofText "x\r" := by
  intro bytes
  have hbad : Text.FirstBadLine bytes "# a\r\n\n" [0x80, 0x0D] (0x0A :: Text.encode "x") := by
    refine ⟨rfl, .inr (by rfl), by decide, .inr rfl, fun text htext => ?_⟩
    have hfault : Text.decode [0x80, 0x0D] = .error ⟨0, some 1⟩ := by rfl
    exact absurd (hfault.symm.trans (Text.decode_eq_ok_iff.2 htext)) (by simp)
  have hbefore : ∃ d, (ofText "# a\r\n\n").result = .ok d := ⟨_, by rfl⟩
  obtain ⟨d, hd⟩ := hbefore
  have hresult := (ofBytes_decides bytes).2.2 _ _ _ hbad
  rw [hd] at hresult
  exact ⟨hbad, hresult, (ofBytes_decides _).1 "x\r" rfl⟩

end Definition

end MaximalMunch
