import MaximalMunch.CommandLine.ScanFile
import MaximalMunch.Proofs.Scan.Longest

/-!
# Reports of errors

A report shows the text around an error on one line, and a mark on the line below it. The shown text
lies between two boundaries, whatever offset it is taken around (`around_window`); an error of the
scanner stands behind some of its text (`exists_eq_append_found`). So the characters between the
start of what is shown and the error can be counted, and the mark stands under the character that
nothing matched (`mark_under_found`).
-/

namespace MaximalMunch

open MaximalMunch.Text (Boundary Slice byteLength)

variable {σ : Type} {A : Automaton σ} {skip : List String} {src : String} {offset : Nat}
  {e : ScanError} {p : Position}

/-- The character that an error reports stands in the text, behind what the position is of. -/
theorem Automaton.exists_eq_append_found (h : (.error e, p) ∈ (A.scan skip src).items) :
    ∃ before rest, src.toList = before ++ e.found :: rest ∧ e.position = .ofPrefix before := by
  obtain ⟨-, n, hitem⟩ := mem_items_scan_iff.1 ⟨p, h⟩
  obtain ⟨hposition, hhead, -⟩ := map_item?_eq_error_iff.1 hitem
  obtain ⟨before, htext, hbefore⟩ := standsIn_cursorAfter A src n
  obtain ⟨rest, hrest⟩ := List.head?_eq_some_iff.1 hhead
  exact ⟨before, rest, by rw [htext, hrest], hposition.trans hbefore⟩

namespace Excerpt

/-- What an excerpt shows lies between the boundaries next to the two ends of its reach. -/
theorem around_window (src : String) (offset : Nat) : ∃ stop piece,
    IsGreatest {n | Boundary src.toList n ∧ n ≤ min (offset - 16) (byteLength src.toList)}
      (around src offset).start ∧
    IsLeast {n | Boundary src.toList n ∧ min (offset + 16) (byteLength src.toList) ≤ n} stop ∧
    Slice src.toList (around src offset).start stop piece ∧
    (around src offset).text.toList = piece.map visible := by
  have hfloor := Text.isGreatest_floorBoundary (offset - 16) src.toList
  have hceil := Text.isLeast_ceilBoundary (offset + 16) src.toList
  obtain ⟨⟨hlo, hle⟩, hgreatest⟩ := hfloor
  have hlen := hlo.le_byteLength
  have hhi := hceil.1.1
  have hge : min (offset + 16) (byteLength src.toList) ≤ _ := hceil.1.2
  refine ⟨_, _, ⟨⟨hlo, Nat.le_min.2 ⟨hle, hlen⟩⟩, ?_⟩, hceil, hlo.slice hhi (by omega), ?_⟩
  · exact fun m hm => hgreatest ⟨hm.1, hm.2.trans (Nat.min_le_left _ _)⟩
  · exact String.toList_ofList

/-- What an excerpt shows at the place of a character that its reach has is this character. -/
theorem getElem?_around {before rest w : List Char} {c : Char}
    (hsrc : src.toList = before ++ c :: rest) (hoffset : byteLength before = offset)
    (hw : Slice src.toList (around src offset).start offset w) :
    (around src offset).text.toList[w.length]? = some (visible c) := by
  obtain ⟨stop, piece, -, ⟨⟨-, hstop⟩, -⟩, hpiece, htext⟩ := around_window src offset
  have hlength : offset < byteLength src.toList := by
    have hpos := c.utf8Size_pos
    rw [hsrc, Text.byteLength_append, Text.byteLength_cons]
    omega
  rw [htext, List.getElem?_map, hw.getElem?_length hpiece hsrc hoffset (by omega)]
  rfl

/-- **The mark stands under the character that nothing matched.** For any text and any offset, also
one that is no boundary or lies behind the text: an excerpt shows what stands between the greatest
boundary that is at most 16 bytes before the offset and the least one that is at least 16 bytes
behind it, or the ends of the text if they come first, with a dot for each control character. For
any automaton and any error of its scan, skipping or not: the text from the start of what is shown
up to the error is a slice, the mark has as many blanks before it as this slice has characters, and
above the mark stands the character that was found. -/
theorem mark_under_found (src : String) :
    (∀ offset, let shown := around src offset
      ∃ stop piece,
        IsGreatest {n | Boundary src.toList n ∧ n ≤ min (offset - 16) (byteLength src.toList)}
          shown.start ∧
        IsLeast {n | Boundary src.toList n ∧ min (offset + 16) (byteLength src.toList) ≤ n} stop ∧
        Slice src.toList shown.start stop piece ∧ shown.text.toList = piece.map visible) ∧
    ∀ {σ : Type} (A : Automaton σ) (skip : List String) (e : ScanError) (p : Position),
      (.error e, p) ∈ (A.scan skip src).items →
      let shown := around src e.position.offset
      ∃ before, Slice src.toList shown.start e.position.offset before ∧
        shown.text.toList[before.length]? = some (visible e.found) ∧
        ScanFile.errorLines src e = ["error: " ++ e.message, "  | " ++ shown.text,
          "  | " ++ String.ofList (List.replicate before.length ' ') ++ "^"] := by
  refine ⟨around_window src, fun A skip e p h => ?_⟩
  obtain ⟨before, rest, hsrc, hposition⟩ := A.exists_eq_append_found h
  have hoffset : byteLength before = e.position.offset := by
    rw [hposition]
    rfl
  have hboundary : Boundary src.toList e.position.offset := ⟨before, _, hsrc, hoffset⟩
  obtain ⟨stop, piece, ⟨⟨hstart, hle⟩, -⟩, -⟩ := around_window src e.position.offset
  -- the slice that the report counts
  have hslice := hstart.slice hboundary (by omega)
  exact ⟨_, hslice, getElem?_around hsrc hoffset hslice, rfl⟩

/-- Nothing matches the tab behind eight letters of two bytes and one of one byte. The start of what
is shown would be in the middle of the first letter, so it moves to the start of the text, and the
mark stands under the tenth character: a dot. -/
theorem mark_under_found_tab :
    let A : Automaton Unit :=
      ⟨(), fun _ c => if c = 'é' ∨ c = 'a' then some () else none, fun _ => some "letters"⟩
    let src := "ééééééééa\tb"
    let e : ScanError := ⟨⟨17, 1, 10⟩, '\t'⟩
    (∃ p, (.error e, p) ∈ (A.scan [] src).items) ∧
      (around src 17).start = 0 ∧ visible '\t' = '·' ∧
      ∃ before, Slice src.toList 0 17 before ∧
        (around src 17).text.toList[before.length]? = some '·' := by
  intro A src e
  have hletters : A.item? (.ofText src) =
      some (.ok ⟨"letters", "ééééééééa", .start⟩, ⟨e.position, ['\t', 'b']⟩) := by
    decide
  -- the scan goes on behind the letters and stops at the tab
  have hsecond : (A.scan [] src).items.toList[1]?.map (·.1) = some (.error e) := by
    rw [← ((A.run_scan [] src).nextItem_cursorAfter 1).1]
    simp only [Automaton.cursorAfter, Automaton.nextItem_nil_eq, hletters]
    rfl
  obtain ⟨⟨i, p⟩, hitem, rfl⟩ := Option.map_eq_some_iff.1 hsecond
  have hmem : (.error e, p) ∈ (A.scan [] src).items :=
    Array.mem_toList_iff.1 (List.mem_of_getElem? hitem)
  obtain ⟨before, hslice, hchar, -⟩ := (mark_under_found src).2 A [] e p hmem
  have hstart : (around src 17).start = 0 := by decide
  exact ⟨⟨p, hmem⟩, hstart, by decide, before, hstart ▸ hslice, hchar⟩

end Excerpt

end MaximalMunch
