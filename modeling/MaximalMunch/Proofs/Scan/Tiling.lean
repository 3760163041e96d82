import MaximalMunch.Proofs.Scan.Runs

/-!
# The scanner tiles its text

If nothing is skipped, the pieces that the scanner takes are the text, cut into parts that are not
empty, and each of them carries the position that the text before it gives (`Position.ofPrefix`).
The main statement, `scan_tiles`, is of any automaton.
-/

namespace MaximalMunch

/-! ## Positions in a text -/

/-- The position behind some text: its bytes, its lines, and the characters of its last line. -/
def Position.ofPrefix (cs : List Char) : Position where
  offset := Text.byteLength cs
  line := 1 + cs.count '\n'
  column := 1 + (cs.reverse.takeWhile (· ≠ '\n')).length

namespace Position

/-- The position behind a text moves on with each character. -/
theorem advance_ofPrefix (cs : List Char) (c : Char) :
    (ofPrefix cs).advance c = ofPrefix (cs ++ [c]) := by
  have hoffset : Text.byteLength (cs ++ [c]) = Text.byteLength cs + c.utf8Size := by simp
  unfold advance
  split
  · rename_i hc
    subst hc
    simp [ofPrefix, hoffset, Nat.add_assoc]
  · rename_i hc
    simp [ofPrefix, hoffset, hc, Nat.add_assoc]

/-- To move over some text is to be behind it. -/
theorem advanceOver_ofPrefix (cs ds : List Char) :
    (ofPrefix cs).advanceOver ds = ofPrefix (cs ++ ds) := by
  induction ds generalizing cs with
  | nil => rw [List.append_nil]; rfl
  | cons d ds ih =>
    show ((ofPrefix cs).advance d).advanceOver ds = _
    rw [advance_ofPrefix, ih, List.append_assoc]
    rfl

end Position

namespace Automaton

variable {σ : Type} {A : Automaton σ} {k k' stop : Cursor} {i : ScanItem}
  {items : List (ScanItem × Position)}

/-! ## Runs without skipping -/

/-- Without names to be skipped the next piece is at the cursor. -/
theorem item?_of_nextItem_nil (h : A.nextItem [] k = (some i, k')) : A.item? k = some (i, k') := by
  rw [nextItem_nil_eq] at h
  cases hitem : A.item? k with
  | none => rw [hitem] at h; exact absurd (Prod.mk.inj h).1 (by simp)
  | some result =>
    rw [hitem] at h
    obtain ⟨hi, hk⟩ := Prod.mk.inj h
    rw [← Option.some.inj hi, ← hk]

/-- At the end of the text the cursor stays. -/
theorem cursor_of_nextItem_nil_none (h : A.nextItem [] k = (none, k')) : k' = k := by
  rw [nextItem_nil_eq] at h
  cases hitem : A.item? k with
  | none => rw [hitem] at h; exact (Prod.mk.inj h).2.symm
  | some result => rw [hitem] at h; exact absurd (Prod.mk.inj h).1 (by simp)

/-- The pieces of a run, one after the other, are the text from the cursor on. -/
theorem Run.flatten_pieces (H : A.Run [] k items stop) :
    (items.map (·.1.piece)).flatten = k.rest := by
  induction H with
  | stop h =>
    have hstop := rest_of_nextItem_none h
    rw [cursor_of_nextItem_nil_none h] at hstop
    rw [hstop]
    rfl
  | item h _ ih =>
    rw [List.map_cons, List.flatten_cons, ih]
    exact (of_item? (item?_of_nextItem_nil h)).1.symm

/-- No piece of a run is empty. -/
theorem Run.piece_ne_nil (H : A.Run [] k items stop) :
    ∀ piece ∈ items.map (·.1.piece), piece ≠ [] := by
  induction H with
  | stop h => exact fun piece hpiece => absurd hpiece List.not_mem_nil
  | item h _ ih =>
    rw [List.map_cons, List.forall_mem_cons]
    exact ⟨(of_item? (item?_of_nextItem_nil h)).2.1, ih⟩

/-- A piece takes the position behind the text before it to the position behind both. -/
theorem position_of_nextItem_nil {before : List Char} (h : A.nextItem [] k = (some i, k'))
    (hk : k.position = .ofPrefix before) :
    i.position = .ofPrefix before ∧ k'.position = .ofPrefix (before ++ i.piece) := by
  obtain ⟨-, -, hi, hk'⟩ := of_item? (item?_of_nextItem_nil h)
  rw [hi, hk', hk, Position.advanceOver_ofPrefix]
  exact ⟨rfl, rfl⟩

/-- Each piece of a run carries the position behind the text before it, and it is followed by the
position behind its own end. -/
theorem Run.position_eq (H : A.Run [] k items stop) : ∀ {before : List Char},
    k.position = .ofPrefix before → ∀ (n : Nat) i p, items[n]? = some (i, p) →
      i.position = .ofPrefix (before ++ ((items.map (·.1.piece)).take n).flatten) ∧
        p = .ofPrefix (before ++ ((items.map (·.1.piece)).take (n + 1)).flatten) := by
  induction H with
  | stop h => intro before _ n i p hn; exact absurd hn (by simp)
  | @item k k' stop i items h _ ih =>
    intro before hk n i' p hn
    obtain ⟨hi, hk'⟩ := position_of_nextItem_nil h hk
    cases n with
    | zero =>
      obtain ⟨rfl, rfl⟩ := Prod.mk.inj (Option.some.inj hn)
      rw [hi, hk']
      simp
    | succ n =>
      -- the pieces before a later item are the first piece and those of the shorter run
      obtain ⟨hi', hp⟩ := ih hk' n i' p hn
      rw [hi', hp]
      simp only [List.map_cons, List.take_succ_cons, List.flatten_cons, List.append_assoc,
        and_self]

/-- A run stops behind the text. -/
theorem Run.position_stop (H : A.Run [] k items stop) : ∀ {before : List Char},
    k.position = .ofPrefix before → stop.position = .ofPrefix (before ++ k.rest) := by
  induction H with
  | @stop k stop h =>
    intro before hk
    have hrest := rest_of_nextItem_none h
    rw [cursor_of_nextItem_nil_none h] at hrest ⊢
    rw [hrest, List.append_nil, hk]
  | item h _ ih =>
    intro before hk
    obtain ⟨-, hk'⟩ := position_of_nextItem_nil h hk
    rw [ih hk', (of_item? (item?_of_nextItem_nil h)).1, List.append_assoc]

/-! ## All tokens or the first error -/

/-- All pieces are collected if all are tokens. -/
theorem mapM_items_eq_ok_iff {items : List (ScanItem × Position)} : ∀ {ts : List Token},
    items.mapM (·.1) = .ok ts ↔ items.map (·.1) = ts.map .ok := by
  induction items with
  | nil => intro ts; cases ts <;> simp [pure, Except.pure]
  | cons item items ih =>
    intro ts
    obtain ⟨i, p⟩ := item
    rw [List.mapM_cons, List.map_cons]
    cases i with
    | error e =>
      refine ⟨fun h => absurd h (by simp [bind, Except.bind]), fun h => ?_⟩
      cases ts <;> exact absurd h (by simp)
    | ok t =>
      cases ts with
      | nil =>
        refine ⟨fun h => ?_, fun h => absurd h (by simp)⟩
        cases hm : items.mapM (·.1) <;> rw [hm] at h <;> exact absurd h (by
          simp [bind, Except.bind, pure, Except.pure])
      | cons t' ts =>
        rw [List.map_cons, List.cons_eq_cons, ← ih]
        cases hm : items.mapM (·.1) with
        | error e => simp [bind, Except.bind]
        | ok ts' => simp [bind, Except.bind, pure, Except.pure]

/-- The error among the pieces that has only tokens before it is the result of collecting them. -/
theorem mapM_items_eq_error_iff {items : List (ScanItem × Position)} {e : ScanError} :
    items.mapM (·.1) = .error e ↔
      ∃ ts rest, items.map (·.1) = List.map .ok ts ++ .error e :: rest := by
  induction items with
  | nil => simp [pure, Except.pure]
  | cons item items ih =>
    obtain ⟨i, p⟩ := item
    rw [List.mapM_cons, List.map_cons]
    cases i with
    | error e' =>
      constructor
      · intro h
        obtain rfl := Except.error.inj h
        exact ⟨[], items.map (·.1), rfl⟩
      · rintro ⟨ts, rest, h⟩
        cases ts with
        | nil =>
          obtain ⟨he, -⟩ := List.cons.inj h
          rw [Except.error.inj he]
          rfl
        | cons t ts => exact absurd (List.cons.inj h).1 (by simp)
    | ok t =>
      -- a token in front neither makes nor hides an error
      have hbind : (do
          let t' ← (Except.ok t : ScanItem)
          let ts ← items.mapM (·.1)
          pure (t' :: ts)) = Except.error e ↔ items.mapM (·.1) = Except.error e := by
        cases items.mapM (·.1) <;> simp [bind, Except.bind, pure, Except.pure]
      refine hbind.trans (ih.trans ?_)
      constructor
      · rintro ⟨ts, rest, h⟩
        exact ⟨t :: ts, rest, by rw [h]; rfl⟩
      · rintro ⟨ts, rest, h⟩
        cases ts with
        | nil => exact absurd (List.cons.inj h).1 (by simp)
        | cons t' ts => exact ⟨ts, rest, (List.cons.inj h).2⟩

/-- Without names to be skipped, and for any automaton and text: calls for the next piece give the
pieces of the scan one by one, and nothing after that. The pieces, none of them empty, are the text.
Each of them carries the position behind the text before it, and the position after it is the one
behind its own end; the last position is that behind the whole text. All tokens are collected if
there are no errors, and else the first error is. -/
theorem scan_tiles {σ : Type} (A : Automaton σ) (text : String) :
    let s := A.scan [] text
    let pieces := s.items.toList.map (·.1.piece)
    (∀ n, (A.nextItem [] (A.cursorAfter [] (.ofText text) n)).1 = s.items[n]?.map (·.1) ∧
      (A.nextItem [] (A.cursorAfter [] (.ofText text) n)).2.position =
        (s.items[n]?.map (·.2)).getD s.stop.position) ∧
    pieces.flatten = text.toList ∧
    (∀ piece ∈ pieces, piece ≠ []) ∧
    (∀ (n : Nat) i p, s.items[n]? = some (i, p) →
      i.position = .ofPrefix (pieces.take n).flatten ∧
        p = .ofPrefix (pieces.take (n + 1)).flatten) ∧
    s.stop = ⟨.ofPrefix text.toList, []⟩ ∧
    (∀ ts, A.tokenize text = .ok ts ↔ s.items.toList.map (·.1) = ts.map .ok) ∧
    ∀ e, A.tokenize text = .error e ↔
      ∃ ts rest, s.items.toList.map (·.1) = List.map .ok ts ++ .error e :: rest := by
  intro s pieces
  have H := A.run_scan [] text
  have hstart : (Cursor.ofText text).position = .ofPrefix [] := rfl
  refine ⟨fun n => ?_, H.flatten_pieces, H.piece_ne_nil, fun n i p hn => ?_, ?_,
    fun ts => mapM_items_eq_ok_iff, fun e => mapM_items_eq_error_iff⟩
  · rw [← Array.getElem?_toList]
    exact H.nextItem_cursorAfter n
  · rw [← Array.getElem?_toList] at hn
    exact H.position_eq hstart n i p hn
  · have hrest := H.rest_stop
    have hposition := H.position_stop hstart
    show s.stop = _
    cases hs : s.stop with
    | mk position rest =>
      have hs' : (A.scan [] text).stop = ⟨position, rest⟩ := hs
      rw [hs'] at hrest hposition
      rw [show position = .ofPrefix text.toList from hposition, show rest = [] from hrest]

/-- Of two numbers on two lines the second is the third piece: nothing matches the line feed. -/
theorem scan_tiles_digits :
    let A : Automaton Unit :=
      ⟨(), fun _ c => if c.isDigit then some () else none, fun _ => some "digits"⟩
    let s := A.scan [] "1\n23"
    ∃ p, s.items[2]? = some (.ok ⟨"digits", "23", ⟨2, 2, 1⟩⟩, p) ∧
      (⟨2, 2, 1⟩ : Position) = .ofPrefix ((s.items.toList.map (·.1.piece)).take 2).flatten ∧
      ['2', '3'] ∈ s.items.toList.map (·.1.piece) ∧ ['2', '3'] ≠ [] := by
  intro A s
  obtain ⟨hcalls, -, hpieces, hpositions, -⟩ := scan_tiles A "1\n23"
  have hthird : s.items[2]?.map (·.1) = some (.ok ⟨"digits", "23", ⟨2, 2, 1⟩⟩) := by
    rw [← (hcalls 2).1]
    simp only [cursorAfter, nextItem_nil_eq]
    rfl
  obtain ⟨⟨i, p⟩, hitem, rfl⟩ := Option.map_eq_some_iff.1 hthird
  have hmem : ['2', '3'] ∈ s.items.toList.map (·.1.piece) := by
    refine List.mem_map.2 ⟨_, Array.mem_toList_iff.2 (Array.mem_of_getElem? hitem), ?_⟩
    rfl
  exact ⟨p, hitem, (hpositions 2 _ p hitem).1, hmem, hpieces _ hmem⟩

end Automaton

end MaximalMunch
