import MaximalMunch.Proofs.Scan.Longest
import Mathlib.Data.List.Induction

/-!
# Scanning splits where a piece ends

If the scan of `u ++ v` comes to the end of `u`, it has taken the pieces of `u` up to there, and it
goes on with the pieces of `v`. Without `v` there is less text to look ahead at, but the matches up
to the end of `u` lie in `u`, so they are the longest ones there too (`item?_of_append`). Behind `u`
the scanner only starts at another position, and the position of every piece is moved along
(`Run.movedBehind`). The main statement is `scan_append`.
-/

namespace MaximalMunch

/-! ## Positions behind a text -/

/-- The place that is `q` in a text of its own, if that text begins at the place `p`. -/
def Position.movedBehind (p q : Position) : Position where
  offset := p.offset + q.offset
  line := p.line + q.line - 1
  column := if 1 < q.line then q.column else p.column + q.column - 1

/-- The token at its place in a text that has more before it. -/
def Token.movedBehind (p : Position) (t : Token) : Token :=
  { t with position := p.movedBehind t.position }

/-- The error at its place in a text that has more before it. -/
def ScanError.movedBehind (p : Position) (e : ScanError) : ScanError :=
  { e with position := p.movedBehind e.position }

/-- The piece at its place in a text that has more before it. -/
def ScanItem.movedBehind (p : Position) : ScanItem → ScanItem
  | .ok t => .ok (t.movedBehind p)
  | .error e => .error (e.movedBehind p)

namespace Position

variable {p q : Position}

/-- A character moves a place on in both texts. -/
theorem movedBehind_advance (hline : 0 < q.line) (hcolumn : 0 < q.column) (c : Char) :
    p.movedBehind (q.advance c) = (p.movedBehind q).advance c := by
  unfold advance
  split
  · have hlines : p.line + (q.line + 1) - 1 = p.line + q.line - 1 + 1 := by omega
    have hfeed : 1 < q.line + 1 := by omega
    simp only [movedBehind, hlines, if_pos hfeed, Nat.add_assoc]
  · have hcolumns : p.column + (q.column + 1) - 1 = p.column + q.column - 1 + 1 := by omega
    simp only [movedBehind, hcolumns, Nat.add_assoc]
    split <;> rfl

/-- Behind some text, the place behind more text is the place behind both. -/
theorem movedBehind_ofPrefix (cs ds : List Char) :
    (ofPrefix cs).movedBehind (ofPrefix ds) = ofPrefix (cs ++ ds) := by
  induction ds using List.reverseRecOn with
  | nil =>
    rw [List.append_nil]
    simp [movedBehind, ofPrefix]
  | append_singleton ds d ih =>
    have hline : 0 < (ofPrefix ds).line := Nat.add_pos_left Nat.one_pos _
    have hcolumn : 0 < (ofPrefix ds).column := Nat.add_pos_left Nat.one_pos _
    rw [← advance_ofPrefix, movedBehind_advance hline hcolumn, ih, advance_ofPrefix,
      List.append_assoc]

end Position

namespace Automaton

variable {σ : Type} {A : Automaton σ} {s : σ} {cs ds piece : List Char} {name : String}
  {k k' stop : Cursor} {p : Position} {i : ScanItem} {items : List (ScanItem × Position)}

/-! ## Less text to look ahead at -/

/-- The longest match in a text is the longest one in every part of the text that holds it. -/
theorem LongestIn.of_append (h : A.LongestIn s (cs ++ ds) piece name) (hpiece : piece <+: cs) :
    A.LongestIn s cs piece name where
  isPrefix := hpiece
  ne_nil := h.ne_nil
  accepts := h.accepts
  longest _ _ hlonger haccepts := h.longest (hlonger.trans (List.prefix_append cs ds)) haccepts

/-- Where nothing matches, nothing matches in less text. -/
theorem NoneIn.of_append (h : A.NoneIn s (cs ++ ds)) : A.NoneIn s cs :=
  fun _ _ hpiece => h (hpiece.trans (List.prefix_append cs ds))

/-- A piece that lies in the first part of a text is the piece of that part alone. -/
theorem item?_of_append (h : A.item? ⟨p, i.piece ++ cs ++ ds⟩ = some (i, k')) :
    A.item? ⟨p, i.piece ++ cs⟩ = some (i, ⟨k'.position, cs⟩) := by
  have hfirst : (A.item? ⟨p, i.piece ++ cs ++ ds⟩).map (·.1) = some i := by rw [h]; rfl
  obtain ⟨-, -, -, hposition⟩ := of_item? h
  -- the piece is decided by what matches, and that the longer text shows
  have hpart : (A.item? ⟨p, i.piece ++ cs⟩).map (·.1) = some i := by
    cases i with
    | ok t =>
      obtain ⟨ht, hlongest⟩ := map_item?_eq_ok_iff.1 hfirst
      exact map_item?_eq_ok_iff.2 ⟨ht, hlongest.of_append (List.prefix_append _ cs)⟩
    | error e =>
      obtain ⟨he, -, hnone⟩ := map_item?_eq_error_iff.1 hfirst
      exact map_item?_eq_error_iff.2 ⟨he, rfl, hnone.of_append⟩
  obtain ⟨⟨i', k''⟩, hitem, rfl⟩ := Option.map_eq_some_iff.1 hpart
  obtain ⟨hrest', -, -, hposition'⟩ := of_item? hitem
  rw [hitem, hposition, ← hposition', List.append_cancel_left hrest']

/-! ## Runs that start elsewhere -/

/-- Without names to be skipped the piece at the cursor is the next one. -/
theorem nextItem_nil_of_item? (h : A.item? k = some (i, k')) : A.nextItem [] k = (some i, k') := by
  rw [nextItem_nil_eq, h]

/-- Where the scanner starts shows in the positions only. -/
theorem item?_movedBehind (h : A.item? k = some (i, k')) (p : Position) :
    A.item? ⟨p.movedBehind k.position, k.rest⟩ =
      some (i.movedBehind p, ⟨(p.movedBehind k.position).advanceOver i.piece, k'.rest⟩) := by
  unfold item? at h ⊢
  split at h
  · exact absurd h (by simp)
  · rename_i c rest hrest
    split at h
    · rename_i n name hlongest
      obtain ⟨rfl, rfl⟩ := Prod.mk.inj (Option.some.inj h)
      simp only [hrest] at hlongest ⊢
      simp only [hlongest, ScanItem.movedBehind, Token.movedBehind, ScanItem.piece,
        String.toList_ofList]
    · rename_i hlongest
      obtain ⟨rfl, rfl⟩ := Prod.mk.inj (Option.some.inj h)
      simp only [hrest] at hlongest ⊢
      simp only [hlongest]
      rfl

/-- A run from behind some text has the same pieces, moved behind that text. -/
theorem Run.movedBehind (H : A.Run [] k items stop) : ∀ {u before : List Char},
    k.position = .ofPrefix before →
      A.Run [] ⟨.ofPrefix (u ++ before), k.rest⟩
        (items.map (Prod.map (.movedBehind (.ofPrefix u)) (Position.ofPrefix u).movedBehind))
        ⟨(Position.ofPrefix u).movedBehind stop.position, stop.rest⟩ := by
  induction H with
  | @stop k stop h =>
    intro u before hk
    have hrest := rest_of_nextItem_none h
    rw [cursor_of_nextItem_nil_none h] at hrest ⊢
    rw [hk, Position.movedBehind_ofPrefix]
    exact .stop (nextItem_of_rest_nil hrest)
  | @item k k' stop i items h _ ih =>
    intro u before hk
    have hitem := item?_of_nextItem_nil h
    obtain ⟨-, hk'⟩ := position_of_nextItem_nil h hk
    -- an item does not depend on where the cursor stands, its position does
    have hmoved := item?_movedBehind hitem (.ofPrefix u)
    rw [hk, Position.movedBehind_ofPrefix, Position.advanceOver_ofPrefix, List.append_assoc]
      at hmoved
    rw [List.map_cons, Prod.map_apply, hk', Position.movedBehind_ofPrefix]
    exact .item (nextItem_nil_of_item? hmoved) (ih hk')

/-! ## Runs over two texts -/

/-- Behind a piece of a run, the scanner is behind some of the text. -/
theorem Run.exists_ofPrefix_of_mem (H : A.Run [] k items stop) : ∀ {before : List Char},
    k.position = .ofPrefix before → ∀ x ∈ items,
      ∃ read, read <+: k.rest ∧ x.2 = .ofPrefix (before ++ read) := by
  induction H with
  | stop => exact fun _ x hx => absurd hx List.not_mem_nil
  | @item k k' stop i items h _ ih =>
    intro before hk x hx
    obtain ⟨hrest, -, -, -⟩ := of_item? (item?_of_nextItem_nil h)
    obtain ⟨-, hk'⟩ := position_of_nextItem_nil h hk
    rcases List.mem_cons.1 hx with rfl | hx
    · exact ⟨i.piece, hrest ▸ List.prefix_append _ _, hk'⟩
    · obtain ⟨read, hread, hx⟩ := ih hk' x hx
      refine ⟨i.piece ++ read, ?_, by rw [hx, List.append_assoc]⟩
      rw [hrest]
      exact (List.prefix_append_right_inj _).2 hread

/-- A piece that ends in the first of two texts is the next piece of that text too. -/
theorem nextItem_of_append (h : A.nextItem [] k = (some i, k'))
    (hrest : k.rest = i.piece ++ cs ++ ds) :
    A.nextItem [] ⟨k.position, i.piece ++ cs⟩ = (some i, ⟨k'.position, cs⟩) ∧
      k'.rest = cs ++ ds := by
  have hitem : A.item? ⟨k.position, i.piece ++ cs ++ ds⟩ = some (i, k') := by
    rw [← hrest]
    exact item?_of_nextItem_nil h
  refine ⟨nextItem_nil_of_item? (item?_of_append hitem), ?_⟩
  have hpiece : i.piece ++ cs ++ ds = i.piece ++ k'.rest := (of_item? hitem).1
  rw [List.append_assoc] at hpiece
  exact (List.append_cancel_left hpiece).symm

/-- A run over two texts that comes to the end of the first one is a run over that, followed by a
run from there on. -/
theorem Run.split (H : A.Run [] k items stop) : ∀ {before u v : List Char},
    k.position = .ofPrefix before → k.rest = u ++ v →
    ∀ x ∈ items, x.2.offset = Text.byteLength (before ++ u) →
    ∃ first second, items = first ++ second ∧
      A.Run [] ⟨k.position, u⟩ first ⟨.ofPrefix (before ++ u), []⟩ ∧
      A.Run [] ⟨.ofPrefix (before ++ u), v⟩ second stop := by
  induction H with
  | stop => exact fun _ _ x hx => absurd hx List.not_mem_nil
  | @item k k' stop i items h H ih =>
    intro before u v hk hrest x hx hoffset
    obtain ⟨-, hk'⟩ := position_of_nextItem_nil h hk
    have hpiece : k.rest = i.piece ++ k'.rest := (of_item? (item?_of_nextItem_nil h)).1
    -- what has been read at the end of the first text is that text
    have hread : ∀ {read}, read <+: k.rest → x.2 = .ofPrefix (before ++ read) → read = u := by
      intro read hread hx
      refine Text.eq_of_byteLength_eq hread (hrest ▸ List.prefix_append u v) ?_
      have hlength : Text.byteLength (before ++ read) = Text.byteLength (before ++ u) := by
        rw [← hoffset, hx]
        rfl
      rw [Text.byteLength_append, Text.byteLength_append] at hlength
      exact Nat.add_left_cancel hlength
    rcases List.mem_cons.1 hx with rfl | hx
    · obtain rfl : i.piece = u := hread (hpiece ▸ List.prefix_append _ _) hk'
      rw [← List.append_nil i.piece] at hrest
      obtain ⟨hnext, hrest'⟩ := nextItem_of_append h hrest
      rw [List.append_nil] at hnext
      have hlast : A.Run [] ⟨k'.position, []⟩ [] ⟨k'.position, []⟩ :=
        .stop (nextItem_of_rest_nil rfl)
      refine ⟨[(i, k'.position)], items, rfl, ?_, ?_⟩
      · have hrun := Run.item hnext hlast
        rw [← hk']
        exact hrun
      · rw [← hk', show v = k'.rest from hrest'.symm]
        exact H
    · obtain ⟨read, hprefix, hposition⟩ := H.exists_ofPrefix_of_mem hk' x hx
      have hmore : i.piece ++ read <+: k.rest :=
        hpiece ▸ (List.prefix_append_right_inj _).2 hprefix
      obtain rfl : i.piece ++ read = u := hread hmore (by rw [hposition, List.append_assoc])
      obtain ⟨hnext, hrest'⟩ := nextItem_of_append h hrest
      rw [← List.append_assoc] at hoffset ⊢
      obtain ⟨first, second, rfl, hfirst, hsecond⟩ := ih hk' hrest' x hx hoffset
      have hrun := Run.item hnext hfirst
      exact ⟨(i, k'.position) :: first, second, rfl, hrun, hsecond⟩

/-! ## Scans -/

/-- The scan of two texts, which skips nothing, comes to the end of the first one at the position
`p`: a piece ends there, or the text is empty. -/
def SplitsAt (A : Automaton σ) (u v : String) (p : Position) : Prop :=
  (u = "" ∧ p = .start) ∨
    ∃ i, (i, p) ∈ (A.scan [] (u ++ v)).items ∧ p.offset = Text.byteLength u.toList

/-- A scan that comes to the end of the first text is a run over that and a run from there on. -/
theorem SplitsAt.exists_runs {u v : String} (h : A.SplitsAt u v p) :
    p = .ofPrefix u.toList ∧ ∃ first second,
      (A.scan [] (u ++ v)).items.toList = first ++ second ∧
      A.Run [] (.ofText u) first ⟨.ofPrefix u.toList, []⟩ ∧
      A.Run [] ⟨.ofPrefix u.toList, v.toList⟩ second (A.scan [] (u ++ v)).stop := by
  have H := A.run_scan [] (u ++ v)
  rcases h with ⟨rfl, rfl⟩ | ⟨i, hmem, hoffset⟩
  · rw [String.empty_append] at H ⊢
    exact ⟨rfl, [], _, rfl, .stop (nextItem_of_rest_nil rfl), H⟩
  · have htext : (Cursor.ofText (u ++ v)).rest = u.toList ++ v.toList := String.toList_append
    have hstart : (Cursor.ofText (u ++ v)).position = .ofPrefix [] := rfl
    have hmem' := Array.mem_toList_iff.2 hmem
    obtain ⟨read, hread, rfl⟩ := H.exists_ofPrefix_of_mem hstart _ hmem'
    obtain rfl : read = u.toList :=
      Text.eq_of_byteLength_eq hread (htext ▸ List.prefix_append _ _) hoffset
    exact ⟨rfl, H.split hstart htext _ hmem' hoffset⟩

/-- Collecting pieces that are moved moves what is collected. -/
theorem mapM_items_movedBehind (p : Position) (items : List (ScanItem × Position)) :
    (items.map (Prod.map (ScanItem.movedBehind p) p.movedBehind)).mapM (·.1) =
      ((items.mapM (·.1) : Except ScanError (List Token)).mapError (.movedBehind p)).map
        (List.map (.movedBehind p)) := by
  induction items with
  | nil => rfl
  | cons x items ih =>
    obtain ⟨i, q⟩ := x
    rw [List.map_cons, List.mapM_cons, List.mapM_cons, ih]
    cases i with
    | error e => rfl
    | ok t => cases (items.mapM (·.1) : Except ScanError (List Token)) <;> rfl

/-- If the pieces are those of two texts, so are the tokens, and the first error is that of the
first text that has one. -/
theorem tokenize_append_of_items {u v : String}
    (h : (A.scan [] (u ++ v)).items.toList = (A.scan [] u).items.toList ++
      (A.scan [] v).items.toList.map (Prod.map (.movedBehind p) p.movedBehind)) :
    A.tokenize (u ++ v) = (do
      let ts ← A.tokenize u
      let ts' ← (A.tokenize v).mapError (.movedBehind p)
      return ts ++ ts'.map (.movedBehind p)) := by
  rw [tokenize, h, List.mapM_append, mapM_items_movedBehind]
  show (A.tokenize u >>= fun ts => _) = _
  cases A.tokenize u with
  | error e => rfl
  | ok ts =>
    show (((A.tokenize v).mapError _).map _ >>= fun ts' => _) = _
    cases A.tokenize v <;> rfl

/-- For any automaton and two texts: if the scan of both, which skips nothing, comes to the end of
the first text at the position `p`, then its pieces are those of the first text and after them those
of the second one, moved behind `p`. It stops where the scan of the second text stops, moved in the
same way. So the tokens are those of the two texts, and the first error is that of the first text or
else the moved one of the second text. -/
theorem scan_append {σ : Type} (A : Automaton σ) (u v : String) (p : Position)
    (h : A.SplitsAt u v p) :
    (A.scan [] (u ++ v)).items.toList = (A.scan [] u).items.toList ++
      (A.scan [] v).items.toList.map (Prod.map (.movedBehind p) p.movedBehind) ∧
    (A.scan [] (u ++ v)).stop.position = p.movedBehind (A.scan [] v).stop.position ∧
    A.tokenize (u ++ v) = (do
      let ts ← A.tokenize u
      let ts' ← (A.tokenize v).mapError (.movedBehind p)
      return ts ++ ts'.map (.movedBehind p)) := by
  obtain ⟨rfl, first, second, hitems, hfirst, hsecond⟩ := h.exists_runs
  have hmoved : A.Run [] ⟨.ofPrefix (u.toList ++ []), v.toList⟩ _ _ :=
    (A.run_scan [] v).movedBehind rfl
  rw [List.append_nil] at hmoved
  -- a text has one run, so the two runs are those of the two scans
  obtain ⟨rfl, -⟩ := hfirst.unique (A.run_scan [] u)
  obtain ⟨rfl, hstop⟩ := hsecond.unique hmoved
  exact ⟨hitems, congrArg Cursor.position hstop, tokenize_append_of_items hitems⟩

/-- Behind the digit of `1.` the scanner looks ahead at the point, which is then cut off. -/
theorem scan_append_number :
    let A : Automaton Nat :=
      ⟨0, fun n c => if c.isDigit then some (if n < 2 then 1 else 3)
        else if n = 1 ∧ c = '.' then some 2 else none,
        fun n => if n = 1 ∨ n = 3 then some "number" else none⟩
    let p : Position := ⟨1, 1, 2⟩
    A.SplitsAt "1" ".\n2" p ∧
    (A.scan [] ("1" ++ ".\n2")).items.toList = (A.scan [] "1").items.toList ++
      (A.scan [] ".\n2").items.toList.map (Prod.map (.movedBehind p) p.movedBehind) := by
  intro A p
  have hfirst : A.nextItem [] (.ofText "1.\n2") =
      (some (.ok ⟨"number", "1", .start⟩), ⟨p, ['.', '\n', '2']⟩) :=
    nextItem_nil_of_item? rfl
  have hmem : (.ok ⟨"number", "1", .start⟩, p) ∈ (A.scan [] ("1" ++ ".\n2")).items.toList := by
    have H := A.run_scan [] ("1" ++ ".\n2")
    -- the first call of the scan returns the first item
    generalize (A.scan [] ("1" ++ ".\n2")).items.toList = items at H ⊢
    cases H with
    | stop h => exact absurd (Prod.mk.inj (hfirst.symm.trans h)).1 (by simp)
    | item h _ =>
      obtain ⟨hi, rfl⟩ := Prod.mk.inj (hfirst.symm.trans h)
      rw [← Option.some.inj hi]
      exact List.mem_cons_self
  have hsplits : A.SplitsAt "1" ".\n2" p := Or.inr ⟨_, Array.mem_toList_iff.1 hmem, rfl⟩
  exact ⟨hsplits, (scan_append A "1" ".\n2" p hsplits).1⟩

end Automaton

end MaximalMunch
