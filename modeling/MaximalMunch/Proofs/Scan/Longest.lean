import MaximalMunch.Proofs.Scan.Skipping
import MaximalMunch.Proofs.Text.Offsets

/-!
# Maximal munch

What an automaton accepts is said by its runs alone (`Accepts`), and which beginning of a text is
the longest one that it accepts by comparing all of them (`LongestIn`). The search for the longest
match keeps the last match while it reads on; it ends with the longest beginning that is accepted
and not empty, or with the match it began with if there is none (`longestFrom_cases`).

Counted in bytes, this is what `longest?` finds at an offset (`longest?_eq_some_iff`), and what the
scanner reports at each position that it comes to (`longest_munch`).
-/

namespace MaximalMunch

namespace Automaton

variable {σ : Type} {A : Automaton σ} {s s' : σ} {c : Char} {cs piece piece' : List Char}
  {name name' : String}

/-! ## Runs -/

/-- The state after a text, if there is one. -/
def run (A : Automaton σ) (s : σ) (cs : List Char) : Option σ :=
  cs.foldlM A.next s

/-- The run from a state over a text is defined and ends in a state that reports the token. -/
def AcceptsFrom (A : Automaton σ) (s : σ) (cs : List Char) (name : String) : Prop :=
  ∃ q, A.run s cs = some q ∧ A.tokenOf q = some name

/-- The run over a text is defined and ends in a state that reports the token. -/
def Accepts (A : Automaton σ) (cs : List Char) (name : String) : Prop :=
  A.AcceptsFrom A.start cs name

/-- A text is accepted if its first character leads to a state that accepts the others. -/
theorem acceptsFrom_cons :
    A.AcceptsFrom s (c :: cs) name ↔ ∃ s', A.next s c = some s' ∧ A.AcceptsFrom s' cs name := by
  have hrun : A.run s (c :: cs) = (A.next s c).bind fun s' => A.run s' cs := rfl
  unfold AcceptsFrom
  rw [hrun]
  cases A.next s c with
  | none => simp
  | some s' => simp

/-- A single character is accepted if it leads to a state with the token. -/
theorem acceptsFrom_singleton (h : A.next s c = some s') :
    A.AcceptsFrom s [c] name ↔ A.tokenOf s' = some name := by
  rw [acceptsFrom_cons, h]
  simp [AcceptsFrom, run]

/-- A text leads to one state, and that reports one token. -/
theorem AcceptsFrom.unique (h : A.AcceptsFrom s cs name) (h' : A.AcceptsFrom s cs name') :
    name = name' := by
  obtain ⟨q, hq, hname⟩ := h
  obtain ⟨q', hq', hname'⟩ := h'
  rw [hq] at hq'
  obtain rfl := Option.some.inj hq'
  exact Option.some.inj (hname.symm.trans hname')

/-! ## The longest beginning that is accepted -/

/-- Of the beginnings of a text that are accepted from a state, `piece` is the longest one, and it
is not empty. -/
structure LongestIn (A : Automaton σ) (s : σ) (cs piece : List Char) (name : String) : Prop where
  isPrefix : piece <+: cs
  ne_nil : piece ≠ []
  accepts : A.AcceptsFrom s piece name
  longest : ∀ ⦃longer name'⦄, longer <+: cs → A.AcceptsFrom s longer name' →
    longer.length ≤ piece.length

/-- No beginning of a text but perhaps the empty one is accepted from a state. -/
def NoneIn (A : Automaton σ) (s : σ) (cs : List Char) : Prop :=
  ∀ ⦃piece name⦄, piece <+: cs → piece ≠ [] → ¬ A.AcceptsFrom s piece name

/-- Reading a character first makes every beginning longer by it. -/
theorem LongestIn.cons (hnext : A.next s c = some s') (h : A.LongestIn s' cs piece name) :
    A.LongestIn s (c :: cs) (c :: piece) name where
  isPrefix := (List.prefix_cons_inj c).2 h.isPrefix
  ne_nil := List.cons_ne_nil c piece
  accepts := acceptsFrom_cons.2 ⟨s', hnext, h.accepts⟩
  longest := by
    intro longer name' hbegins haccepts
    rcases List.prefix_cons_iff.1 hbegins with rfl | ⟨rest, rfl, hrest⟩
    · exact Nat.zero_le _
    · obtain ⟨q, hq, haccepts⟩ := acceptsFrom_cons.1 haccepts
      obtain rfl := Option.some.inj (hnext.symm.trans hq)
      exact Nat.succ_le_succ (h.longest hrest haccepts)

/-- If nothing is accepted behind a character, a match can only be the character itself. -/
theorem NoneIn.eq_singleton (hnext : A.next s c = some s') (h : A.NoneIn s' cs)
    (hbegins : piece <+: c :: cs) (hne : piece ≠ []) (haccepts : A.AcceptsFrom s piece name) :
    piece = [c] := by
  rcases List.prefix_cons_iff.1 hbegins with rfl | ⟨rest, rfl, hrest⟩
  · exact absurd rfl hne
  · obtain ⟨q, hq, haccepts⟩ := acceptsFrom_cons.1 haccepts
    obtain rfl := Option.some.inj (hnext.symm.trans hq)
    by_cases hnil : rest = []
    · rw [hnil]
    · exact absurd haccepts (h hrest hnil)

/-- There is one longest match. -/
theorem LongestIn.unique (h : A.LongestIn s cs piece name) (h' : A.LongestIn s cs piece' name') :
    piece = piece' ∧ name = name' := by
  have hle := h.longest h'.isPrefix h'.accepts
  have hge := h'.longest h.isPrefix h.accepts
  have hpiece : piece = piece' :=
    (List.prefix_of_prefix_length_le h.isPrefix h'.isPrefix hge).eq_of_length
      (Nat.le_antisymm hge hle)
  subst hpiece
  exact ⟨rfl, h.accepts.unique h'.accepts⟩

/-- Where no beginning is accepted there is no longest one. -/
theorem NoneIn.not_longestIn (h : A.NoneIn s cs) : ¬ A.LongestIn s cs piece name :=
  fun hlongest => h hlongest.isPrefix hlongest.ne_nil hlongest.accepts

/-! ## The search -/

/-- A character that leads on makes what was read so far the best match, if the state behind it
reports a token. -/
theorem longestFrom_cons (hnext : A.next s c = some s') (n : Nat)
    (best : Option (Nat × String)) :
    A.longestFrom s n best (c :: cs) =
      A.longestFrom s' (n + 1) (((A.tokenOf s').map (n + 1, ·)).or best) cs := by
  rw [longestFrom, hnext]
  dsimp only
  cases A.tokenOf s' <;> rfl

/-- The search from a state ends with the longest match behind the characters read so far; if there
is none, it ends with the best match that it brought along. -/
theorem longestFrom_cases (A : Automaton σ) (cs : List Char) :
    ∀ (s : σ) (n : Nat) (best : Option (Nat × String)),
      (∃ piece name, A.LongestIn s cs piece name ∧
        A.longestFrom s n best cs = some (n + piece.length, name)) ∨
      (A.NoneIn s cs ∧ A.longestFrom s n best cs = best) := by
  induction cs with
  | nil =>
    intro s n best
    refine Or.inr ⟨?_, rfl⟩
    intro piece name hbegins hne
    exact absurd (List.prefix_nil.1 hbegins) hne
  | cons c cs ih =>
    intro s n best
    cases hnext : A.next s c with
    | none =>
      -- the run dies here, so nothing that begins with `c` is accepted
      refine Or.inr ⟨?_, by rw [longestFrom, hnext]⟩
      intro piece name hbegins hne haccepts
      rcases List.prefix_cons_iff.1 hbegins with rfl | ⟨rest, rfl, -⟩
      · exact hne rfl
      · obtain ⟨q, hq, -⟩ := acceptsFrom_cons.1 haccepts
        exact absurd (hnext.symm.trans hq) (by simp)
    | some s' =>
      rw [longestFrom_cons hnext]
      rcases ih s' (n + 1) _ with ⟨piece, name, hlongest, heq⟩ | ⟨hnone, heq⟩
      · refine Or.inl ⟨c :: piece, name, hlongest.cons hnext, heq.trans ?_⟩
        rw [List.length_cons, Nat.add_right_comm, Nat.add_assoc]
      · have honly : ∀ {piece name}, piece <+: c :: cs → piece ≠ [] →
            A.AcceptsFrom s piece name → piece = [c] := hnone.eq_singleton hnext
        rw [heq]
        cases htoken : A.tokenOf s' with
        | none =>
          refine Or.inr ⟨?_, rfl⟩
          intro piece name hbegins hne haccepts
          rw [honly hbegins hne haccepts, acceptsFrom_singleton hnext, htoken] at haccepts
          exact absurd haccepts (by simp)
        | some name =>
          refine Or.inl ⟨[c], name, ⟨?_, List.cons_ne_nil c [], ?_, ?_⟩, rfl⟩
          · exact (List.prefix_cons_inj c).2 List.nil_prefix
          · exact (acceptsFrom_singleton hnext).2 htoken
          · intro longer name' hbegins haccepts
            by_cases hne : longer = []
            · rw [hne]
              exact Nat.zero_le _
            · exact Nat.le_of_eq (congrArg List.length (honly hbegins hne haccepts))

/-- The longest match at the start of a text, in characters. -/
theorem longestPrefix_eq_some_iff {n : Nat} :
    A.longestPrefix cs = some (n, name) ↔
      ∃ piece, A.LongestIn A.start cs piece name ∧ piece.length = n := by
  rw [longestPrefix]
  rcases A.longestFrom_cases cs A.start 0 none with ⟨piece, name', hlongest, heq⟩ | ⟨hnone, heq⟩
  · rw [heq, Nat.zero_add, Option.some_inj, Prod.mk.injEq]
    constructor
    · rintro ⟨rfl, rfl⟩
      exact ⟨piece, hlongest, rfl⟩
    · rintro ⟨piece', hlongest', rfl⟩
      obtain ⟨rfl, rfl⟩ := hlongest.unique hlongest'
      exact ⟨rfl, rfl⟩
  · rw [heq]
    constructor
    · intro h
      exact absurd h (by simp)
    · rintro ⟨piece, hlongest, -⟩
      exact absurd hlongest hnone.not_longestIn

/-- The scan finds nothing if no beginning of the rest is accepted. -/
theorem longestPrefix_eq_none_iff : A.longestPrefix cs = none ↔ A.NoneIn A.start cs := by
  rw [longestPrefix]
  rcases A.longestFrom_cases cs A.start 0 none with ⟨piece, name, hlongest, heq⟩ | ⟨hnone, heq⟩
  · rw [heq]
    constructor
    · intro h
      exact absurd h (by simp)
    · intro hnone
      exact absurd hlongest hnone.not_longestIn
  · exact ⟨fun _ => hnone, fun _ => heq⟩

/-! ## In bytes -/

/-- From a byte offset on, the next `len` bytes are the longest slice of the text that is accepted
and not empty. -/
structure LongestAt (A : Automaton σ) (text : String) (offset len : Nat) (name : String) :
    Prop where
  pos : 0 < len
  accepts : ∃ piece, Text.Slice text.toList offset (offset + len) piece ∧ A.Accepts piece name
  longest : ∀ ⦃len' piece name'⦄, len < len' →
    Text.Slice text.toList offset (offset + len') piece → ¬ A.Accepts piece name'

/-- No slice of the text from a byte offset on is accepted, but perhaps the empty one. -/
def NoneAt (A : Automaton σ) (text : String) (offset : Nat) : Prop :=
  ∀ ⦃len piece name⦄, 0 < len → Text.Slice text.toList offset (offset + len) piece →
    ¬ A.Accepts piece name

section Offsets

variable {text : String} {before rest : List Char} {offset len : Nat}

/-- At a boundary the slices are the beginnings of the text from there on. -/
theorem slice_iff (htext : text.toList = before ++ rest)
    (hoffset : Text.byteLength before = offset) :
    Text.Slice text.toList offset (offset + len) piece ↔
      piece <+: rest ∧ Text.byteLength piece = len := by
  rw [htext, ← hoffset, Text.slice_append_iff, Nat.add_left_cancel_iff]

/-- A match of some bytes is a match of the characters that have these bytes. -/
theorem longestAt_iff (htext : text.toList = before ++ rest)
    (hoffset : Text.byteLength before = offset) :
    A.LongestAt text offset len name ↔
      ∃ piece, A.LongestIn A.start rest piece name ∧ Text.byteLength piece = len := by
  constructor
  · rintro ⟨hpos, ⟨piece, hslice, haccepts⟩, hlongest⟩
    obtain ⟨hbegins, rfl⟩ := (slice_iff htext hoffset).1 hslice
    refine ⟨piece, ⟨hbegins, ?_, haccepts, ?_⟩, rfl⟩
    · rintro rfl
      exact absurd hpos (Nat.lt_irrefl 0)
    · intro longer name' hbegins' haccepts'
      refine Nat.le_of_not_lt fun hlt => ?_
      -- of two prefixes of the same text the one with more characters has more bytes
      have hbytes := (Text.length_lt_iff_byteLength_lt hbegins hbegins').1 hlt
      exact hlongest hbytes ((slice_iff htext hoffset).2 ⟨hbegins', rfl⟩) haccepts'
  · rintro ⟨piece, h, rfl⟩
    refine ⟨?_, ⟨piece, (slice_iff htext hoffset).2 ⟨h.isPrefix, rfl⟩, h.accepts⟩, ?_⟩
    · exact Nat.pos_of_ne_zero fun hzero => h.ne_nil (Text.byteLength_eq_zero_iff.1 hzero)
    · intro len' longer name' hlt hslice haccepts
      obtain ⟨hbegins, rfl⟩ := (slice_iff htext hoffset).1 hslice
      have hlength := (Text.length_lt_iff_byteLength_lt h.isPrefix hbegins).2 hlt
      exact absurd (h.longest hbegins haccepts) (Nat.not_le_of_lt hlength)

/-- That nothing matches at an offset depends on the text behind it alone. -/
theorem noneAt_iff (htext : text.toList = before ++ rest)
    (hoffset : Text.byteLength before = offset) :
    A.NoneAt text offset ↔ A.NoneIn A.start rest := by
  constructor
  · intro h piece name hbegins hne haccepts
    have hpos : 0 < Text.byteLength piece :=
      Nat.pos_of_ne_zero fun hzero => hne (Text.byteLength_eq_zero_iff.1 hzero)
    exact h hpos ((slice_iff htext hoffset).2 ⟨hbegins, rfl⟩) haccepts
  · intro h len piece name hpos hslice
    obtain ⟨hbegins, rfl⟩ := (slice_iff htext hoffset).1 hslice
    refine h hbegins ?_
    rintro rfl
    exact absurd hpos (Nat.lt_irrefl 0)

/-- At a boundary the longest match is looked for in the text from there on. -/
theorem longest?_eq (htext : text.toList = before ++ rest)
    (hoffset : Text.byteLength before = offset) :
    A.longest? text offset =
      (A.longestPrefix rest).map fun m => (Text.byteLength (rest.take m.1), m.2) := by
  have hdrop : Text.dropBytes? offset text.toList = some rest :=
    Text.dropBytes?_eq_some_iff.2 ⟨before, htext, hoffset⟩
  rw [longest?, hdrop]
  show (A.longestPrefix rest).bind _ = _
  cases A.longestPrefix rest <;> rfl

/-- At an offset that is no boundary there is no match. -/
theorem longest?_of_not_boundary (h : ¬ Text.Boundary text.toList offset) :
    A.longest? text offset = none := by
  rw [longest?, Text.dropBytes?_eq_none_iff.2 h]
  rfl

/-- The longest match at an offset, in bytes. -/
theorem longest?_eq_some_iff :
    A.longest? text offset = some (len, name) ↔ A.LongestAt text offset len name := by
  by_cases hboundary : Text.Boundary text.toList offset
  · obtain ⟨before, rest, htext, hoffset⟩ := hboundary
    rw [longest?_eq htext hoffset, longestAt_iff htext hoffset, Option.map_eq_some_iff]
    -- the prefix is found by its number of characters
    have htake : ∀ {piece name}, A.LongestIn A.start rest piece name →
        rest.take piece.length = piece := fun h => (List.prefix_iff_eq_take.1 h.isPrefix).symm
    constructor
    · rintro ⟨⟨n, name'⟩, hfound, heq⟩
      obtain ⟨rfl, rfl⟩ := Prod.mk.inj heq
      obtain ⟨piece, hlongest, rfl⟩ := longestPrefix_eq_some_iff.1 hfound
      exact ⟨piece, hlongest, by rw [htake hlongest]⟩
    · rintro ⟨piece, hlongest, rfl⟩
      refine ⟨(piece.length, name), longestPrefix_eq_some_iff.2 ⟨piece, hlongest, rfl⟩, ?_⟩
      rw [htake hlongest]
  · rw [longest?_of_not_boundary hboundary]
    constructor
    · intro h
      exact absurd h (by simp)
    · rintro ⟨-, ⟨piece, hslice, -⟩, -⟩
      exact absurd hslice.boundary hboundary

/-- Nothing is found at an offset inside a character, and where nothing matches. -/
theorem longest?_eq_none_iff :
    A.longest? text offset = none ↔
      ¬ Text.Boundary text.toList offset ∨ A.NoneAt text offset := by
  by_cases hboundary : Text.Boundary text.toList offset
  · rw [or_iff_right (Classical.not_not.2 hboundary)]
    obtain ⟨before, rest, htext, hoffset⟩ := hboundary
    rw [longest?_eq htext hoffset, noneAt_iff htext hoffset, Option.map_eq_none_iff,
      longestPrefix_eq_none_iff]
  · exact ⟨fun _ => Or.inl hboundary, fun _ => longest?_of_not_boundary hboundary⟩

end Offsets

/-! ## The scanner -/

section Scanner

variable {k : Cursor} {t : Token} {e : ScanError} {text : String}

/-- A piece is a token if it is the longest match at the cursor. -/
theorem map_item?_eq_ok_iff :
    (A.item? k).map (·.1) = some (.ok t) ↔
      t.position = k.position ∧ A.LongestIn A.start k.rest t.lexeme.toList t.name := by
  unfold item?
  split
  · rename_i hrest
    rw [hrest]
    constructor
    · intro h
      exact absurd h (by simp)
    · rintro ⟨-, h⟩
      exact absurd (List.prefix_nil.1 h.isPrefix) h.ne_nil
  · cases hfound : A.longestPrefix k.rest with
    | none =>
      constructor
      · intro h
        exact absurd (Option.some.inj h) (by simp)
      · rintro ⟨-, h⟩
        exact absurd h (longestPrefix_eq_none_iff.1 hfound).not_longestIn
    | some found =>
      obtain ⟨n, name⟩ := found
      obtain ⟨piece, hlongest, rfl⟩ := longestPrefix_eq_some_iff.1 hfound
      have htake := (List.prefix_iff_eq_take.1 hlongest.isPrefix).symm
      show some (Except.ok (Token.mk name (String.ofList (k.rest.take piece.length)) k.position)) =
        _ ↔ _
      rw [htake]
      constructor
      · intro h
        obtain rfl := Except.ok.inj (Option.some.inj h)
        exact ⟨rfl, String.toList_ofList.symm ▸ hlongest⟩
      · rintro ⟨hposition, h⟩
        -- there is one longest match, so the lexeme and the name agree
        obtain ⟨rfl, rfl⟩ := hlongest.unique h
        rw [String.ofList_toList, ← hposition]

/-- A piece is an error if nothing matches at the cursor. -/
theorem map_item?_eq_error_iff :
    (A.item? k).map (·.1) = some (.error e) ↔
      e.position = k.position ∧ k.rest.head? = some e.found ∧ A.NoneIn A.start k.rest := by
  unfold item?
  split
  · rename_i hrest
    simp [hrest]
  · rename_i c rest hrest
    cases hfound : A.longestPrefix k.rest with
    | some found =>
      constructor
      · intro h
        exact absurd (Option.some.inj h) (by simp)
      · rintro ⟨-, -, hnone⟩
        rw [longestPrefix_eq_none_iff.2 hnone] at hfound
        exact absurd hfound (by simp)
    | none =>
      have hnone := longestPrefix_eq_none_iff.1 hfound
      rw [hrest] at hnone ⊢
      show some (Except.error (ScanError.mk k.position c)) = _ ↔ _
      constructor
      · intro h
        obtain rfl := Except.error.inj (Option.some.inj h)
        exact ⟨rfl, rfl, hnone⟩
      · rintro ⟨hposition, hhead, -⟩
        rw [← hposition, Option.some.inj hhead]

/-- The cursor stands in the text, behind some of it. -/
def StandsIn (text : String) (k : Cursor) : Prop :=
  ∃ before, text.toList = before ++ k.rest ∧ k.position = .ofPrefix before

/-- A call for the next piece leaves the cursor in the text. -/
theorem StandsIn.nextItem (h : StandsIn text k) : StandsIn text (A.nextItem [] k).2 := by
  obtain ⟨before, htext, hposition⟩ := h
  rw [nextItem_nil_eq]
  cases hitem : A.item? k with
  | none => exact ⟨before, htext, hposition⟩
  | some result =>
    obtain ⟨i, k'⟩ := result
    obtain ⟨hrest, -, -, hposition'⟩ := of_item? hitem
    refine ⟨before ++ i.piece, ?_, ?_⟩
    · rw [htext, hrest, List.append_assoc]
    · rw [hposition', hposition, Position.advanceOver_ofPrefix]

/-- The cursor stands in the text after any number of calls. -/
theorem StandsIn.cursorAfter (n : Nat) : ∀ {k : Cursor}, StandsIn text k →
    StandsIn text (A.cursorAfter [] k n) := by
  induction n with
  | zero => exact id
  | succ n ih =>
    intro k h
    exact ih h.nextItem

/-- After any number of calls the cursor stands in the text. -/
theorem standsIn_cursorAfter (A : Automaton σ) (text : String) (n : Nat) :
    StandsIn text (A.cursorAfter [] (.ofText text) n) :=
  StandsIn.cursorAfter n ⟨[], rfl, rfl⟩

/-- The scanner comes to a position, if it skips nothing. -/
def ComesTo (A : Automaton σ) (text : String) (p : Position) : Prop :=
  ∃ n, (A.cursorAfter [] (.ofText text) n).position = p

/-- Scanning gives the pieces at the cursors that the scanner comes to, less those skipped. -/
theorem mem_items_scan_iff {skip : List String} {i : ScanItem} :
    (∃ p, (i, p) ∈ (A.scan skip text).items) ↔
      i.isKept skip = true ∧
        ∃ n, (A.item? (A.cursorAfter [] (.ofText text) n)).map (·.1) = some i := by
  -- the items without skipping are what the calls return one after the other
  have hcalls : ∀ n, (A.item? (A.cursorAfter [] (.ofText text) n)).map (·.1) =
      (A.scan [] text).items.toList[n]?.map (·.1) := by
    intro n
    rw [← ((A.run_scan [] text).nextItem_cursorAfter n).1, nextItem_nil_eq]
    cases A.item? (A.cursorAfter [] (.ofText text) n) <;> rfl
  simp only [hcalls, ← Array.mem_toList_iff]
  rw [items_scan]
  constructor
  · rintro ⟨p, hmem⟩
    obtain ⟨hmem, hkept⟩ := List.mem_filter.1 hmem
    obtain ⟨n, hn⟩ := List.getElem?_of_mem hmem
    exact ⟨hkept, n, by rw [hn]; rfl⟩
  · rintro ⟨hkept, n, hn⟩
    obtain ⟨⟨i', p⟩, hitem, rfl⟩ := Option.map_eq_some_iff.1 hn
    exact ⟨p, List.mem_filter.2 ⟨List.mem_of_getElem? hitem, hkept⟩⟩

/-- At a cursor in the text, the longest match is a slice of the text. -/
theorem StandsIn.longestIn_iff (h : StandsIn text k) :
    A.LongestIn A.start k.rest piece name ↔
      Text.Slice text.toList k.position.offset (k.position.offset + Text.byteLength piece) piece ∧
        A.LongestAt text k.position.offset (Text.byteLength piece) name := by
  obtain ⟨before, htext, hposition⟩ := h
  have hoffset : Text.byteLength before = k.position.offset := by
    rw [hposition]
    rfl
  rw [slice_iff htext hoffset, longestAt_iff htext hoffset]
  constructor
  · intro h
    exact ⟨⟨h.isPrefix, rfl⟩, piece, h, rfl⟩
  · rintro ⟨⟨hbegins, -⟩, piece', h, hlength⟩
    rwa [Text.eq_of_byteLength_eq h.isPrefix hbegins hlength] at h

/-- At a cursor in the text, the character at hand is a slice of the text. -/
theorem StandsIn.head?_and_noneIn_iff (h : StandsIn text k) {c : Char} :
    k.rest.head? = some c ∧ A.NoneIn A.start k.rest ↔
      Text.Slice text.toList k.position.offset (k.position.offset + c.utf8Size) [c] ∧
        A.NoneAt text k.position.offset := by
  obtain ⟨before, htext, hposition⟩ := h
  have hoffset : Text.byteLength before = k.position.offset := by
    rw [hposition]
    rfl
  have hsize : Text.byteLength [c] = c.utf8Size := Nat.add_zero _
  rw [slice_iff htext hoffset, noneAt_iff htext hoffset, and_iff_left hsize]
  refine and_congr_left fun _ => ?_
  cases k.rest with
  | nil => simp
  | cons d rest => simp [eq_comm]

end Scanner

/-- For any automaton and text, the match found at a byte offset is the longest slice from there on
that the automaton accepts and that is not empty. There is none at an offset that is no boundary, or
if no slice but perhaps the empty one is accepted. So the scanner reports, at each position that it
comes to, the longest match as a token with the name that wins, unless the name is skipped; and it
reports the character at hand as an error at those positions where there is no match. -/
theorem longest_munch {σ : Type} (A : Automaton σ) (text : String) :
    (∀ offset len name, A.longest? text offset = some (len, name) ↔
      A.LongestAt text offset len name) ∧
    (∀ offset, A.longest? text offset = none ↔
      ¬ Text.Boundary text.toList offset ∨ A.NoneAt text offset) ∧
    ∀ skip : List String,
      (∀ t, (∃ p, (.ok t, p) ∈ (A.scan skip text).items) ↔
        t.name ∉ skip ∧ A.ComesTo text t.position ∧
          Text.Slice text.toList t.position.offset
            (t.position.offset + Text.byteLength t.lexeme.toList) t.lexeme.toList ∧
          A.LongestAt text t.position.offset (Text.byteLength t.lexeme.toList) t.name) ∧
      ∀ e, (∃ p, (.error e, p) ∈ (A.scan skip text).items) ↔
        A.ComesTo text e.position ∧
          Text.Slice text.toList e.position.offset (e.position.offset + e.found.utf8Size)
            [e.found] ∧
          A.NoneAt text e.position.offset := by
  refine ⟨fun offset len name => longest?_eq_some_iff, fun offset => longest?_eq_none_iff,
    fun skip => ⟨fun t => ?_, fun e => ?_⟩⟩
  · rw [mem_items_scan_iff]
    refine and_congr decide_eq_true_iff ?_
    simp only [map_item?_eq_ok_iff, (standsIn_cursorAfter A text _).longestIn_iff]
    constructor
    · rintro ⟨n, hposition, h⟩
      exact ⟨⟨n, hposition.symm⟩, hposition ▸ h⟩
    · rintro ⟨⟨n, hposition⟩, h⟩
      exact ⟨n, hposition.symm, hposition ▸ h⟩
  · have hkept : ScanItem.isKept skip (.error e) = true := rfl
    rw [mem_items_scan_iff, and_iff_right hkept]
    simp only [map_item?_eq_error_iff, (standsIn_cursorAfter A text _).head?_and_noneIn_iff]
    constructor
    · rintro ⟨n, hposition, h⟩
      exact ⟨⟨n, hposition.symm⟩, hposition ▸ h⟩
    · rintro ⟨⟨n, hposition⟩, h⟩
      exact ⟨n, hposition.symm, hposition ▸ h⟩

/-- An automaton that reports pairs of a letter, and so the empty text too, backs off from a third
letter, which has no match by itself. -/
example :
    let pairs : Automaton Nat :=
      ⟨0, fun n c => if c = 'é' then some (n + 1) else none,
        fun n => if n % 2 = 0 then some "pairs" else none⟩
    pairs.longest? "éééa" 0 = some (4, "pairs") ∧ pairs.longest? "éééa" 4 = none ∧
      pairs.longest? "éééa" 1 = none := by
  decide

end Automaton

end MaximalMunch
