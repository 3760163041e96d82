import MaximalMunch.Proofs.Regex.Soundness

/-!
# What stands at the offsets that are kept

The reader counts the characters it has read, and it keeps offsets of characters it has read long
before: the parentheses of the open groups, the bracket, the items and the escapes of the class at
hand, the brace of a reference. `Reader.Tracks` says of each of them which character stands there.
Every character keeps this (`Reader.Tracks.step`), and so does every text (`Reader.Tracks.run`).
-/

namespace MaximalMunch.Regex

/-- The characters that stand for a set of characters behind a backslash. -/
def shorthandChars : List Char := ['d', 'D', 'w', 'W', 's', 'S']

/-- A backslash and one of these characters stand at the offset. -/
def ShorthandAt (text : List Char) (offset : Nat) : Prop :=
  text[offset]? = some '\\' ∧ ∃ c ∈ shorthandChars, text[offset + 1]? = some c

/-- The item begins at the offset. -/
def ClassItem.StandsAt (before : List Char) (offset : Nat) : ClassItem → Prop
  | .char c => before[offset]? = some c ∨ before[offset]? = some '\\'
  | .shorthand _ => ShorthandAt before offset

/-- The text ends with a backslash at the offset. -/
def EndsInEscape (before : List Char) (offset : Nat) : Prop :=
  offset + 1 = before.length ∧ before[offset]? = some '\\'

/-- What stands at the offsets that are kept in a class. -/
def ClassPlace.Tracks (before : List Char) : ClassPlace → Prop
  | .opened | .first | .item => True
  | .escape start => EndsInEscape before start
  | .after x start | .hyphen x start => x.StandsAt before start
  | .upperEscape lo start escapeStart =>
    (ClassItem.char lo).StandsAt before start ∧ EndsInEscape before escapeStart

/-- What stands at the offsets that are kept in a construct. -/
def Reader.Place.Tracks (before : List Char) : Reader.Place → Prop
  | .atom => True
  | .escape => before.getLast? = some '\\'
  | .reference start name =>
    ∃ text, before = text ++ '{' :: name.reverse ∧ text.length = start ∧ '}' ∉ name
  | .inClass k => before[k.start]? = some '[' ∧ k.place.Tracks before

/-- What stands at the offsets that the reader keeps, once it has read the text `before`. -/
structure Reader.Tracks (s : Reader) (before : List Char) : Prop where
  offset : s.offset = before.length
  groups : ∀ g ∈ s.outer, before[g.1]? = some '('
  /-- An alternative that has no item yet begins here. -/
  fresh : s.place = .atom → s.level.items = [] →
    before = [] ∨ before.getLast? = some '|' ∨ before.getLast? = some '('
  /-- So does a group whose first alternative has no item yet. -/
  opened : s.place = .atom → s.level.items = [] → s.level.branches = [] →
    ∀ start around outer, s.outer = (start, around) :: outer → start + 1 = before.length
  place : s.place.Tracks before

section Longer

variable {before more : List Char} {offset : Nat} {c : Char}

/-- A character stays where it is when the text goes on. -/
theorem getElem?_append_of_eq_some (h : before[offset]? = some c) :
    (before ++ more)[offset]? = some c := by
  rw [List.getElem?_append_left (List.getElem?_eq_some_iff.1 h).1, h]

/-- A shorthand stays where it is when the text goes on. -/
theorem ShorthandAt.append (h : ShorthandAt before offset) :
    ShorthandAt (before ++ more) offset := by
  obtain ⟨hfirst, c, hc, hsecond⟩ := h
  exact ⟨getElem?_append_of_eq_some hfirst, c, hc, getElem?_append_of_eq_some hsecond⟩

/-- An item stays where it is when the text goes on. -/
theorem ClassItem.StandsAt.append {item : ClassItem} (h : item.StandsAt before offset) :
    item.StandsAt (before ++ more) offset := by
  cases item with
  | char => exact h.imp getElem?_append_of_eq_some getElem?_append_of_eq_some
  | shorthand => exact ShorthandAt.append h

/-- The next character stands behind all those read. -/
theorem getElem?_append_length (before : List Char) (c : Char) (more : List Char) :
    (before ++ c :: more)[before.length]? = some c := by
  rw [List.getElem?_append_right (Nat.le_refl _), Nat.sub_self]
  rfl

/-- The last character keeps its place when the text goes on. -/
theorem getElem?_append_of_getLast? (h : before.getLast? = some c) :
    (before ++ more)[before.length - 1]? = some c := by
  rw [List.getLast?_eq_getElem?] at h
  exact getElem?_append_of_eq_some h

/-- A text that ends in an escape ends with a backslash. -/
theorem EndsInEscape.getLast? (h : EndsInEscape before offset) : before.getLast? = some '\\' := by
  rw [List.getLast?_eq_getElem?, ← h.1]
  exact h.2

end Longer

/-- A shorthand is one of a few characters. -/
theorem mem_shorthandChars {c : Char} {members : CharClass}
    (h : escapeItem c = .shorthand members) : c ∈ shorthandChars := by
  unfold escapeItem at h
  split at h
  case h_5 | h_6 | h_7 | h_8 | h_9 | h_10 => decide
  all_goals exact absurd h (by simp)

/-- An escape begins with its backslash. -/
theorem EndsInEscape.standsAt {before : List Char} {offset : Nat} (h : EndsInEscape before offset)
    (c : Char) : (escapeItem c).StandsAt (before ++ [c]) offset := by
  have hbackslash : (before ++ [c])[offset]? = some '\\' := getElem?_append_of_eq_some h.2
  cases hitem : escapeItem c with
  | char => exact .inr hbackslash
  | shorthand =>
    refine ⟨hbackslash, c, mem_shorthandChars hitem, ?_⟩
    rw [h.1]
    exact getElem?_append_length before c []

namespace OpenClass

variable {k k' : OpenClass} {c : Char} {before : List Char} {offset : Nat}

/-- The first character of an item is where the item begins. -/
theorem tracks_startItem (hoffset : offset = before.length) :
    (k.startItem c offset).start = k.start ∧
      (k.startItem c offset).place.Tracks (before ++ [c]) := by
  have hc : (before ++ [c])[offset]? = some c := hoffset ▸ getElem?_append_length before c []
  unfold startItem
  split
  case isTrue heq =>
    refine ⟨rfl, ?_, heq ▸ hc⟩
    rw [hoffset, List.length_append, List.length_singleton]
  case isFalse => exact ⟨rfl, .inl hc⟩

/-- A class that closes does not go on. -/
theorem close_map_inr_ne (k k' : OpenClass) : k.close.map .inr ≠ Except.ok (Sum.inl k') := by
  cases k.close with
  | error => simp [Except.map]
  | ok => simp [Except.map]

/-- Behind a range nothing of it is kept. -/
theorem tracks_addRange {lo hi : Char} {start : Nat}
    (h : (k.addRange lo hi start).map .inl =
      (.ok (.inl k') : Except SyntaxError (OpenClass ⊕ CharClass))) :
    k'.start = k.start ∧ k'.place.Tracks before := by
  obtain ⟨k'', hrange, heq⟩ := exists_of_map_eq_ok h
  obtain rfl := Sum.inl.inj heq
  unfold addRange at hrange
  split at hrange
  case isTrue => exact absurd hrange (by simp)
  case isFalse =>
    obtain rfl := Except.ok.inj hrange
    exact ⟨rfl, trivial⟩

/-- A class that goes on keeps its bracket and tracks its items. -/
theorem tracks_step (hoffset : offset = before.length) (hplace : k.place.Tracks before)
    (h : k.step c offset = .ok (.inl k')) :
    k'.start = k.start ∧ k'.place.Tracks (before ++ [c]) := by
  unfold step at h
  generalize hk : k.place = place at h hplace
  cases place with
  | opened =>
    dsimp only at h
    split at h
    · obtain rfl := Sum.inl.inj (Except.ok.inj h)
      exact ⟨rfl, trivial⟩
    · split at h
      · -- a bracket right here is an error
        exact absurd h (by simp)
      · obtain rfl := Sum.inl.inj (Except.ok.inj h)
        exact tracks_startItem hoffset
  | first =>
    dsimp only at h
    split at h
    · exact absurd h (by simp)
    · obtain rfl := Sum.inl.inj (Except.ok.inj h)
      exact tracks_startItem hoffset
  | item =>
    dsimp only at h
    split at h
    · exact absurd h (close_map_inr_ne _ _)
    · obtain rfl := Sum.inl.inj (Except.ok.inj h)
      exact tracks_startItem hoffset
  | escape start =>
    obtain rfl := Sum.inl.inj (Except.ok.inj h)
    exact ⟨rfl, EndsInEscape.standsAt hplace c⟩
  | after x start =>
    dsimp only at h
    split at h
    · obtain rfl := Sum.inl.inj (Except.ok.inj h)
      exact ⟨rfl, ClassItem.StandsAt.append hplace⟩
    · split at h
      · exact absurd h (close_map_inr_ne _ _)
      · obtain rfl := Sum.inl.inj (Except.ok.inj h)
        exact tracks_startItem hoffset
  | hyphen x start =>
    dsimp only at h
    split at h
    · exact absurd h (close_map_inr_ne _ _)
    · cases x with
      | shorthand => exact absurd h (by simp)
      | char lo =>
        dsimp only at h
        split at h
        -- an escape behind a hyphen: both of their offsets are kept
        case isTrue hc =>
          obtain rfl := Sum.inl.inj (Except.ok.inj h)
          refine ⟨rfl, ClassItem.StandsAt.append hplace, ?_, ?_⟩
          · rw [hoffset, List.length_append, List.length_singleton]
          · rw [hoffset, ← hc]
            exact getElem?_append_length before c []
        case isFalse => exact tracks_addRange h
  | upperEscape lo start escapeStart =>
    dsimp only at h
    cases hitem : escapeItem c with
    | shorthand => rw [hitem] at h; exact absurd h (by simp)
    | char hi => rw [hitem] at h; exact tracks_addRange h

end OpenClass

namespace Reader

variable {s s' : Reader} {c : Char} {before rest : List Char} {e : SyntaxError}

/-- The reader begins in step with the empty text. -/
theorem tracks_start : Reader.start.Tracks [] where
  offset := rfl
  groups _ hg := absurd hg List.not_mem_nil
  fresh _ _ := .inl rfl
  opened _ _ _ _ _ _ h := absurd h (by simp [Reader.start])
  place := trivial

/-- If no alternative is left without an item, only the offsets kept in the construct at hand are
new. -/
theorem Tracks.of_items (h : s.Tracks before) (hoffset : s'.offset = s.offset + 1)
    (houter : ∀ g ∈ s'.outer, g ∈ s.outer) (hitems : s'.place = .atom → s'.level.items ≠ [])
    (hplace : s'.place.Tracks (before ++ [c])) : s'.Tracks (before ++ [c]) where
  offset := by rw [hoffset, h.offset, List.length_append, List.length_singleton]
  groups g hg := getElem?_append_of_eq_some (h.groups g (houter g hg))
  fresh hatom hnil := absurd hnil (hitems hatom)
  opened hatom hnil := absurd hnil (hitems hatom)
  place := hplace

/-- A further item keeps the reader in step. -/
theorem Tracks.push (h : s.Tracks before) (item : Regex) : (s.push item).Tracks (before ++ [c]) :=
  h.of_items rfl (fun _ hg => hg) (fun _ => List.cons_ne_nil _ _) trivial

/-- So does a step to a place that is in step itself. -/
theorem Tracks.goto (h : s.Tracks before) {place : Place} (hne : place ≠ .atom)
    (hplace : place.Tracks (before ++ [c])) : (s.goto place).Tracks (before ++ [c]) :=
  h.of_items rfl (fun _ hg => hg) (fun hatom => absurd hatom hne) hplace

/-- A group that is opened is remembered with the offset of its parenthesis. -/
theorem Tracks.openGroup (h : s.Tracks before) : s.openGroup.Tracks (before ++ ['(']) where
  offset := by rw [List.length_append, List.length_singleton, ← h.offset]; rfl
  groups := by
    rintro g hg
    rcases List.mem_cons.1 hg with rfl | hg
    · show (before ++ ['('])[s.offset]? = some '('
      rw [h.offset]
      exact getElem?_append_length before '(' []
    · exact getElem?_append_of_eq_some (h.groups g hg)
  fresh _ _ := .inr (.inr List.getLast?_concat)
  opened := by
    intro _ _ _ start around outer houter
    obtain ⟨rfl, -⟩ := Prod.mk.inj (List.cons.inj houter).1
    rw [List.length_append, List.length_singleton, h.offset]
  place := trivial

/-- A group that is closed is forgotten. -/
theorem Tracks.closeGroup (h : s.Tracks before) (hs : s.closeGroup = .ok s') :
    s'.Tracks (before ++ [')']) := by
  unfold Reader.closeGroup at hs
  split at hs
  · split at hs <;> exact absurd hs (by simp)
  · exact absurd hs (by simp)
  · exact absurd hs (by simp)
  · rename_i start around outer item items houter hitems
    obtain rfl := Except.ok.inj hs
    refine h.of_items rfl (fun g hg => ?_) (fun _ => List.cons_ne_nil _ _) trivial
    rw [houter]
    exact List.mem_cons_of_mem _ hg

/-- A bar keeps the reader in step. -/
theorem Tracks.nextBranch (h : s.Tracks before) (hplace : s.place = .atom)
    (hs : s.nextBranch = .ok s') : s'.Tracks (before ++ ['|']) := by
  unfold Reader.nextBranch at hs
  split at hs
  case isTrue => exact absurd hs (by simp)
  case isFalse =>
    obtain rfl := Except.ok.inj hs
    exact {
      offset := by rw [List.length_append, List.length_singleton, ← h.offset]
      groups := fun g hg => getElem?_append_of_eq_some (h.groups g hg)
      fresh := fun _ _ => .inr (.inl List.getLast?_concat)
      opened := fun _ _ hnil => absurd hnil (List.cons_ne_nil _ _)
      place := by rw [hplace]; trivial }

/-- An operator keeps the reader in step. -/
theorem Tracks.applyRepetition {times : Repetition} (h : s.Tracks before)
    (hplace : s.place = .atom) (hs : s.applyRepetition times c = .ok s') :
    s'.Tracks (before ++ [c]) := by
  unfold Reader.applyRepetition at hs
  split at hs
  case h_1 => exact absurd hs (by simp)
  case h_2 =>
    obtain rfl := Except.ok.inj hs
    refine h.of_items rfl (fun _ hg => hg) (fun _ => List.cons_ne_nil _ _) ?_
    rw [hplace]
    trivial

/-- Where an atom may stand, every character keeps the reader in step. -/
theorem Tracks.stepAtom (h : s.Tracks before) (hplace : s.place = .atom)
    (hs : s.stepAtom c = .ok s') : s'.Tracks (before ++ [c]) := by
  have hc : (before ++ [c])[s.offset]? = some c := h.offset ▸ getElem?_append_length before c []
  unfold Reader.stepAtom at hs
  split at hs
  case h_1 => exact h.nextBranch hplace hs
  case h_2 => exact Except.ok.inj hs ▸ h.openGroup
  case h_3 => exact h.closeGroup hs
  case h_4 | h_5 | h_6 => exact h.applyRepetition hplace hs
  case h_7 => exact Except.ok.inj hs ▸ h.goto (by simp) ⟨hc, trivial⟩
  case h_8 =>
    have hbrace : (Place.reference s.offset []).Tracks (before ++ ['{']) :=
      ⟨before, rfl, h.offset.symm, List.not_mem_nil⟩
    exact Except.ok.inj hs ▸ h.goto (by simp) hbrace
  case h_9 => exact Except.ok.inj hs ▸ h.push _
  case h_10 => exact Except.ok.inj hs ▸ h.goto (by simp) List.getLast?_concat
  case h_11 => exact Except.ok.inj hs ▸ h.push _

/-- Every character keeps what stands at the offsets. -/
theorem Tracks.step (h : s.Tracks before) (hs : s.step c = .ok s') : s'.Tracks (before ++ [c]) := by
  have hmore := h.place
  unfold Reader.step at hs
  generalize hplace : s.place = place at hs hmore
  cases place with
  | atom => exact h.stepAtom hplace hs
  | escape => exact Except.ok.inj hs ▸ h.push _
  | reference start name =>
    -- the text since the brace is the name, as far as it has been read
    obtain ⟨text, rfl, hstart, hname⟩ := hmore
    simp only [Reader.stepReference] at hs
    split at hs
    case isTrue =>
      split at hs
      case isTrue => exact Except.ok.inj hs ▸ h.push _
      case isFalse => exact absurd hs (by simp)
    case isFalse hc =>
      obtain rfl := Except.ok.inj hs
      refine h.goto (by simp) ⟨text, ?_, hstart, ?_⟩
      · simp
      · simpa using ⟨Ne.symm hc, hname⟩
  | inClass k =>
    obtain ⟨hbracket, hk⟩ := hmore
    obtain ⟨next, hnext, rfl⟩ := exists_of_map_eq_ok hs
    cases next with
    | inr members => exact h.push _
    | inl k' =>
      -- the class goes on, and its bracket stays where it is
      obtain ⟨hstart, hk'⟩ := OpenClass.tracks_step h.offset hk hnext
      refine h.goto (by simp) ⟨?_, hk'⟩
      rw [hstart]
      exact getElem?_append_of_eq_some hbracket

/-- So does every text. -/
theorem Tracks.run {cs : List Char} (h : s.Tracks before) (hs : s.run cs = .ok s') :
    s'.Tracks (before ++ cs) := by
  induction cs generalizing s before with
  | nil =>
    obtain rfl := Except.ok.inj hs
    rwa [List.append_nil]
  | cons c cs ih =>
    rw [run_cons] at hs
    obtain ⟨s₁, hstep, hrest⟩ := exists_of_bind_eq_ok hs
    rw [List.append_cons]
    exact ih (h.step hstep) hrest

end Reader

end MaximalMunch.Regex
