import MaximalMunch.Proofs.Regex.Descent
import MaximalMunch.Proofs.Regex.Faults

/-!
# Errors point at what is wrong

The offset of an error is the place in the text that the error speaks of (`SyntaxError.PointsAt`):
whatever the fault is, the reader has kept the offset of the character in question
(`Reader.Fault.pointsAt`, `Reader.EndFault.pointsAt`).

There are no other errors: read rule by rule, a text never ends where an atom is to begin or behind
the hyphen of a range (`faults_point_at_culprits`).
-/

namespace MaximalMunch.Regex

namespace SyntaxError

/-- What stands in the text at the offset of an error. -/
def PointsAt (text : List Char) : SyntaxError → Prop
  | .unmatchedParen offset => text[offset]? = some ')'
  | .unclosedGroup offset => text[offset]? = some '('
  | .emptyGroup offset => text[offset]? = some '(' ∧ text[offset + 1]? = some ')'
  | .emptyAlternative offset =>
    (offset = text.length ∨ text[offset]? = some '|' ∨ text[offset]? = some ')') ∧
      (offset = 0 ∨ text[offset - 1]? = some '|' ∨ text[offset - 1]? = some '(')
  | .nothingToRepeat operator offset => text[offset]? = some operator ∧ operator ∈ ['*', '+', '?']
  | .unterminatedClass offset => text[offset]? = some '['
  | .emptyClass offset => text[offset]? = some '['
  | .reversedRange lo hi offset =>
    hi < lo ∧ (text[offset]? = some lo ∨ text[offset]? = some '\\')
  | .invalidRangeEndpoint offset => ShorthandAt text offset
  | .unterminatedReference offset => text[offset]? = some '{' ∧ '}' ∉ text.drop (offset + 1)
  | .invalidReference name offset =>
    text[offset]? = some '{' ∧
      (∃ rest, text.drop (offset + 1) = name.toList ++ '}' :: rest ∧ '}' ∉ name.toList) ∧
      (name.toList = [] ∨ ∃ c ∈ name.toList, Text.isWordChar c = false)
  | .trailingEscape => text.getLast? = some '\\'

/-- The offset that an error reports, if it reports one. -/
def offset? : SyntaxError → Option Nat
  | .unmatchedParen offset | .unclosedGroup offset | .emptyGroup offset
  | .emptyAlternative offset | .nothingToRepeat _ offset | .unterminatedClass offset
  | .emptyClass offset | .reversedRange _ _ offset | .invalidRangeEndpoint offset
  | .unterminatedReference offset | .invalidReference _ offset => some offset
  | .trailingEscape => none

/-- No error points beyond the end of the text. -/
theorem PointsAt.offset_le {text : List Char} {e : SyntaxError} (h : e.PointsAt text) :
    ∀ offset ∈ e.offset?, offset ≤ text.length := by
  have hlt : ∀ {offset : Nat} {c : Char}, text[offset]? = some c → offset ≤ text.length :=
    fun hc => Nat.le_of_lt (List.getElem?_eq_some_iff.1 hc).1
  intro offset hoffset
  cases e with
  | unmatchedParen | unclosedGroup | unterminatedClass | emptyClass =>
    obtain rfl := Option.some.inj hoffset
    exact hlt h
  | emptyGroup | nothingToRepeat | invalidRangeEndpoint | unterminatedReference
  | invalidReference =>
    obtain rfl := Option.some.inj hoffset
    exact hlt h.1
  | emptyAlternative =>
    obtain rfl := Option.some.inj hoffset
    -- the end of the text is an offset too, behind the last character
    rcases h.1 with heq | hc | hc
    · exact Nat.le_of_eq heq
    · exact hlt hc
    · exact hlt hc
  | reversedRange =>
    obtain rfl := Option.some.inj hoffset
    exact h.2.elim hlt hlt
  | trailingEscape => exact absurd hoffset (by simp [offset?])

end SyntaxError

/-! ## Faults and their places -/

/-- A class is at fault where its error points. -/
theorem OpenClass.Fault.pointsAt {k : OpenClass} {c : Char} {e : SyntaxError}
    {before rest : List Char} (h : k.Fault c e) (hbracket : before[k.start]? = some '[')
    (hplace : k.place.Tracks before) : e.PointsAt (before ++ c :: rest) := by
  cases h with
  | empty => exact getElem?_append_of_eq_some hbracket
  | shorthandLow hk =>
    rw [hk] at hplace
    exact ShorthandAt.append hplace
  | shorthandHigh hk hc =>
    rw [hk] at hplace
    have hescape := hplace.2.standsAt c
    rw [hc] at hescape
    rw [List.append_cons]
    exact ShorthandAt.append hescape
  | @reversed lo hi start hk hlt =>
    have hlo : (ClassItem.char lo).StandsAt before start := by
      rcases hk with hk | ⟨escapeStart, hk⟩ <;> rw [hk] at hplace
      · exact hplace
      · exact hplace.1
    exact ⟨hlt, hlo.append⟩

/-- A text that is no word is empty or has another character. -/
theorem eq_nil_or_exists_of_isWord_eq_false {name : List Char} (h : Text.isWord name = false) :
    name = [] ∨ ∃ c ∈ name, Text.isWordChar c = false := by
  rw [Text.isWord, Bool.and_eq_false_iff] at h
  rcases h with h | h
  · exact .inl (by simpa using h)
  · exact .inr (by simpa using h)

namespace Reader

variable {s s' : Reader} {c : Char} {before rest : List Char} {e : SyntaxError}

/-- An alternative without an item begins the text, or a bar or an opening parenthesis stands in
front of it. -/
theorem Tracks.fresh_or (h : s.Tracks before) (hplace : s.place = .atom)
    (hitems : s.level.items = []) (rest : List Char) : s.offset = 0 ∨
      (before ++ rest)[s.offset - 1]? = some '|' ∨ (before ++ rest)[s.offset - 1]? = some '(' := by
  rw [h.offset]
  rcases h.fresh hplace hitems with rfl | hlast | hlast
  · exact .inl rfl
  · exact .inr (.inl (getElem?_append_of_getLast? hlast))
  · exact .inr (.inr (getElem?_append_of_getLast? hlast))

/-- A fault at a character is where its error points. -/
theorem Fault.pointsAt (h : s.Fault c e) (hs : s.Tracks before) :
    e.PointsAt (before ++ c :: rest) := by
  -- most faults blame the character just read
  have hhere : (before ++ c :: rest)[s.offset]? = some c :=
    hs.offset ▸ getElem?_append_length before c rest
  cases h with
  | emptyAlternative hplace hc hitems =>
    refine ⟨.inr ?_, hs.fresh_or hplace hitems _⟩
    rcases hc with rfl | rfl
    · exact .inl hhere
    · exact .inr hhere
  | @emptyGroup start around outer hplace hc houter hitems hbranches =>
    -- the bracket of an empty group was read earlier, and nothing since
    have hopen : before[start]? = some '(' :=
      hs.groups (start, around) (houter ▸ List.mem_cons_self)
    refine ⟨getElem?_append_of_eq_some hopen, ?_⟩
    rw [hs.opened hplace hitems hbranches _ _ _ houter, ← hc]
    exact getElem?_append_length before c rest
  | unmatchedParen _ hc => exact hc ▸ hhere
  | nothingToRepeat _ hc => exact ⟨hhere, by cases hc <;> decide⟩
  | @invalidReference start name hplace hc hname =>
    have htext := hs.place
    rw [hplace] at htext
    obtain ⟨text, rfl, rfl, hbrace⟩ := htext
    subst hc
    refine ⟨?_, ⟨rest, ?_, ?_⟩, ?_⟩
    · rw [List.append_assoc]
      exact getElem?_append_length text '{' _
    · simp
    · simpa using hbrace
    · rw [String.toList_ofList]
      exact eq_nil_or_exists_of_isWord_eq_false hname
  | inClass hplace h =>
    have hk := hs.place
    rw [hplace] at hk
    exact h.pointsAt hk.1 hk.2

/-- A fault at the end of the text is where its error points. -/
theorem EndFault.pointsAt (h : s.EndFault e) (hs : s.Tracks before) : e.PointsAt before := by
  have hplace := hs.place
  cases h with
  | emptyAlternative hatom hitems =>
    refine ⟨.inl hs.offset, ?_⟩
    have hfresh := hs.fresh_or hatom hitems []
    rwa [List.append_nil] at hfresh
  | @unclosedGroup start around outer houter =>
    exact hs.groups (start, around) (houter ▸ List.mem_cons_self)
  | trailingEscape hescape =>
    rcases hescape with hescape | ⟨k, hclass, ⟨start, hk⟩ | ⟨lo, start, escapeStart, hk⟩⟩
    · rw [hescape] at hplace
      exact hplace
    · rw [hclass] at hplace
      obtain ⟨-, hplace⟩ := hplace
      rw [hk] at hplace
      exact EndsInEscape.getLast? hplace
    · rw [hclass] at hplace
      obtain ⟨-, hplace⟩ := hplace
      rw [hk] at hplace
      exact hplace.2.getLast?
  | unterminatedReference href =>
    rw [href] at hplace
    obtain ⟨text, rfl, rfl, hbrace⟩ := hplace
    refine ⟨getElem?_append_length text '{' _, ?_⟩
    simpa using hbrace
  | unterminatedClass hclass =>
    rw [hclass] at hplace
    exact hplace.1

end Reader

/-- The error of a text points at what is wrong in it. -/
theorem pointsAt_of_parseChars {text : List Char} {e : SyntaxError}
    (h : parseChars text = .error e) : e.PointsAt text := by
  rcases exists_of_parseChars_eq_error h with ⟨-, before, c, rest, s, rfl, hrun, hfault⟩ |
    ⟨s, hrun, hfault⟩
  · exact hfault.pointsAt (Reader.tracks_start.run hrun)
  · exact hfault.pointsAt (Reader.tracks_start.run hrun)

/-- The error of a pattern points at what is wrong in it, and never beyond its end. Read by descent,
the pattern has the same tree or the same error: the branches for a text that ends where an atom is
to begin, or behind the hyphen of a range, are not taken. -/
theorem faults_point_at_culprits (pattern : String) :
    (∀ e, parse pattern = .error e →
      e.PointsAt pattern.toList ∧ ∀ offset ∈ e.offset?, offset ≤ pattern.length) ∧
    Descent.pattern pattern.toList = (parse pattern).mapError .malformed ∧
    Descent.pattern pattern.toList ≠ .error .noAtom ∧
    Descent.pattern pattern.toList ≠ .error .noUpperEnd := by
  refine ⟨fun e h => ?_, Descent.pattern_eq _, ?_, ?_⟩
  · have hpoints := pointsAt_of_parseChars h
    exact ⟨hpoints, String.length_toList ▸ hpoints.offset_le⟩
  · exact Descent.pattern_ne_error (fun e => nofun)
  · exact Descent.pattern_ne_error (fun e => nofun)

/-- A shorthand at the upper end of a range, in a class and a group that are not closed either. -/
theorem faults_point_at_culprits_shorthand :
    parse "(a[0-\\d" = .error (.invalidRangeEndpoint 5) ∧
      ShorthandAt "(a[0-\\d".toList 5 ∧ 5 ≤ "(a[0-\\d".length ∧
      Descent.pattern "(a[0-\\d".toList = .error (.malformed (.invalidRangeEndpoint 5)) := by
  have hparse : parse "(a[0-\\d" = .error (.invalidRangeEndpoint 5) := rfl
  obtain ⟨hpoints, hdescent, -⟩ := faults_point_at_culprits "(a[0-\\d"
  rw [hparse] at hdescent
  exact ⟨hparse, (hpoints _ hparse).1, (hpoints _ hparse).2 5 rfl, hdescent⟩

end MaximalMunch.Regex
