import MaximalMunch.Definition.Line
import MaximalMunch.Proofs.Text.Blank

/-!
# Reading one definition line

Which lines declare what (`Declaration.Spelled`), which are ignored (`Declaration.Ignored`), and
what is wrong with all others (`Declaration.Flawed`), each said by how the line is put together.
Reading a line decides between the three (`ofLine_decides`).

The mark of an internal token, the colon behind the name and the colons in a pattern are the same
character. They are told apart because neither white space nor a name has a colon: the first colon
of a line is the mark if only white space comes before it, and the first one behind that ends the
name.
-/

namespace MaximalMunch

open MaximalMunch.Text (AllBlank Trimmed Trims)

namespace Declaration

variable {d : Declaration} {internal : Bool} {line text before after w : List Char}
  {f : Definition.Fault}

/-! ## The form of a line -/

/-- What an internal token has before its name. -/
def mark (internal : Bool) : List Char := if internal then [':'] else []

/-- The line declares `d`: its parts stand in their order, with white space around them. -/
def Spelled (d : Declaration) (line : List Char) : Prop :=
  ∃ w₁ w₂ w₃ w₄ w₅ : List Char,
    (AllBlank w₁ ∧ AllBlank w₂ ∧ AllBlank w₃ ∧ AllBlank w₄ ∧ AllBlank w₅) ∧
    line = w₁ ++ mark d.internal ++ w₂ ++ d.name.toList ++ w₃ ++ [':'] ++ w₄ ++
      d.pattern.toList ++ w₅ ∧
    Text.isWord d.name.toList = true ∧ d.pattern.toList ≠ [] ∧ Trimmed d.pattern.toList

/-- There is nothing to read in the line: it is blank, or a comment. -/
def Ignored (line : List Char) : Prop :=
  AllBlank line ∨ ∃ w rest, AllBlank w ∧ line = w ++ '#' :: rest

/-- The text is what is left of the line without the white space at its ends, and without one colon
at its start if there is one: then the token is internal. -/
structure Marked (internal : Bool) (line text : List Char) : Prop where
  trims : Trims line (mark internal ++ text)
  unmarked : internal = false → ':' ∉ text.head?

/-- The text is the name of `d`, a colon and the pattern of `d`. -/
structure Parts (d : Declaration) (text before after : List Char) : Prop where
  text_eq : text = before ++ ':' :: after
  colon : ':' ∉ before
  name : Trims before d.name.toList
  word : Text.isWord d.name.toList = true
  pattern : Trims after d.pattern.toList
  pattern_ne : d.pattern.toList ≠ []

/-- What is wrong with a text that should be a name, a colon and a pattern. -/
inductive Flaw (text : List Char) : Definition.Fault → Prop
  | missingSeparator (h : ':' ∉ text) : Flaw text .missingSeparator
  | emptyName {before after : List Char} (htext : text = before ++ ':' :: after)
      (hbefore : ':' ∉ before) (h : AllBlank before) : Flaw text .emptyName
  | invalidName {before after name : List Char} (htext : text = before ++ ':' :: after)
      (hbefore : ':' ∉ before) (hname : Trims before name) (hne : name ≠ [])
      (h : Text.isWord name = false) : Flaw text (.invalidName (String.ofList name))
  | emptyPattern {before after name : List Char} (htext : text = before ++ ':' :: after)
      (hbefore : ':' ∉ before) (hname : Trims before name) (hword : Text.isWord name = true)
      (h : AllBlank after) : Flaw text (.emptyPattern (String.ofList name))

/-- There is something to read in the line, and what is read has the flaw `f`. -/
def Flawed (line : List Char) (f : Definition.Fault) : Prop :=
  ¬ Ignored line ∧ ∃ internal text, Marked internal line text ∧ Flaw text f

/-! ## Colons -/

/-- There is no colon among white space. -/
theorem colon_notMem_of_allBlank (h : AllBlank w) : ':' ∉ w := fun hmem =>
  absurd (h _ hmem) (by decide)

/-- There is no colon in a word. -/
theorem colon_notMem_of_isWord {cs : List Char} (h : Text.isWord cs = true) : ':' ∉ cs :=
  Text.notMem_of_isWord h (by decide)

/-- The first colon of a text is where it is split. -/
theorem splitAtColon_append (h : ':' ∉ before) (after : List Char) :
    splitAtColon (before ++ ':' :: after) = some (before, after) := by
  induction before with
  | nil => rfl
  | cons c before ih =>
    rw [List.mem_cons, not_or] at h
    obtain ⟨hc, hbefore⟩ := h
    rw [List.cons_append, splitAtColon, if_neg (Ne.symm hc), ih hbefore]
    rfl

/-- A text without a colon is not split. -/
theorem splitAtColon_eq_none (h : ':' ∉ text) : splitAtColon text = none := by
  induction text with
  | nil => rfl
  | cons c text ih =>
    rw [List.mem_cons, not_or] at h
    obtain ⟨hc, htext⟩ := h
    rw [splitAtColon, if_neg (Ne.symm hc), ih htext]
    rfl

/-! ## Name and pattern -/

/-- Reading a text that has a colon, told by the parts on its two sides. -/
theorem ofParts_append {name pattern : List Char} (hbefore : ':' ∉ before)
    (hname : Trims before name) (hpattern : Trims after pattern) :
    ofParts internal (before ++ ':' :: after) =
      if name.isEmpty then .error .emptyName
      else if !Text.isWord name then .error (.invalidName (String.ofList name))
      else if pattern.isEmpty then .error (.emptyPattern (String.ofList name))
      else .ok ⟨String.ofList name, String.ofList pattern, internal⟩ := by
  rw [ofParts, splitAtColon_append hbefore]
  simp only [hname.trim_eq, hpattern.trim_eq]

/-- A text with the parts of a declaration is read as this declaration. -/
theorem Parts.ofParts_eq (h : Parts d text before after) : ofParts d.internal text = .ok d := by
  rw [h.text_eq, ofParts_append h.colon h.name h.pattern]
  simp [h.word, h.pattern_ne, (Text.isWord_iff.1 h.word).1, String.ofList_toList]

/-- A text with a flaw is refused for this flaw. -/
theorem Flaw.ofParts_eq (h : Flaw text f) : ofParts internal text = .error f := by
  cases h with
  | missingSeparator h => rw [ofParts, splitAtColon_eq_none h]
  | emptyName htext hbefore h =>
    rw [htext, ofParts_append hbefore (Text.trims_nil_iff.2 h) (Text.trims_trim _)]
    rfl
  | invalidName htext hbefore hname hne h =>
    rw [htext, ofParts_append hbefore hname (Text.trims_trim _)]
    simp [hne, h]
  | emptyPattern htext hbefore hname hword h =>
    rw [htext, ofParts_append hbefore hname (Text.trims_nil_iff.2 h)]
    simp [hword, (Text.isWord_iff.1 hword).1]

/-- Every text has a flaw or is a name, a colon and a pattern. -/
theorem flaw_or_parts (internal : Bool) (text : List Char) :
    (∃ f, Flaw text f) ∨ ∃ d before after, d.internal = internal ∧ Parts d text before after := by
  -- the checks in the order in which the line is read: separator, name, word, pattern
  by_cases hcolon : ':' ∈ text
  · obtain ⟨before, after, htext, hbefore⟩ := List.eq_append_cons_of_mem hcolon
    have hname := Text.trims_trim before
    have hpattern := Text.trims_trim after
    by_cases hne : Text.trim before = []
    · rw [hne, Text.trims_nil_iff] at hname
      exact .inl ⟨_, .emptyName htext hbefore hname⟩
    cases hword : Text.isWord (Text.trim before) with
    | false => exact .inl ⟨_, .invalidName htext hbefore hname hne hword⟩
    | true =>
      by_cases hempty : Text.trim after = []
      · rw [hempty, Text.trims_nil_iff] at hpattern
        exact .inl ⟨_, .emptyPattern htext hbefore hname hword hpattern⟩
      · refine .inr ⟨⟨String.ofList (Text.trim before), String.ofList (Text.trim after), internal⟩,
          before, after, rfl, htext, hbefore, ?_, ?_, ?_, ?_⟩
        · rwa [String.toList_ofList]
        · rwa [String.toList_ofList]
        · rwa [String.toList_ofList]
        · rwa [String.toList_ofList]
  · exact .inl ⟨_, .missingSeparator hcolon⟩

/-! ## The start of a line -/

/-- The line is ignored if nothing is left of it or a comment begins it. -/
theorem ignored_iff : Ignored line ↔ ∀ c ∈ (Text.trim line).head?, c = '#' := by
  constructor
  · rintro (h | ⟨w, rest, hw, rfl⟩) c hc
    · rw [(Text.trims_nil_iff.2 h).trim_eq] at hc
      cases hc
    · -- trimming keeps the `#`: nothing before it is left and it is no white space
      obtain ⟨after, hafter, hcs, -⟩ := Text.exists_eq_trimEnd_append ('#' :: rest)
      have htrim : Text.trim (w ++ '#' :: rest) = Text.trimEnd ('#' :: rest) := by
        rw [Text.trim, Text.trimStart_append hw, Text.trimStart_eq_self]
        intro c hc
        cases hc
        decide
      rw [htrim] at hc
      have hhead : ('#' :: rest).head? = some c := by
        rw [hcs, List.head?_append, show (Text.trimEnd ('#' :: rest)).head? = some c from hc]
        rfl
      cases hhead
      rfl
  · intro h
    have htrims := Text.trims_trim line
    cases hcs : Text.trim line with
    | nil => exact .inl (Text.trims_nil_iff.1 (hcs ▸ htrims))
    | cons c rest =>
      have hc : c = '#' := h c (by rw [hcs]; rfl)
      -- what was trimmed away before the `#` is the white space of the comment line
      obtain ⟨-, before, after, hbefore, -, hline⟩ := htrims
      refine .inr ⟨before, rest ++ after, hbefore, ?_⟩
      rw [hline, hcs, hc, List.append_assoc, List.cons_append]

/-- A line is read if its first character behind the white space is no comment mark. -/
theorem not_ignored_of_trims {c : Char} {core : List Char} (h : Trims line (c :: core))
    (hc : c ≠ '#') : ¬ Ignored line := by
  rw [ignored_iff, h.trim_eq]
  exact fun hhead => hc (hhead c rfl)

/-- What is read of a line that is not ignored. -/
theorem Marked.ofChars?_eq (h : Marked internal line text) (hline : ¬ Ignored line) :
    ofChars? line = (ofParts internal text).map some := by
  cases internal with
  | true =>
    have htrim : Text.trim line = ':' :: text := h.trims.trim_eq
    rw [ofChars?, htrim]
    rfl
  | false =>
    have htrim : Text.trim line = text := h.trims.trim_eq
    have hcolon := h.unmarked rfl
    rw [ignored_iff, htrim] at hline
    rw [ofChars?, htrim]
    -- the text begins with none of the characters that a line is told by
    split
    · simp at hline
    · simp at hline
    · simp at hcolon
    · rfl

/-- Every line has a mark and a text behind it. -/
theorem exists_marked (line : List Char) : ∃ internal text, Marked internal line text := by
  by_cases h : ∃ text, Text.trim line = ':' :: text
  · obtain ⟨text, htext⟩ := h
    exact ⟨true, text, Text.trim_eq_iff.1 htext, by simp⟩
  · refine ⟨false, Text.trim line, Text.trims_trim line, fun _ hcolon => h ?_⟩
    exact List.head?_eq_some_iff.1 hcolon

/-- A blank line or a comment declares nothing. -/
theorem ofChars?_of_ignored (h : Ignored line) : ofChars? line = .ok none := by
  rw [ignored_iff] at h
  rw [ofChars?]
  cases hcs : Text.trim line with
  | nil => rfl
  | cons c cs =>
    obtain rfl : c = '#' := h c (by rw [hcs]; rfl)
    rfl

/-! ## The whole line -/

/-- A word has no white space at its ends. -/
theorem trimmed_of_isWord {cs : List Char} (h : Text.isWord cs = true) : Trimmed cs where
  head _ hc := Text.isBlank_of_isWordChar ((Text.isWord_iff.1 h).2 _ (List.mem_of_head? hc))
  last _ hc := Text.isBlank_of_isWordChar ((Text.isWord_iff.1 h).2 _ (List.mem_of_getLast? hc))

/-- A name and a pattern with a colon between them are the parts of a declaration, with any white
space around the name and in front of the pattern. -/
theorem parts_append {w₂ w₃ w₄ : List Char} (hw₂ : AllBlank w₂) (hw₃ : AllBlank w₃)
    (hw₄ : AllBlank w₄) (hword : Text.isWord d.name.toList = true)
    (hpattern : Trimmed d.pattern.toList) (hne : d.pattern.toList ≠ []) :
    Parts d (w₂ ++ d.name.toList ++ w₃ ++ ':' :: (w₄ ++ d.pattern.toList))
      (w₂ ++ d.name.toList ++ w₃) (w₄ ++ d.pattern.toList) where
  text_eq := rfl
  colon := by
    simp only [List.mem_append, not_or]
    exact ⟨⟨colon_notMem_of_allBlank hw₂, colon_notMem_of_isWord hword⟩,
      colon_notMem_of_allBlank hw₃⟩
  name := ⟨trimmed_of_isWord hword, w₂, w₃, hw₂, hw₃, rfl⟩
  word := hword
  pattern := ⟨hpattern, w₄, [], hw₄, .nil, (List.append_nil _).symm⟩
  pattern_ne := hne

/-- A line that declares `d` is not ignored, and what is read of it are the parts of `d`. -/
theorem Spelled.exists_parts (h : Spelled d line) : ¬ Ignored line ∧
    ∃ text, Marked d.internal line text ∧ ∃ before after, Parts d text before after := by
  obtain ⟨w₁, w₂, w₃, w₄, w₅, ⟨hw₁, hw₂, hw₃, hw₄, hw₅⟩, hline, hword, hne, hpattern⟩ := h
  have hparts {w : List Char} (hw : AllBlank w) := parts_append hw hw₃ hw₄ hword hpattern hne
  cases hinternal : d.internal with
  | true =>
    -- what is left of the line begins with the mark
    have htrims : Trims line
        (':' :: (w₂ ++ d.name.toList ++ w₃ ++ ':' :: (w₄ ++ d.pattern.toList))) := by
      refine ⟨?_, w₁, w₅, hw₁, hw₅, by simp [hline, hinternal, mark]⟩
      have htrimmed :
          Trimmed (':' :: (w₂ ++ d.name.toList ++ w₃ ++ ':' :: w₄) ++ d.pattern.toList) :=
        .append (fun c hc => by cases hc; decide) (List.cons_ne_nil _ _) hpattern hne
      simpa using htrimmed
    exact ⟨not_ignored_of_trims htrims (by decide), _, ⟨htrims, by simp⟩, _, _, hparts hw₂⟩
  | false =>
    -- it begins with the name: the white space before that is the line's
    obtain ⟨hname, hchars⟩ := Text.isWord_iff.1 hword
    obtain ⟨c, cs, hcs⟩ := List.exists_cons_of_ne_nil hname
    have hc := hchars c (hcs ▸ List.mem_cons_self)
    have htrims : Trims line ([] ++ d.name.toList ++ w₃ ++ ':' :: (w₄ ++ d.pattern.toList)) := by
      refine ⟨?_, w₁ ++ w₂, w₅, hw₁.append hw₂, hw₅, by simp [hline, hinternal, mark]⟩
      have htrimmed : Trimmed (d.name.toList ++ w₃ ++ ':' :: w₄ ++ d.pattern.toList) := by
        refine .append ?_ (by simp) hpattern hne
        rw [List.append_assoc, List.head?_append_of_ne_nil _ hname]
        exact (trimmed_of_isWord hword).head
      simpa using htrimmed
    have hignored : ¬ Ignored line := by
      refine not_ignored_of_trims (c := c) (by simpa [hcs] using htrims) ?_
      rintro rfl
      exact absurd hc (by decide)
    refine ⟨hignored, _, ⟨htrims, fun _ => ?_⟩, _, _, hparts .nil⟩
    rw [hcs]
    rintro ⟨⟩
    exact absurd hc (by decide)

/-- Name and pattern in what is read of a line stand in the line. -/
theorem Parts.spelled (h : Parts d text before after) (hm : Marked d.internal line text) :
    Spelled d line := by
  obtain ⟨htext, -, ⟨-, w₂, w₃, hw₂, hw₃, rfl⟩, hword, ⟨hpattern, w₄, w, hw₄, hw, rfl⟩, hne⟩ := h
  obtain ⟨⟨-, w₁, w₅, hw₁, hw₅, hline⟩, -⟩ := hm
  refine ⟨w₁, w₂, w₃, w₄, w ++ w₅, ⟨hw₁, hw₂, hw₃, hw₄, hw.append hw₅⟩, ?_, hword, hne, hpattern⟩
  rw [hline, htext]
  simp only [List.append_assoc, List.cons_append, List.nil_append]

/-- What a line is read as. -/
inductive Outcome (line : List Char) : Except Definition.Fault (Option Declaration) → Prop
  | ignored (h : Ignored line) : Outcome line (.ok none)
  | declared {d : Declaration} (h : Spelled d line) : Outcome line (.ok (some d))
  | flawed {f : Definition.Fault} (h : Flawed line f) : Outcome line (.error f)

/-- A line is read as its outcome. -/
theorem Outcome.ofChars?_eq {r : Except Definition.Fault (Option Declaration)}
    (h : Outcome line r) : ofChars? line = r := by
  cases h with
  | ignored h => exact ofChars?_of_ignored h
  | declared h =>
    obtain ⟨hline, text, hm, before, after, hd⟩ := h.exists_parts
    rw [hm.ofChars?_eq hline, hd.ofParts_eq]
    rfl
  | flawed h =>
    obtain ⟨hline, internal, text, hm, hf⟩ := h
    rw [hm.ofChars?_eq hline, hf.ofParts_eq]
    rfl

/-- Every line is ignored, declares something or has a flaw. -/
theorem exists_outcome (line : List Char) : ∃ r, Outcome line r := by
  by_cases hline : Ignored line
  · exact ⟨_, .ignored hline⟩
  · obtain ⟨internal, text, hm⟩ := exists_marked line
    rcases flaw_or_parts internal text with ⟨f, hf⟩ | ⟨d, before, after, rfl, hd⟩
    · exact ⟨_, .flawed ⟨hline, internal, text, hm, hf⟩⟩
    · exact ⟨_, .declared (hd.spelled hm)⟩

/-- There is one outcome, and reading the line gives it. -/
theorem ofChars?_eq_iff {r : Except Definition.Fault (Option Declaration)} :
    ofChars? line = r ↔ Outcome line r := by
  refine ⟨fun h => ?_, Outcome.ofChars?_eq⟩
  obtain ⟨r', hr'⟩ := exists_outcome line
  rwa [← h, hr'.ofChars?_eq]

/-- The outcome of a line is a declaration if the line spells this declaration. -/
theorem outcome_some_iff : Outcome line (.ok (some d)) ↔ Spelled d line :=
  ⟨fun | .declared h => h, .declared⟩

/-- The outcome of a line is nothing if the line is ignored. -/
theorem outcome_none_iff : Outcome line (.ok none) ↔ Ignored line :=
  ⟨fun | .ignored h => h, .ignored⟩

/-- The outcome of a line is a fault if the line is flawed in this way. -/
theorem outcome_error_iff : Outcome line (.error f) ↔ Flawed line f :=
  ⟨fun | .flawed h => h, .flawed⟩

/-- **Every line is read as it is put together.** A line is read as a declaration if and only if it
consists of the mark of an internal token (or not), the name, a colon and the pattern, with white
space around them, where the name is a word and the pattern is not empty and has no white space at
its ends; it is ignored if and only if it is blank or a comment. On all others, and only on them,
there is an error with the number of the line and the first flaw of its text: the text has no colon,
nothing before it, no word before it, or nothing after it. -/
theorem ofLine_decides (line : String) (number : Nat) :
    (∀ d, ofLine? line number = .ok (some d) ↔ Spelled d line.toList) ∧
    (ofLine? line number = .ok none ↔ Ignored line.toList) ∧
    ∀ e, ofLine? line number = .error e ↔ e.line = number ∧ Flawed line.toList e.fault := by
  -- numbering the fault leaves every other outcome as it is
  have hok (r : Option Declaration) :
      ofLine? line number = .ok r ↔ ofChars? line.toList = .ok r := by
    rw [ofLine?]
    cases ofChars? line.toList with
    | error f => exact ⟨nofun, nofun⟩
    | ok d =>
      constructor
      · rintro ⟨⟩
        rfl
      · rintro ⟨⟩
        rfl
  refine ⟨fun d => ?_, ?_, fun e => ?_⟩
  · rw [hok, ofChars?_eq_iff, outcome_some_iff]
  · rw [hok, ofChars?_eq_iff, outcome_none_iff]
  rw [← outcome_error_iff, ← ofChars?_eq_iff, ofLine?]
  cases ofChars? line.toList with
  | error f =>
    constructor
    · rintro ⟨⟩
      exact ⟨rfl, rfl⟩
    · rintro ⟨rfl, ⟨⟩⟩
      rfl
  | ok d => exact ⟨nofun, nofun⟩

end Declaration

end MaximalMunch
