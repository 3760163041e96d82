import MaximalMunch.Proofs.Regex.Soundness

/-!
# References in the text of a pattern

`mentions` finds the names between braces by looking at the text alone: a brace counts unless it is
escaped or stands in a class. The tree of a pattern refers to these names, in this order
(`references_eq_mentions`), so what comes first in the tree comes first in the text.
-/

namespace MaximalMunch.Regex

/-- Where in the text of a pattern a character falls, as far as references go. -/
inductive Region where
  | plain
  /-- After a backslash. -/
  | escape
  | inClass
  /-- After a backslash in a class. -/
  | classEscape
  /-- Between braces, after the characters `name`, the latest first. -/
  | braces (name : List Char)

/-- The names between braces in a text, from left to right. -/
def mentions : Region → List Char → List String
  | _, [] => []
  | .plain, '\\' :: cs => mentions .escape cs
  | .plain, '[' :: cs => mentions .inClass cs
  | .plain, '{' :: cs => mentions (.braces []) cs
  | .plain, _ :: cs => mentions .plain cs
  | .escape, _ :: cs => mentions .plain cs
  | .inClass, '\\' :: cs => mentions .classEscape cs
  | .inClass, ']' :: cs => mentions .plain cs
  | .inClass, _ :: cs => mentions .inClass cs
  | .classEscape, _ :: cs => mentions .inClass cs
  | .braces name, '}' :: cs => String.ofList name.reverse :: mentions .plain cs
  | .braces name, c :: cs => mentions (.braces (c :: name)) cs

variable {text rest : List Char} {c : Char}

/-! ## Classes -/

/-- Inside a class most characters mention nothing. -/
theorem mentions_inClass_cons (hc : c ≠ '\\' ∧ c ≠ ']') :
    mentions .inClass (c :: rest) = mentions .inClass rest := by
  rw [mentions.eq_def]
  split <;> simp_all

/-- The text of an item of a class mentions nothing. -/
theorem ItemText.mentions_append {x : ClassItem} (h : ItemText text x) :
    mentions .inClass (text ++ rest) = mentions .inClass rest := by
  cases h with
  | plain hc => exact mentions_inClass_cons hc
  | escaped c => rw [List.cons_append, List.singleton_append, mentions, mentions]

/-- The text of the parts of a class mentions nothing. -/
theorem ClassBody.mentions_append {parts : List ClassPart} (h : ClassBody text parts) :
    mentions .inClass (text ++ rest) = mentions .inClass rest := by
  induction h with
  | nil => rfl
  | item hx _ _ ih => rw [List.append_assoc, hx.mentions_append, ih]
  | range hlow hhigh _ _ ih =>
    rw [List.append_assoc, hlow.mentions_append, List.cons_append,
      mentions_inClass_cons (by decide), List.append_assoc, hhigh.mentions_append, ih]

/-- A class holds no reference. -/
theorem ClassText.mentions_append {k : CharClass} (h : ClassText text k) :
    mentions .inClass (text ++ rest) = mentions .inClass rest := by
  cases h with
  | plain h => exact h.mentions_append
  | negated h =>
    rw [List.cons_append, mentions_inClass_cons (by decide), h.mentions_append]

/-! ## Patterns -/

/-- Outside of classes most characters mention nothing. -/
theorem mentions_plain_cons (hc : c ∉ ['\\', '[', '{']) :
    mentions .plain (c :: rest) = mentions .plain rest := by
  rw [mentions.eq_def]
  split <;> simp_all

/-- An operator mentions nothing. -/
theorem Operator.mentions_cons {times : Repetition} (h : Operator c times) :
    mentions .plain (c :: rest) = mentions .plain rest := by
  cases h <;> rfl

/-- The text between braces mentions one name: itself. -/
theorem mentions_braces {name : List Char} (hname : ∀ c ∈ name, c ≠ '}') :
    ∀ {read : List Char}, mentions (.braces read) (name ++ '}' :: rest) =
      String.ofList (read.reverse ++ name) :: mentions .plain rest := by
  induction name with
  | nil => intro read; rw [List.append_nil]; rfl
  | cons c more ih =>
    intro read
    obtain ⟨hc, hmore⟩ := List.forall_mem_cons.1 hname
    have hstep : mentions (.braces read) (c :: (more ++ '}' :: rest)) =
        mentions (.braces (c :: read)) (more ++ '}' :: rest) := by
      rw [mentions.eq_def]
      split <;> simp_all
    rw [List.cons_append, hstep, ih hmore, List.reverse_cons, List.append_assoc]
    rfl

/-- An escape refers to nothing. -/
theorem references_escapeItem (c : Char) : (escapeItem c).node.references = [] := by
  cases escapeItem c with
  | char => rw [ClassItem.node, references]
  | shorthand => rw [ClassItem.node, references]

/-- Sequences and choices refer to what their members refer to. -/
theorem referencesOfAll_append (rs ps : List Regex) :
    referencesOfAll (rs ++ ps) = referencesOfAll rs ++ referencesOfAll ps := by
  induction rs with
  | nil => rfl
  | cons r rs ih => rw [List.cons_append, referencesOfAll, ih, referencesOfAll, List.append_assoc]

/-- A sequence refers to what its items refer to. -/
theorem references_sequence (items : List Regex) :
    (sequence items).references = referencesOfAll items := by
  unfold sequence
  split
  · rw [referencesOfAll, referencesOfAll, List.append_nil]
  · rw [references]

/-- A choice refers to what its branches refer to. -/
theorem references_choice (branches : List Regex) :
    (choice branches).references = referencesOfAll branches := by
  unfold choice
  split
  · rw [referencesOfAll, referencesOfAll, List.append_nil]
  · rw [references]

mutual

/-- The text of an atom mentions the names that its tree refers to. -/
theorem Atom.mentions_append : ∀ {text : List Char} {r : Regex}, Atom text r →
    ∀ {rest : List Char}, mentions .plain (text ++ rest) = r.references ++ mentions .plain rest
  | _, _, .char hc, rest => by
    rw [references]
    exact mentions_plain_cons fun h => hc (by simp_all [specialChars])
  | _, _, .escape c, rest => by
    rw [references_escapeItem, List.cons_append, List.singleton_append, mentions, mentions,
      List.nil_append]
  | _, _, .dot, rest => by
    rw [references]
    rfl
  | _, _, .oneOf h, rest => by
    rw [references, List.cons_append, List.append_assoc]
    exact h.mentions_append
  | _, _, .group h, rest => by
    rw [references, references_choice, List.cons_append, List.append_assoc,
      mentions_plain_cons (by decide), Alternation.mentions_append h]
    rfl
  | _, _, .reference hname, rest => by
    rw [references, List.cons_append, List.append_assoc]
    exact mentions_braces (ne_brace_of_isWord hname)

/-- So does the text of an atom with operators. -/
theorem Repeated.mentions_append : ∀ {text : List Char} {r : Regex}, Repeated text r →
    ∀ {rest : List Char}, mentions .plain (text ++ rest) = r.references ++ mentions .plain rest
  | _, _, .atom h, rest => Atom.mentions_append h
  | _, _, .operator h hc, rest => by
    rw [references, List.append_assoc, Repeated.mentions_append h]
    exact congrArg _ hc.mentions_cons

/-- So does the text of a concatenation. -/
theorem Concat.mentions_append : ∀ {text : List Char} {items : List Regex}, Concat text items →
    ∀ {rest : List Char},
      mentions .plain (text ++ rest) = referencesOfAll items ++ mentions .plain rest
  | _, _, .single h, rest => by
    rw [referencesOfAll, referencesOfAll, List.append_nil, Repeated.mentions_append h]
  | _, _, .snoc h hr, rest => by
    rw [List.append_assoc, Concat.mentions_append h, Repeated.mentions_append hr,
      referencesOfAll_append, referencesOfAll, referencesOfAll, List.append_nil, List.append_assoc]

/-- So does the text of an alternation. -/
theorem Alternation.mentions_append : ∀ {text : List Char} {branches : List Regex},
    Alternation text branches → ∀ {rest : List Char},
      mentions .plain (text ++ rest) = referencesOfAll branches ++ mentions .plain rest
  | _, _, .single h, rest => by
    rw [referencesOfAll, referencesOfAll, List.append_nil, references_sequence,
      Concat.mentions_append h]
  | _, _, .snoc h hitems, rest => by
    rw [List.append_assoc, Alternation.mentions_append h, List.cons_append,
      mentions_plain_cons (by decide), Concat.mentions_append hitems, referencesOfAll_append,
      referencesOfAll, referencesOfAll, List.append_nil, references_sequence, List.append_assoc]

end

/-- The tree of a pattern refers to the names between braces in its text, in their order. -/
theorem references_eq_mentions {pattern : String} {r : Regex} (h : parse pattern = .ok r) :
    r.references = mentions .plain pattern.toList := by
  obtain ⟨branches, htext, rfl⟩ := derives_of_parseChars h
  have hall := @Alternation.mentions_append _ _ htext []
  rw [List.append_nil] at hall
  rw [references_choice, hall]
  exact (List.append_nil _).symm

end MaximalMunch.Regex
