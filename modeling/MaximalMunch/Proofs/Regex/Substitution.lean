import MaximalMunch.Proofs.Regex.Language
import MaximalMunch.Proofs.Regex.References

/-!
# Trees in the place of references

`Regex.subst` puts a tree in the place of each reference. The result means what the pattern means if
its references stand for the languages of these trees (`language_subst`), so trees can be exchanged
for others with the same language.

No text refers to the empty name, so a reference to it serves as a blank: `Regex.fill` puts a tree
there and leaves the other references alone.
-/

namespace MaximalMunch.Regex

mutual

/-- The tree with `σ name` in the place of each reference to a name. -/
def subst (σ : String → Regex) : Regex → Regex
  | .literal c => .literal c
  | .oneOf members => .oneOf members
  | .concat items => .concat (substAll σ items)
  | .alternate branches => .alternate (substAll σ branches)
  | .repeated times inner => .repeated times (subst σ inner)
  | .group inner => .group (subst σ inner)
  | .reference name => σ name

/-- The same for each of some trees. -/
def substAll (σ : String → Regex) : List Regex → List Regex
  | [] => []
  | r :: rest => subst σ r :: substAll σ rest

end

variable {σ : String → Regex} {env env' : String → Language UInt32}

/-- Patterns are put into a list of patterns one by one. -/
theorem substAll_eq_map (σ : String → Regex) (rs : List Regex) :
    substAll σ rs = rs.map (subst σ) := by
  induction rs with
  | nil => rw [substAll, List.map_nil]
  | cons r rest ih => rw [substAll, ih, List.map_cons]

/-! ## Languages -/

mutual

/-- References stand for the languages of the trees that take their place. -/
theorem language_subst : ∀ r : Regex,
    (r.subst σ).language env = r.language fun name => (σ name).language env
  | .literal c => by rw [subst, language, language]
  | .oneOf members => by rw [subst, language, language]
  | .concat items => by rw [subst, language, language, languages_substAll items]
  | .alternate branches => by rw [subst, language, language, languages_substAll branches]
  | .repeated times inner => by rw [subst, language, language, language_subst inner]
  | .group inner => by rw [subst, language, language, language_subst inner]
  | .reference name => by rw [subst, language]

/-- The same for the patterns of a list. -/
theorem languages_substAll : ∀ rs : List Regex,
    languages env (substAll σ rs) = languages (fun name => (σ name).language env) rs
  | [] => by rw [substAll, languages, languages]
  | r :: rest => by rw [substAll, languages, languages, language_subst r, languages_substAll rest]

end

mutual

/-- Only the languages of the names that a pattern refers to matter to it. -/
theorem language_congr : ∀ r : Regex, (∀ name ∈ r.references, env name = env' name) →
    r.language env = r.language env'
  | .literal c, _ => by rw [language, language]
  | .oneOf members, _ => by rw [language, language]
  | .concat items, h => by
    rw [references] at h
    rw [language, language, languages_congr items h]
  | .alternate branches, h => by
    rw [references] at h
    rw [language, language, languages_congr branches h]
  | .repeated times inner, h => by
    rw [references] at h
    rw [language, language, language_congr inner h]
  | .group inner, h => by
    rw [references] at h
    rw [language, language, language_congr inner h]
  | .reference name, h => by
    rw [references, List.forall_mem_singleton] at h
    rw [language, language, h]

/-- The same for the patterns of a list. -/
theorem languages_congr : ∀ rs : List Regex, (∀ name ∈ referencesOfAll rs, env name = env' name) →
    languages env rs = languages env' rs
  | [], _ => by rw [languages, languages]
  | r :: rest, h => by
    rw [referencesOfAll, List.forall_mem_append] at h
    rw [languages, languages, language_congr r h.1, languages_congr rest h.2]

end

/-! ## References -/

mutual

/-- The references of the trees come in the place of the references. -/
theorem references_subst : ∀ r : Regex,
    (r.subst σ).references = r.references.flatMap fun name => (σ name).references
  | .literal c => by rw [subst, references, List.flatMap_nil]
  | .oneOf members => by rw [subst, references, List.flatMap_nil]
  | .concat items => by rw [subst, references, references, referencesOfAll_substAll items]
  | .alternate branches => by rw [subst, references, references, referencesOfAll_substAll branches]
  | .repeated times inner => by rw [subst, references, references, references_subst inner]
  | .group inner => by rw [subst, references, references, references_subst inner]
  | .reference name => by rw [subst, references, List.flatMap_singleton]

/-- The same for the patterns of a list. -/
theorem referencesOfAll_substAll : ∀ rs : List Regex,
    referencesOfAll (substAll σ rs) =
      (referencesOfAll rs).flatMap fun name => (σ name).references
  | [] => by rw [substAll, referencesOfAll, List.flatMap_nil]
  | r :: rest => by
    rw [substAll, referencesOfAll, referencesOfAll, List.flatMap_append, references_subst r,
      referencesOfAll_substAll rest]

end

/-! ## Blanks -/

/-- The place where a tree is missing. -/
def blank : Regex := .reference ""

/-- The tree with `x` in the place of blanks. -/
def fill (frame x : Regex) : Regex :=
  frame.subst fun name => if name = "" then x else .reference name

/-- A blank is filled by the whole pattern. -/
theorem fill_blank (x : Regex) : blank.fill x = x := by
  rw [blank, fill, subst, if_pos rfl]

/-- A reference to a name is no blank. -/
theorem fill_reference {name : String} (hname : name ≠ "") (x : Regex) :
    (reference name).fill x = .reference name := by
  rw [fill, subst, if_neg hname]

/-- A word is not the empty name. -/
theorem ofList_ne_empty_of_isWord {name : List Char} (h : Text.isWord name = true) :
    String.ofList name ≠ "" := by
  intro hempty
  exact (Text.isWord_iff.1 h).1 (by simpa using congrArg String.toList hempty)

/-- A character has no blanks. -/
theorem fill_literal (c : Char) (x : Regex) : (literal c).fill x = .literal c := by
  rw [fill, subst]

/-- A class has no blanks. -/
theorem fill_oneOf (members : CharClass) (x : Regex) :
    (oneOf members).fill x = .oneOf members := by
  rw [fill, subst]

/-- The pattern of an item of text has no blanks. -/
theorem fill_node (item : ClassItem) (x : Regex) : item.node.fill x = item.node := by
  cases item with
  | char c => exact fill_literal c x
  | shorthand members => exact fill_oneOf members x

/-- The blanks of a repetition are those of what is repeated. -/
theorem fill_repeated (times : Repetition) (r x : Regex) :
    (repeated times r).fill x = .repeated times (r.fill x) := by
  rw [fill, subst, fill]

/-- The blanks of a group are those inside it. -/
theorem fill_group (r x : Regex) : (group r).fill x = .group (r.fill x) := by
  rw [fill, subst, fill]

/-- The blanks of a sequence are those of its items. -/
theorem fill_sequence (items : List Regex) (x : Regex) :
    (sequence items).fill x = sequence (items.map (·.fill x)) := by
  unfold sequence
  split
  · rfl
  · rename_i hne
    rw [fill, subst, substAll_eq_map]
    split
    · rename_i hitems
      obtain ⟨item, rfl, -⟩ := List.map_eq_singleton_iff.1 hitems
      exact absurd rfl (hne item)
    · rfl

/-- The blanks of a choice are those of its branches. -/
theorem fill_choice (branches : List Regex) (x : Regex) :
    (choice branches).fill x = choice (branches.map (·.fill x)) := by
  unfold choice
  split
  · rfl
  · rename_i hne
    rw [fill, subst, substAll_eq_map]
    split
    · rename_i hbranches
      obtain ⟨branch, rfl, -⟩ := List.map_eq_singleton_iff.1 hbranches
      exact absurd rfl (hne branch)
    · rfl

/-- A filled pattern refers to what the frame refers to, with the names of the filling in the place
of each blank. -/
theorem references_fill (frame x : Regex) :
    (frame.fill x).references =
      frame.references.flatMap fun name => if name = "" then x.references else [name] := by
  rw [fill, references_subst]
  congr 1
  funext name
  split
  · rfl
  · rw [references]

/-- Trees without names of some kind may be exchanged for each other: the first such name around
them stays the same. -/
theorem find?_references_fill_congr {p : String → Bool} {x y : Regex}
    (hx : ∀ name ∈ x.references, ¬p name) (hy : ∀ name ∈ y.references, ¬p name) (frame : Regex) :
    (frame.fill x).references.find? p = (frame.fill y).references.find? p := by
  rw [references_fill, references_fill, List.find?_flatMap, List.find?_flatMap]
  congr 1
  funext name
  by_cases hname : name = ""
  · rw [if_pos hname, if_pos hname, List.find?_eq_none.2 hx, List.find?_eq_none.2 hy]
  · rw [if_neg hname, if_neg hname]

/-- Trees with the same language may be exchanged for each other. -/
theorem language_fill_congr {x y : Regex} (h : x.language env = y.language env) (frame : Regex) :
    (frame.fill x).language env = (frame.fill y).language env := by
  rw [fill, fill, language_subst, language_subst]
  congr 1
  funext name
  split
  · exact h
  · rfl

end MaximalMunch.Regex
