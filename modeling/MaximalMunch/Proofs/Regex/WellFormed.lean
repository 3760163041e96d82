import MaximalMunch.Proofs.Regex.Soundness

/-!
# The trees that reading gives

In a tree that comes from a text no sequence, no choice and no class is empty, and the classes hold
Unicode code points only (`wellFormed_of_parse`). This is so for every tree that the grammar
derives, rule by rule.
-/

namespace MaximalMunch.Regex

mutual

/-- Every sequence in the tree has an item, every choice has a branch, and every class has members,
all of them Unicode code points. -/
def WellFormed : Regex → Prop
  | .literal _ => True
  | .oneOf members => members.Unicode ∧ ∃ cp, members.contains cp = true
  | .concat items => items ≠ [] ∧ AllWellFormed items
  | .alternate branches => branches ≠ [] ∧ AllWellFormed branches
  | .repeated _ inner => WellFormed inner
  | .group inner => WellFormed inner
  | .reference _ => True

/-- All of the trees are well-formed. -/
def AllWellFormed : List Regex → Prop
  | [] => True
  | r :: rest => WellFormed r ∧ AllWellFormed rest

end

/-- A list of patterns is well-formed if all of its patterns are. -/
theorem allWellFormed_iff {rs : List Regex} : AllWellFormed rs ↔ ∀ r ∈ rs, r.WellFormed := by
  induction rs with
  | nil => simp [AllWellFormed]
  | cons r rest ih => rw [AllWellFormed, ih, List.forall_mem_cons]

/-- Items make a well-formed sequence. -/
theorem wellFormed_sequence {items : List Regex} (hne : items ≠ [])
    (h : ∀ r ∈ items, r.WellFormed) : (sequence items).WellFormed := by
  unfold sequence
  split
  · rename_i item
    exact h item (by simp)
  · rw [WellFormed]
    exact ⟨hne, allWellFormed_iff.2 h⟩

/-- Branches make a well-formed choice. -/
theorem wellFormed_choice {branches : List Regex} (hne : branches ≠ [])
    (h : ∀ r ∈ branches, r.WellFormed) : (choice branches).WellFormed := by
  unfold choice
  split
  · rename_i branch
    exact h branch (by simp)
  · rw [WellFormed]
    exact ⟨hne, allWellFormed_iff.2 h⟩

/-- The node of an escape is well-formed. -/
theorem wellFormed_escapeItem (c : Char) : (escapeItem c).node.WellFormed := by
  have hunicode := unicode_escapeItem c
  have hmember := exists_contains_escapeItem c
  cases hc : escapeItem c with
  | char c => rw [ClassItem.node, WellFormed]; trivial
  | shorthand members =>
    rw [hc] at hunicode hmember
    rw [ClassItem.node, WellFormed]
    exact ⟨hunicode, hmember⟩

/-- The set of a class holds Unicode code points. -/
theorem ClassText.unicode {text : List Char} {k : CharClass} (h : ClassText text k) :
    k.Unicode := by
  refine CharClass.unicode_iff.2 fun cp hcp => ?_
  cases h with
  | plain h _ _ hk =>
    obtain ⟨p, hp, hhas⟩ := (hk cp).1 hcp
    exact h.le_maxChar hp hhas
  | negated _ _ hk => exact ((hk cp).1 hcp).1

/-- The set of a class has a member. -/
theorem ClassText.exists_contains {text : List Char} {k : CharClass} (h : ClassText text k) :
    ∃ cp, k.contains cp = true := by
  cases h with
  | plain h hne _ hk =>
    obtain ⟨cp, hcp⟩ := h.exists_has hne
    exact ⟨cp, (hk cp).2 hcp⟩
  | negated _ _ _ hmember => exact hmember

mutual

/-- The tree of an atom is well-formed. -/
theorem Atom.wellFormed : ∀ {text : List Char} {r : Regex}, Atom text r → r.WellFormed
  | _, _, .char _ => by rw [WellFormed]; trivial
  | _, _, .escape c => wellFormed_escapeItem c
  | _, _, .dot => by
    rw [WellFormed]
    refine ⟨.anyButNewline, 0x21, (CharClass.contains_negate (by decide)).2 fun h => ?_⟩
    exact absurd (CharClass.contains_single.1 h) (by decide)
  | _, _, .oneOf h => by rw [WellFormed]; exact ⟨h.unicode, h.exists_contains⟩
  | _, _, .group h => by
    rw [WellFormed]
    exact wellFormed_choice h.ne_nil (Alternation.wellFormed h)
  | _, _, .reference _ => by rw [WellFormed]; trivial

/-- So is that of an atom with operators. -/
theorem Repeated.wellFormed : ∀ {text : List Char} {r : Regex}, Repeated text r → r.WellFormed
  | _, _, .atom h => Atom.wellFormed h
  | _, _, .operator h _ => by rw [WellFormed]; exact Repeated.wellFormed h

/-- So are the items of a concatenation. -/
theorem Concat.wellFormed : ∀ {text : List Char} {items : List Regex}, Concat text items →
    ∀ r ∈ items, r.WellFormed
  | _, _, .single h => List.forall_mem_singleton.2 (Repeated.wellFormed h)
  | _, _, .snoc h hr => List.forall_mem_append.2
      ⟨Concat.wellFormed h, List.forall_mem_singleton.2 (Repeated.wellFormed hr)⟩

/-- So are the branches of an alternation. -/
theorem Alternation.wellFormed : ∀ {text : List Char} {branches : List Regex},
    Alternation text branches → ∀ r ∈ branches, r.WellFormed
  | _, _, .single h =>
    List.forall_mem_singleton.2 (wellFormed_sequence h.ne_nil (Concat.wellFormed h))
  | _, _, .snoc h hitems => List.forall_mem_append.2 ⟨Alternation.wellFormed h,
      List.forall_mem_singleton.2 (wellFormed_sequence hitems.ne_nil (Concat.wellFormed hitems))⟩

end

/-- The tree of a pattern is well-formed. -/
theorem wellFormed_of_parse {pattern : String} {r : Regex} (h : parse pattern = .ok r) :
    r.WellFormed := by
  obtain ⟨branches, htext, rfl⟩ := derives_of_parseChars h
  exact wellFormed_choice htext.ne_nil htext.wellFormed

end MaximalMunch.Regex
