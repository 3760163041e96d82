import Mathlib.Logic.Basic
import MaximalMunch.Proofs.CharClass.Sets
import MaximalMunch.Proofs.CharClass.Unicode
import MaximalMunch.Regex.Reader

/-!
# The grammar of patterns

Which texts are patterns, and the tree that each of them has. An alternation is made of
concatenations with bars between them, a concatenation of repetitions one after the other, and a
repetition of an atom and the operators behind it:

    alternation := concat ('|' concat)*
    concat      := repeat+
    repeat      := atom ('*' | '+' | '?')*
    atom        := char | '\' escape | '.' | '[' class ']' | '(' alternation ')' | '{' name '}'

`Derives` relates a text to its tree by these rules. A class stands for the set of the code points
that its parts have (`ClassText`); nothing is said of how the set is computed.
-/

namespace MaximalMunch.Regex

/-! ## Classes -/

/-- The text of an item of a class, and what it stands for. -/
inductive ItemText : List Char → ClassItem → Prop
  | plain {c : Char} (hc : c ≠ '\\' ∧ c ≠ ']') : ItemText [c] (.char c)
  | escaped (c : Char) : ItemText ['\\', c] (escapeItem c)

/-- An item of a class, or a range between two of its characters. -/
inductive ClassPart where
  | item (x : ClassItem)
  | range (lo hi : Char)

/-- The code point is one of those that the part stands for. -/
def ClassPart.Has (cp : UInt32) : ClassPart → Prop
  | .item (.char c) => cp = c.val
  | .item (.shorthand members) => members.contains cp = true
  | .range lo hi => lo.val ≤ cp ∧ cp ≤ hi.val

/-- What follows an item begins with a hyphen that makes a range: the bracket does not come right
behind it. -/
def MakesRange (text : List Char) : Prop := ∃ c rest, text = '-' :: c :: rest

/-- The text inside the brackets, without the caret of a negated class, and its parts from left to
right. A hyphen makes a range with the item before it wherever it can, so an item stands alone only
if no such hyphen follows. Every other hyphen is an item. -/
inductive ClassBody : List Char → List ClassPart → Prop
  | nil : ClassBody [] []
  | item {text rest : List Char} {x : ClassItem} {parts : List ClassPart} (hx : ItemText text x)
      (hrest : ¬ MakesRange rest) (h : ClassBody rest parts) :
      ClassBody (text ++ rest) (.item x :: parts)
  | range {low high rest : List Char} {lo hi : Char} {parts : List ClassPart}
      (hlow : ItemText low (.char lo)) (hhigh : ItemText high (.char hi)) (hle : lo ≤ hi)
      (h : ClassBody rest parts) :
      ClassBody (low ++ '-' :: (high ++ rest)) (.range lo hi :: parts)

/-- The text between the brackets of a class, and its set. After a caret the set has the Unicode
code points that no part has, and it must have one. -/
inductive ClassText : List Char → CharClass → Prop
  | plain {text : List Char} {parts : List ClassPart} {k : CharClass} (h : ClassBody text parts)
      (hne : text ≠ []) (hcaret : text.head? ≠ some '^')
      (hk : ∀ cp, k.contains cp = true ↔ ∃ p ∈ parts, p.Has cp) : ClassText text k
  | negated {text : List Char} {parts : List ClassPart} {k : CharClass} (h : ClassBody text parts)
      (hne : text ≠ []) (hk : ∀ cp, k.contains cp = true ↔ cp ≤ maxChar ∧ ¬ ∃ p ∈ parts, p.Has cp)
      (hmember : ∃ cp, k.contains cp = true) : ClassText ('^' :: text) k

/-! ## Patterns -/

/-- The operators behind an atom. -/
inductive Operator : Char → Repetition → Prop
  | star : Operator '*' .zeroOrMore
  | plus : Operator '+' .oneOrMore
  | question : Operator '?' .zeroOrOne

/-- The characters that do not stand for themselves outside classes. -/
def specialChars : List Char := ['|', '(', ')', '*', '+', '?', '[', '{', '.', '\\']

mutual

/-- The text of an atom, and its tree. -/
inductive Atom : List Char → Regex → Prop
  | char {c : Char} (hc : c ∉ specialChars) : Atom [c] (.literal c)
  | escape (c : Char) : Atom ['\\', c] (escapeItem c).node
  | dot : Atom ['.'] (.oneOf .anyButNewline)
  | oneOf {text : List Char} {k : CharClass} (h : ClassText text k) :
      Atom ('[' :: (text ++ [']'])) (.oneOf k)
  | group {text : List Char} {branches : List Regex} (h : Alternation text branches) :
      Atom ('(' :: (text ++ [')'])) (.group (choice branches))
  | reference {name : List Char} (hname : Text.isWord name = true) :
      Atom ('{' :: (name ++ ['}'])) (.reference (String.ofList name))

/-- An atom and the operators behind it, each of which applies to all that is left of it. -/
inductive Repeated : List Char → Regex → Prop
  | atom {text : List Char} {r : Regex} (h : Atom text r) : Repeated text r
  | operator {text : List Char} {r : Regex} {c : Char} {times : Repetition} (h : Repeated text r)
      (hc : Operator c times) : Repeated (text ++ [c]) (.repeated times r)

/-- The text of a concatenation, and its items. -/
inductive Concat : List Char → List Regex → Prop
  | single {text : List Char} {r : Regex} (h : Repeated text r) : Concat text [r]
  | snoc {text more : List Char} {items : List Regex} {r : Regex} (h : Concat text items)
      (hr : Repeated more r) : Concat (text ++ more) (items ++ [r])

/-- The text of an alternation, and its branches. -/
inductive Alternation : List Char → List Regex → Prop
  | single {text : List Char} {items : List Regex} (h : Concat text items) :
      Alternation text [sequence items]
  | snoc {text more : List Char} {branches items : List Regex} (h : Alternation text branches)
      (hitems : Concat more items) :
      Alternation (text ++ '|' :: more) (branches ++ [sequence items])

end

/-- The text is a pattern with this tree. -/
def Derives (text : List Char) (r : Regex) : Prop :=
  ∃ branches, Alternation text branches ∧ r = choice branches

/-- A concatenation has an item. -/
theorem Concat.ne_nil {text : List Char} {items : List Regex} (h : Concat text items) :
    items ≠ [] := by
  cases h with
  | single => exact List.cons_ne_nil _ _
  | snoc => exact List.append_ne_nil_of_right_ne_nil _ (List.cons_ne_nil _ _)

/-- An alternation has a branch. -/
theorem Alternation.ne_nil {text : List Char} {branches : List Regex}
    (h : Alternation text branches) : branches ≠ [] := by
  cases h with
  | single => exact List.cons_ne_nil _ _
  | snoc => exact List.append_ne_nil_of_right_ne_nil _ (List.cons_ne_nil _ _)

/-! ## What the parts of a class have -/

/-- What an escape stands for are Unicode code points. -/
theorem unicode_escapeItem (c : Char) : (escapeItem c).members.Unicode := by
  unfold escapeItem
  split
  case h_5 => exact .digit
  case h_6 => exact CharClass.Unicode.digit.negate
  case h_7 => exact .word
  case h_8 => exact CharClass.Unicode.word.negate
  case h_9 => exact .space
  case h_10 => exact CharClass.Unicode.space.negate
  all_goals exact .single _

/-- Every escape stands for some character. -/
theorem exists_contains_escapeItem (c : Char) :
    ∃ cp, (escapeItem c).members.contains cp = true := by
  have hdigit : CharClass.digit.contains 0x30 = true := CharClass.contains_range.2 (by decide)
  have hword : CharClass.word.contains 0x30 = true :=
    CharClass.contains_union.2 (Or.inl (CharClass.contains_union.2 (Or.inl hdigit)))
  have hspace : CharClass.space.contains 0x20 = true :=
    CharClass.contains_union.2 (Or.inr (CharClass.contains_single.2 rfl))
  -- the exclamation mark is in none of the three classes
  have hother : ∀ {k : CharClass}, ¬ k.contains 0x21 = true → ∃ cp, k.negate.contains cp = true :=
    fun h => ⟨0x21, (CharClass.contains_negate (by decide)).2 h⟩
  unfold escapeItem
  split
  case h_5 => exact ⟨_, hdigit⟩
  case h_6 => exact hother fun h => absurd (CharClass.contains_range.1 h) (by decide)
  case h_7 => exact ⟨_, hword⟩
  case h_8 =>
    refine hother fun h => ?_
    simp only [CharClass.word, CharClass.contains_union, CharClass.contains_range,
      CharClass.contains_single] at h
    exact absurd h (by decide)
  case h_9 => exact ⟨_, hspace⟩
  case h_10 =>
    refine hother fun h => ?_
    simp only [CharClass.space, CharClass.contains_union, CharClass.contains_range,
      CharClass.contains_single] at h
    exact absurd h (by decide)
  all_goals exact ⟨_, CharClass.contains_single.2 rfl⟩

/-- An item has the members that it adds to its class. -/
theorem has_item_iff {x : ClassItem} {cp : UInt32} :
    (ClassPart.item x).Has cp ↔ x.members.contains cp = true := by
  cases x with
  | char c => exact CharClass.contains_single.symm
  | shorthand members => rfl

/-- An item of a class has a member. -/
theorem ItemText.exists_has {text : List Char} {x : ClassItem} (h : ItemText text x) :
    ∃ cp, (ClassPart.item x).Has cp := by
  cases h with
  | @plain c => exact ⟨c.val, rfl⟩
  | escaped c =>
    obtain ⟨cp, hcp⟩ := exists_contains_escapeItem c
    exact ⟨cp, has_item_iff.2 hcp⟩

/-- The members of an item are Unicode code points. -/
theorem ItemText.le_maxChar {text : List Char} {x : ClassItem} (h : ItemText text x) {cp : UInt32}
    (hcp : (ClassPart.item x).Has cp) : cp ≤ maxChar := by
  cases h with
  | plain => exact hcp ▸ val_le_maxChar _
  | escaped c => exact (unicode_escapeItem c).le_maxChar (has_item_iff.1 hcp)

/-- What some parts have, the first of them has or the others. -/
theorem exists_has_cons {p : ClassPart} {parts : List ClassPart} {cp : UInt32} :
    (∃ q ∈ p :: parts, q.Has cp) ↔ p.Has cp ∨ ∃ q ∈ parts, q.Has cp := by
  simp

/-- Without text there are no parts. -/
theorem ClassBody.eq_nil {text : List Char} {parts : List ClassPart} (h : ClassBody text parts)
    (htext : text = []) : parts = [] := by
  cases h with
  | nil => rfl
  | item hx => cases hx <;> exact absurd htext (by simp)
  | range => exact absurd htext (by simp)

/-- The parts of a class have Unicode code points only. -/
theorem ClassBody.le_maxChar {text : List Char} {parts : List ClassPart} (h : ClassBody text parts)
    {cp : UInt32} {p : ClassPart} (hp : p ∈ parts) (hcp : p.Has cp) : cp ≤ maxChar := by
  induction h with
  | nil => exact absurd hp List.not_mem_nil
  | item hx _ _ ih =>
    rcases List.mem_cons.1 hp with rfl | hp
    · exact hx.le_maxChar hcp
    · exact ih hp
  | range _ _ _ _ ih =>
    rcases List.mem_cons.1 hp with rfl | hp
    · exact UInt32.le_trans hcp.2 (val_le_maxChar _)
    · exact ih hp

/-- A class with text between its brackets has a part that is not empty. -/
theorem ClassBody.exists_has {text : List Char} {parts : List ClassPart} (h : ClassBody text parts)
    (hne : text ≠ []) : ∃ cp, ∃ p ∈ parts, p.Has cp := by
  cases h with
  | nil => exact absurd rfl hne
  | item hx =>
    obtain ⟨cp, hcp⟩ := hx.exists_has
    exact ⟨cp, _, List.mem_cons_self, hcp⟩
  | @range _ _ _ lo _ _ _ _ hle => exact ⟨lo.val, _, List.mem_cons_self, UInt32.le_refl _, hle⟩

/-! ## Classes of ranges -/

/-- The text of ranges that stand one behind the other. -/
def rangesText (ranges : List (Char × Char)) : List Char :=
  ranges.flatMap fun r => [r.1, '-', r.2]

/-- Ranges whose ends stand for themselves are the parts of a class. -/
theorem ClassBody.ofRanges {ranges : List (Char × Char)}
    (h : ∀ r ∈ ranges, (r.1 ≠ '\\' ∧ r.1 ≠ ']') ∧ (r.2 ≠ '\\' ∧ r.2 ≠ ']') ∧ r.1 ≤ r.2) :
    ClassBody (rangesText ranges) (ranges.map fun r => .range r.1 r.2) := by
  induction ranges with
  | nil => exact .nil
  | cons r rest ih =>
    obtain ⟨⟨hlow, hhigh, hle⟩, hrest⟩ := List.forall_mem_cons.1 h
    exact .range (.plain hlow) (.plain hhigh) hle (ih hrest)

/-- A class that lists ranges has the code points in them. -/
theorem ClassText.ofRanges {ranges : List (Char × Char)} (hne : ranges ≠ [])
    (hcaret : (rangesText ranges).head? ≠ some '^')
    (h : ∀ r ∈ ranges, (r.1 ≠ '\\' ∧ r.1 ≠ ']') ∧ (r.2 ≠ '\\' ∧ r.2 ≠ ']') ∧ r.1 ≤ r.2) :
    ClassText (rangesText ranges) (.ofSpans (ranges.map fun r => ⟨r.1.val, r.2.val⟩)) := by
  refine .plain (.ofRanges h) ?_ hcaret fun cp => ?_
  · obtain ⟨r, rest, rfl⟩ := List.exists_cons_of_ne_nil hne
    exact List.cons_ne_nil _ _
  · rw [CharClass.contains_ofSpans, Span.Covers]
    simp only [List.mem_map, exists_exists_and_eq_and]
    refine exists_congr fun r => and_congr_right fun _ => ?_
    rw [Span.contains, Bool.and_eq_true, decide_eq_true_iff, decide_eq_true_iff]
    rfl

/-- The range from the first to the last digit. -/
theorem classText_digits : ClassText ['0', '-', '9'] .digit :=
  @ClassText.ofRanges [('0', '9')] (by decide) (by decide) (by decide)

end MaximalMunch.Regex
