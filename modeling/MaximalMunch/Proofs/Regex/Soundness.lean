import MaximalMunch.Proofs.Regex.Completeness

/-!
# What is read derives from the grammar

`Reader.Reads` says how the characters read so far stand in the grammar: the text before each open
group is an alternation up to an opening parenthesis, then comes the part of an alternation that the
innermost level has, and last what has been read of the construct at hand. A class at hand has
complete parts in front of its last item (`ClassPlace.Reads`). Every character keeps this
(`Reader.Reads.step`), so at the end of a pattern the text derives the tree that is given.

With completeness it follows that reading gives the trees of the grammar, no others and no more than
one for a text (`parse_eq_ok_iff_derives`).
-/

namespace MaximalMunch.Regex

/-- What a mapped computation gives comes from what the computation gives. -/
theorem exists_of_map_eq_ok {ε α β : Type} {f : α → β} {e : Except ε α} {b : β}
    (h : e.map f = .ok b) : ∃ a, e = .ok a ∧ f a = b := by
  cases e with
  | error => exact absurd h (by simp [Except.map])
  | ok a => exact ⟨a, rfl, Except.ok.inj h⟩

/-- What two computations give one after the other comes from what the first of them gives. -/
theorem exists_of_bind_eq_ok {ε α β : Type} {f : α → Except ε β} {e : Except ε α} {b : β}
    (h : e >>= f = .ok b) : ∃ a, e = .ok a ∧ f a = .ok b := by
  cases e with
  | error => exact absurd h (by simp [bind, Except.bind])
  | ok a => exact ⟨a, rfl, h⟩

/-! ## Classes -/

/-- A hyphen at the end of the text makes no range. -/
theorem not_makesRange_nil : ¬ MakesRange [] := by
  rintro ⟨c, rest, h⟩
  exact List.cons_ne_nil _ _ h.symm

/-- A hyphen in front of the closing bracket makes no range. -/
theorem not_makesRange_hyphen : ¬ MakesRange ['-'] := by
  rintro ⟨c, rest, h⟩
  exact List.cons_ne_nil _ _ (List.cons.inj h).2.symm

/-- Only a hyphen makes a range. -/
theorem not_makesRange_cons {c : Char} {rest : List Char} (hc : c ≠ '-') :
    ¬ MakesRange (c :: rest) := by
  rintro ⟨d, more, h⟩
  exact hc (List.cons.inj h).1

/-- The text has these parts in front of whatever begins with `next`. -/
def Leads (text : List Char) (parts : List ClassPart) (next : List Char) : Prop :=
  ∀ rest more, ClassBody (next ++ rest) more → ClassBody (text ++ (next ++ rest)) (parts ++ more)

namespace Leads

variable {text next more : List Char} {parts : List ClassPart}

/-- The empty text leads to whatever follows. -/
theorem nil : Leads [] [] next := fun _ _ h => h

/-- What may come before a text may come before a longer one. -/
theorem append (h : Leads text parts next) : Leads text parts (next ++ more) := by
  intro rest ps hps
  rw [List.append_assoc] at hps ⊢
  exact h _ _ hps

/-- An item comes before what makes no range with it. -/
theorem item {i : List Char} {x : ClassItem} (h : Leads text parts i) (hx : ItemText i x)
    (hnext : ∀ rest, ¬ MakesRange (next ++ rest)) :
    Leads (text ++ i) (parts ++ [.item x]) next := by
  intro rest ps hps
  rw [List.append_assoc, List.append_assoc]
  exact h _ _ (.item hx (hnext rest) hps)

/-- A range comes before anything. -/
theorem range {low high : List Char} {lo hi : Char} (h : Leads text parts low)
    (hlow : ItemText low (.char lo)) (hhigh : ItemText high (.char hi)) (hle : lo ≤ hi) :
    Leads (text ++ low ++ '-' :: high) (parts ++ [.range lo hi]) [] := by
  intro rest ps hps
  have := h _ _ (.range hlow hhigh hle hps)
  simpa using this

/-- Parts that come before an item at the end of a class make a class with it. -/
theorem classBody {i : List Char} {x : ClassItem} {ps : List ClassPart} (h : Leads text parts i)
    (hx : ItemText i x) (hnext : ¬ MakesRange next) (hps : ClassBody next ps) :
    ClassBody (text ++ i ++ next) (parts ++ .item x :: ps) := by
  rw [List.append_assoc]
  exact h _ _ (.item hx hnext hps)

end Leads

/-- How the text inside a class, apart from its caret, stands once its first item has begun: as
complete parts and an item that may still become the lower end of a range. -/
inductive ClassPlace.Reads : ClassPlace → List Char → List ClassPart → Prop
  | item {text : List Char} {parts : List ClassPart} (hne : text ≠ []) (h : Leads text parts []) :
      Reads .item text parts
  | escape {text : List Char} {parts : List ClassPart} {start : Nat} (h : Leads text parts ['\\']) :
      Reads (.escape start) (text ++ ['\\']) parts
  | after {text i : List Char} {parts : List ClassPart} {x : ClassItem} {start : Nat}
      (h : Leads text parts i) (hx : ItemText i x) :
      Reads (.after x start) (text ++ i) (parts ++ [.item x])
  | hyphen {text i : List Char} {parts : List ClassPart} {x : ClassItem} {start : Nat}
      (h : Leads text parts i) (hx : ItemText i x) :
      Reads (.hyphen x start) (text ++ i ++ ['-']) (parts ++ [.item x])
  | upperEscape {text i : List Char} {parts : List ClassPart} {lo : Char} {start escapeStart : Nat}
      (h : Leads text parts i) (hx : ItemText i (.char lo)) :
      Reads (.upperEscape lo start escapeStart) (text ++ i ++ ['-', '\\'])
        (parts ++ [.item (.char lo)])

/-- At every place behind the bracket and the caret something has been read. -/
theorem ClassPlace.Reads.ne_nil {place : ClassPlace} {text : List Char} {parts : List ClassPart}
    (h : place.Reads text parts) : text ≠ [] := by
  cases h with
  | item hne => exact hne
  | after _ hx =>
    obtain ⟨c, more, rfl, -⟩ := hx.exists_eq_cons
    exact List.append_ne_nil_of_right_ne_nil _ (List.cons_ne_nil _ _)
  | escape | hyphen | upperEscape =>
    exact List.append_ne_nil_of_right_ne_nil _ (List.cons_ne_nil _ _)

namespace OpenClass

variable {k k' : OpenClass} {c : Char} {offset : Nat} {text : List Char} {parts : List ClassPart}
  {members : CharClass} {next : OpenClass ⊕ CharClass} {i : List Char} {x : ClassItem}

/-- The members read so far are those of the parts. -/
def Holds (k : OpenClass) (parts : List ClassPart) : Prop :=
  ∀ cp, k.members.contains cp = true ↔ ∃ p ∈ parts, p.Has cp

/-- A class without members holds no parts. -/
theorem holds_empty (h : k.members = .empty) : k.Holds [] := fun cp => by
  rw [h, CharClass.contains_empty]
  simp

/-- With the members of a part the class holds this part too. -/
theorem Holds.add (h : k.Holds parts) {p : ClassPart} {place : ClassPlace}
    (hp : ∀ cp, members.contains cp = true ↔ p.Has cp) :
    (k.add members place).Holds (parts ++ [p]) := fun cp => by
  rw [OpenClass.add, CharClass.contains_union, h, hp]
  simp only [List.mem_append, List.mem_singleton, or_and_right, exists_or, exists_eq_left]

/-- With the members of an item the class holds this item too. -/
theorem Holds.add_item (h : k.Holds parts) {x : ClassItem} {place : ClassPlace} :
    (k.add x.members place).Holds (parts ++ [.item x]) :=
  h.add fun _ => has_item_iff.symm

/-- A range has the item that it begins with. -/
theorem Holds.add_range {lo hi : Char} {place : ClassPlace}
    (h : k.Holds (parts ++ [.item (.char lo)])) (hle : lo ≤ hi) :
    (k.add (.range lo hi) place).Holds (parts ++ [.range lo hi]) := fun cp => by
  have hlo : cp = lo.val → lo.val ≤ cp ∧ cp ≤ hi.val := fun heq =>
    ⟨heq ▸ UInt32.le_refl _, heq ▸ hle⟩
  rw [OpenClass.add, CharClass.contains_union, h, CharClass.contains_range]
  simp only [List.mem_append, List.mem_singleton, or_and_right, exists_or, exists_eq_left,
    ClassPart.Has, or_assoc, or_iff_right_of_imp hlo]

/-- The characters of the class behind its bracket and its caret have been this text. -/
def ReadsBody (k : OpenClass) (negated : Bool) (text : List Char) : Prop :=
  k.negated = negated ∧ ∃ parts, k.place.Reads text parts ∧ k.Holds parts

/-- A class whose body has begun has some text. -/
theorem ReadsBody.ne_nil {negated : Bool} (h : k.ReadsBody negated text) : text ≠ [] := by
  obtain ⟨-, parts, hreads, -⟩ := h
  exact hreads.ne_nil

/-- The first character of an item is read. -/
theorem readsBody_startItem (h : Leads text parts [c]) (hholds : k.Holds parts) (hc : c ≠ ']') :
    (k.startItem c offset).ReadsBody k.negated (text ++ [c]) := by
  unfold OpenClass.startItem
  split
  case isTrue heq =>
    subst heq
    exact ⟨rfl, parts, .escape h, hholds⟩
  case isFalse hne => exact ⟨rfl, _, .after h (.plain ⟨hne, hc⟩), hholds.add_item (x := .char c)⟩

/-- The upper end of a range is read. -/
theorem readsBody_addRange {low high : List Char} {lo hi : Char} {start : Nat}
    (h : Leads text parts low) (hlow : ItemText low (.char lo)) (hhigh : ItemText high (.char hi))
    (hholds : k.Holds (parts ++ [.item (.char lo)])) (hrange : k.addRange lo hi start = .ok k') :
    k'.ReadsBody k.negated (text ++ low ++ '-' :: high) := by
  unfold OpenClass.addRange at hrange
  split at hrange
  case isTrue => exact absurd hrange (by simp)
  case isFalse hle =>
    obtain rfl := Except.ok.inj hrange
    have hle := Char.not_lt.1 hle
    exact ⟨rfl, _, .item (by simp) (h.range hlow hhigh hle), hholds.add_range hle⟩

/-- The text of a class, apart from its caret, is complete, and this is its set. -/
def Closes (negated : Bool) (text : List Char) (members : CharClass) : Prop :=
  ∃ k parts, k.close = .ok members ∧ k.negated = negated ∧ ClassBody text parts ∧ Holds k parts

/-- What comes of a class when it has read one character more. -/
def ReadsNext (negated : Bool) (text : List Char) (c : Char) : OpenClass ⊕ CharClass → Prop
  | .inl k => k.ReadsBody negated (text ++ [c])
  | .inr members => c = ']' ∧ Closes negated text members

/-- The bracket that closes a class is read. -/
theorem readsNext_close (htext : ClassBody text parts)
    (hholds : k.Holds parts) (hclose : k.close.map .inr = .ok next) :
    ReadsNext k.negated text ']' next := by
  obtain ⟨members, hmembers, rfl⟩ := exists_of_map_eq_ok hclose
  exact ⟨rfl, k, parts, hmembers, rfl, htext, hholds⟩

/-- Where a further item or the closing bracket may stand. -/
theorem readsNext_of_item (hplace : k.place = .item) (h : Leads text parts [])
    (hholds : k.Holds parts) (hstep : k.step c offset = .ok next) :
    ReadsNext k.negated text c next := by
  simp only [OpenClass.step, hplace] at hstep
  split at hstep
  case isTrue heq =>
    have htext := h [] [] .nil
    rw [List.append_nil, List.append_nil, List.append_nil] at htext
    exact heq ▸ readsNext_close htext hholds hstep
  case isFalse hc =>
    obtain rfl := Except.ok.inj hstep
    exact readsBody_startItem h.append hholds hc

/-- Behind an item. -/
theorem readsNext_of_after {start : Nat} (hplace : k.place = .after x start)
    (h : Leads text parts i) (hx : ItemText i x) (hholds : k.Holds (parts ++ [.item x]))
    (hstep : k.step c offset = .ok next) : ReadsNext k.negated (text ++ i) c next := by
  simp only [OpenClass.step, hplace] at hstep
  split at hstep
  case isTrue heq =>
    obtain rfl := Except.ok.inj hstep
    exact heq ▸ ⟨rfl, _, .hyphen h hx, hholds⟩
  case isFalse hne =>
    split at hstep
    case isTrue heq =>
      have htext := h.classBody hx not_makesRange_nil .nil
      rw [List.append_nil] at htext
      exact heq ▸ readsNext_close htext hholds hstep
    case isFalse hc =>
      obtain rfl := Except.ok.inj hstep
      exact readsBody_startItem (h.item hx fun rest => not_makesRange_cons hne) hholds hc

/-- Behind an item and a hyphen. -/
theorem readsNext_of_hyphen {start : Nat} (hplace : k.place = .hyphen x start)
    (h : Leads text parts i) (hx : ItemText i x) (hholds : k.Holds (parts ++ [.item x]))
    (hstep : k.step c offset = .ok next) : ReadsNext k.negated (text ++ i ++ ['-']) c next := by
  simp only [OpenClass.step, hplace] at hstep
  split at hstep
  case isTrue heq =>
    -- a hyphen at the end of a class stands for itself
    have hlast : ClassBody ['-'] [.item (.char '-')] :=
      .item (.plain (by decide)) not_makesRange_nil .nil
    have htext := h.classBody hx not_makesRange_hyphen hlast
    rw [List.append_cons parts] at htext
    exact heq ▸ readsNext_close (k := k.add (.single '-') .item) htext
      (hholds.add_item (x := .char '-')) hstep
  case isFalse hc =>
    cases x with
    | shorthand => exact absurd hstep (by simp)
    | char lo =>
      simp only at hstep
      split at hstep
      case isTrue heq =>
        obtain rfl := Except.ok.inj hstep
        refine heq ▸ ⟨rfl, _, ?_, hholds⟩
        rw [List.append_assoc _ ['-']]
        exact .upperEscape h hx
      case isFalse hne =>
        obtain ⟨k', hrange, rfl⟩ := exists_of_map_eq_ok hstep
        show k'.ReadsBody k.negated _
        rw [List.append_assoc _ ['-']]
        exact readsBody_addRange h hx (.plain ⟨hne, hc⟩) hholds hrange

/-- In the escape at the upper end of a range. -/
theorem readsNext_of_upperEscape {lo : Char} {start escapeStart : Nat}
    (hplace : k.place = .upperEscape lo start escapeStart) (h : Leads text parts i)
    (hx : ItemText i (.char lo)) (hholds : k.Holds (parts ++ [.item (.char lo)]))
    (hstep : k.step c offset = .ok next) :
    ReadsNext k.negated (text ++ i ++ ['-', '\\']) c next := by
  have hhigh := ItemText.escaped c
  simp only [OpenClass.step, hplace] at hstep
  split at hstep
  case h_1 => exact absurd hstep (by simp)
  case h_2 hi heq =>
    obtain ⟨k', hrange, rfl⟩ := exists_of_map_eq_ok hstep
    show k'.ReadsBody k.negated _
    rw [heq] at hhigh
    rw [List.append_assoc _ ['-', '\\']]
    exact readsBody_addRange h hx hhigh hholds hrange

/-- A class behind its first character reads one character more. -/
theorem ReadsBody.step {negated : Bool} (h : k.ReadsBody negated text)
    (hstep : k.step c offset = .ok next) : ReadsNext negated text c next := by
  obtain ⟨rfl, parts, hreads, hholds⟩ := h
  generalize hplace : k.place = place at hreads
  cases hreads with
  | item hne h => exact readsNext_of_item hplace h hholds hstep
  | escape h =>
    simp only [OpenClass.step, hplace] at hstep
    obtain rfl := Except.ok.inj hstep
    refine ⟨rfl, parts ++ [.item (escapeItem c)], ?_, hholds.add_item⟩
    rw [List.append_assoc]
    exact .after h.append (.escaped c)
  | after h hx => exact readsNext_of_after hplace h hx hholds hstep
  | hyphen h hx => exact readsNext_of_hyphen hplace h hx hholds hstep
  | upperEscape h hx => exact readsNext_of_upperEscape hplace h hx hholds hstep

/-- What has been read of a class behind its bracket. -/
inductive Reads : OpenClass → List Char → Prop
  | opened {start : Nat} : Reads ⟨start, false, .empty, .opened⟩ []
  | first {start : Nat} : Reads ⟨start, true, .empty, .first⟩ ['^']
  | plain {k : OpenClass} {text : List Char} (hcaret : text.head? ≠ some '^')
      (h : k.ReadsBody false text) : Reads k text
  | negated {k : OpenClass} {text : List Char} (h : k.ReadsBody true text) : Reads k ('^' :: text)

/-- The set of a class that closes is the set of its text. -/
theorem Closes.classText (h : Closes false text members) (hne : text ≠ [])
    (hcaret : text.head? ≠ some '^') : ClassText text members := by
  obtain ⟨k, parts, hclose, hnegated, htext, hholds⟩ := h
  obtain ⟨rfl, -⟩ := OpenClass.close_eq_ok_iff.1 hclose
  rw [hnegated]
  exact .plain htext hne hcaret hholds

/-- The set of a negated class that closes is the set of its text. -/
theorem Closes.classText_negated (h : Closes true text members) (hne : text ≠ []) :
    ClassText ('^' :: text) members := by
  obtain ⟨k, parts, hclose, hnegated, htext, hholds⟩ := h
  have hunicode : k.members.Unicode := CharClass.unicode_iff.2 fun cp hcp => by
    obtain ⟨p, hp, hhas⟩ := (hholds cp).1 hcp
    exact htext.le_maxChar hp hhas
  obtain ⟨rfl, hmember⟩ := OpenClass.close_eq_ok_iff.1 hclose
  rw [hnegated] at hmember ⊢
  refine .negated htext hne (fun cp => ?_) hmember
  rw [if_pos rfl, hunicode.contains_negate, hholds]

/-- What comes of a class when it has read one character more: it has read that, or the character
is its closing bracket and this is its set. -/
theorem Reads.step (h : k.Reads text) (hstep : k.step c offset = .ok next) :
    match next with
    | .inl k' => k'.Reads (text ++ [c])
    | .inr members => c = ']' ∧ ClassText text members := by
  cases h with
  | opened =>
    simp only [OpenClass.step] at hstep
    split at hstep
    case isTrue heq =>
      obtain rfl := Except.ok.inj hstep
      exact heq ▸ .first
    case isFalse hcaret =>
      split at hstep
      case isTrue => exact absurd hstep (by simp)
      case isFalse hc =>
        obtain rfl := Except.ok.inj hstep
        exact .plain (by simpa using hcaret) (readsBody_startItem .nil (holds_empty rfl) hc)
  | first =>
    simp only [OpenClass.step] at hstep
    split at hstep
    case isTrue => exact absurd hstep (by simp)
    case isFalse hc =>
      obtain rfl := Except.ok.inj hstep
      exact .negated (readsBody_startItem .nil (holds_empty rfl) hc)
  | plain hcaret h =>
    have hnext := h.step hstep
    cases next with
    | inl k' =>
      obtain ⟨d, rest, rfl⟩ := List.exists_cons_of_ne_nil h.ne_nil
      exact .plain hcaret hnext
    | inr members => exact ⟨hnext.1, hnext.2.classText h.ne_nil hcaret⟩
  | negated h =>
    have hnext := h.step hstep
    cases next with
    | inl k' => exact .negated hnext
    | inr members => exact ⟨hnext.1, hnext.2.classText_negated h.ne_nil⟩

end OpenClass

/-! ## Levels -/

/-- An operator behind a concatenation applies to its last item. -/
theorem Concat.operator {text : List Char} {items : List Regex} {r : Regex} {c : Char}
    {times : Repetition} (h : Concat text (items ++ [r])) (hc : Operator c times) :
    Concat (text ++ [c]) (items ++ [.repeated times r]) := by
  generalize hall : items ++ [r] = all at h
  cases h with
  | @single _ r' h =>
    obtain ⟨rfl, heq⟩ := List.append_inj' (show items ++ [r] = [] ++ [r'] from hall) rfl
    obtain rfl := List.singleton_inj.1 heq
    exact .single (.operator h hc)
  | snoc h hr =>
    obtain ⟨rfl, heq⟩ := List.append_inj' hall rfl
    obtain rfl := List.singleton_inj.1 heq
    rw [List.append_assoc]
    exact .snoc h (.operator hr hc)

/-- The text of the alternative at hand, and its items, the latest first. -/
inductive ItemsRead : List Char → List Regex → Prop
  | none : ItemsRead [] []
  | some {text : List Char} {items : List Regex} (h : Concat text items.reverse) :
      ItemsRead text items

/-- What has been read of an alternation: alternatives that bars have ended, and the items of the
one at hand. -/
inductive Level.Reads : Level → List Char → Prop
  | first {text : List Char} {items : List Regex} (h : ItemsRead text items) :
      Reads ⟨[], items⟩ text
  | next {before text : List Char} {branches items : List Regex}
      (hbefore : Alternation before branches.reverse) (h : ItemsRead text items) :
      Reads ⟨branches, items⟩ (before ++ '|' :: text)

namespace ItemsRead

variable {text more : List Char} {items : List Regex} {r : Regex}

/-- Items that have been read stand one behind the other in the text. -/
theorem concat (h : ItemsRead text items) (hne : items ≠ []) : Concat text items.reverse := by
  cases h with
  | none => exact absurd rfl hne
  | some h => exact h

/-- A further item comes with a further text. -/
theorem push (h : ItemsRead text items) (hr : Repeated more r) :
    ItemsRead (text ++ more) (r :: items) := by
  cases h with
  | none => exact .some (.single hr)
  | some h =>
    refine .some ?_
    rw [List.reverse_cons]
    exact .snoc h hr

/-- An operator applies to the latest item. -/
theorem operator {c : Char} {times : Repetition} (h : ItemsRead text (r :: items))
    (hc : Operator c times) : ItemsRead (text ++ [c]) (.repeated times r :: items) := by
  have hconcat := h.concat (List.cons_ne_nil _ _)
  rw [List.reverse_cons] at hconcat
  refine .some ?_
  rw [List.reverse_cons]
  exact hconcat.operator hc

end ItemsRead

namespace Level.Reads

variable {l : Level} {text more : List Char} {r : Regex}

/-- A level begins with no text. -/
theorem start : Level.start.Reads [] := .first .none

/-- A further item of a level comes with a further text. -/
theorem push (h : l.Reads text) (hr : Repeated more r) : (l.push r).Reads (text ++ more) := by
  cases h with
  | first h => exact .first (h.push hr)
  | next hbefore h =>
    rw [List.append_assoc]
    exact .next hbefore (h.push hr)

/-- An operator repeats the item in front of it. -/
theorem operator {branches items : List Regex} {c : Char} {times : Repetition}
    (h : Level.Reads ⟨branches, r :: items⟩ text) (hc : Operator c times) :
    Level.Reads ⟨branches, .repeated times r :: items⟩ (text ++ [c]) := by
  cases h with
  | first h => exact .first (h.operator hc)
  | next hbefore h =>
    rw [List.append_assoc]
    exact .next hbefore (h.operator hc)

/-- An alternation may end behind an item. -/
theorem alternation (h : l.Reads text) (hne : l.items ≠ []) : Alternation text l.all := by
  cases h with
  | first h => exact .single (h.concat hne)
  | next hbefore h =>
    rw [Level.all, List.reverse_cons]
    exact .snoc hbefore (h.concat hne)

/-- A bar ends an alternative that is not empty. -/
theorem bar (h : l.Reads text) (hne : l.items ≠ []) : l.bar.Reads (text ++ ['|']) :=
  .next (h.alternation hne) .none

end Level.Reads

/-! ## The reader -/

/-- The text in front of the level at hand, in which groups are open. -/
inductive OuterReads : List (Nat × Level) → List Char → Prop
  | nil : OuterReads [] []
  | group {before text : List Char} {start : Nat} {around : Level} {outer : List (Nat × Level)}
      (hbefore : OuterReads outer before) (h : around.Reads text) :
      OuterReads ((start, around) :: outer) (before ++ text ++ ['('])

namespace Reader

/-- What has been read of the construct in which the next character falls. -/
inductive Place.Reads : Place → List Char → Prop
  | atom : Reads .atom []
  | escape : Reads .escape ['\\']
  | reference {start : Nat} {name : List Char} : Reads (.reference start name) ('{' :: name.reverse)
  | inClass {k : OpenClass} {text : List Char} (h : k.Reads text) : Reads (.inClass k) ('[' :: text)

/-- How the characters read so far stand in the grammar. -/
inductive Reads (s : Reader) : List Char → Prop
  | intro {before text more : List Char} (hbefore : OuterReads s.outer before)
      (h : s.level.Reads text) (hmore : s.place.Reads more) : Reads s (before ++ text ++ more)

variable {s s' : Reader} {c : Char} {text before : List Char}

/-- Between atoms nothing has been read but what the levels hold. -/
theorem reads_of_atom (hbefore : OuterReads s.outer before) (h : s.level.Reads text)
    (hplace : s.place = .atom) : s.Reads (before ++ text) := by
  have hatom : s.place.Reads [] := hplace ▸ .atom
  simpa using Reads.intro hbefore h hatom

/-- The reader begins with no text. -/
theorem reads_start : Reader.start.Reads [] :=
  reads_of_atom (s := Reader.start) .nil .start rfl

/-- An atom is complete. -/
theorem reads_push {atom : List Char} {item : Regex} (hbefore : OuterReads s.outer before)
    (h : s.level.Reads text) (hitem : Atom atom item) :
    (s.push item).Reads (before ++ text ++ atom) := by
  rw [List.append_assoc]
  exact reads_of_atom hbefore (h.push (.atom hitem)) rfl

/-- A construct begins or goes on. -/
theorem reads_goto {more : List Char} {place : Place} (hbefore : OuterReads s.outer before)
    (h : s.level.Reads text) (hmore : place.Reads more) :
    (s.goto place).Reads (before ++ text ++ more) :=
  .intro hbefore h hmore

/-- An opening parenthesis puts the level at hand aside. -/
theorem reads_openGroup (hbefore : OuterReads s.outer before) (h : s.level.Reads text) :
    s.openGroup.Reads (before ++ text ++ ['(']) := by
  rw [← List.append_nil (_ ++ ['('])]
  exact reads_of_atom (.group hbefore h) .start rfl

/-- A closing parenthesis makes an item of the level at hand, for the level around it. -/
theorem reads_closeGroup (hbefore : OuterReads s.outer before) (h : s.level.Reads text)
    (hs : s.closeGroup = .ok s') : s'.Reads (before ++ text ++ [')']) := by
  unfold Reader.closeGroup at hs
  split at hs
  · split at hs <;> exact absurd hs (by simp)
  · exact absurd hs (by simp)
  · exact absurd hs (by simp)
  · rename_i start around outer item items houter hitems
    obtain rfl := Except.ok.inj hs
    rw [houter] at hbefore
    cases hbefore with
    | @group before around _ _ _ hbefore haround =>
      have hgroup := Atom.group (h.alternation (hitems ▸ List.cons_ne_nil _ _))
      have hparts : before ++ around ++ ['('] ++ text ++ [')'] =
          before ++ (around ++ '(' :: (text ++ [')'])) := by simp
      rw [hparts]
      exact reads_of_atom hbefore (haround.push (.atom hgroup)) rfl

/-- A bar ends the alternative at hand. -/
theorem reads_nextBranch (hplace : s.place = .atom) (hbefore : OuterReads s.outer before)
    (h : s.level.Reads text) (hs : s.nextBranch = .ok s') :
    s'.Reads (before ++ text ++ ['|']) := by
  unfold Reader.nextBranch at hs
  split at hs
  case isTrue => exact absurd hs (by simp)
  case isFalse hne =>
    obtain rfl := Except.ok.inj hs
    rw [List.append_assoc]
    exact reads_of_atom hbefore (h.bar (by simpa using hne)) hplace

/-- An operator repeats the last item of the level at hand. -/
theorem reads_applyRepetition {times : Repetition} (hplace : s.place = .atom)
    (hbefore : OuterReads s.outer before) (h : s.level.Reads text) (hc : Operator c times)
    (hs : s.applyRepetition times c = .ok s') : s'.Reads (before ++ text ++ [c]) := by
  unfold Reader.applyRepetition at hs
  split at hs
  case h_1 => exact absurd hs (by simp)
  case h_2 item items hitems =>
    obtain rfl := Except.ok.inj hs
    rw [List.append_assoc]
    refine reads_of_atom hbefore (.operator ?_ hc) hplace
    exact hitems ▸ h

/-- Where an atom may stand, the reader keeps to the text whatever the character is. -/
theorem reads_stepAtom (hplace : s.place = .atom) (hbefore : OuterReads s.outer before)
    (h : s.level.Reads text) (hs : s.stepAtom c = .ok s') : s'.Reads (before ++ text ++ [c]) := by
  unfold Reader.stepAtom at hs
  split at hs
  case h_1 => exact reads_nextBranch hplace hbefore h hs
  case h_2 => exact Except.ok.inj hs ▸ reads_openGroup hbefore h
  case h_3 => exact reads_closeGroup hbefore h hs
  case h_4 => exact reads_applyRepetition hplace hbefore h .star hs
  case h_5 => exact reads_applyRepetition hplace hbefore h .plus hs
  case h_6 => exact reads_applyRepetition hplace hbefore h .question hs
  case h_7 => exact Except.ok.inj hs ▸ reads_goto hbefore h (.inClass .opened)
  case h_8 => exact Except.ok.inj hs ▸ reads_goto hbefore h .reference
  case h_9 => exact Except.ok.inj hs ▸ reads_push hbefore h .dot
  case h_10 => exact Except.ok.inj hs ▸ reads_goto hbefore h .escape
  case h_11 =>
    have hchar : c ∉ specialChars := by simp_all [specialChars]
    exact Except.ok.inj hs ▸ reads_push hbefore h (.char hchar)

/-- Inside a reference the reader keeps to the text. -/
theorem reads_stepReference {start : Nat} {name : List Char} (hbefore : OuterReads s.outer before)
    (h : s.level.Reads text) (hs : s.stepReference start name c = .ok s') :
    s'.Reads (before ++ text ++ ('{' :: name.reverse ++ [c])) := by
  simp only [Reader.stepReference] at hs
  split at hs
  case isTrue heq =>
    split at hs
    case isTrue hname =>
      exact Except.ok.inj hs ▸ heq ▸ reads_push hbefore h (.reference hname)
    case isFalse => exact absurd hs (by simp)
  case isFalse =>
    obtain rfl := Except.ok.inj hs
    rw [List.cons_append, ← List.reverse_cons]
    exact reads_goto hbefore h .reference

/-- Inside a class the reader keeps to the text. -/
theorem reads_stepClass {k : OpenClass} {more : List Char} (hbefore : OuterReads s.outer before)
    (h : s.level.Reads text) (hk : k.Reads more) (hs : s.stepClass k c = .ok s') :
    s'.Reads (before ++ text ++ ('[' :: more ++ [c])) := by
  obtain ⟨next, hnext, rfl⟩ := exists_of_map_eq_ok hs
  have hread := hk.step hnext
  cases next with
  | inl k' => exact reads_goto hbefore h (.inClass hread)
  | inr members =>
    obtain ⟨rfl, hread⟩ := hread
    exact reads_push hbefore h (.oneOf hread)

/-- Every character keeps how the text stands in the grammar. -/
theorem Reads.step (h : s.Reads text) (hs : s.step c = .ok s') : s'.Reads (text ++ [c]) := by
  obtain ⟨hbefore, h, hmore⟩ := h
  unfold Reader.step at hs
  generalize hplace : s.place = place at hs hmore
  cases hmore with
  | atom =>
    rw [List.append_nil]
    exact reads_stepAtom hplace hbefore h hs
  | escape =>
    rw [List.append_assoc]
    exact Except.ok.inj hs ▸ reads_push hbefore h (.escape c)
  | reference =>
    rw [List.append_assoc]
    exact reads_stepReference hbefore h hs
  | inClass hk =>
    rw [List.append_assoc]
    exact reads_stepClass hbefore h hk hs

/-- So does every text. -/
theorem Reads.run {cs : List Char} (h : s.Reads text) (hs : s.run cs = .ok s') :
    s'.Reads (text ++ cs) := by
  induction cs generalizing s text with
  | nil =>
    obtain rfl := Except.ok.inj hs
    rwa [List.append_nil]
  | cons c rest ih =>
    rw [run_cons] at hs
    obtain ⟨s₁, hstep, hrest⟩ := exists_of_bind_eq_ok hs
    rw [List.append_cons]
    exact ih (h.step hstep) hrest

/-- At the end of a pattern the text derives the tree. -/
theorem Reads.finish {r : Regex} (h : s.Reads text) (hs : s.finish = .ok r) : Derives text r := by
  obtain ⟨hbefore, h, hmore⟩ := h
  unfold Reader.finish at hs
  generalize hplace : s.place = place at hs hmore
  cases hmore with
  | atom =>
    simp only [Reader.finishAtom] at hs
    split at hs
    case isTrue => exact absurd hs (by simp)
    case isFalse hne =>
      generalize houter : s.outer = outer at hs hbefore
      cases hbefore with
      | group => exact absurd hs (by simp)
      | nil =>
        obtain rfl := Except.ok.inj hs
        rw [List.append_nil, List.nil_append]
        exact ⟨_, h.alternation (by simpa using hne), rfl⟩
  | escape | reference | inClass => exact absurd hs (by simp)

end Reader

/-- Every tree that is read is one of the text. -/
theorem derives_of_parseChars {text : List Char} {r : Regex} (h : parseChars text = .ok r) :
    Derives text r := by
  obtain ⟨s, hrun, hfinish⟩ := exists_of_bind_eq_ok h
  exact (Reader.reads_start.run hrun).finish hfinish

/-- A pattern is read to a tree exactly if the grammar derives that tree from its text. -/
theorem parse_eq_ok_iff_derives (pattern : String) (r : Regex) :
    parse pattern = .ok r ↔ Derives pattern.toList r :=
  ⟨derives_of_parseChars, parseChars_of_derives⟩

end MaximalMunch.Regex
