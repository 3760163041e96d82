import Mathlib.Data.Sum.Basic
import MaximalMunch.Proofs.Regex.Substitution

/-!
# Texts in the place of a reference

The reader never looks into the trees that it has collected. So a text `before`, an atom and a text
`after` are read to the same tree but for the tree of the atom, whatever the atom is and however
long it is. `Reader.Fills` relates the two readings: what the one has collected is what the other
has collected with a tree in the place of a blank. Every step keeps it (`Reader.Fills.step`), up to
the offsets, which only errors show.

`Frame before after frame` says that `frame` is the tree of the two texts with a blank between them.
There is one if a reference between them can be read (`exists_frame`).
-/

namespace MaximalMunch.Regex

/-! ## Readings that agree -/

/-- Two readings agree: both fail, or both give results that are related. -/
def Agree {α β : Type} (R : α → β → Prop) : Except SyntaxError α → Except SyntaxError β → Prop
  | .ok a, .ok b => R a b
  | .error _, .error _ => True
  | _, _ => False

namespace Agree

variable {α β γ δ : Type} {R : α → β → Prop} {S : γ → δ → Prop} {x : Except SyntaxError α}
  {y : Except SyntaxError β}

/-- Readings that agree and go on in agreement agree in the end. -/
theorem bind {f : α → Except SyntaxError γ} {g : β → Except SyntaxError δ} (h : Agree R x y)
    (hfg : ∀ a b, R a b → Agree S (f a) (g b)) : Agree S (x >>= f) (y >>= g) := by
  cases x <;> cases y
  · trivial
  · exact h.elim
  · exact h.elim
  · exact hfg _ _ h

/-- Readings agree as well after their results are changed alike. -/
theorem map {f : α → γ} {g : β → δ} (h : Agree R x y) (hfg : ∀ a b, R a b → S (f a) (g b)) :
    Agree S (x.map f) (y.map g) := by
  cases x <;> cases y
  · trivial
  · exact h.elim
  · exact h.elim
  · exact hfg _ _ h

/-- What the one gives, the other gives too. -/
theorem exists_eq_ok {a : α} (h : Agree R x y) (hx : x = .ok a) : ∃ b, y = .ok b ∧ R a b := by
  subst hx
  cases y with
  | error e => exact h.elim
  | ok b => exact ⟨b, rfl, h⟩

/-- What the other gives, the one gives too. -/
theorem exists_eq_ok_left {b : β} (h : Agree R x y) (hy : y = .ok b) :
    ∃ a, x = .ok a ∧ R a b := by
  subst hy
  cases x with
  | error e => exact h.elim
  | ok a => exact ⟨a, rfl, h⟩

end Agree

/-! ## Classes at other offsets -/

/-- The same place, with an item that may start elsewhere. -/
inductive ClassPlace.Like : ClassPlace → ClassPlace → Prop
  | opened : Like .opened .opened
  | first : Like .first .first
  | item : Like .item .item
  | escape {m n : Nat} : Like (.escape m) (.escape n)
  | after {x : ClassItem} {m n : Nat} : Like (.after x m) (.after x n)
  | hyphen {x : ClassItem} {m n : Nat} : Like (.hyphen x m) (.hyphen x n)
  | upperEscape {lo : Char} {m m' n n' : Nat} : Like (.upperEscape lo m m') (.upperEscape lo n n')

namespace OpenClass

/-- The same class, read at other offsets. -/
structure Like (k l : OpenClass) : Prop where
  negated : l.negated = k.negated
  members : l.members = k.members
  place : k.place.Like l.place

namespace Like

variable {k l : OpenClass} {c : Char} {m n : Nat}

/-- Moving to places that are alike keeps classes alike. -/
theorem goto (h : k.Like l) {place place' : ClassPlace} (hplace : place.Like place') :
    Like { k with place := place } { l with place := place' } :=
  ⟨h.negated, h.members, hplace⟩

/-- So does adding the same members. -/
theorem add (h : k.Like l) (members : CharClass) {place place' : ClassPlace}
    (hplace : place.Like place') : (k.add members place).Like (l.add members place') :=
  ⟨h.negated, congrArg (CharClass.union · members) h.members, hplace⟩

/-- A range is added to both or refused by both. -/
theorem addRange (h : k.Like l) (lo hi : Char) :
    Agree Like (k.addRange lo hi m) (l.addRange lo hi n) := by
  unfold OpenClass.addRange
  split
  · trivial
  · exact h.add _ .item

/-- Classes that are alike close as the same set, or both are empty. -/
theorem close (h : k.Like l) : Agree Eq k.close l.close := by
  simp only [OpenClass.close, h.negated, h.members]
  generalize (if k.negated then k.members.negate else k.members) = set
  split
  · trivial
  · rfl

/-- The first character of an item keeps classes alike. -/
theorem startItem (h : k.Like l) : (k.startItem c m).Like (l.startItem c n) := by
  unfold OpenClass.startItem
  split
  · exact h.goto .escape
  · exact h.add _ .after

/-- The closing bracket gives the same set. -/
theorem closed (h : k.Like l) :
    Agree (Sum.LiftRel Like Eq) (k.close.map .inr) (l.close.map .inr) :=
  h.close.map fun _ _ heq => .inr heq

/-- A character keeps classes alike, whatever the offsets are: both go on, close as the same set, or
fail. -/
theorem step (h : k.Like l) :
    Agree (Sum.LiftRel Like Eq) (k.step c m) (l.step c n) := by
  have hplace := h.place
  unfold OpenClass.step
  generalize k.place = p at hplace
  generalize l.place = p' at hplace
  cases hplace with
  | opened =>
    dsimp only
    split
    · exact .inl ⟨rfl, h.members, .first⟩
    · split
      · trivial
      · exact .inl h.startItem
  | first =>
    dsimp only
    split
    · trivial
    · exact .inl h.startItem
  | item =>
    dsimp only
    split
    · exact h.closed
    · exact .inl h.startItem
  | escape => exact .inl (h.add _ .after)
  | after =>
    dsimp only
    split
    · exact .inl (h.goto .hyphen)
    · split
      · exact h.closed
      · exact .inl h.startItem
  | @hyphen x =>
    dsimp only
    split
    · exact (h.add _ .item).closed
    · cases x with
      | shorthand => trivial
      | char lo =>
        dsimp only
        split
        · exact .inl (h.goto .upperEscape)
        · exact (h.addRange lo c).map fun _ _ hlike => .inl hlike
  | @upperEscape lo =>
    dsimp only
    cases escapeItem c with
    | shorthand => trivial
    | char hi => exact (h.addRange lo hi).map fun _ _ hlike => .inl hlike

end Like

end OpenClass

/-! ## Readers with a blank -/

/-- The level with a tree in the place of blanks. -/
def Level.fill (l : Level) (x : Regex) : Level :=
  ⟨l.branches.map (·.fill x), l.items.map (·.fill x)⟩

namespace Level

/-- The blanks of an item may be filled before or after it is pushed. -/
theorem fill_push (l : Level) (r x : Regex) : (l.push r).fill x = (l.fill x).push (r.fill x) := rfl

/-- A bar may come before or after the blanks are filled. -/
theorem fill_bar (l : Level) (x : Regex) : l.bar.fill x = (l.fill x).bar := by
  simp only [fill, bar, List.map_cons, fill_sequence, List.map_reverse, List.map_nil]

/-- So may the end of the level. -/
theorem fill_close (l : Level) (x : Regex) : l.close.fill x = (l.fill x).close := by
  simp only [fill, close, fill_choice, List.map_reverse, List.map_cons, fill_sequence]

end Level

namespace Reader

/-- The same place, in a construct that may begin elsewhere. -/
inductive Place.Like : Place → Place → Prop
  | atom : Like .atom .atom
  | escape : Like .escape .escape
  | reference {name : List Char} {m n : Nat} : Like (.reference m name) (.reference n name)
  | inClass {k l : OpenClass} (h : k.Like l) : Like (.inClass k) (.inClass l)

/-- The reader `t` has read what `s` has read with `x` in the place of blanks, at other offsets. -/
structure Fills (x : Regex) (s t : Reader) : Prop where
  outer : t.outer.map (·.2) = s.outer.map (·.2.fill x)
  level : t.level = s.level.fill x
  place : s.place.Like t.place

namespace Fills

variable {x : Regex} {s t : Reader} {c : Char}

/-- The trees pushed on both sides may differ in the blank alone. -/
theorem push (h : Fills x s t) {r r' : Regex} (hr : r.fill x = r') :
    Fills x (s.push r) (t.push r') := by
  refine ⟨h.outer, ?_, .atom⟩
  show t.level.push r' = _
  rw [h.level, ← hr]
  rfl

/-- Readers that move to places that are alike stay in step. -/
theorem goto (h : Fills x s t) {p p' : Place} (hp : p.Like p') : Fills x (s.goto p) (t.goto p') :=
  ⟨h.outer, h.level, hp⟩

/-- Both readers open a group. -/
theorem openGroup (h : Fills x s t) : Fills x s.openGroup t.openGroup := by
  refine ⟨?_, rfl, .atom⟩
  show t.level :: t.outer.map _ = s.level.fill x :: s.outer.map _
  rw [h.level, h.outer]

/-- A group is closed by both readers or by none: the blank is in a branch of it or outside. -/
theorem closeGroup (h : Fills x s t) : Agree (Fills x) s.closeGroup t.closeGroup := by
  obtain ⟨m, outer, ⟨branches, items⟩, p⟩ := s
  obtain ⟨n, outer', level', p'⟩ := t
  obtain ⟨houter, rfl, -⟩ := h
  cases outer with
  | nil =>
    obtain rfl : outer' = [] := List.map_eq_nil_iff.1 houter
    cases items <;> trivial
  | cons around outer =>
    obtain ⟨around', rest', rfl, haround, hrest⟩ := List.map_eq_cons_iff.1 houter
    cases items with
    | nil =>
      -- whether there are branches or not, both fail
      cases branches <;> trivial
    | cons item items =>
      refine ⟨hrest, ?_, .atom⟩
      show Level.push around'.2 (.group (Level.close (Level.fill _ x))) =
        Level.fill (Level.push _ _) x
      rw [haround, Level.fill_push, fill_group, Level.fill_close]

/-- A bar is taken by both readers or by none. -/
theorem nextBranch (h : Fills x s t) :
    Agree (Fills x) s.nextBranch t.nextBranch := by
  obtain ⟨m, outer, ⟨branches, items⟩, p⟩ := s
  obtain ⟨n, outer', level', p'⟩ := t
  obtain ⟨houter, rfl, hp⟩ := h
  cases items with
  | nil => trivial
  | cons item items => exact ⟨houter, (Level.fill_bar _ x).symm, hp⟩

/-- A repetition is applied by both readers or by none, as there is something to repeat for both. -/
theorem applyRepetition (h : Fills x s t) (times : Repetition) :
    Agree (Fills x) (s.applyRepetition times c) (t.applyRepetition times c) := by
  obtain ⟨m, outer, ⟨branches, items⟩, p⟩ := s
  obtain ⟨n, outer', level', p'⟩ := t
  obtain ⟨houter, rfl, hp⟩ := h
  cases items with
  | nil => trivial
  | cons item items =>
    have hlevel : Level.fill ⟨branches, .repeated times item :: items⟩ x =
        ⟨branches.map (·.fill x), .repeated times (item.fill x) :: items.map (·.fill x)⟩ := by
      rw [Level.fill, List.map_cons, fill_repeated]
    exact ⟨houter, hlevel.symm, hp⟩

/-- Where an atom may stand, a character has the same effect on both readers. -/
theorem stepAtom (h : Fills x s t) : Agree (Fills x) (s.stepAtom c) (t.stepAtom c) := by
  unfold Reader.stepAtom
  split
  case h_1 => exact h.nextBranch
  case h_2 => exact h.openGroup
  case h_3 => exact h.closeGroup
  case h_4 => exact h.applyRepetition .zeroOrMore
  case h_5 => exact h.applyRepetition .oneOrMore
  case h_6 => exact h.applyRepetition .zeroOrOne
  case h_7 => exact h.goto (.inClass ⟨rfl, rfl, .opened⟩)
  case h_8 => exact h.goto .reference
  case h_9 => exact h.push (fill_oneOf _ x)
  case h_10 => exact h.goto .escape
  case h_11 => exact h.push (fill_literal _ x)

/-- A reference that is read is no blank, for its name is a word. -/
theorem stepReference (h : Fills x s t) {name : List Char} {m n : Nat} :
    Agree (Fills x) (s.stepReference m name c) (t.stepReference n name c) := by
  unfold Reader.stepReference
  split
  · dsimp only
    split
    · rename_i hword
      exact h.push (fill_reference (ofList_ne_empty_of_isWord hword) x)
    · trivial
  · exact h.goto .reference

/-- Inside a class a character has the same effect on both readers. -/
theorem stepClass (h : Fills x s t) {k l : OpenClass} (hk : k.Like l) :
    Agree (Fills x) (s.stepClass k c) (t.stepClass l c) := by
  refine hk.step.map fun next next' hnext => ?_
  cases hnext with
  | inl hlike => exact h.goto (.inClass hlike)
  | inr heq =>
    subst heq
    exact h.push (fill_oneOf _ x)

/-- A character keeps the two readings alike. -/
theorem step (h : Fills x s t) : Agree (Fills x) (s.step c) (t.step c) := by
  have hplace := h.place
  unfold Reader.step
  generalize s.place = p at hplace
  generalize t.place = p' at hplace
  cases hplace with
  | atom => exact h.stepAtom
  | escape => exact h.push (fill_node _ x)
  | reference => exact h.stepReference
  | inClass hk => exact h.stepClass hk

/-- So does a text. -/
theorem run (h : Fills x s t) (cs : List Char) : Agree (Fills x) (s.run cs) (t.run cs) := by
  induction cs generalizing s t with
  | nil => exact h
  | cons c cs ih =>
    rw [run_cons, run_cons]
    exact h.step.bind fun _ _ h' => ih h'

/-- At the end the one tree is the other with `x` in the place of blanks. -/
theorem finish (h : Fills x s t) : Agree (fun r r' => r' = r.fill x) s.finish t.finish := by
  obtain ⟨m, outer, ⟨branches, items⟩, p⟩ := s
  obtain ⟨n, outer', level', p'⟩ := t
  obtain ⟨houter, rfl, hp⟩ := h
  cases hp with
  | atom =>
    cases items with
    | nil => trivial
    | cons item items =>
      cases outer with
      | nil =>
        obtain rfl : outer' = [] := List.map_eq_nil_iff.1 houter
        exact (Level.fill_close _ x).symm
      | cons around outer =>
        obtain ⟨around', rest', rfl, -⟩ := List.map_eq_cons_iff.1 houter
        trivial
  | escape | reference | inClass => trivial

end Fills

end Reader

/-! ## Names in the order of the text -/

/-- The names that the trees of a level refer to. -/
def Level.names (l : Level) : List String := referencesOfAll l.all

namespace Level

/-- The names of a level are those of its finished branches and then those of the open one. -/
theorem names_eq (l : Level) :
    l.names = referencesOfAll l.branches.reverse ++ referencesOfAll l.items.reverse := by
  rw [names, all, List.reverse_cons, referencesOfAll_append, referencesOfAll, referencesOfAll,
    references_sequence, List.append_nil]

/-- The names of a further item come behind the others. -/
theorem names_push (l : Level) (r : Regex) : (l.push r).names = l.names ++ r.references := by
  rw [names_eq, names_eq, push, List.reverse_cons, referencesOfAll_append, referencesOfAll,
    referencesOfAll, List.append_nil, List.append_assoc]

/-- A bar adds no names. -/
theorem names_bar (l : Level) : l.bar.names = l.names := by
  rw [names_eq, bar, names, all, List.reverse_nil, referencesOfAll, List.append_nil]

/-- The tree of a level refers to the names of the level. -/
theorem references_close (l : Level) : l.close.references = l.names :=
  references_choice l.all

end Level

namespace Reader

variable {s s' : Reader} {c : Char}

/-- The names that the trees collected so far refer to, in the order of the text. -/
def names (s : Reader) : List String :=
  (s.outer.reverse.flatMap fun around => around.2.names) ++ s.level.names

/-- The reader `s'` has the names of `s` and maybe others behind them, none of them empty. -/
def Adds (s s' : Reader) : Prop := ∃ more, s'.names = s.names ++ more ∧ "" ∉ more

/-- A step that leaves the names alone adds none. -/
theorem adds_of_eq (h : s'.names = s.names) : s.Adds s' :=
  ⟨[], h.trans (List.append_nil _).symm, List.not_mem_nil⟩

/-- What is added in two steps is added. -/
theorem Adds.trans {s'' : Reader} (h : s.Adds s') (h' : s'.Adds s'') : s.Adds s'' := by
  obtain ⟨more, hmore, hne⟩ := h
  obtain ⟨more', hmore', hne'⟩ := h'
  refine ⟨more ++ more', by rw [hmore', hmore, List.append_assoc], fun hmem => ?_⟩
  exact (List.mem_append.1 hmem).elim hne hne'

/-- An item without blanks adds no blank. -/
theorem adds_push {r : Regex} (hr : "" ∉ r.references) : s.Adds (s.push r) :=
  ⟨r.references, by rw [names, names, push, Level.names_push, List.append_assoc], hr⟩

/-- The end of a group adds no names. -/
theorem adds_closeGroup (h : s.closeGroup = .ok s') : s.Adds s' := by
  unfold Reader.closeGroup at h
  split at h
  · split at h <;> exact absurd h (by simp)
  · exact absurd h (by simp)
  · exact absurd h (by simp)
  · rename_i start around outer item items houter hitems
    obtain rfl := Except.ok.inj h
    apply adds_of_eq
    rw [names, names, houter, Level.names_push, references, Level.references_close,
      List.reverse_cons, List.flatMap_append, List.flatMap_singleton, List.append_assoc]

/-- A bar adds no names. -/
theorem adds_nextBranch (h : s.nextBranch = .ok s') : s.Adds s' := by
  unfold Reader.nextBranch at h
  split at h
  · exact absurd h (by simp)
  · obtain rfl := Except.ok.inj h
    apply adds_of_eq
    rw [names, names, Level.names_bar]

/-- A repetition adds no names. -/
theorem adds_applyRepetition {times : Repetition} (h : s.applyRepetition times c = .ok s') :
    s.Adds s' := by
  unfold Reader.applyRepetition at h
  split at h
  · exact absurd h (by simp)
  · rename_i item items hitems
    obtain rfl := Except.ok.inj h
    apply adds_of_eq
    rw [names, names, Level.names_eq, Level.names_eq, hitems]
    simp only [List.reverse_cons, referencesOfAll_append, referencesOfAll, references]

/-- The beginning of a group adds no names. -/
theorem adds_openGroup : s.Adds s.openGroup := by
  apply adds_of_eq
  have hstart : Level.start.names = [] := rfl
  rw [names, names, openGroup, hstart, List.reverse_cons, List.flatMap_append,
    List.flatMap_singleton, List.append_nil]

/-- Where an atom may stand, a character adds no blank. -/
theorem adds_stepAtom (h : s.stepAtom c = .ok s') : s.Adds s' := by
  unfold Reader.stepAtom at h
  split at h
  case h_1 => exact adds_nextBranch h
  case h_2 => exact Except.ok.inj h ▸ adds_openGroup
  case h_3 => exact adds_closeGroup h
  case h_4 | h_5 | h_6 => exact adds_applyRepetition h
  case h_7 | h_8 | h_10 => exact Except.ok.inj h ▸ adds_of_eq rfl
  case h_9 | h_11 => exact Except.ok.inj h ▸ adds_push (by simp [references])

/-- No step adds a blank: a reference has a name that is a word. -/
theorem adds_step (h : s.step c = .ok s') : s.Adds s' := by
  unfold Reader.step at h
  split at h
  · exact adds_stepAtom h
  · obtain rfl := Except.ok.inj h
    exact adds_push (by rw [references_escapeItem]; exact List.not_mem_nil)
  · simp only [Reader.stepReference] at h
    split at h
    · split at h
      · -- only a closed reference adds a name, which is a word
        rename_i hword
        obtain rfl := Except.ok.inj h
        refine adds_push ?_
        rw [references, List.mem_singleton]
        exact (ofList_ne_empty_of_isWord hword).symm
      · exact absurd h (by simp)
    · exact Except.ok.inj h ▸ adds_of_eq rfl
  · obtain ⟨next, -, rfl⟩ := exists_of_map_eq_ok h
    cases next with
    | inl k => exact adds_of_eq rfl
    | inr members => exact adds_push (by simp [references])

/-- So no text adds a blank. -/
theorem adds_run {cs : List Char} (h : s.run cs = .ok s') : s.Adds s' := by
  induction cs generalizing s with
  | nil => exact Except.ok.inj h ▸ adds_of_eq rfl
  | cons c cs ih =>
    rw [run_cons] at h
    obtain ⟨s₁, hstep, hrest⟩ := exists_of_bind_eq_ok h
    exact (adds_step hstep).trans (ih hrest)

/-- The tree of a whole text refers to the names that the reader has collected. -/
theorem references_of_finish {r : Regex} (h : s.finish = .ok r) : r.references = s.names := by
  unfold Reader.finish at h
  split at h
  · simp only [Reader.finishAtom] at h
    split at h
    · exact absurd h (by simp)
    · split at h
      · rename_i houter
        obtain rfl := Except.ok.inj h
        rw [Level.references_close, names, houter]
        rfl
      · exact absurd h (by simp)
  all_goals exact absurd h (by simp)

/-- A blank between two texts is the only one. -/
theorem count_blank {before after : List Char} {frame : Regex}
    (hbefore : Reader.start.run before = .ok s)
    (hafter : (s.push blank).run after >>= Reader.finish = .ok frame) :
    frame.references.count "" = 1 := by
  obtain ⟨names, hnames, hne⟩ := adds_run hbefore
  obtain ⟨s', hrun, hfinish⟩ := exists_of_bind_eq_ok hafter
  obtain ⟨more, hmore, hne'⟩ := adds_run hrun
  have hpush : (s.push blank).names = s.names ++ [""] := by
    rw [Reader.names, Reader.names, push, Level.names_push, List.append_assoc, blank, references]
  have hstart : Reader.start.names = [] := rfl
  rw [references_of_finish hfinish, hmore, hpush, hnames, hstart, List.nil_append,
    List.count_append, List.count_append, List.count_eq_zero_of_not_mem hne,
    List.count_eq_zero_of_not_mem hne']
  rfl

end Reader

/-! ## Two texts with a blank between them -/

/-- The tree of two texts with a blank between them: it has one blank, and with any atom between
them the texts are read to the tree with the atom's tree in the place of the blank. -/
structure Frame (before after : List Char) (frame : Regex) : Prop where
  one_blank : frame.references.count "" = 1
  parse_atom : ∀ {text : List Char} {x : Regex}, Atom text x →
    parseChars (before ++ text ++ after) = .ok (frame.fill x)

/-- A brace behind the text opens a reference. -/
def OpensReference (text : List Char) : Prop :=
  ∃ s, Reader.start.run text = .ok s ∧ s.step '{' = .ok (s.goto (.reference s.offset []))

/-- A brace opens a reference between atoms only. -/
theorem Reader.place_eq_atom_of_step {s : Reader}
    (h : s.step '{' = .ok (s.goto (.reference s.offset []))) : s.place = .atom := by
  rw [step] at h
  split at h
  · assumption
  · exact absurd (congrArg place (Except.ok.inj h)) (by simp [push, goto])
  · rw [stepReference, if_neg (by decide)] at h
    exact absurd (congrArg place (Except.ok.inj h)) (by simp [goto])
  · rename_i k _
    obtain ⟨next, -, hnext⟩ := exists_of_map_eq_ok h
    cases next with
    | inl k => exact absurd (congrArg place hnext) (by simp [goto])
    | inr members => exact absurd (congrArg place hnext) (by simp [push, goto])

/-- Two texts can be read with a blank between them if they can be read with some atom there. -/
theorem exists_frame {before text after : List Char} {x r : Regex}
    (hopens : OpensReference before) (hatom : Atom text x)
    (hparse : parseChars (before ++ text ++ after) = .ok r) :
    ∃ frame, Frame before after frame := by
  obtain ⟨s, hs, hstep⟩ := hopens
  have hplace := Reader.place_eq_atom_of_step hstep
  -- what has been read before holds no blank, so it is the same with any tree in their place
  have hself : ∀ y, Reader.Fills y s s := by
    intro y
    have hstart : Reader.Fills y Reader.start Reader.start := ⟨rfl, rfl, .atom⟩
    have hrun := hstart.run before
    rwa [hs] at hrun
  have hread : ∀ {text y}, Atom text y → parseChars (before ++ text ++ after) =
      (s.ahead text.length (s.level.push y)).run after >>= Reader.finish := by
    intro text y hy
    rw [parseChars, Reader.run_append_of_run (Reader.run_append_of_run hs |>.trans (hy.run hplace))]
  have hagree : ∀ {text y}, Atom text y →
      Agree (fun r r' => r' = r.fill y) ((s.push blank).run after >>= Reader.finish)
        (parseChars (before ++ text ++ after)) := by
    intro text y hy
    rw [hread hy]
    have hfills : Reader.Fills y (s.push blank) (s.ahead text.length (s.level.push y)) := by
      refine ⟨(hself y).outer, ?_, .atom⟩
      show s.level.push y = (s.level.push blank).fill y
      rw [Level.fill_push, fill_blank, ← (hself y).level]
    exact (hfills.run after).bind fun _ _ h => h.finish
  obtain ⟨frame, hframe, -⟩ := (hagree hatom).exists_eq_ok_left hparse
  refine ⟨frame, Reader.count_blank hs hframe, fun {text y} hy => ?_⟩
  obtain ⟨r', hr', rfl⟩ := (hagree hy).exists_eq_ok hframe
  exact hr'

/-- The text of a reference: a name in braces. -/
def referenceText (name : String) : String := "\x7b" ++ name ++ "\x7d"

/-- The text of a group: a pattern in parentheses. -/
def groupText (pattern : String) : String := "(" ++ pattern ++ ")"

/-- A reference is its name in braces. -/
theorem toList_referenceText (name : String) :
    (referenceText name).toList = '{' :: (name.toList ++ ['}']) := by
  rw [referenceText, String.toList_append, String.toList_append, List.append_assoc]
  rfl

/-- A group is its pattern in parentheses. -/
theorem toList_groupText (pattern : String) :
    (groupText pattern).toList = '(' :: (pattern.toList ++ [')']) := by
  rw [groupText, String.toList_append, String.toList_append, List.append_assoc]
  rfl

/-- A reference to a word is an atom. -/
theorem atom_referenceText {name : String} (h : Text.isWord name.toList = true) :
    Atom (referenceText name).toList (.reference name) := by
  rw [toList_referenceText]
  have hatom := Atom.reference h
  rwa [String.ofList_toList] at hatom

/-- A pattern in parentheses is an atom. -/
theorem atom_groupText {pattern : String} {r : Regex} (h : parse pattern = .ok r) :
    Atom (groupText pattern).toList (.group r) := by
  rw [toList_groupText]
  obtain ⟨branches, htext, rfl⟩ := derives_of_parseChars h
  exact .group htext

/-- An atom between the texts of a frame is read to the tree of the frame, with the tree of the atom
in the place of the blank. -/
theorem Frame.parse_eq_ok {before text after : String} {frame x : Regex}
    (F : Frame before.toList after.toList frame) (hatom : Atom text.toList x) :
    parse (before ++ text ++ after) = .ok (frame.fill x) := by
  rw [parse, String.toList_append, String.toList_append]
  exact F.parse_atom hatom

end MaximalMunch.Regex
