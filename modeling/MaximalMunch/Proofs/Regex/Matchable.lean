import MaximalMunch.Proofs.CharClass.Surrogates
import MaximalMunch.Proofs.Regex.Compile

/-!
# Classes that characters match

The reader turns a class down if no code point is left in it. That lets a class pass which no
character matches: the class of the surrogates, for they are code points too. It is what remains if
all characters are named behind a caret, and no surrogate (`parse_all_characters`). No other class
is like that (`matchable_or_eq_surrogates_of_parse`), for a class has all surrogates or none of them
(`ClassText.uniform`). What the transitions of a fragment consume are the characters and classes of
its pattern (`labels_fragment`), so apart from this class they can all be taken.
-/

namespace MaximalMunch.Regex

open Nfa (Graph)
open Nfa.Graph (compositional_labels transitions_copy transitions_clearAcceptance)

mutual

/-- The classes of a pattern, from left to right. -/
def classes : Regex → List CharClass
  | .literal _ => []
  | .oneOf members => [members]
  | .concat items => classesOfAll items
  | .alternate branches => classesOfAll branches
  | .repeated _ inner => classes inner
  | .group inner => classes inner
  | .reference _ => []

/-- The classes of some patterns, pattern after pattern. -/
def classesOfAll : List Regex → List CharClass
  | [] => []
  | r :: rest => classes r ++ classesOfAll rest

end

/-- The classes in lists of patterns one behind the other. -/
theorem classesOfAll_append (rs ps : List Regex) :
    classesOfAll (rs ++ ps) = classesOfAll rs ++ classesOfAll ps := by
  induction rs with
  | nil => rfl
  | cons r rs ih => rw [List.cons_append, classesOfAll, ih, classesOfAll, List.append_assoc]

/-- The classes in a list of one pattern. -/
theorem classesOfAll_singleton (r : Regex) : classesOfAll [r] = r.classes := by
  rw [classesOfAll, classesOfAll, List.append_nil]

/-- The classes in a sequence are those in its items. -/
theorem classes_sequence (items : List Regex) :
    (sequence items).classes = classesOfAll items := by
  unfold sequence
  split
  · rw [classesOfAll_singleton]
  · rw [classes]

/-- The classes in a choice are those in its branches. -/
theorem classes_choice (branches : List Regex) :
    (choice branches).classes = classesOfAll branches := by
  unfold choice
  split
  · rw [classesOfAll_singleton]
  · rw [classes]

/-! ## The surrogates in classes -/

/-- What an escape stands for has all surrogates or none. -/
theorem uniform_escapeItem (c : Char) : (escapeItem c).members.Uniform := by
  unfold escapeItem
  split
  case h_5 => exact .digit
  case h_6 => exact CharClass.Uniform.digit.negate
  case h_7 => exact .word
  case h_8 => exact CharClass.Uniform.word.negate
  case h_9 => exact .space
  case h_10 => exact CharClass.Uniform.space.negate
  all_goals exact .single _

/-- A part of a class has all surrogates or none. -/
theorem ClassBody.has_of_isSurrogate {text : List Char} {parts : List ClassPart}
    (h : ClassBody text parts) {p : ClassPart} (hp : p ∈ parts) {cp cp' : UInt32}
    (hcp : IsSurrogate cp) (hcp' : IsSurrogate cp') (hhas : p.Has cp) : p.Has cp' := by
  induction h with
  | nil => exact absurd hp List.not_mem_nil
  | item hx _ _ ih =>
    rcases List.mem_cons.1 hp with rfl | hp
    · rw [has_item_iff] at hhas ⊢
      cases hx with
      | plain => exact CharClass.Uniform.single _ hcp hcp' hhas
      | escaped c => exact uniform_escapeItem c hcp hcp' hhas
    · exact ih hp
  | @range _ _ _ lo hi _ _ _ _ _ ih =>
    rcases List.mem_cons.1 hp with rfl | hp
    · exact CharClass.contains_range.1
        (CharClass.Uniform.range lo hi hcp hcp' (CharClass.contains_range.2 hhas))
    · exact ih hp

/-- The set of a class has all surrogates or none. -/
theorem ClassText.uniform {text : List Char} {k : CharClass} (h : ClassText text k) :
    k.Uniform := by
  intro cp cp' hcp hcp' hmem
  cases h with
  | plain h _ _ hk =>
    obtain ⟨p, hp, hhas⟩ := (hk cp).1 hmem
    exact (hk cp').2 ⟨p, hp, h.has_of_isSurrogate hp hcp hcp' hhas⟩
  | negated h _ hk =>
    refine (hk cp').2 ⟨hcp'.le_maxChar, ?_⟩
    rintro ⟨p, hp, hhas⟩
    exact ((hk cp).1 hmem).2 ⟨p, hp, h.has_of_isSurrogate hp hcp' hcp hhas⟩

/-- The set of a class has a character, unless it is the class of the surrogates. -/
theorem ClassText.matchable_or_eq_surrogates {text : List Char} {k : CharClass}
    (h : ClassText text k) : k.Matchable ∨ k = .surrogates :=
  h.uniform.matchable_or_eq_surrogates h.unicode h.exists_contains

/-! ## The classes of patterns -/

/-- The class of an escape can be matched. -/
theorem matchable_or_eq_surrogates_escapeItem (c : Char) :
    ∀ k ∈ (escapeItem c).node.classes, k.Matchable ∨ k = .surrogates := by
  have huniform := uniform_escapeItem c
  have hunicode := unicode_escapeItem c
  have hmember := exists_contains_escapeItem c
  cases hc : escapeItem c with
  | char c =>
    rw [ClassItem.node, classes]
    exact fun k hk => absurd hk List.not_mem_nil
  | shorthand members =>
    rw [hc] at huniform hunicode hmember
    rw [ClassItem.node, classes, List.forall_mem_singleton]
    exact huniform.matchable_or_eq_surrogates hunicode hmember

mutual

/-- The classes in an atom can be matched or are that of the surrogates. -/
theorem Atom.matchable_or_eq_surrogates : ∀ {text : List Char} {r : Regex}, Atom text r →
    ∀ k ∈ r.classes, k.Matchable ∨ k = .surrogates
  | _, _, .char _ => by
    rw [classes]
    exact fun k hk => absurd hk List.not_mem_nil
  | _, _, .escape c => matchable_or_eq_surrogates_escapeItem c
  | _, _, .dot => by
    rw [classes, List.forall_mem_singleton]
    refine Or.inl ⟨'!', (CharClass.contains_negate (by decide)).2 fun h => ?_⟩
    exact absurd (CharClass.contains_single.1 h) (by decide)
  | _, _, .oneOf h => by
    rw [classes, List.forall_mem_singleton]
    exact h.matchable_or_eq_surrogates
  | _, _, .group h => by
    rw [classes, classes_choice]
    exact Alternation.matchable_or_eq_surrogates h
  | _, _, .reference _ => by
    rw [classes]
    exact fun k hk => absurd hk List.not_mem_nil

/-- So are the classes in an atom with operators. -/
theorem Repeated.matchable_or_eq_surrogates : ∀ {text : List Char} {r : Regex}, Repeated text r →
    ∀ k ∈ r.classes, k.Matchable ∨ k = .surrogates
  | _, _, .atom h => Atom.matchable_or_eq_surrogates h
  | _, _, .operator h _ => by
    rw [classes]
    exact Repeated.matchable_or_eq_surrogates h

/-- So are the classes in a concatenation. -/
theorem Concat.matchable_or_eq_surrogates : ∀ {text : List Char} {items : List Regex},
    Concat text items → ∀ k ∈ classesOfAll items, k.Matchable ∨ k = .surrogates
  | _, _, .single h => by
    rw [classesOfAll_singleton]
    exact Repeated.matchable_or_eq_surrogates h
  | _, _, .snoc h hr => by
    rw [classesOfAll_append, classesOfAll_singleton, List.forall_mem_append]
    exact ⟨Concat.matchable_or_eq_surrogates h, Repeated.matchable_or_eq_surrogates hr⟩

/-- So are the classes in an alternation. -/
theorem Alternation.matchable_or_eq_surrogates : ∀ {text : List Char} {branches : List Regex},
    Alternation text branches → ∀ k ∈ classesOfAll branches, k.Matchable ∨ k = .surrogates
  | _, _, .single h => by
    rw [classesOfAll_singleton, classes_sequence]
    exact Concat.matchable_or_eq_surrogates h
  | _, _, .snoc h hitems => by
    rw [classesOfAll_append, classesOfAll_singleton, classes_sequence, List.forall_mem_append]
    exact ⟨Alternation.matchable_or_eq_surrogates h, Concat.matchable_or_eq_surrogates hitems⟩

end

/-- A class of a pattern has a character, unless it is the class of the surrogates. -/
theorem matchable_or_eq_surrogates_of_parse {pattern : String} {r : Regex}
    (h : parse pattern = .ok r) : ∀ k ∈ r.classes, k.Matchable ∨ k = .surrogates := by
  obtain ⟨branches, htext, rfl⟩ := derives_of_parseChars h
  rw [classes_choice]
  exact htext.matchable_or_eq_surrogates

/-! ## The labels of fragments -/

section Labels

variable {named : String → Graph} {P : CharClass → Prop}

mutual

/-- The transitions of a fragment consume the characters and the classes of the pattern, and what
those of the referenced graphs consume. -/
theorem labels_fragment (hsingle : ∀ c, P (.single c)) : ∀ (r : Regex) (next : Nat),
    (∀ k ∈ r.classes, P k) → (∀ name ∈ r.references, (named name).Labels P) →
      (r.fragment named next).Labels P
  | .literal c, next, _, _ => by
    rw [fragment]
    exact .symbol (hsingle c) next
  | .oneOf members, next, h, _ => by
    rw [classes, List.forall_mem_singleton] at h
    rw [fragment]
    exact .symbol h next
  | .concat items, next, h, hnamed => by
    rw [classes] at h
    rw [references] at hnamed
    rw [fragment]
    have hparts := labels_fragments hsingle items next h hnamed
    exact List.foldlRecOn _ _ (compositional_labels P).empty fun _ hg part hpart =>
      (compositional_labels P).chain hg (hparts part hpart)
  | .alternate branches, next, h, hnamed => by
    rw [classes] at h
    rw [references] at hnamed
    rw [fragment]
    have hparts := labels_fragments hsingle branches (next + 1) h hnamed
    exact (compositional_labels P).alternatives hparts _ _
  | .repeated times inner, next, h, hnamed => by
    rw [classes] at h
    rw [references] at hnamed
    rw [fragment]
    have hinner := labels_fragment hsingle inner next h hnamed
    exact (compositional_labels P).wrap hinner _ times
  | .group inner, next, h, hnamed => by
    rw [classes] at h
    rw [references] at hnamed
    rw [fragment]
    exact labels_fragment hsingle inner next h hnamed
  | .reference name, next, _, hnamed => by
    rw [references, List.forall_mem_singleton] at hnamed
    rw [fragment]
    exact (hnamed.congr fun _ => transitions_copy next).congr fun _ => transitions_clearAcceptance

/-- The same for the fragments of a list of patterns. -/
theorem labels_fragments (hsingle : ∀ c, P (.single c)) : ∀ (rs : List Regex) (next : Nat),
    (∀ k ∈ classesOfAll rs, P k) → (∀ name ∈ referencesOfAll rs, (named name).Labels P) →
      ∀ part ∈ fragments named next rs, part.Labels P
  | [], _, _, _ => by
    rw [fragments]
    exact fun part h => absurd h List.not_mem_nil
  | r :: rest, next, h, hnamed => by
    rw [classesOfAll, List.forall_mem_append] at h
    rw [referencesOfAll, List.forall_mem_append] at hnamed
    rw [fragments, List.forall_mem_cons]
    exact ⟨labels_fragment hsingle r next h.1 hnamed.1,
      labels_fragments hsingle rest _ h.2 hnamed.2⟩

end

end Labels

/-- A compiled pattern consumes characters, if that is so of its classes and in the graphs to which
it refers. -/
theorem labels_matchable_of_compile {resolve : String → Option Graph} {pattern : String}
    {next : Nat} {g : Graph} {r : Regex} (hr : parse pattern = .ok r)
    (hclasses : ∀ k ∈ r.classes, k.Matchable)
    (hresolve : ∀ name h, resolve name = some h → h.Labels CharClass.Matchable)
    (h : compile resolve pattern next = .ok g) : g.Labels CharClass.Matchable := by
  obtain ⟨r', hr', hknown, rfl⟩ := compile_eq_ok_iff.1 h
  obtain rfl := Except.ok.inj (hr.symm.trans hr')
  refine labels_fragment .single r next hclasses fun name hname => ?_
  obtain ⟨referenced, hreferenced⟩ := Option.isSome_iff_exists.1 (hknown name hname)
  rw [hreferenced]
  exact hresolve name referenced hreferenced

/-! ## Classes that are turned down -/

/-- A class that names all characters behind a caret is turned down if a part of it has a surrogate,
and so all code points are named. -/
theorem ClassBody.parseChars_eq_emptyClass_iff {text : List Char} {parts : List ClassPart}
    (h : ClassBody text parts) (hne : text ≠ []) (hchars : ∀ c : Char, ∃ p ∈ parts, p.Has c.val) :
    parseChars ('[' :: '^' :: (text ++ [']'])) = .error (.emptyClass 0) ↔
      ∃ cp, IsSurrogate cp ∧ ∃ p ∈ parts, p.Has cp := by
  obtain ⟨k, hk, hrun⟩ := @ClassBody.run_negated _ _ h hne .start 0 1
  have hopen : Reader.start.step '[' = .ok (Reader.start.inClass 1 ⟨0, false, .empty, .opened⟩) :=
    rfl
  rw [parseChars, Reader.run_cons_of_step hopen, hrun]
  by_cases hempty : k.isEmpty = true
  · rw [if_pos hempty]
    have hsurrogate : IsSurrogate 0xD800 := by decide
    refine iff_of_true rfl ⟨0xD800, hsurrogate, ?_⟩
    by_contra hnone
    exact CharClass.isEmpty_iff.1 hempty _ ((hk _).2 ⟨hsurrogate.le_maxChar, hnone⟩)
  · rw [if_neg hempty]
    refine iff_of_false (fun herror => by cases herror) ?_
    -- what is left is a surrogate that no part has, and then no part has any surrogate
    obtain ⟨cp, hcp⟩ := CharClass.not_isEmpty_iff.1 hempty
    obtain ⟨hmax, hnone⟩ := (hk cp).1 hcp
    have hleft : IsSurrogate cp := by
      by_contra hnot
      obtain ⟨c, rfl⟩ := exists_val_eq hmax hnot
      exact hnone (hchars c)
    rintro ⟨cp', hcp', p, hp, hhas⟩
    exact hnone ⟨p, hp, h.has_of_isSurrogate hp hcp' hleft hhas⟩

/-! ## Matchable patterns -/

/-- All classes of a pattern have characters if the class of the surrogates is not among them, and
then so has all that the transitions of the compiled pattern consume, if that is so in the graphs to
which the pattern refers. A pattern that is a class which names all characters behind a caret is
turned down if it names a surrogate as well. -/
theorem matchable_unless_surrogates (pattern : String) :
    (∀ r, parse pattern = .ok r →
      ((∀ k ∈ r.classes, k.Matchable) ↔ .surrogates ∉ r.classes) ∧
      ∀ (resolve : String → Option Graph) (next : Nat) (g : Graph), .surrogates ∉ r.classes →
        (∀ name h, resolve name = some h → h.Labels CharClass.Matchable) →
          compile resolve pattern next = .ok g → g.Labels CharClass.Matchable) ∧
    ∀ text parts, pattern.toList = '[' :: '^' :: (text ++ [']']) → ClassBody text parts →
      text ≠ [] → (∀ c : Char, ∃ p ∈ parts, p.Has c.val) →
        (parse pattern = .error (.emptyClass 0) ↔
          ∃ cp, IsSurrogate cp ∧ ∃ p ∈ parts, p.Has cp) := by
  constructor
  · intro r hr
    have hiff : (∀ k ∈ r.classes, k.Matchable) ↔ .surrogates ∉ r.classes := by
      constructor
      · intro hall hmem
        exact CharClass.not_matchable_surrogates (hall _ hmem)
      · intro hnot k hk
        apply (matchable_or_eq_surrogates_of_parse hr k hk).resolve_right
        rintro rfl
        exact hnot hk
    refine ⟨hiff, fun resolve next g hnot hresolve hcompile => ?_⟩
    exact labels_matchable_of_compile hr (hiff.2 hnot) hresolve hcompile
  · intro text parts htext h hne hchars
    rw [parse, htext]
    exact h.parseChars_eq_emptyClass_iff hne hchars

/-- A class of all characters but one, with a graph that is referred to, and a class that names both
what is blank and what is not. -/
theorem matchable_unless_surrogates_blank :
    (∃ r, parse "[^a]{b}" = .ok r ∧ ∀ k ∈ r.classes, k.Matchable) ∧
    (∃ g, compile (fun _ => some (.symbol 0 (.single 'b'))) "[^a]{b}" 2 = .ok g ∧
      g.Labels CharClass.Matchable) ∧
    parse "[^\\s\\S]" = .error (.emptyClass 0) := by
  have hparse : parse "[^a]{b}" =
      .ok (.concat [.oneOf (CharClass.single 'a').negate, .reference "b"]) := by
    have hbody : ClassBody ['a'] [.item (.char 'a')] :=
      .item (.plain (by decide)) not_makesRange_nil .nil
    have hclass : ClassText ['^', 'a'] (CharClass.single 'a').negate := by
      refine .negated hbody (by decide) (fun cp => ?_) ⟨0x62, by decide +kernel⟩
      rw [(CharClass.Unicode.single 'a').contains_negate]
      simp [has_item_iff, ClassItem.members]
    exact parseChars_of_derives ⟨_, .single (.snoc (.single (.atom (.oneOf hclass)))
      (.atom (@Atom.reference ['b'] (by decide)))), rfl⟩
  obtain ⟨hiff, hlabels⟩ := (matchable_unless_surrogates "[^a]{b}").1 _ hparse
  have hnot : .surrogates ∉ classes (.concat [.oneOf (CharClass.single 'a').negate,
      .reference "b"]) := by decide
  refine ⟨⟨_, hparse, hiff.2 hnot⟩, ?_, ?_⟩
  · let resolve : String → Option Graph := fun _ => some (.symbol 0 (.single 'b'))
    have hsymbol : ∀ name h, resolve name = some h → h.Labels CharClass.Matchable := by
      intro name h heq
      rw [← Option.some.inj heq]
      exact .symbol (.single 'b') 0
    have hcompile : compile resolve "[^a]{b}" 2 = .ok _ :=
      compile_eq_ok_iff.2 ⟨_, hparse, fun _ _ => rfl, rfl⟩
    exact ⟨_, hcompile, hlabels resolve 2 _ hnot hsymbol hcompile⟩
  · have hnone : ∀ rest : List Char, ¬ MakesRange ('\\' :: rest) := by
      rintro rest ⟨c, more, heq⟩
      exact absurd (List.cons.inj heq).1 (by decide)
    have hbody : ClassBody ['\\', 's', '\\', 'S']
        [.item (.shorthand .space), .item (.shorthand CharClass.space.negate)] :=
      .item (.escaped 's') (hnone _) (.item (.escaped 'S') not_makesRange_nil .nil)
    have hall : ∀ cp ≤ maxChar, ∃ p ∈ [ClassPart.item (.shorthand .space),
        .item (.shorthand CharClass.space.negate)], p.Has cp := by
      intro cp hcp
      by_cases hspace : CharClass.space.contains cp = true
      · exact ⟨_, List.mem_cons_self, hspace⟩
      · exact ⟨_, List.mem_cons_of_mem _ List.mem_cons_self,
          (CharClass.contains_negate hcp).2 hspace⟩
    refine ((matchable_unless_surrogates "[^\\s\\S]").2 _ _ (by decide) hbody (by decide)
      fun c => hall _ (val_le_maxChar c)).2 ⟨0xD800, by decide, hall _ (by decide)⟩

/-- All characters are named behind the caret, and no surrogate. The class that is left passes, and
no character matches it. -/
theorem parse_all_characters :
    parse (String.ofList ['[', '^', '\\', '0', '-', '\uD7FF', '\uE000', '-', Char.ofNat 0x10FFFF,
      ']']) = .ok (.oneOf .surrogates) ∧ ¬ CharClass.surrogates.Matchable := by
  refine ⟨?_, CharClass.not_matchable_surrogates⟩
  have hbody : ClassBody ['\\', '0', '-', '\uD7FF', '\uE000', '-', Char.ofNat 0x10FFFF]
      [.range (Char.ofNat 0) '\uD7FF', .range '\uE000' (Char.ofNat 0x10FFFF)] :=
    .range (.escaped '0') (.plain (by decide)) (by decide)
      (.range (.plain (by decide)) (.plain (by decide)) (by decide) .nil)
  have hclass : ClassText ('^' :: ['\\', '0', '-', '\uD7FF', '\uE000', '-', Char.ofNat 0x10FFFF])
      .surrogates := by
    refine .negated hbody (by decide) (fun cp => ?_) ⟨0xD800, by decide⟩
    rw [CharClass.contains_surrogates, exists_has_cons, exists_has_cons]
    simp only [ClassPart.Has, List.not_mem_nil, false_and, exists_false, or_false,
      UInt32.le_iff_toNat_le, IsSurrogate]
    have hends : (Char.ofNat 0).val.toNat = 0 ∧ '\uD7FF'.val.toNat = 0xD7FF ∧
        '\uE000'.val.toNat = 0xE000 ∧ (Char.ofNat 0x10FFFF).val.toNat = 0x10FFFF ∧
          maxChar.toNat = 0x10FFFF := by decide
    omega
  rw [parse, String.toList_ofList]
  exact parseChars_of_repeated (.atom (.oneOf hclass))

end MaximalMunch.Regex
