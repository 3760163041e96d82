import MaximalMunch.Proofs.Definition.Master
import MaximalMunch.Proofs.Regex.Splicing

/-!
# References and what they stand for

A reference to a name that has been declared once stands for the pattern of that declaration, as
long as the names in the pattern have not grown since (`language_of_declared_once`). So it may be
replaced by the pattern in parentheses: declarations succeed as before, and the definitions that
they lead to report the same tokens for all texts (`reference_inlines`).

That two definitions differ in nothing that can be observed of their tokens is `Definition.Alike`.
It holds if the tokens have the same headings and their names the same languages
(`Builder.Represents.alike`), and further calls keep it so (`Builder.SameNames.calls`). So patterns
with the same language and the same unknown names can be exchanged (`Builder.alike_of_exchange`).
-/

namespace MaximalMunch

/-! ## Definitions that cannot be told apart -/

/-- What is known of a token beside what it matches. -/
def TokenAutomaton.heading (t : TokenAutomaton) : Option String × Bool := (t.name, t.internal)

/-- The tokens have the same heading, and on their own they accept the same texts. -/
structure TokenAutomaton.Alike (t t' : TokenAutomaton) : Prop where
  heading : t.heading = t'.heading
  accepts : ∀ text, t.toDfa.accepts text = t'.toDfa.accepts text

/-- The tokens of the definitions are alike one by one, and the master automata report the same
names for all texts. -/
structure Definition.Alike (d d' : Definition) : Prop where
  tokens : List.Forall₂ TokenAutomaton.Alike d.tokens.toList d'.tokens.toList
  master : ∀ text, d.master.accepts text = d'.master.accepts text

/-- A definition cannot be told apart from itself. -/
theorem Definition.Alike.refl (d : Definition) : d.Alike d where
  tokens := List.forall₂_same.2 fun _ _ => ⟨rfl, fun _ => rfl⟩
  master _ := rfl

namespace TokenAutomaton

variable {t t' : TokenAutomaton} {L : Language UInt32}

/-- On its own a token reports its name or nothing. -/
theorem eq_name_of_accepts {text name : String} (h : t.toDfa.accepts text = some name) :
    name = t.name.getD "" := by
  rw [Dfa.accepts_eq] at h
  obtain ⟨q, -, h⟩ := Option.bind_eq_some_iff.1 h
  rw [Dfa.accepting] at h
  obtain ⟨s, hs, h⟩ := Option.bind_eq_some_iff.1 h
  obtain ⟨i, -, h⟩ := Option.bind_eq_some_iff.1 h
  rw [toDfa, Nfa.Graph.tokenNames_determinize] at h
  simpa using Array.mem_of_getElem? h

/-- Tokens with the same name and the same language accept the same texts. -/
theorem accepts_toDfa_congr (h : t.graph.Spells L) (h' : t'.graph.Spells L)
    (hname : t.name = t'.name) (text : String) :
    t.toDfa.accepts text = t'.toDfa.accepts text := by
  have hiff : (t.toDfa.accepts text).isSome = true ↔ (t'.toDfa.accepts text).isSome = true :=
    (isSome_accepts_toDfa h text).trans (isSome_accepts_toDfa h' text).symm
  cases haccepts : t.toDfa.accepts text with
  | none =>
    rw [haccepts] at hiff
    exact (Option.not_isSome_iff_eq_none.1 fun hsome => absurd (hiff.2 hsome) (by simp)).symm
  | some name =>
    rw [haccepts] at hiff
    obtain ⟨name', haccepts'⟩ := Option.isSome_iff_exists.1 (hiff.1 rfl)
    rw [haccepts', eq_name_of_accepts haccepts, eq_name_of_accepts haccepts', hname]

end TokenAutomaton

namespace Builder

variable {b b' c c' : Builder} {ds ds' : List Declaration}

/-- The headings of the tokens declared so far. -/
def headings (b : Builder) : List (Option String × Bool) :=
  b.tokens.toList.map TokenAutomaton.heading

/-- Lists that correspond and are filtered alike keep the same names in the same order. -/
theorem map_name_filter_congr {p p' : TokenAutomaton → Bool} {ts ts' : List TokenAutomaton}
    (h : List.Forall₂ (fun t t' => t.name = t'.name ∧ p t = p' t') ts ts') :
    (ts.filter p).map (·.name) = (ts'.filter p').map (·.name) := by
  induction h with
  | nil => rfl
  | @cons t t' ts ts' ht _ ih =>
    obtain ⟨hname, hp⟩ := ht
    rw [List.filter_cons, List.filter_cons, hp]
    split
    · rw [List.map_cons, List.map_cons, hname, ih]
    · exact ih

/-- Tokens of builders with the same headings and languages correspond. -/
theorem Represents.forall₂_tokens (R : b.Represents ds) (R' : b'.Represents ds')
    (hheadings : b.headings = b'.headings) (hlanguages : languagesOf ds = languagesOf ds') :
    List.Forall₂ TokenAutomaton.Alike b.tokens.toList b'.tokens.toList := by
  rw [List.forall₂_iff_get]
  refine ⟨by simpa [headings] using congrArg List.length hheadings, fun i hi hi' => ?_⟩
  have ht : b.tokens[i]? = some (b.tokens.toList.get ⟨i, hi⟩) := Array.getElem?_eq_getElem hi
  have ht' : b'.tokens[i]? = some (b'.tokens.toList.get ⟨i, hi'⟩) := Array.getElem?_eq_getElem hi'
  generalize b.tokens.toList.get ⟨i, hi⟩ = t at ht
  generalize b'.tokens.toList.get ⟨i, hi'⟩ = t' at ht'
  have hheading : t.heading = t'.heading := by
    simpa [headings, ht, ht'] using congrArg (·[i]?) hheadings
  obtain ⟨hname, -⟩ := Prod.mk.inj hheading
  obtain ⟨name, htname, hspells⟩ := R.token i t ht
  obtain ⟨name', htname', hspells'⟩ := R'.token i t' ht'
  obtain rfl : name = name' := Option.some.inj (htname.symm.trans (hname.trans htname'))
  rw [hlanguages] at hspells
  exact ⟨hheading, TokenAutomaton.accepts_toDfa_congr hspells.graph hspells'.graph hname⟩

/-- Builders with the same headings and languages lead to definitions that cannot be told apart. -/
theorem Represents.alike (R : b.Represents ds) (R' : b'.Represents ds')
    (hheadings : b.headings = b'.headings) (hlanguages : languagesOf ds = languagesOf ds') :
    b.finish.Alike b'.finish := by
  have hall := R.forall₂_tokens R' hheadings hlanguages
  refine ⟨hall, fun text => ?_⟩
  -- the tokens that match a text correspond, so the first of them have the same name
  have hmatching : (b.finish.matching text).map (·.name) =
      (b'.finish.matching text).map (·.name) := by
    refine map_name_filter_congr (hall.imp fun t t' h => ?_)
    obtain ⟨hname, hinternal⟩ := Prod.mk.inj h.heading
    exact ⟨hname, by rw [hinternal, h.accepts text]⟩
  have hhead : (b.finish.matching text).head?.map (·.name) =
      (b'.finish.matching text).head?.map (·.name) := by
    rw [← List.head?_map, hmatching, List.head?_map]
  rw [R.accepts_master, R'.accepts_master]
  simpa [Option.bind_map] using congrArg (·.bind id) hhead

/-! ## Calls on builders with the same headings -/

/-- The builders have tokens with the same headings, and the same map of names. -/
structure SameNames (b c : Builder) : Prop where
  headings : b.headings = c.headings
  byName : b.byName = c.byName

namespace SameNames

theorem symm (N : b.SameNames c) : c.SameNames b := ⟨N.headings.symm, N.byName.symm⟩

/-- They have as many tokens. -/
theorem size_eq (N : b.SameNames c) : b.tokens.size = c.tokens.size := by
  simpa [Builder.headings] using congrArg List.length N.headings

/-- Names can be resolved in both of them or in none. -/
theorem isSome_resolve (N : b.SameNames c) (name : String) :
    (b.resolve name).isSome = (c.resolve name).isSome := by
  rw [resolve, resolve, N.byName]
  cases c.byName.lookup name with
  | none => rfl
  | some i =>
    rw [Option.bind_some, Option.bind_some, Option.isSome_map, Option.isSome_map]
    by_cases hi : i < c.tokens.size
    · rw [Array.getElem?_eq_getElem hi, Array.getElem?_eq_getElem (N.size_eq ▸ hi)]
      rfl
    · rw [Array.getElem?_eq_none (Nat.le_of_not_lt hi),
        Array.getElem?_eq_none (N.size_eq ▸ Nat.le_of_not_lt hi)]

end SameNames

/-- The headings after a declaration: a new name comes behind the others. -/
theorem Declares.headings_eq {name : String} {internal : Bool} {r : Regex}
    (D : b.Declares name internal r b') :
    b'.headings = b.headings ++
      if (b.byName.lookup name).isSome then [] else [(some name, internal)] := by
  rw [headings, D.tokens, tokensAfter]
  cases b.byName.lookup name with
  | none =>
    dsimp only
    rw [Array.toList_push, List.map_append]
    rfl
  | some i =>
    -- an extended token keeps its heading
    dsimp only
    rw [Option.isSome_some, if_pos rfl, List.append_nil]
    apply List.ext_getElem?
    intro j
    rw [headings, List.getElem?_map, List.getElem?_map, Array.getElem?_toList,
      Array.getElem?_toList, Array.getElem?_modify]
    split
    · rw [Option.map_map]
      rfl
    · rfl

/-- Declarations for the same name keep the names the same, whatever the patterns are. -/
theorem SameNames.declares (N : b.SameNames c) {name : String} {internal : Bool} {r r' : Regex}
    (D : b.Declares name internal r b') (D' : c.Declares name internal r' c') :
    b'.SameNames c' where
  headings := by rw [D.headings_eq, D'.headings_eq, N.headings, N.byName]
  byName := by rw [D.byName, D'.byName, byNameAfter, byNameAfter, N.byName, N.size_eq]

/-- A declaration succeeds on a builder if it does on another one with the same names. -/
theorem SameNames.exists_declare (N : b.SameNames c) {name pattern : String}
    {internal : Bool} {line : Nat} (h : b.declare name pattern internal line = .ok b') :
    ∃ c', c.declare name pattern internal line = .ok c' ∧ b'.SameNames c' := by
  obtain ⟨r, hparse, D⟩ := declares_of_declare h
  obtain ⟨c', hc⟩ : ∃ c', c.declare name pattern internal line = .ok c' :=
    exists_declare_eq_ok hparse fun n hn => N.isSome_resolve n ▸ D.resolves n hn
  obtain ⟨r', -, D'⟩ := declares_of_declare hc
  exact ⟨c', hc, N.declares D D'⟩

/-- What a call does is the same for all builders: it makes a declaration, or it does nothing, or it
fails. -/
theorem perform_uniform (call : Call) :
    (∃ d line, call.declaration? = some d ∧
      ∀ b : Builder, b.perform call = b.declare d.name d.pattern d.internal line) ∨
    (call.declaration? = none ∧ ∀ b : Builder, b.perform call = .ok b) ∨
    ∃ e, ∀ b : Builder, b.perform call = .error e := by
  cases call with
  | declare name pattern internal line => exact Or.inl ⟨_, line, rfl, fun b => rfl⟩
  | line text number =>
    simp only [perform, line, Call.declaration?]
    cases Declaration.ofLine? text number with
    | error e => exact Or.inr (Or.inr ⟨e, fun b => rfl⟩)
    | ok d? =>
      cases d? with
      | none => exact Or.inr (Or.inl ⟨rfl, fun b => rfl⟩)
      | some d => exact Or.inl ⟨d, number, rfl, fun b => rfl⟩

/-- A call succeeds on a builder if it does on another one with the same names. -/
theorem SameNames.exists_perform (N : b.SameNames c) {call : Call}
    (h : b.perform call = .ok b') : ∃ c', c.perform call = .ok c' ∧ b'.SameNames c' := by
  rcases perform_uniform call with ⟨d, line, -, hcall⟩ | ⟨-, hcall⟩ | ⟨e, hcall⟩
  · rw [hcall] at h ⊢
    exact N.exists_declare h
  · rw [hcall] at h
    obtain rfl := Except.ok.inj h
    exact ⟨c, hcall c, N⟩
  · rw [hcall] at h
    exact absurd h (by simp)

/-- The same calls succeed on builders with the same names, and the names stay the same. -/
theorem SameNames.calls (calls : List Call) : ∀ {b c : Builder}, b.SameNames c →
    b.declared calls = c.declared calls ∧
      (calls.foldl attempt b).SameNames (calls.foldl attempt c) := by
  induction calls with
  | nil => intro b c N; exact ⟨rfl, N⟩
  | cons call rest ih =>
    intro b c N
    rw [declared, declared, List.foldl_cons, List.foldl_cons, attempt, attempt]
    cases hb : b.perform call with
    | ok b' =>
      obtain ⟨c', hc, N'⟩ := N.exists_perform hb
      obtain ⟨hdeclared, hrest⟩ := ih N'
      rw [hc]
      exact ⟨congrArg _ hdeclared, hrest⟩
    | error e =>
      cases hc : c.perform call with
      | error e' => exact ih N
      | ok c' =>
        obtain ⟨b', hb', -⟩ := N.symm.exists_perform hc
        exact absurd (hb.symm.trans hb') (by simp)

/-- Further calls make further declarations. -/
theorem declared_append (calls more : List Call) : ∀ b : Builder,
    b.declared (calls ++ more) = b.declared calls ++ (calls.foldl attempt b).declared more := by
  induction calls with
  | nil => intro b; rfl
  | cons call rest ih =>
    intro b
    rw [List.cons_append, declared, declared, List.foldl_cons, attempt]
    cases b.perform call with
    | ok b' =>
      show _ ++ b'.declared (rest ++ more) = _
      rw [ih, List.append_assoc]
    | error e => exact ih b

/-- A pattern that has been declared has a tree, and it refers to names declared before it. -/
theorem exists_parse_of_declared {calls : List Call} {d : Declaration}
    {earlier later : List Declaration} (h : empty.declared calls = earlier ++ d :: later) :
    ∃ r, Regex.parse d.pattern = .ok r ∧ ∀ n ∈ r.references, n ∈ earlier.map (·.name) := by
  have hall := after_induction (P := fun b ds => b.Represents ds ∧
      ∀ earlier d later, ds = earlier ++ d :: later →
        ∃ r, Regex.parse d.pattern = .ok r ∧ ∀ n ∈ r.references, n ∈ earlier.map (·.name))
    ⟨.start, fun earlier d later hnil => absurd hnil (by simp)⟩ ?_ calls
  · exact hall.2 earlier d later h
  intro b ds d' line b' hb hdeclare
  refine ⟨hb.1.declare hdeclare, fun earlier d later heq => ?_⟩
  rcases later.eq_nil_or_concat' with rfl | ⟨later, last, rfl⟩
  · -- the last declaration knows the names of the builder before it
    obtain ⟨rfl, hlast⟩ := List.append_inj' heq rfl
    obtain rfl := List.singleton_inj.1 hlast
    obtain ⟨r, hparse, D⟩ := declares_of_declare hdeclare
    exact ⟨r, hparse, fun n hn => hb.1.isSome_resolve_iff.1 (D.resolves n hn)⟩
  · rw [← List.cons_append, ← List.append_assoc] at heq
    obtain ⟨rfl, -⟩ := List.append_inj' heq rfl
    exact hb.2 earlier d later rfl

/-- A declaration whose pattern has a tree fails at the first name that is unknown, or it
succeeds. -/
theorem declare_eq_error_iff {name pattern : String} {internal : Bool} {line : Nat} {r : Regex}
    (hparse : Regex.parse pattern = .ok r) {e : Definition.Error} :
    b.declare name pattern internal line = .error e ↔
      ∃ n, r.references.find? (fun n => (b.resolve n).isNone) = some n ∧
        e = ⟨line, .unresolvedReference n⟩ := by
  cases hfind : r.references.find? fun n => (b.resolve n).isNone with
  | some n =>
    -- the call stops at `n`, before it draws an id
    rw [declare, TokenAutomaton.ofPattern, Regex.compile, hparse]
    dsimp only
    rw [hfind]
    constructor
    · intro h
      exact ⟨n, rfl, (Except.error.inj h).symm⟩
    · rintro ⟨n', hn', rfl⟩
      rw [Option.some.inj hn']
      rfl
  | none =>
    obtain ⟨b', hb⟩ : ∃ b', b.declare name pattern internal line = .ok b' := by
      refine exists_declare_eq_ok hparse fun n hn => ?_
      rw [Option.isSome_iff_ne_none, ne_eq, ← Option.isNone_iff_eq_none]
      exact List.find?_eq_none.1 hfind n hn
    rw [hb]
    simp

end Builder

/-! ## Languages of names declared once -/

/-- Declarations for other names leave a language as it is. -/
theorem languagesOf_append_of_notMem (ds : List Declaration) {later : List Declaration}
    {name : String} (h : name ∉ later.map (·.name)) :
    languagesOf (ds ++ later) name = languagesOf ds name := by
  induction later using List.reverseRecOn with
  | nil => rw [List.append_nil]
  | append_singleton later d ih =>
    rw [List.map_append, List.mem_append, not_or] at h
    rw [← List.append_assoc, languagesOf_append_of_ne _ (List.ne_of_not_mem_cons h.2), ih h.1]

/-- A name that has been declared once has the language of its pattern, if the names in the pattern
were declared before it and have not been declared again since. -/
theorem language_of_declared_once {earlier later : List Declaration} {d : Declaration} {r : Regex}
    (hparse : Regex.parse d.pattern = .ok r) (honce : d.name ∉ (earlier ++ later).map (·.name))
    (hknown : ∀ n ∈ r.references, n ∈ earlier.map (·.name))
    (hsince : ∀ n ∈ r.references, n ∉ later.map (·.name)) :
    languagesOf (earlier ++ d :: later) d.name =
      r.language (languagesOf (earlier ++ d :: later)) := by
  rw [List.map_append, List.mem_append, not_or] at honce
  have hcut : earlier ++ d :: later = (earlier ++ [d]) ++ later := by simp
  have hsame : ∀ n ∈ r.references,
      languagesOf (earlier ++ d :: later) n = languagesOf earlier n := by
    intro n hn
    have hne : n ≠ d.name := fun heq => honce.1 (heq ▸ hknown n hn)
    rw [hcut, languagesOf_append_of_notMem _ (hsince n hn), languagesOf_append_of_ne _ hne]
  rw [Regex.language_congr r hsame, hcut, languagesOf_append_of_notMem _ honce.2,
    languagesOf_append_self _ hparse, languagesOf_eq_zero honce.1, zero_add]

/-- Declarations of patterns with the same language lead to the same languages. -/
theorem languagesOf_congr_declaration (ds more : List Declaration) {d d' : Declaration}
    (hname : d.name = d'.name)
    (hlanguage : d.language (languagesOf ds) = d'.language (languagesOf ds)) :
    languagesOf (ds ++ d :: more) = languagesOf (ds ++ d' :: more) := by
  have hfold : ∀ e : Declaration, languagesOf (ds ++ e :: more) =
      more.foldl Declaration.extend (e.extend (languagesOf ds)) := by
    intro e
    rw [languagesOf, List.foldl_append, List.foldl_cons, languagesOf]
  rw [hfold, hfold, Declaration.extend, Declaration.extend, hname, hlanguage]

/-! ## Patterns in the place of each other -/

namespace Builder

variable {calls : List Call} {r r' : Regex} {name pattern pattern' : String} {internal : Bool}
  {line : Nat}

/-- Patterns with the same first unknown name can be declared alike. -/
theorem declare_eq_error_congr {b : Builder} (hparse : Regex.parse pattern = .ok r)
    (hparse' : Regex.parse pattern' = .ok r')
    (hunknown : r.references.find? (fun n => (b.resolve n).isNone) =
      r'.references.find? fun n => (b.resolve n).isNone) (e : Definition.Error) :
    b.declare name pattern internal line = .error e ↔
      b.declare name pattern' internal line = .error e := by
  rw [declare_eq_error_iff hparse, declare_eq_error_iff hparse', hunknown]

/-- If they have the same language too, then nothing can be told apart after any further calls. -/
theorem alike_of_exchange (hparse : Regex.parse pattern = .ok r)
    (hparse' : Regex.parse pattern' = .ok r')
    (hunknown : r.references.find? (fun n => ((after calls).resolve n).isNone) =
      r'.references.find? fun n => ((after calls).resolve n).isNone)
    (hlanguage : r.language (languagesOf (empty.declared calls)) =
      r'.language (languagesOf (empty.declared calls))) (more : List Call) :
    (after (calls ++ .declare name pattern internal line :: more)).finish.Alike
      (after (calls ++ .declare name pattern' internal line :: more)).finish := by
  -- the builder and the declarations after the calls, for the one pattern and the other
  have hafter : ∀ p, after (calls ++ .declare name p internal line :: more) =
      more.foldl attempt ((after calls).attempt (.declare name p internal line)) := by
    intro p
    rw [after, List.foldl_append, List.foldl_cons, after]
  have hdeclared : ∀ {p b}, (after calls).declare name p internal line = .ok b →
      empty.declared (calls ++ .declare name p internal line :: more) =
        empty.declared calls ++ ⟨name, p, internal⟩ :: b.declared more := by
    intro p b h
    rw [declared_append, declared, perform, ← after, h]
    rfl
  have herror : ∀ e, (after calls).declare name pattern internal line = .error e ↔
      (after calls).declare name pattern' internal line = .error e :=
    declare_eq_error_congr hparse hparse' hunknown
  cases hdeclare : (after calls).declare name pattern internal line with
  | error e =>
    rw [hafter, hafter, attempt, attempt, perform, perform, hdeclare, (herror e).1 hdeclare]
    exact .refl _
  | ok b =>
    cases hdeclare' : (after calls).declare name pattern' internal line with
    | error e => exact absurd (hdeclare.symm.trans ((herror e).2 hdeclare')) (by simp)
    | ok b' =>
      obtain ⟨_, -, D⟩ := declares_of_declare hdeclare
      obtain ⟨_, -, D'⟩ := declares_of_declare hdeclare'
      obtain ⟨hsame, hrest⟩ := SameNames.calls more (SameNames.declares ⟨rfl, rfl⟩ D D')
      refine (represents_after _).alike (represents_after _) ?_ ?_
      · rw [hafter, hafter, attempt, attempt, perform, perform, hdeclare, hdeclare']
        exact hrest.headings
      · rw [hdeclared hdeclare, hdeclared hdeclare', hsame]
        refine languagesOf_congr_declaration _ _ rfl ?_
        rwa [Declaration.language, Declaration.language, hparse, hparse']

end Builder

/-- A reference to a name that has been declared once, by a pattern with names that have not been
declared again since, behaves like this pattern in parentheses. With the one in the place of the
other a text has the same tree but for that place, it can be declared alike, and it leads to tokens
that accept the same texts, on their own and in the master automaton. -/
theorem reference_inlines {calls : List Builder.Call} {earlier later : List Declaration}
    {d : Declaration} (hdeclared : Builder.empty.declared calls = earlier ++ d :: later)
    (honce : d.name ∉ (earlier ++ later).map (·.name))
    (hsince : ∀ inner, Regex.parse d.pattern = .ok inner →
      ∀ n ∈ inner.references, n ∉ later.map (·.name))
    {left right : String} {r : Regex} (hopens : Regex.OpensReference left.toList)
    (hword : Text.isWord d.name.toList = true)
    (hparse : Regex.parse (left ++ Regex.referenceText d.name ++ right) = .ok r) :
    ∃ inner frame, Regex.parse d.pattern = .ok inner ∧
      Regex.Frame left.toList right.toList frame ∧
      r = frame.fill (.reference d.name) ∧
      Regex.parse (left ++ Regex.groupText d.pattern ++ right) = .ok (frame.fill (.group inner)) ∧
      ∀ name internal line,
        (∀ e, (Builder.after calls).declare name (left ++ Regex.referenceText d.name ++ right)
            internal line = .error e ↔
          (Builder.after calls).declare name (left ++ Regex.groupText d.pattern ++ right)
            internal line = .error e) ∧
        ∀ more, Definition.Alike
          (Builder.after (calls ++ .declare name (left ++ Regex.referenceText d.name ++ right)
            internal line :: more)).finish
          (Builder.after (calls ++ .declare name (left ++ Regex.groupText d.pattern ++ right)
            internal line :: more)).finish := by
  obtain ⟨inner, hinner, hearlier⟩ := Builder.exists_parse_of_declared hdeclared
  have hreference := Regex.atom_referenceText hword
  obtain ⟨frame, F⟩ : ∃ frame, Regex.Frame left.toList right.toList frame := by
    rw [Regex.parse, String.toList_append, String.toList_append] at hparse
    exact Regex.exists_frame hopens hreference hparse
  have hparse' := F.parse_eq_ok (Regex.atom_groupText hinner)
  obtain rfl : r = frame.fill (.reference d.name) :=
    Except.ok.inj (hparse.symm.trans (F.parse_eq_ok hreference))
  -- the name and the names in its pattern are known
  have hknown : ∀ n ∈ (Builder.empty.declared calls).map (·.name),
      ¬((Builder.after calls).resolve n).isNone = true := by
    intro n hn
    rw [Option.isNone_iff_eq_none, ← ne_eq, ← Option.isSome_iff_ne_none,
      (Builder.represents_after calls).isSome_resolve_iff]
    exact hn
  have hunknown : (frame.fill (.reference d.name)).references.find?
        (fun n => ((Builder.after calls).resolve n).isNone) =
      (frame.fill (.group inner)).references.find?
        fun n => ((Builder.after calls).resolve n).isNone := by
    refine Regex.find?_references_fill_congr ?_ ?_ frame
    · intro n hn
      rw [Regex.references, List.mem_singleton] at hn
      refine hknown n ?_
      rw [hdeclared, hn]
      simp
    · intro n hn
      rw [Regex.references] at hn
      refine hknown n ?_
      rw [hdeclared, List.map_append]
      exact List.mem_append_left _ (hearlier n hn)
  have hlanguage : (frame.fill (.reference d.name)).language
        (languagesOf (Builder.empty.declared calls)) =
      (frame.fill (.group inner)).language (languagesOf (Builder.empty.declared calls)) := by
    refine Regex.language_fill_congr ?_ frame
    rw [Regex.language, Regex.language, hdeclared]
    exact language_of_declared_once hinner honce hearlier (hsince inner hinner)
  exact ⟨inner, frame, hinner, F, rfl, hparse', fun name internal line =>
    ⟨Builder.declare_eq_error_congr hparse hparse' hunknown,
      Builder.alike_of_exchange hparse hparse' hunknown hlanguage⟩⟩

/-- A reference in a group that is repeated, to a name whose pattern has a reference of its own. -/
theorem reference_inlines_repeated :
    let calls : List Builder.Call :=
      [.declare "d" "[0-9]" true 1, .declare "x" "{d}|b" true 2, .declare "y" "z" false 3]
    Regex.parse ("(" ++ Regex.groupText "{d}|b" ++ "c)*") =
        .ok (.repeated .zeroOrMore (.group (.concat
          [.group (.alternate [.reference "d", .literal 'b']), .literal 'c']))) ∧
      ∀ more : List Builder.Call, Definition.Alike
        (Builder.after (calls ++
          .declare "y" ("(" ++ Regex.referenceText "x" ++ "c)*") false 4 :: more)).finish
        (Builder.after (calls ++
          .declare "y" ("(" ++ Regex.groupText "{d}|b" ++ "c)*") false 4 :: more)).finish := by
  intro calls
  have hdeclared : Builder.empty.declared calls =
      [⟨"d", "[0-9]", true⟩] ++ ⟨"x", "{d}|b", true⟩ :: [⟨"y", "z", false⟩] := by
    simp only [calls, Builder.declared, Builder.perform, Builder.declare, TokenAutomaton.ofPattern,
      Regex.compile, Regex.parse_digits]
    rfl
  -- `y` is declared since `x`, and the pattern of `x` does not name it
  have hsince : ∀ inner, Regex.parse "{d}|b" = .ok inner →
      ∀ n ∈ inner.references, n ∉ [(⟨"y", "z", false⟩ : Declaration)].map (·.name) := by
    intro inner hinner
    obtain rfl : .alternate [.reference "d", .literal 'b'] = inner := Except.ok.inj hinner
    decide
  have hopens : Regex.OpensReference "(".toList := ⟨⟨1, [(0, .start)], .start, .atom⟩, rfl, rfl⟩
  have hparse : Regex.parse ("(" ++ Regex.referenceText "x" ++ "c)*") = .ok (.repeated .zeroOrMore
      (.group (.concat [.reference "x", .literal 'c']))) := by rfl
  obtain ⟨inner, frame, -, -, -, -, h⟩ := reference_inlines hdeclared (by decide) hsince hopens
    (by decide) hparse
  exact ⟨by rfl, (h "y" false 4).2⟩

end MaximalMunch
