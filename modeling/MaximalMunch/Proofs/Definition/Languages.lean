import Mathlib.Logic.Function.Basic
import MaximalMunch.Proofs.Definition.Calls
import MaximalMunch.Proofs.Definition.TokenAutomaton

/-!
# Languages of tokens

The declarations of a definition give each name a language, `languagesOf`: a declaration adds the
language of its pattern to that of its name, and a reference in the pattern stands for the language
that the name has at that moment. Tokens are graphs that grow along the same declarations. The
invariant `Builder.Represents` ties the two: each token spells the language of its name. It says
which declarations succeed after any calls (`Builder.exists_declare_iff`), and what each token then
accepts on its own (`exists_token_accepts_iff`).
-/

namespace MaximalMunch

open Nfa (Graph)
open Nfa.Graph (Spells Owned)

/-! ## Languages of names -/

/-- The language of the pattern, given the languages of the names. -/
def Declaration.language (d : Declaration) (env : String → Language UInt32) : Language UInt32 :=
  match Regex.parse d.pattern with
  | .ok r => r.language env
  | .error _ => 0

/-- The languages after a declaration. -/
def Declaration.extend (env : String → Language UInt32) (d : Declaration) :
    String → Language UInt32 :=
  Function.update env d.name (env d.name + d.language env)

/-- The languages after some declarations, the first of them with no words for any name. -/
def languagesOf (ds : List Declaration) : String → Language UInt32 :=
  ds.foldl Declaration.extend fun _ => 0

/-- A further declaration extends the languages. -/
theorem languagesOf_append_singleton (ds : List Declaration) (d : Declaration) :
    languagesOf (ds ++ [d]) = d.extend (languagesOf ds) := by
  rw [languagesOf, List.foldl_append]
  rfl

/-- The language of the name after a declaration. -/
theorem languagesOf_append_self (ds : List Declaration) {d : Declaration} {r : Regex}
    (hr : Regex.parse d.pattern = .ok r) :
    languagesOf (ds ++ [d]) d.name = languagesOf ds d.name + r.language (languagesOf ds) := by
  rw [languagesOf_append_singleton, Declaration.extend, Function.update_self, Declaration.language,
    hr]

/-- Other names keep their languages. -/
theorem languagesOf_append_of_ne (ds : List Declaration) {d : Declaration} {name : String}
    (hne : name ≠ d.name) : languagesOf (ds ++ [d]) name = languagesOf ds name := by
  rw [languagesOf_append_singleton, Declaration.extend, Function.update_of_ne hne]

/-- A name that is not declared has no words. -/
theorem languagesOf_eq_zero {ds : List Declaration} {name : String}
    (hname : name ∉ ds.map (·.name)) : languagesOf ds name = 0 := by
  induction ds using List.reverseRecOn with
  | nil => rfl
  | append_singleton ds d ih =>
    rw [List.map_append, List.mem_append, not_or] at hname
    rw [languagesOf_append_of_ne ds (List.ne_of_not_mem_cons hname.2)]
    exact ih hname.1

/-! ## Names in the order of their first declarations -/

/-- A new name comes behind the others. -/
theorem eraseDups_append_of_notMem {ds : List Declaration} {d : Declaration}
    (h : d.name ∉ ds.map (·.name)) :
    ((ds ++ [d]).map (·.name)).eraseDups = (ds.map (·.name)).eraseDups ++ [d.name] := by
  have hkept : [d.name].removeAll (ds.map (·.name)) = [d.name] := by
    rw [List.removeAll, List.filter_eq_self, List.forall_mem_singleton, List.elem_eq_contains]
    simpa using h
  rw [List.map_append, List.map_singleton, List.eraseDups_append, hkept]
  rfl

/-- A name that has been declared keeps its place. -/
theorem eraseDups_append_of_mem {ds : List Declaration} {d : Declaration}
    (h : d.name ∈ ds.map (·.name)) :
    ((ds ++ [d]).map (·.name)).eraseDups = (ds.map (·.name)).eraseDups := by
  have hdropped : [d.name].removeAll (ds.map (·.name)) = [] := by
    rw [List.removeAll, List.filter_eq_nil_iff, List.forall_mem_singleton, List.elem_eq_contains]
    simpa using h
  rw [List.map_append, List.map_singleton, List.eraseDups_append, hdropped]
  exact List.append_nil _

/-! ## Tokens that spell the languages of their names -/

/-- The token at index `i` that has a name with language `L`. -/
structure TokenAutomaton.Spells (t : TokenAutomaton) (i : Nat) (L : Language UInt32) : Prop where
  index_eq : t.index = i
  graph : t.graph.Spells L
  owned : t.graph.Owned [i]
  unicode : t.graph.Unicode

/-- The tokens of the builder are those of the names declared so far, in the order in which these
came first, and each of them spells the language of its name. The map of names holds these names and
is in step with the tokens. -/
structure Builder.Represents (b : Builder) (ds : List Declaration) : Prop where
  names : b.tokens.toList.map (·.name) = (ds.map (·.name)).eraseDups.map some
  token : ∀ (i : Nat) t, b.tokens[i]? = some t → ∃ name, t.name = some name ∧
    t.Spells i (languagesOf ds name)
  inStep : b.InStep
  known : ∀ name, (b.byName.lookup name).isSome = true ↔ name ∈ ds.map (·.name)

namespace Builder.Represents

variable {b b' : Builder} {ds : List Declaration} {d : Declaration} {r : Regex}

/-- The builder without tokens represents no declarations. -/
theorem start : Builder.empty.Represents [] where
  names := rfl
  token i t h := by simp [Builder.empty] at h
  inStep := .start
  known name := by simp [Builder.empty, NameMap.empty, NameMap.lookup]

/-- A reference can be resolved if its name has been declared. -/
theorem isSome_resolve_iff (R : b.Represents ds) {name : String} :
    (b.resolve name).isSome = true ↔ name ∈ ds.map (·.name) := by
  rw [R.inStep.isSome_resolve, R.known]

/-- The token with a known name spells the language of the name. -/
theorem spells_of_lookup (R : b.Represents ds) {name : String} {i : Nat}
    (h : b.byName.lookup name = some i) :
    ∃ t, b.tokens[i]? = some t ∧ t.name = some name ∧ t.Spells i (languagesOf ds name) := by
  obtain ⟨t, ht, hname⟩ := R.inStep.exists_token h
  obtain ⟨name', hname', hspells⟩ := R.token i t ht
  obtain rfl := Option.some.inj (hname.symm.trans hname')
  exact ⟨t, ht, hname, hspells⟩

/-- References that can be resolved spell the languages of their names. -/
theorem spells_resolve (R : b.Represents ds) {name : String}
    (h : (b.resolve name).isSome = true) :
    ((b.resolve name).getD .empty).Spells (languagesOf ds name) ∧
      ((b.resolve name).getD .empty).Unicode := by
  obtain ⟨g, hg⟩ := Option.isSome_iff_exists.1 h
  obtain ⟨i, t, hi, ht, rfl⟩ := exists_of_resolve hg
  obtain ⟨t', ht', -, hspells⟩ := R.spells_of_lookup hi
  obtain rfl := Option.some.inj (ht.symm.trans ht')
  rw [hg]
  exact ⟨hspells.graph, hspells.unicode⟩

/-- The graph of a pattern makes a token for the language of the pattern. -/
theorem spells_fragmentOf (R : b.Represents ds) {pattern : String}
    (hparse : Regex.parse pattern = .ok r)
    (hnames : ∀ n ∈ r.references, (b.resolve n).isSome = true)
    (name : Option String) (i : Nat) (internal : Bool) :
    TokenAutomaton.Spells ⟨name, i, internal, (b.fragmentOf r).acceptAtExit [i]⟩ i
      (r.language (languagesOf ds)) := by
  have hwell := Regex.wellFormed_of_parse hparse
  have hspells : (b.fragmentOf r).Spells (r.language (languagesOf ds)) :=
    Regex.spells_fragment r b.issued hwell fun n hn => (R.spells_resolve (hnames n hn)).1
  have hunicode : (b.fragmentOf r).Unicode :=
    Regex.unicode_fragment hwell b.issued fun n hn => (R.spells_resolve (hnames n hn)).2
  exact ⟨rfl, hspells.acceptAtExit [i], (Regex.quiet_fragment hwell b.issued).acceptAtExit [i],
    hunicode.acceptAtExit [i]⟩

/-- A declaration leaves the other names alone. -/
theorem spells_append_of_ne {name : String} {i : Nat} {t : TokenAutomaton} (hne : name ≠ d.name)
    (h : t.Spells i (languagesOf ds name)) : t.Spells i (languagesOf (ds ++ [d]) name) := by
  rwa [languagesOf_append_of_ne ds hne]

/-- A token is added for a new name. -/
theorem addToken (R : b.Represents ds) (hindex : b.byName.lookup d.name = none)
    (hparse : Regex.parse d.pattern = .ok r) (D : b.Declares d.name d.internal r b') :
    b'.Represents (ds ++ [d]) := by
  have hspells := R.spells_fragmentOf hparse D.resolves d.name b.tokens.size d.internal
  have htokens := D.tokens
  rw [tokensAfter, hindex] at htokens
  have hunknown : d.name ∉ ds.map (·.name) := by
    rw [← R.known, hindex]
    simp
  have hlanguage : languagesOf (ds ++ [d]) d.name = r.language (languagesOf ds) := by
    rw [languagesOf_append_self ds hparse, languagesOf_eq_zero hunknown, zero_add]
  refine ⟨?_, fun i t ht => ?_, R.inStep.declares D, fun name => ?_⟩
  · rw [htokens, Array.toList_push, List.map_append, R.names, eraseDups_append_of_notMem hunknown,
      List.map_append]
    rfl
  · rw [htokens, Array.getElem?_push] at ht
    split at ht
    · rename_i hi
      subst hi
      obtain rfl := Option.some.inj ht
      exact ⟨d.name, rfl, hlanguage ▸ hspells⟩
    · -- an older token has another name, whose language stays
      obtain ⟨name, hname, h⟩ := R.token i t ht
      refine ⟨name, hname, spells_append_of_ne (fun heq => ?_) h⟩
      have hlookup : b.byName.lookup d.name = some i := by
        rw [R.inStep, nameAt, ht, Option.map_some, hname, heq]
      rw [hindex] at hlookup
      exact absurd hlookup (by simp)
  · rw [D.byName, byNameAfter, hindex]
    dsimp only
    rw [NameMap.lookup_insert, List.map_append, List.mem_append, List.map_singleton,
      List.mem_singleton, ← R.known]
    by_cases heq : name = d.name
    · simp [heq]
    · simp [heq]

/-- The token with a known name is extended. -/
theorem extendToken (R : b.Represents ds) {k : Nat} (hindex : b.byName.lookup d.name = some k)
    (hparse : Regex.parse d.pattern = .ok r) (D : b.Declares d.name d.internal r b') :
    b'.Represents (ds ++ [d]) := by
  have hspells := R.spells_fragmentOf hparse D.resolves d.name k d.internal
  obtain ⟨known, hk, hkname, hknown⟩ := R.spells_of_lookup hindex
  have htokens := D.tokens
  rw [tokensAfter, hindex] at htokens
  have hnameAt : ∀ i, nameAt b'.tokens i = nameAt b.tokens i := by
    rw [htokens]
    exact nameAt_modify _ _ fun _ => rfl
  have hd : d.name ∈ ds.map (·.name) := (R.known d.name).1 (by rw [hindex]; rfl)
  refine ⟨?_, fun i t ht => ?_, R.inStep.declares D, fun name => ?_⟩
  · rw [eraseDups_append_of_mem hd, ← R.names]
    apply List.ext_getElem?
    intro i
    rw [List.getElem?_map, List.getElem?_map, Array.getElem?_toList, Array.getElem?_toList]
    exact hnameAt i
  · rw [htokens, Array.getElem?_modify] at ht
    split at ht
    · rename_i hi
      subst hi
      rw [hk] at ht
      obtain rfl := Option.some.inj ht
      -- the language of the name grows by that of the pattern, and so does what the token spells
      refine ⟨d.name, hkname, hknown.index_eq, ?_, ?_, ?_⟩
      · rw [languagesOf_append_self ds hparse]
        exact TokenAutomaton.spells_alternate hknown.owned hspells.owned hknown.graph
          hspells.graph _
      · exact TokenAutomaton.owned_alternate hknown.owned hspells.owned hknown.graph.size_pos
          hspells.graph.size_pos _
      · exact TokenAutomaton.unicode_alternate hknown.unicode hspells.unicode _
    · rename_i hi
      obtain ⟨name, hname, h⟩ := R.token i t ht
      refine ⟨name, hname, spells_append_of_ne (fun heq => hi ?_) h⟩
      have hkat : nameAt b.tokens k = some (some d.name) := by
        rw [nameAt, hk, Option.map_some, hkname]
      exact R.inStep.eq_of_nameAt hkat (by rw [nameAt, ht, Option.map_some, hname, heq])
  · -- the name is known already
    rw [D.byName, byNameAfter, hindex]
    dsimp only
    rw [R.known, List.map_append, List.mem_append, List.map_singleton, List.mem_singleton]
    exact ⟨Or.inl, fun h => h.elim id fun heq => heq ▸ hd⟩

/-- Declarations keep the tokens in step with the languages. -/
theorem declare (R : b.Represents ds) {line : Nat}
    (h : b.declare d.name d.pattern d.internal line = .ok b') : b'.Represents (ds ++ [d]) := by
  obtain ⟨r, hparse, D⟩ := declares_of_declare h
  cases hindex : b.byName.lookup d.name with
  | none => exact R.addToken hindex hparse D
  | some i => exact R.extendToken hindex hparse D

end Builder.Represents

/-- After any calls each token spells the language of its name. -/
theorem Builder.represents_after (calls : List Call) :
    (after calls).Represents (empty.declared calls) :=
  after_induction .start (fun R h => R.declare h) calls

/-- After any calls a declaration succeeds if its pattern has a tree that refers to declared names
only. -/
theorem Builder.exists_declare_iff (calls : List Call) (name pattern : String) (internal : Bool)
    (line : Nat) :
    (∃ b, (after calls).declare name pattern internal line = .ok b) ↔
      ∃ r, Regex.parse pattern = .ok r ∧
        ∀ n ∈ r.references, n ∈ (empty.declared calls).map (·.name) := by
  have R := represents_after calls
  constructor
  · rintro ⟨b, h⟩
    obtain ⟨r, hparse, D⟩ := declares_of_declare h
    exact ⟨r, hparse, fun n hn => R.isSome_resolve_iff.1 (D.resolves n hn)⟩
  · rintro ⟨r, hparse, hnames⟩
    exact exists_declare_eq_ok hparse fun n hn => R.isSome_resolve_iff.2 (hnames n hn)

/-- After any calls the tokens are those of the declared names, and each of them accepts on its own
the words of the language of its name. -/
theorem exists_token_accepts_iff (calls : List Builder.Call) (name : String) :
    (((Builder.after calls).finish.token? name).isSome = true ↔
      name ∈ (Builder.empty.declared calls).map (·.name)) ∧
    ∀ text, (∃ t, (Builder.after calls).finish.token? name = some t ∧
        (t.toDfa.accepts text).isSome = true) ↔
      codePoints text ∈ languagesOf (Builder.empty.declared calls) name := by
  have R := Builder.represents_after calls
  have htoken : (Builder.after calls).finish.token? name =
      ((Builder.after calls).byName.lookup name).bind ((Builder.after calls).tokens[·]?) := rfl
  rw [htoken, ← R.known]
  cases hindex : (Builder.after calls).byName.lookup name with
  -- a name never declared has no token, and the empty language
  | none =>
    have hname : name ∉ (Builder.empty.declared calls).map (·.name) := by
      rw [← R.known, hindex]
      simp
    rw [languagesOf_eq_zero hname]
    refine ⟨Iff.rfl, fun text => ⟨?_, fun h => absurd h (Language.notMem_zero _)⟩⟩
    rintro ⟨t, ht, -⟩
    exact absurd ht (by simp)
  | some i =>
    obtain ⟨t, ht, -, hspells⟩ := R.spells_of_lookup hindex
    rw [Option.bind_some, ht]
    refine ⟨Iff.rfl, fun text => ?_⟩
    -- the token spells what its own automaton accepts
    rw [← TokenAutomaton.isSome_accepts_toDfa hspells.graph]
    constructor
    · rintro ⟨t', ht', haccepts⟩
      rwa [Option.some.inj ht']
    · intro haccepts
      exact ⟨t, rfl, haccepts⟩

end MaximalMunch
