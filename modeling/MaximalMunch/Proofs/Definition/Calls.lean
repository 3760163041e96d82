import MaximalMunch.Definition.Builder
import MaximalMunch.Proofs.Regex.Compile

/-!
# Calls of a builder

A definition is built by calls in some order, some of which fail. `Builder.after` is the builder
that they lead to, and `Builder.declared` lists the declarations among them that succeed. What is
proved of all builders that can be made is proved along these calls: a declaration that succeeds
either adds a token or extends one (`Builder.declares_of_declare`), and every other call changes
nothing (`Builder.perform_cases`).

The map of names is in step with the tokens after any calls (`Builder.inStep_after`), so looking a
name up in it is searching the tokens for the name (`Builder.InStep.lookup_eq_indexOfToken`).
-/

namespace MaximalMunch

open Nfa (Graph)

/-- A call of a builder: a line of a definition with its number, or a declaration on a line. -/
inductive Builder.Call where
  | line (text : String) (number : Nat)
  | declare (name pattern : String) (internal : Bool) (number : Nat)
deriving DecidableEq, Repr

/-- The declaration that a call makes, if it makes one. -/
def Builder.Call.declaration? : Call → Option Declaration
  | .line text number =>
    match Declaration.ofLine? text number with
    | .ok d => d
    | .error _ => none
  | .declare name pattern internal _ => some ⟨name, pattern, internal⟩

/-! ## Looking names up -/

/-- After an insertion the name has the new index, and the others keep theirs. -/
theorem NameMap.lookup_insert (m : NameMap) (name other : String) (i : Nat) :
    (m.insert name i).lookup other = if other = name then some i else m.lookup other := by
  rw [NameMap.lookup, NameMap.insert, List.lookup_cons]
  by_cases h : other = name
  · simp [h]
  · have hne : (other == name) = false := beq_false_of_ne h
    rw [hne, if_neg h]
    rfl

/-- The name of the token at an index. -/
def nameAt (tokens : Array TokenAutomaton) (i : Nat) : Option (Option String) :=
  tokens[i]?.map (·.name)

/-- A further token comes after the others. -/
theorem nameAt_push (tokens : Array TokenAutomaton) (t : TokenAutomaton) (i : Nat) :
    nameAt (tokens.push t) i = if i = tokens.size then some t.name else nameAt tokens i := by
  rw [nameAt, Array.getElem?_push, nameAt]
  split <;> rfl

/-- No token stands behind the last one yet. -/
theorem nameAt_size (tokens : Array TokenAutomaton) : nameAt tokens tokens.size = none := by
  rw [nameAt, Array.getElem?_eq_none (Nat.le_refl _), Option.map_none]

/-- Whatever is done to a token, the names stay if it keeps its own. -/
theorem nameAt_modify (tokens : Array TokenAutomaton) (k : Nat)
    {f : TokenAutomaton → TokenAutomaton} (hf : ∀ t, (f t).name = t.name) (i : Nat) :
    nameAt (tokens.modify k f) i = nameAt tokens i := by
  rw [nameAt, Array.getElem?_modify, nameAt]
  split
  · rw [Option.map_map]
    exact congrArg (tokens[i]?.map ·) (funext hf)
  · rfl

namespace Builder

variable {b b' : Builder}

/-- The map of names is in step with the tokens: it leads from the name of each token to the place
of the token, and from no other name. -/
def InStep (b : Builder) : Prop :=
  ∀ name i, b.byName.lookup name = some i ↔ nameAt b.tokens i = some (some name)

namespace InStep

theorem start : empty.InStep := fun _ _ => ⟨nofun, nofun⟩

/-- The index of a name is that of a token with the name. -/
theorem exists_token (S : b.InStep) {name : String} {i : Nat} (h : b.byName.lookup name = some i) :
    ∃ t, b.tokens[i]? = some t ∧ t.name = some name :=
  Option.map_eq_some_iff.1 ((S name i).1 h)

/-- No two tokens have the same name. -/
theorem eq_of_nameAt (S : b.InStep) {name : String} {i j : Nat}
    (hi : nameAt b.tokens i = some (some name)) (hj : nameAt b.tokens j = some (some name)) :
    i = j :=
  Option.some.inj (((S name i).2 hi).symm.trans ((S name j).2 hj))

/-- A reference to a name can be resolved if the name has an index. -/
theorem isSome_resolve (S : b.InStep) (name : String) :
    (b.resolve name).isSome = (b.byName.lookup name).isSome := by
  rw [resolve]
  cases h : b.byName.lookup name with
  | none => rfl
  | some i =>
    obtain ⟨t, ht, -⟩ := S.exists_token h
    rw [Option.bind_some, ht]
    rfl

end InStep

/-- A reference that can be resolved stands for the graph of the token at the index of its name. -/
theorem exists_of_resolve {name : String} {g : Graph} (h : b.resolve name = some g) :
    ∃ i t, b.byName.lookup name = some i ∧ b.tokens[i]? = some t ∧ t.graph = g := by
  obtain ⟨i, hi, h⟩ := Option.bind_eq_some_iff.1 h
  obtain ⟨t, ht, h⟩ := Option.map_eq_some_iff.1 h
  exact ⟨i, t, hi, ht, h⟩

/-- A reference that can be resolved stands for the graph of one of the tokens. -/
theorem exists_mem_of_isSome_resolve {name : String} (h : (b.resolve name).isSome = true) :
    ∃ t ∈ b.tokens, (b.resolve name).getD .empty = t.graph := by
  obtain ⟨g, hg⟩ := Option.isSome_iff_exists.1 h
  obtain ⟨i, t, -, ht, rfl⟩ := exists_of_resolve hg
  exact ⟨t, Array.mem_of_getElem? ht, by rw [hg]; rfl⟩

/-! ## Declarations -/

/-- The graph that a pattern with this tree gets from a builder. -/
def fragmentOf (b : Builder) (r : Regex) : Graph :=
  r.fragment (fun name => (b.resolve name).getD .empty) b.issued

/-- The tokens after the pattern with this tree is declared for a name. -/
def tokensAfter (b : Builder) (name : String) (internal : Bool) (r : Regex) :
    Array TokenAutomaton :=
  match b.byName.lookup name with
  | some i =>
    let added := (b.fragmentOf r).acceptAtExit [i]
    b.tokens.modify i (·.alternate added (b.issued + added.size))
  | none => b.tokens.push
    ⟨name, b.tokens.size, internal, (b.fragmentOf r).acceptAtExit [b.tokens.size]⟩

/-- The map of names after a pattern is declared for a name. -/
def byNameAfter (b : Builder) (name : String) : NameMap :=
  match b.byName.lookup name with
  | some _ => b.byName
  | none => b.byName.insert name b.tokens.size

/-- The ids used after the pattern with this tree is declared for a name. A token that is extended
gets a new entry and a new exit besides. -/
def issuedAfter (b : Builder) (name : String) (r : Regex) : Nat :=
  match b.byName.lookup name with
  | some _ => b.issued + (b.fragmentOf r).size + 2
  | none => b.issued + (b.fragmentOf r).size

/-- What a declaration that succeeds makes of a builder, given the tree of its pattern. -/
structure Declares (b : Builder) (name : String) (internal : Bool) (r : Regex) (b' : Builder) :
    Prop where
  resolves : ∀ n ∈ r.references, (b.resolve n).isSome = true
  tokens : b'.tokens = b.tokensAfter name internal r
  byName : b'.byName = b.byNameAfter name
  issued : b'.issued = b.issuedAfter name r

/-- A declaration that succeeds adds a token or extends the one with the name. -/
theorem declares_of_declare {name pattern : String} {internal : Bool} {line : Nat}
    (h : b.declare name pattern internal line = .ok b') :
    ∃ r, Regex.parse pattern = .ok r ∧ b.Declares name internal r b' := by
  rw [declare, TokenAutomaton.ofPattern] at h
  cases hcompile : Regex.compile b.resolve pattern b.issued with
  | error e =>
    rw [hcompile] at h
    exact absurd h (by simp [bind, Except.bind, Except.mapError])
  | ok g =>
    obtain ⟨r, hparse, hresolve, hg⟩ := Regex.compile_eq_ok_iff.1 hcompile
    obtain rfl : g = b.fragmentOf r := hg
    -- marking the exit makes no state
    have hsize (owners : List Nat) :
        ((b.fragmentOf r).acceptAtExit owners).size = (b.fragmentOf r).size :=
      Nfa.Graph.size_acceptAtExit owners
    refine ⟨r, hparse, ?_⟩
    rw [hcompile] at h
    cases hindex : b.byName.lookup name with
    | some i =>
      rw [hindex] at h
      obtain rfl := Except.ok.inj h
      refine ⟨hresolve, by rw [tokensAfter, hindex]; rfl, by rw [byNameAfter, hindex]; rfl, ?_⟩
      rw [issuedAfter, hindex]
      dsimp only
      rw [← hsize [i]]
      rfl
    | none =>
      rw [hindex] at h
      obtain rfl := Except.ok.inj h
      refine ⟨hresolve, by rw [tokensAfter, hindex]; rfl, by rw [byNameAfter, hindex]; rfl, ?_⟩
      rw [issuedAfter, hindex]
      dsimp only
      rw [← hsize [b.tokens.size]]
      rfl

/-- A declaration succeeds if its pattern has a tree and the names in it are known. -/
theorem exists_declare_eq_ok {name pattern : String} {internal : Bool} {line : Nat} {r : Regex}
    (hparse : Regex.parse pattern = .ok r)
    (hnames : ∀ n ∈ r.references, (b.resolve n).isSome = true) :
    ∃ b', b.declare name pattern internal line = .ok b' := by
  have hcompile : Regex.compile b.resolve pattern b.issued = .ok (b.fragmentOf r) :=
    Regex.compile_eq_ok_iff.2 ⟨r, hparse, hnames, rfl⟩
  rw [declare, TokenAutomaton.ofPattern, hcompile]
  cases b.byName.lookup name with
  | some i => exact ⟨_, rfl⟩
  | none => exact ⟨_, rfl⟩

/-- A declaration keeps the map of names in step with the tokens. -/
theorem InStep.declares (S : b.InStep) {name : String} {internal : Bool} {r : Regex}
    (D : b.Declares name internal r b') : b'.InStep := by
  intro n i
  cases hindex : b.byName.lookup name with
  | some k =>
    -- an extended token keeps its name
    have hnames : ∀ i, nameAt (b.tokensAfter name internal r) i = nameAt b.tokens i := by
      rw [tokensAfter, hindex]
      exact nameAt_modify _ _ fun _ => rfl
    rw [D.byName, D.tokens, hnames, byNameAfter, hindex]
    exact S n i
  | none =>
    rw [D.byName, D.tokens, byNameAfter, tokensAfter, hindex]
    dsimp only
    rw [NameMap.lookup_insert, nameAt_push]
    by_cases hn : n = name
    · subst hn
      have hnew : nameAt b.tokens i ≠ some (some n) := fun hi => by
        rw [← S n i, hindex] at hi
        exact absurd hi (by simp)
      by_cases hi : i = b.tokens.size
      · simp [hi]
      · simp [hi, Ne.symm hi, hnew]
    · rw [if_neg hn, S n i]
      split
      · -- the new token has another name
        rename_i hi
        rw [hi, nameAt_size]
        simp [Ne.symm hn]
      · rfl

/-! ## Calls one after the other -/

/-- What a call gives. -/
def perform (b : Builder) : Call → Except Definition.Error Builder
  | .line text number => b.line text number
  | .declare name pattern internal number => b.declare name pattern internal number

/-- The builder after a call. A call that fails changes nothing. -/
def attempt (b : Builder) (c : Call) : Builder :=
  match b.perform c with
  | .ok b' => b'
  | .error _ => b

/-- The builder after some calls, the first of them on a builder without tokens. -/
def after (calls : List Call) : Builder :=
  calls.foldl attempt empty

/-- The declarations that succeed among some calls, in order. -/
def declared (b : Builder) : List Call → List Declaration
  | [] => []
  | c :: rest =>
    match b.perform c with
    | .ok b' => c.declaration?.toList ++ b'.declared rest
    | .error _ => b.declared rest

/-- A call that succeeds makes a declaration or changes nothing. -/
theorem perform_cases {c : Call} (h : b.perform c = .ok b') :
    (c.declaration? = none ∧ b' = b) ∨ ∃ d line, c.declaration? = some d ∧
      b.declare d.name d.pattern d.internal line = .ok b' := by
  cases c with
  | declare name pattern internal line => exact Or.inr ⟨_, line, rfl, h⟩
  | line text number =>
    rw [perform, line] at h
    rw [Call.declaration?]
    cases hline : Declaration.ofLine? text number with
    | error e =>
      rw [hline] at h
      exact absurd h (by simp [bind, Except.bind])
    | ok d? =>
      rw [hline] at h
      cases d? with
      | none => exact Or.inl ⟨rfl, (Except.ok.inj h).symm⟩
      | some d => exact Or.inr ⟨d, number, rfl, h⟩

/-- What declarations that succeed preserve holds at the end of all calls. -/
theorem after_induction {P : Builder → List Declaration → Prop} (hempty : P empty [])
    (hdeclare : ∀ {b ds d line b'}, P b ds →
      b.declare d.name d.pattern d.internal line = .ok b' → P b' (ds ++ [d]))
    (calls : List Call) : P (after calls) (empty.declared calls) := by
  -- the calls may begin on any builder that declarations have led to
  have hrun : ∀ (calls : List Call) {b ds}, P b ds →
      P (calls.foldl attempt b) (ds ++ b.declared calls) := by
    intro calls
    induction calls with
    | nil => intro b ds h; rwa [declared, List.append_nil]
    | cons c rest ih =>
      intro b ds h
      rw [List.foldl_cons, declared, attempt]
      cases hc : b.perform c with
      | error e => exact ih h
      | ok b' =>
        show P (rest.foldl attempt b') (ds ++ (c.declaration?.toList ++ b'.declared rest))
        rw [← List.append_assoc]
        rcases perform_cases hc with ⟨hnone, rfl⟩ | ⟨d, line, hd, hdecl⟩
        · rw [hnone, Option.toList_none, List.append_nil]
          exact ih h
        · rw [hd, Option.toList_some]
          exact ih (hdeclare h hdecl)
  exact hrun calls hempty

/-- After any calls the map of names is in step with the tokens. -/
theorem inStep_after (calls : List Call) : (after calls).InStep :=
  after_induction (P := fun b _ => b.InStep) .start
    (fun S h => by
      obtain ⟨r, -, D⟩ := declares_of_declare h
      exact S.declares D) calls

end Builder

/-! ## Searching the tokens -/

/-- The place of the first token with a name. -/
def indexOfToken (tokens : Array TokenAutomaton) (name : String) : Option Nat :=
  tokens.findIdx? (·.name = some name)

/-- The map leads to the place where a search ends. -/
theorem Builder.InStep.lookup_eq_indexOfToken {b : Builder} (S : b.InStep) (name : String) :
    b.byName.lookup name = indexOfToken b.tokens name := by
  cases hsearch : indexOfToken b.tokens name with
  | some i =>
    obtain ⟨hi, hname, -⟩ := Array.findIdx?_eq_some_iff_getElem.1 hsearch
    rw [S, nameAt, Array.getElem?_eq_getElem hi, Option.map_some, of_decide_eq_true hname]
  | none =>
    rw [Option.eq_none_iff_forall_ne_some]
    intro i hi
    obtain ⟨t, ht, hname⟩ := S.exists_token hi
    have hfalse := Array.findIdx?_eq_none_iff.1 hsearch t (Array.mem_of_getElem? ht)
    exact of_decide_eq_false hfalse hname

end MaximalMunch
