import MaximalMunch.Dfa.Scanning
import MaximalMunch.Proofs.Definition.Inlining
import MaximalMunch.Proofs.Definition.Invariant
import MaximalMunch.Proofs.Dfa.Renaming
import MaximalMunch.Scan.Scanner

/-!
# Internal tokens that nothing refers to

An internal declaration of a name that no other call declares or refers to leaves nothing behind but
its token. Beside the builder without it, the builder with it has that token in some place, and the
later tokens stand one place further on and own the same states under their new indices
(`Builder.WithExtra`). Every other call succeeds on both builders or on none and keeps them so
(`Builder.WithExtra.perform`), however many ids the token has used. The master graph is made of the
reported tokens, so in the end it differs in its owners alone (`Builder.WithExtra.masterGraph`).
-/

namespace MaximalMunch

open Nfa (Graph)
open Nfa.Graph (Renamed)

/-! ## Room for one more -/

/-- The place of what was at place `i`, when something has been put in at place `k`. -/
def makeRoom (k i : Nat) : Nat := if i < k then i else i + 1

/-- Making room keeps the order. -/
theorem strictMono_makeRoom (k : Nat) : StrictMono (makeRoom k) := by
  intro i j hij
  unfold makeRoom
  split_ifs <;> omega

/-- What comes before the new place stays. -/
theorem makeRoom_of_lt {k i : Nat} (h : i < k) : makeRoom k i = i := if_pos h

/-- What comes behind it moves one place on. -/
theorem makeRoom_of_le {k i : Nat} (h : k ≤ i) : makeRoom k i = i + 1 := if_neg (Nat.not_lt.2 h)

/-- The new place is free. -/
theorem makeRoom_ne (k i : Nat) : makeRoom k i ≠ k := by
  unfold makeRoom
  split_ifs <;> omega

/-! ## Tokens one place further on -/

/-- The token `t'` is `t` after a token has been put in at place `k`. -/
structure TokenAutomaton.Moved (k : Nat) (t t' : TokenAutomaton) : Prop where
  name_eq : t'.name = t.name
  internal_eq : t'.internal = t.internal
  index_eq : t'.index = makeRoom k t.index
  graph : Renamed (makeRoom k) t.graph t'.graph

/-- A graph that accepts for owners that keep their names is left as it is. -/
theorem Nfa.Graph.Owned.renamed_self {g : Graph} {owners : List Nat} (hg : g.Owned owners)
    {f : Nat → Nat} (hf : ∀ o ∈ owners, f o = o) : Renamed f g g where
  size_eq := rfl
  transitions_eq _ := rfl
  marks_eq i := by
    cases hm : g.marks i with
    | none => rfl
    | some m =>
      rw [hg i m hm, Option.map_some]
      split
      · rw [List.map_congr_left hf, List.map_id']
      · rfl

/-- What a token gets from a further pattern, by the marks at the old exits. -/
theorem TokenAutomaton.graph_alternate_eq (t : TokenAutomaton) (other : Graph) (next : Nat) :
    (t.alternate other next).graph =
      let exits := [t.graph, other].filterMap fun g => g.marks g.exit
      let joined := Graph.alternatives next (next + 1) [t.graph.demoteExit, other.demoteExit]
      if exits.any (·.1) then joined.acceptAtExit (exits.flatMap (·.2)) else joined := by
  have hexits : [t.graph, other].filterMap (fun g => g.marks g.exit) =
      ([t.graph, other].filterMap fun g => g.states[g.exit]?).map
        fun s => (s.accepting, s.owners) := by
    rw [List.map_filterMap]
    rfl
  rw [hexits]
  simp only [List.any_map, List.flatMap_map]
  rfl

/-- A further pattern keeps the tokens alike. -/
theorem TokenAutomaton.renamed_alternate {t t' : TokenAutomaton} {other other' : Graph}
    {f : Nat → Nat} (hf : StrictMono f) (T : Renamed f t.graph t'.graph)
    (O : Renamed f other other') (next next' : Nat) :
    Renamed f (t.alternate other next).graph (t'.alternate other' next').graph := by
  have hexits : [t'.graph, other'].filterMap (fun g => g.marks g.exit) =
      ([t.graph, other].filterMap fun g => g.marks g.exit).map
        fun m => (m.1, m.2.map f) := by
    simp only [List.filterMap_cons, List.filterMap_nil, T.exit_eq, O.exit_eq, T.marks_eq,
      O.marks_eq]
    cases t.graph.marks t.graph.exit <;> cases other.marks other.exit <;> rfl
  have hjoined := Renamed.alternatives (.cons T.demoteExit (.cons O.demoteExit .nil))
    next (next + 1) next' (next' + 1)
  rw [graph_alternate_eq, graph_alternate_eq, hexits]
  simp only [List.any_map, List.flatMap_map, Function.comp_def]
  split
  · rw [← List.map_flatMap]
    exact hjoined.acceptAtExit hf _
  · exact hjoined

/-! ## Builders with a token more -/

/-- A declaration changes the index of no name but its own. -/
theorem Builder.Declares.lookup_of_ne {b b' : Builder} {n name : String} {internal : Bool}
    {r : Regex} (D : b.Declares n internal r b') (hn : name ≠ n) :
    b'.byName.lookup name = b.byName.lookup name := by
  rw [D.byName, byNameAfter]
  cases b.byName.lookup n with
  | some _ => rfl
  | none =>
    dsimp only
    rw [NameMap.lookup_insert, if_neg hn]

/-- The call neither declares the name nor refers to it. -/
def Builder.Call.Avoids (c : Call) (name : String) : Prop :=
  ∀ d, c.declaration? = some d →
    d.name ≠ name ∧ ∀ r, Regex.parse d.pattern = .ok r → name ∉ r.references

/-- A declaration of a pattern with a given tree avoids the names that are not in it. -/
theorem Builder.Call.Avoids.declare {name n pattern : String} {r : Regex} (hn : n ≠ name)
    (hparse : Regex.parse pattern = .ok r) (hr : name ∉ r.references) (internal : Bool)
    (line : Nat) : (Call.declare n pattern internal line).Avoids name := by
  intro d hd
  obtain rfl := Option.some.inj hd
  refine ⟨hn, fun r' hparse' => ?_⟩
  obtain rfl := Except.ok.inj (hparse.symm.trans hparse')
  exact hr

/-- The builder `b'` has, beside the tokens of `b`, an internal token with the name at place `k`.
The other names lead to the places to which their tokens have moved. -/
structure Builder.WithExtra (name : String) (k : Nat) (b b' : Builder) : Prop where
  le_size : k ≤ b.tokens.size
  size_eq : b'.tokens.size = b.tokens.size + 1
  lookup_name : b'.byName.lookup name = some k
  lookup_eq : ∀ n, n ≠ name → b'.byName.lookup n = (b.byName.lookup n).map (makeRoom k)
  extra : ∃ t, b'.tokens[k]? = some t ∧ t.internal = true
  moved : ∀ (i : Nat) t, b.tokens[i]? = some t →
    ∃ t', b'.tokens[makeRoom k i]? = some t' ∧ t.Moved k t'

namespace Builder.WithExtra

variable {name : String} {k : Nat} {b b' b₁ : Builder} {r : Regex}

/-! ### Looking names up -/

/-- References to other names stand for graphs that are alike. -/
theorem resolve_cases (W : WithExtra name k b b') {n : String} (hn : n ≠ name) :
    (b.resolve n = none ∧ b'.resolve n = none) ∨ ∃ g g', b.resolve n = some g ∧
      b'.resolve n = some g' ∧ Renamed (makeRoom k) g g' := by
  rw [resolve, resolve, W.lookup_eq n hn]
  cases b.byName.lookup n with
  | none => exact Or.inl ⟨rfl, rfl⟩
  | some i =>
    rw [Option.map_some, Option.bind_some, Option.bind_some]
    by_cases hi : i < b.tokens.size
    · obtain ⟨t', ht', hmoved⟩ := W.moved i _ (Array.getElem?_eq_getElem hi)
      rw [ht', Array.getElem?_eq_getElem hi]
      exact Or.inr ⟨_, _, rfl, rfl, hmoved.graph⟩
    · have hroom : makeRoom k i = i + 1 := makeRoom_of_le (Nat.le_trans W.le_size (by omega))
      have hsize := W.size_eq
      rw [hroom, Array.getElem?_eq_none (by omega), Array.getElem?_eq_none (by omega)]
      exact Or.inl ⟨rfl, rfl⟩

/-- They can be resolved in both builders or in none. -/
theorem isSome_resolve (W : WithExtra name k b b') {n : String} (hn : n ≠ name) :
    (b'.resolve n).isSome = (b.resolve n).isSome := by
  rcases W.resolve_cases hn with ⟨h, h'⟩ | ⟨g, g', h, h', -⟩
  · rw [h, h']
  · rw [h, h']
    rfl

/-- References to other names stand for graphs that are alike, unknown names included. -/
theorem renamed_resolve (W : WithExtra name k b b') {n : String} (hn : n ≠ name) :
    Renamed (makeRoom k) ((b.resolve n).getD .empty) ((b'.resolve n).getD .empty) := by
  rcases W.resolve_cases hn with ⟨h, h'⟩ | ⟨g, g', h, h', hrenamed⟩
  · rw [h, h']
    exact .empty
  · rw [h, h']
    exact hrenamed

/-- A pattern that does not mention the name gets graphs that are alike. -/
theorem renamed_fragmentOf (W : WithExtra name k b b') (hr : name ∉ r.references) :
    Renamed (makeRoom k) (b.fragmentOf r) (b'.fragmentOf r) :=
  Regex.renamed_fragment r b.issued b'.issued fun _ hn =>
    W.renamed_resolve fun heq => hr (heq ▸ hn)

/-! ### Further declarations -/

variable {b₁' : Builder} {n : String} {internal : Bool}

/-- Names are looked up alike after declarations for the same name. -/
theorem lookup_of_declares (W : WithExtra name k b b') (hn : n ≠ name)
    (D : b.Declares n internal r b₁) (D' : b'.Declares n internal r b₁') (m : String)
    (hm : m ≠ name) : b₁'.byName.lookup m = (b₁.byName.lookup m).map (makeRoom k) := by
  by_cases hmn : m = n
  · -- a new name comes behind the others in both
    have hroom : makeRoom k b.tokens.size = b'.tokens.size := by
      rw [makeRoom_of_le W.le_size, W.size_eq]
    subst hmn
    rw [D.byName, D'.byName, byNameAfter, byNameAfter, W.lookup_eq m hn]
    cases hindex : b.byName.lookup m with
    | none =>
      dsimp only [Option.map_none]
      rw [NameMap.lookup_insert, NameMap.lookup_insert, if_pos rfl, if_pos rfl, Option.map_some,
        hroom]
    | some i =>
      dsimp only [Option.map_some]
      rw [W.lookup_eq m hn, hindex, Option.map_some]
  · rw [D.lookup_of_ne hmn, D'.lookup_of_ne hmn, W.lookup_eq m hm]

/-- A new token comes behind the others in both. -/
theorem addToken (W : WithExtra name k b b') (hn : n ≠ name) (hr : name ∉ r.references)
    (hindex : b.byName.lookup n = none) (D : b.Declares n internal r b₁)
    (D' : b'.Declares n internal r b₁') : WithExtra name k b₁ b₁' := by
  -- the new token comes last on both sides, one place further where the extra one stands
  have hroom : makeRoom k b.tokens.size = b'.tokens.size := by
    rw [makeRoom_of_le W.le_size, W.size_eq]
  have htokens := D.tokens
  have htokens' := D'.tokens
  rw [tokensAfter, hindex] at htokens
  rw [tokensAfter, W.lookup_eq n hn, hindex] at htokens'
  dsimp only [Option.map_none] at htokens'
  refine ⟨?_, ?_, (D'.lookup_of_ne hn.symm).trans W.lookup_name, W.lookup_of_declares hn D D', ?_,
    fun i t ht => ?_⟩
  · rw [htokens, Array.size_push]
    exact Nat.le_succ_of_le W.le_size
  · rw [htokens, htokens', Array.size_push, Array.size_push, W.size_eq]
  · obtain ⟨t, ht, h⟩ := W.extra
    obtain ⟨hlt, rfl⟩ := Array.getElem?_eq_some_iff.1 ht
    exact ⟨_, by rw [htokens', Array.getElem?_push_lt hlt], h⟩
  · rw [htokens, Array.getElem?_push] at ht
    rw [htokens']
    split at ht
    · -- the token just added
      rename_i hi
      obtain rfl := Option.some.inj ht
      rw [hi, hroom, Array.getElem?_push_size]
      refine ⟨_, rfl, rfl, rfl, hroom.symm, ?_⟩
      rw [← hroom]
      exact (W.renamed_fragmentOf hr).acceptAtExit (strictMono_makeRoom k) [b.tokens.size]
    · -- a token from before, not touched
      obtain ⟨t', ht', hmoved⟩ := W.moved i t ht
      obtain ⟨hlt, rfl⟩ := Array.getElem?_eq_some_iff.1 ht'
      exact ⟨_, by rw [Array.getElem?_push_lt hlt], hmoved⟩

/-- A known token is extended in both. -/
theorem extendToken (W : WithExtra name k b b') (hn : n ≠ name) (hr : name ∉ r.references)
    {i : Nat} (hindex : b.byName.lookup n = some i) (D : b.Declares n internal r b₁)
    (D' : b'.Declares n internal r b₁') : WithExtra name k b₁ b₁' := by
  have htokens := D.tokens
  have htokens' := D'.tokens
  rw [tokensAfter, hindex] at htokens
  rw [tokensAfter, W.lookup_eq n hn, hindex] at htokens'
  dsimp only [Option.map_some] at htokens'
  refine ⟨?_, ?_, (D'.lookup_of_ne hn.symm).trans W.lookup_name, W.lookup_of_declares hn D D', ?_,
    fun j t ht => ?_⟩
  · rw [htokens, Array.size_modify]
    exact W.le_size
  · rw [htokens, htokens', Array.size_modify, Array.size_modify, W.size_eq]
  · obtain ⟨t, ht, h⟩ := W.extra
    exact ⟨t, by rw [htokens', Array.getElem?_modify, if_neg (makeRoom_ne k i), ht], h⟩
  · rw [htokens, Array.getElem?_modify] at ht
    rw [htokens', Array.getElem?_modify]
    by_cases hij : i = j
    · -- the token that gets one more alternative, on both sides
      rw [if_pos hij] at ht
      rw [if_pos (congrArg (makeRoom k) hij)]
      obtain ⟨t₀, ht₀, rfl⟩ := Option.map_eq_some_iff.1 ht
      obtain ⟨t', ht', hmoved⟩ := W.moved j t₀ ht₀
      rw [ht', Option.map_some]
      refine ⟨_, rfl, hmoved.name_eq, hmoved.internal_eq, hmoved.index_eq, ?_⟩
      have hadded := (W.renamed_fragmentOf hr).acceptAtExit (strictMono_makeRoom k) [i]
      exact TokenAutomaton.renamed_alternate (strictMono_makeRoom k) hmoved.graph hadded _ _
    · -- any other token is the one from before
      rw [if_neg hij] at ht
      rw [if_neg fun heq => hij ((strictMono_makeRoom k).injective heq)]
      exact W.moved j t ht

/-- A declaration that succeeds without the token succeeds with it. -/
theorem declare (W : WithExtra name k b b') {pattern : String} {line : Nat} (hn : n ≠ name)
    (hr : ∀ r, Regex.parse pattern = .ok r → name ∉ r.references)
    (h : b.declare n pattern internal line = .ok b₁) :
    ∃ b₁', b'.declare n pattern internal line = .ok b₁' ∧ WithExtra name k b₁ b₁' := by
  obtain ⟨r, hparse, D⟩ := declares_of_declare h
  obtain ⟨b₁', h'⟩ : ∃ b₁', b'.declare n pattern internal line = .ok b₁' := by
    refine exists_declare_eq_ok hparse fun m hm => ?_
    rw [W.isSome_resolve fun heq => hr r hparse (heq ▸ hm)]
    exact D.resolves m hm
  refine ⟨b₁', h', ?_⟩
  obtain ⟨r', hparse', D'⟩ := declares_of_declare h'
  obtain rfl := Except.ok.inj (hparse.symm.trans hparse')
  cases hindex : b.byName.lookup n with
  | none => exact W.addToken hn (hr r hparse) hindex D D'
  | some i => exact W.extendToken hn (hr r hparse) hindex D D'

/-- A call that avoids the name and succeeds without the token succeeds with it. -/
theorem perform (W : WithExtra name k b b') {c : Call} (hc : c.Avoids name)
    (h : b.perform c = .ok b₁) : ∃ b₁', b'.perform c = .ok b₁' ∧ WithExtra name k b₁ b₁' := by
  rcases perform_uniform c with ⟨d, line, hd, hcall⟩ | ⟨-, hcall⟩ | ⟨e, hcall⟩
  · rw [hcall] at h ⊢
    exact W.declare (hc d hd).1 (hc d hd).2 h
  · rw [hcall] at h
    obtain rfl := Except.ok.inj h
    exact ⟨b', hcall b', W⟩
  · rw [hcall] at h
    exact absurd h (by simp)

/-- So do calls one after the other. -/
theorem foldlM_perform {calls : List Call} : ∀ {b b' : Builder}, WithExtra name k b b' →
    (∀ c ∈ calls, c.Avoids name) → calls.foldlM Builder.perform b = .ok b₁ →
      ∃ b₁', calls.foldlM Builder.perform b' = .ok b₁' ∧ WithExtra name k b₁ b₁' := by
  induction calls with
  | nil =>
    intro b b' W _ h
    obtain rfl := Except.ok.inj h
    exact ⟨b', rfl, W⟩
  | cons c rest ih =>
    intro b b' W hcalls h
    obtain ⟨hc, hrest⟩ := List.forall_mem_cons.1 hcalls
    rw [List.foldlM_cons] at h
    obtain ⟨b₂, hb₂, h⟩ := Regex.exists_of_bind_eq_ok h
    obtain ⟨b₂', hb₂', W₂⟩ := W.perform hc hb₂
    obtain ⟨b₁', h', W₁⟩ := ih W₂ hrest h
    refine ⟨b₁', ?_, W₁⟩
    rw [List.foldlM_cons, hb₂']
    exact h'

/-! ### The master automaton -/

/-- Without the token in the place `k` the tokens correspond one by one. -/
theorem forall₂_tokens (W : WithExtra name k b b') :
    List.Forall₂ (TokenAutomaton.Moved k) b.tokens.toList (b'.tokens.toList.eraseIdx k) := by
  have hlt : k < b'.tokens.toList.length := by
    rw [Array.length_toList, W.size_eq]
    exact Nat.lt_succ_of_le W.le_size
  have hlength : b.tokens.toList.length = (b'.tokens.toList.eraseIdx k).length := by
    rw [List.length_eraseIdx_of_lt hlt, Array.length_toList, Array.length_toList, W.size_eq]
    rfl
  refine List.forall₂_iff_get.2 ⟨hlength, fun i hi hi' => ?_⟩
  obtain ⟨t', ht', hmoved⟩ := W.moved i _ (Array.getElem?_eq_getElem hi)
  have hget : (b'.tokens.toList.eraseIdx k)[i]? = b'.tokens[makeRoom k i]? := by
    rw [List.getElem?_eraseIdx, makeRoom]
    split <;> rw [Array.getElem?_toList]
  rw [List.getElem?_eq_getElem hi', ht'] at hget
  obtain rfl := Option.some.inj hget
  exact hmoved

/-- So do the tokens that are reported, as this one is not. -/
theorem forall₂_emitted (W : WithExtra name k b b') :
    List.Forall₂ (TokenAutomaton.Moved k) b.emitted b'.emitted := by
  obtain ⟨t, ht, hinternal⟩ := W.extra
  obtain ⟨hlt, hget⟩ := List.getElem?_eq_some_iff.1 ((Array.getElem?_toList).trans ht)
  have herase : b'.emitted = (b'.tokens.toList.eraseIdx k).filter (!·.internal) := by
    rw [emitted, List.eraseIdx_eq_take_drop_succ, List.filter_append]
    conv_lhs => rw [← List.take_append_drop k b'.tokens.toList, List.drop_eq_getElem_cons hlt]
    rw [List.filter_append, List.filter_cons_of_neg (by rw [hget, hinternal]; simp)]
  rw [herase]
  refine List.rel_filter (fun s s' hmoved => ?_) W.forall₂_tokens
  show (!s.internal) = true ↔ (!s'.internal) = true
  rw [hmoved.internal_eq]

/-- Joining a token and the same token further on keeps the master graphs alike. -/
theorem renamed_joinToken {g g' : Graph} (G : Renamed (makeRoom k) g g') {t t' : TokenAutomaton}
    (T : t.Moved k t') : Renamed (makeRoom k) (joinToken g t) (joinToken g' t') := by
  have hpart := (T.graph.copy g.size g.size).acceptAtExit (strictMono_makeRoom k) [t.index]
  rw [List.map_singleton, ← T.index_eq] at hpart
  rw [joinToken, joinToken, G.size_eq]
  exact (G.append hpart).connectEpsilon 0 g.size

/-- The master graphs differ in their owners alone. -/
theorem masterGraph (W : WithExtra name k b b') :
    Renamed (makeRoom k) b.masterGraph b'.masterGraph := by
  have hstart : Renamed (makeRoom k) (Graph.empty.add { id := 0 }) (Graph.empty.add { id := 0 }) :=
    Renamed.empty.add 0 0
  refine List.rel_foldl ?_ hstart W.forall₂_emitted
  exact fun _ _ G _ _ T => renamed_joinToken G T

/-- A name stands in the place to which its token has moved. -/
theorem getElem?_names (W : WithExtra name k b b') (i : Nat) :
    b'.names[makeRoom k i]? = b.names[i]? := by
  rw [names, names, Array.getElem?_map, Array.getElem?_map]
  by_cases hi : i < b.tokens.size
  · obtain ⟨t', ht', hmoved⟩ := W.moved i _ (Array.getElem?_eq_getElem hi)
    rw [ht', Array.getElem?_eq_getElem hi, Option.map_some, Option.map_some, hmoved.name_eq]
  · have hroom : makeRoom k i = i + 1 := makeRoom_of_le (Nat.le_trans W.le_size (by omega))
    have hsize := W.size_eq
    rw [hroom, Array.getElem?_eq_none (by omega), Array.getElem?_eq_none (by omega)]

/-- The master automata differ in the indices of their candidates. -/
theorem master_eq (W : WithExtra name k b b') :
    b'.finish.master = b.finish.master.rename (makeRoom k) b'.names := by
  have hids : b'.masterGraph.ids = b.masterGraph.ids := by
    rw [ids_masterGraph, ids_masterGraph, W.masterGraph.size_eq]
  exact W.masterGraph.determinize_eq (strictMono_makeRoom k) hids b.names b'.names

/-- The names that they report are the same, so they scan alike. -/
theorem automaton_eq (W : WithExtra name k b b') :
    b'.finish.master.automaton = b.finish.master.automaton := by
  rw [W.master_eq]
  refine Dfa.automaton_rename fun i => ?_
  rw [W.getElem?_names]
  exact congrArg (·[i]?) (Graph.tokenNames_determinize _ _).symm

end Builder.WithExtra

/-! ## Putting the declaration in -/

namespace Builder

variable {b b' : Builder} {ds : List Declaration} {calls : List Call} {name : String}

/-- An internal declaration of a new name puts its token behind the others. -/
theorem Represents.withExtra (R : b.Represents ds) (hname : b.byName.lookup name = none)
    {pattern : String} {line : Nat} (h : b.declare name pattern true line = .ok b') :
    WithExtra name b.tokens.size b b' := by
  obtain ⟨r, -, D⟩ := declares_of_declare h
  have htokens := D.tokens
  rw [tokensAfter, hname] at htokens
  refine ⟨Nat.le_refl _, ?_, ?_, fun n hn => ?_, ?_, fun i t ht => ?_⟩
  · rw [htokens, Array.size_push]
  · rw [D.byName, byNameAfter, hname]
    dsimp only
    rw [NameMap.lookup_insert, if_pos rfl]
  · -- the other names lead to places before the new one
    rw [D.lookup_of_ne hn]
    cases hindex : b.byName.lookup n with
    | none => rfl
    | some i =>
      obtain ⟨t, ht, -⟩ := R.inStep.exists_token hindex
      rw [Option.map_some, makeRoom_of_lt (Array.getElem?_eq_some_iff.1 ht).1]
  · rw [htokens, Array.getElem?_push_size]
    exact ⟨_, rfl, rfl⟩
  · -- the tokens before it stay where they are, with their owners
    obtain ⟨hlt, heq⟩ := Array.getElem?_eq_some_iff.1 ht
    obtain ⟨_, -, hspells⟩ := R.token i t ht
    refine ⟨t, ?_, rfl, rfl, ?_, hspells.owned.renamed_self ?_⟩
    · rw [htokens, makeRoom_of_lt hlt, Array.getElem?_push_lt hlt, heq]
    · rw [hspells.index_eq, makeRoom_of_lt hlt]
    · rw [List.forall_mem_singleton]
      exact makeRoom_of_lt hlt

/-- Calls that all succeed lead to the builder that they lead to in any case. -/
theorem foldl_attempt_of_foldlM : ∀ {b : Builder}, calls.foldlM perform b = .ok b' →
    calls.foldl attempt b = b' := by
  induction calls with
  | nil => intro b h; exact Except.ok.inj h
  | cons c rest ih =>
    intro b h
    rw [List.foldlM_cons] at h
    obtain ⟨b₁, hb₁, h⟩ := Regex.exists_of_bind_eq_ok h
    rw [List.foldl_cons, attempt, hb₁]
    exact ih h

/-- Calls that avoid an unknown name leave it unknown. -/
theorem lookup_of_avoids : ∀ {b : Builder}, (∀ c ∈ calls, c.Avoids name) →
    calls.foldlM perform b = .ok b' → b.byName.lookup name = none →
      b'.byName.lookup name = none := by
  induction calls with
  | nil => intro b _ h hname; rwa [← Except.ok.inj h]
  | cons c rest ih =>
    intro b hcalls h hname
    obtain ⟨hc, hrest⟩ := List.forall_mem_cons.1 hcalls
    rw [List.foldlM_cons] at h
    obtain ⟨b₁, hb₁, h⟩ := Regex.exists_of_bind_eq_ok h
    refine ih hrest h ?_
    rcases perform_cases hb₁ with ⟨-, rfl⟩ | ⟨d, line, hd, hdeclare⟩
    · exact hname
    · obtain ⟨r, -, D⟩ := declares_of_declare hdeclare
      rwa [D.lookup_of_ne (hc d hd).1.symm]

end Builder

/-- An internal declaration that is put in among calls that succeed, for a name that none of them
declares or refers to, leaves them all successful and the master automaton as it was. State by state
it stands for the same ids and has the same edges, and it has the same candidates if the indices
behind that of the new token are counted down by one. So it reports the same for all texts. -/
theorem unused_internal_token_invisible {earlier later : List Builder.Call}
    {name pattern : String} {line : Nat} {b₀ b₁ b : Builder}
    (hunused : ∀ c ∈ earlier ++ later, c.Avoids name)
    (hearlier : earlier.foldlM Builder.perform .empty = .ok b₀)
    (hinserted : b₀.declare name pattern true line = .ok b₁)
    (hlater : later.foldlM Builder.perform b₀ = .ok b) :
    ∃ b', (earlier ++ .declare name pattern true line :: later).foldlM Builder.perform .empty =
        .ok b' ∧
      ∃ k, indexOfToken b'.finish.tokens name = some k ∧
        b'.finish.master.size = b.finish.master.size ∧
        (∀ (q : Nat) s s', b.finish.master.states[q]? = some s →
          b'.finish.master.states[q]? = some s' →
            s'.subset = s.subset ∧ s'.edges = s.edges ∧ k ∉ s'.candidates ∧
              s'.candidates.map (fun i => if k ≤ i then i - 1 else i) = s.candidates) ∧
        (∀ text, b'.finish.master.accepts text = b.finish.master.accepts text) ∧
        (∀ text offset, b'.finish.master.automaton.longest? text offset =
          b.finish.master.automaton.longest? text offset) ∧
        (∀ skip text, b'.finish.master.automaton.scan skip text =
          b.finish.master.automaton.scan skip text) ∧
        ∀ text, b'.finish.master.automaton.tokenize text =
          b.finish.master.automaton.tokenize text := by
  rw [List.forall_mem_append] at hunused
  have hafter : Builder.after earlier = b₀ := Builder.foldl_attempt_of_foldlM hearlier
  have hunknown := Builder.lookup_of_avoids hunused.1 hearlier rfl
  -- the two builders are matched from the inserted call on, and stay so
  have W₁ := (hafter ▸ Builder.represents_after earlier).withExtra hunknown hinserted
  obtain ⟨b', hb', W⟩ := W₁.foldlM_perform hunused.2 hlater
  have hrun : (earlier ++ .declare name pattern true line :: later).foldlM Builder.perform .empty =
      .ok b' := by
    rw [List.foldlM_append, hearlier]
    show (Builder.Call.declare name pattern true line :: later).foldlM Builder.perform b₀ = _
    rw [List.foldlM_cons]
    show b₀.declare name pattern true line >>= _ = _
    rw [hinserted]
    exact hb'
  have hplace : indexOfToken b'.finish.tokens name = some b₀.tokens.size := by
    have S : b'.InStep := Builder.foldl_attempt_of_foldlM hrun ▸ Builder.inStep_after _
    rw [← W.lookup_name]
    exact (S.lookup_eq_indexOfToken name).symm
  refine ⟨b', hrun, b₀.tokens.size, hplace, ?_, fun q s s' hs hs' => ?_,
    fun text => ?_, fun text offset => ?_, fun skip text => ?_, fun text => ?_⟩
  · rw [W.master_eq, Dfa.size, Dfa.rename, Array.size_map]
    rfl
  · rw [W.master_eq, Dfa.getElem?_states_rename, hs] at hs'
    obtain rfl := Option.some.inj hs'
    refine ⟨rfl, rfl, ?_, ?_⟩
    · intro hmem
      obtain ⟨i, -, hi⟩ := List.mem_map.1 hmem
      exact makeRoom_ne _ i hi
    · rw [List.map_map]
      -- closing the gap undoes making room for it
      refine (List.map_congr_left fun i _ => ?_).trans (List.map_id' s.candidates)
      show (if _ ≤ makeRoom _ i then makeRoom _ i - 1 else makeRoom _ i) = i
      unfold makeRoom
      split_ifs <;> omega
  · rw [Dfa.accepts_eq_automaton, Dfa.accepts_eq_automaton, W.automaton_eq]
  · rw [W.automaton_eq]
  · rw [W.automaton_eq]
  · rw [W.automaton_eq]

/-- A token that is put in behind the first token, which it refers to and which another one refers
to. -/
theorem unused_internal_token_invisible_between :
    let earlier : List Builder.Call := [.declare "x" "a" false 1]
    let later : List Builder.Call := [.declare "y" "{x}b" false 3, .declare "x" "c" false 4]
    ∃ b b', (earlier ++ later).foldlM Builder.perform .empty = .ok b ∧
      (earlier ++ .declare "u" "{x}+" true 2 :: later).foldlM Builder.perform .empty = .ok b' ∧
      b'.finish.master.size = b.finish.master.size ∧
      ∀ text, b'.finish.master.accepts text = b.finish.master.accepts text := by
  intro earlier later
  have hok : ((earlier ++ later).foldlM Builder.perform .empty).toBool = true ∧
      (earlier.foldlM Builder.perform .empty >>= fun b₀ => b₀.declare "u" "{x}+" true 2).toBool =
        true := by
    constructor <;> rfl
  have hunused : ∀ c ∈ earlier ++ later, c.Avoids "u" := by
    simp only [earlier, later, List.cons_append, List.nil_append, List.forall_mem_cons]
    exact ⟨.declare (by decide) (r := .literal 'a') rfl (by decide) _ _,
      .declare (by decide) (r := .concat [.reference "x", .literal 'b']) rfl (by decide) _ _,
      .declare (by decide) (r := .literal 'c') rfl (by decide) _ _, by simp⟩
  cases hb : (earlier ++ later).foldlM Builder.perform .empty with
  | error e => exact absurd hok.1 (by rw [hb]; simp [Except.toBool])
  | ok b =>
    rw [List.foldlM_append] at hb
    obtain ⟨b₀, hearlier, hlater⟩ := Regex.exists_of_bind_eq_ok hb
    rw [hearlier] at hok
    cases hinserted : b₀.declare "u" "{x}+" true 2 with
    | error e => exact absurd hok.2 (by simp [bind, Except.bind, hinserted, Except.toBool])
    | ok b₁ =>
      obtain ⟨b', hb', k, -, hsize, -, haccepts, -⟩ :=
        unused_internal_token_invisible hunused hearlier hinserted hlater
      exact ⟨b, b', rfl, hb', hsize, haccepts⟩

end MaximalMunch
