import MaximalMunch.Proofs.Definition.Languages

/-!
# The master automaton

The master graph branches into one part for each token that is not internal
(`Builder.masterGraph_eq`), laid out one after the other (`Builder.layout`). A part has the paths of
its token and accepts at its exit, for its token alone (`Builder.Represents.accepting_iff`). So the
candidates after a text are the tokens that match the text on their own (`candidates_master`), and
the first of them is the token that is reported.
-/

namespace MaximalMunch

open Nfa (Graph)
open Nfa.Graph (Spells Owned placed compositional_unicode)

/-- The tokens that are reported for a text, if they match it on their own. -/
def Definition.matching (d : Definition) (text : String) : List TokenAutomaton :=
  d.tokens.toList.filter fun t => !t.internal && (t.toDfa.accepts text).isSome

namespace Builder

/-! ## Parts of the master graph -/

/-- The parts of the master graph for some tokens, with ids from `next` on. -/
def parts (next : Nat) : List TokenAutomaton → List Graph
  | [] => []
  | t :: rest =>
    (t.graph.copy next).acceptAtExit [t.index] :: parts (next + t.graph.size) rest

/-- Joining tokens puts their copies under the start as branches. -/
theorem foldl_joinToken (ts : List TokenAutomaton) : ∀ g : Graph,
    ts.foldl joinToken g = g.branch (parts g.size ts) := by
  induction ts with
  | nil => intro g; rfl
  | cons t rest ih =>
    intro g
    rw [List.foldl_cons, ih, parts, Graph.branch_cons]
    have hsize : (joinToken g t).size = g.size + t.graph.size := by
      rw [joinToken, Graph.size_connectEpsilon, Graph.size_append, Graph.size_acceptAtExit,
        Graph.size_copy]
    rw [hsize]
    rfl

/-- The master graph is a start with a copy of each reported token as a branch. -/
theorem masterGraph_eq (b : Builder) :
    b.masterGraph = (Graph.empty.add { id := 0 }).branch (parts 1 b.emitted) :=
  foldl_joinToken _ _

/-- Some tokens and the indices at which the master graph has their first states, where the first of
them has the index `offset`. -/
def layout (offset : Nat) : List TokenAutomaton → List (Nat × TokenAutomaton)
  | [] => []
  | t :: rest => (offset, t) :: layout (offset + t.graph.size) rest

/-- The parts of the master graph are copies of the tokens with their indices as ids. -/
theorem placed_parts (ts : List TokenAutomaton) : ∀ offset : Nat,
    placed offset (parts offset ts) =
      (layout offset ts).map fun p => (p.1, (p.2.graph.copy p.1).acceptAtExit [p.2.index]) := by
  induction ts with
  | nil => intro offset; rfl
  | cons t rest ih =>
    intro offset
    rw [parts, placed, Graph.size_acceptAtExit, Graph.size_copy, ih, layout, List.map_cons]

/-- The branches stand where the layout says, and each is the copy of a token. -/
theorem mem_placed_parts {ts : List TokenAutomaton} {offset o : Nat} {part : Graph} :
    (o, part) ∈ placed offset (parts offset ts) ↔
      ∃ t, (o, t) ∈ layout offset ts ∧ part = (t.graph.copy o).acceptAtExit [t.index] := by
  rw [placed_parts, List.mem_map]
  constructor
  · rintro ⟨⟨o', t⟩, hmem, heq⟩
    obtain ⟨rfl, rfl⟩ := Prod.mk.inj heq
    exact ⟨t, hmem, rfl⟩
  · rintro ⟨t, hmem, rfl⟩
    exact ⟨(o, t), hmem, rfl⟩

variable {b : Builder} {ds : List Declaration} {o : Nat} {t : TokenAutomaton}

/-- Each token has its place, in their order. -/
theorem map_snd_layout (ts : List TokenAutomaton) : ∀ offset : Nat,
    (layout offset ts).map (·.2) = ts := by
  induction ts with
  | nil => intro offset; rfl
  | cons t rest ih => intro offset; rw [layout, List.map_cons, ih]

/-- The layout has places for the given tokens only. -/
theorem mem_of_mem_layout {ts : List TokenAutomaton} {offset : Nat}
    (h : (o, t) ∈ layout offset ts) : t ∈ ts := by
  rw [← map_snd_layout ts offset]
  exact List.mem_map_of_mem h

/-- The layout has a place for each of the tokens. -/
theorem exists_mem_layout {ts : List TokenAutomaton} (offset : Nat) (h : t ∈ ts) :
    ∃ o, (o, t) ∈ layout offset ts := by
  rw [← map_snd_layout ts offset] at h
  obtain ⟨⟨o, t'⟩, hmem, rfl⟩ := List.mem_map.1 h
  exact ⟨o, hmem⟩

/-- Reported tokens are tokens. -/
theorem mem_tokens_of_mem_emitted (ht : t ∈ b.emitted) : t ∈ b.tokens :=
  Array.mem_toList_iff.1 (List.mem_filter.1 ht).1

/-- The master graph has its start at least. -/
theorem size_masterGraph_pos (b : Builder) : 0 < b.masterGraph.size := by
  rw [masterGraph_eq, Graph.size_branch, Graph.size_add]
  omega

namespace Represents

/-- A token that is reported spells some language. -/
theorem exists_spells (R : b.Represents ds) (ht : t ∈ b.tokens) :
    ∃ name, t.name = some name ∧ t.Spells t.index (languagesOf ds name) := by
  obtain ⟨i, hi⟩ := Array.getElem?_of_mem ht
  obtain ⟨name, hname, h⟩ := R.token i t hi
  exact ⟨name, hname, h.index_eq.symm ▸ h⟩

/-- The token at a place of the master graph. -/
theorem exists_spells_of_mem_layout (R : b.Represents ds) (h : (o, t) ∈ layout 1 b.emitted) :
    ∃ L, t.Spells t.index L := by
  obtain ⟨name, -, hspells⟩ := R.exists_spells (mem_tokens_of_mem_emitted (mem_of_mem_layout h))
  exact ⟨_, hspells⟩

/-- The copies are graphs with states, and their edges are in range. -/
theorem size_pos_and_inRange_of_mem_parts (R : b.Represents ds) :
    ∀ part ∈ parts 1 b.emitted, 0 < part.size ∧ part.InRange := by
  intro part hpart
  obtain ⟨o, hmem⟩ := Graph.exists_mem_placed 1 hpart
  obtain ⟨t, ht, rfl⟩ := mem_placed_parts.1 hmem
  obtain ⟨L, h⟩ := R.exists_spells_of_mem_layout ht
  have hpart := (h.graph.copy o).acceptAtExit [t.index]
  exact ⟨hpart.size_pos, hpart.inRange⟩

/-- The transitions of the master graph consume Unicode code points. -/
theorem unicode_masterGraph (R : b.Represents ds) : b.masterGraph.Unicode := by
  rw [masterGraph_eq]
  refine compositional_unicode.branch (compositional_unicode.add 0 compositional_unicode.empty) ?_
  intro part hpart
  obtain ⟨o, hmem⟩ := Graph.exists_mem_placed 1 hpart
  obtain ⟨t, ht, rfl⟩ := mem_placed_parts.1 hmem
  obtain ⟨L, h⟩ := R.exists_spells_of_mem_layout ht
  exact (h.unicode.copy o).acceptAtExit _

/-- Paths from the start of the master graph into a copy are those of the token. -/
theorem path_masterGraph (R : b.Represents ds) (h : (o, t) ∈ layout 1 b.emitted) {i : Nat}
    (hi : i < t.graph.size) {w : List UInt32} :
    b.masterGraph.Path 0 w (o + i) ↔ t.graph.Path 0 w i := by
  rw [masterGraph_eq, Graph.path_branch R.size_pos_and_inRange_of_mem_parts
    (mem_placed_parts.2 ⟨t, h, rfl⟩) (by simpa using hi)]
  exact Graph.path_congr fun _ => by rw [Graph.transitions_acceptAtExit, Graph.transitions_copy]

/-! ## Accepting states of the master graph -/

/-- The copy of a token has its marks. -/
theorem marks_masterGraph (R : b.Represents ds) (h : (o, t) ∈ layout 1 b.emitted) {i : Nat}
    (hi : i < t.graph.size) : b.masterGraph.marks (o + i) = t.graph.marks i := by
  obtain ⟨L, hspells⟩ := R.exists_spells_of_mem_layout h
  have hmem := mem_placed_parts.2 ⟨t, h, rfl⟩
  rw [masterGraph_eq, Graph.marks_branch (by simpa using hmem) (by simpa using hi),
    (hspells.owned.copy o).marks_acceptAtExit, Graph.marks_copy]

/-- The master graph accepts at the exits of the copies. -/
theorem accepting_iff (R : b.Represents ds) {k : Nat} {owners : List Nat} :
    b.masterGraph.marks k = some (true, owners) ↔
      ∃ o t, (o, t) ∈ layout 1 b.emitted ∧ k = o + t.graph.exit ∧ owners = [t.index] := by
  constructor
  · intro h
    have hlt := Graph.lt_size_of_marks h
    rw [masterGraph_eq, Graph.size_branch, Graph.size_add, Graph.size_empty, Nat.zero_add] at hlt
    by_cases hk : k = 0
    · -- the start does not accept
      rw [hk, masterGraph_eq, Graph.marks_branch_of_lt (by simp), Graph.marks_add, Graph.size_empty,
        if_pos rfl] at h
      exact absurd (Prod.mk.inj (Option.some.inj h)).1 (by simp)
    · obtain ⟨o, part, i, hmem, hi, rfl⟩ := Graph.exists_placed_of_lt (Nat.pos_of_ne_zero hk) hlt
      obtain ⟨t, ht, rfl⟩ := mem_placed_parts.1 hmem
      obtain ⟨L, hspells⟩ := R.exists_spells_of_mem_layout ht
      rw [Graph.size_acceptAtExit, Graph.size_copy] at hi
      rw [R.marks_masterGraph ht hi] at h
      obtain ⟨rfl, rfl⟩ := hspells.owned.eq_exit h
      exact ⟨o, t, ht, rfl, rfl⟩
  · rintro ⟨o, t, ht, rfl, rfl⟩
    obtain ⟨L, hspells⟩ := R.exists_spells_of_mem_layout ht
    rw [R.marks_masterGraph ht (Graph.exit_lt_size hspells.graph.size_pos)]
    exact hspells.owned.marks_exit hspells.graph.size_pos

/-- A text leads to accepting states of those tokens that match it on their own. -/
theorem exists_accepting_iff (R : b.Represents ds) {text : String} {n : Nat} :
    (∃ k owners, b.masterGraph.Path 0 (codePoints text) k ∧
      b.masterGraph.marks k = some (true, owners) ∧ n ∈ owners) ↔
    ∃ t ∈ b.emitted, t.index = n ∧ (t.toDfa.accepts text).isSome = true := by
  have haccepts : ∀ {o t}, (o, t) ∈ layout 1 b.emitted →
      (b.masterGraph.Path 0 (codePoints text) (o + t.graph.exit) ↔
        (t.toDfa.accepts text).isSome = true) := by
    intro o t ht
    obtain ⟨L, h⟩ := R.exists_spells_of_mem_layout ht
    rw [R.path_masterGraph ht (Graph.exit_lt_size h.graph.size_pos), h.graph.path_iff,
      TokenAutomaton.isSome_accepts_toDfa h.graph]
  constructor
  · rintro ⟨k, owners, p, hmarks, hn⟩
    obtain ⟨o, t, ht, rfl, rfl⟩ := R.accepting_iff.1 hmarks
    exact ⟨t, mem_of_mem_layout ht, (List.mem_singleton.1 hn).symm, (haccepts ht).1 p⟩
  · rintro ⟨t, ht, rfl, h⟩
    obtain ⟨o, ho⟩ := exists_mem_layout 1 ht
    exact ⟨o + t.graph.exit, [t.index], (haccepts ho).2 h, R.accepting_iff.2 ⟨o, t, ho, rfl, rfl⟩,
      List.mem_singleton.2 rfl⟩

/-! ## Candidates -/

/-- A token knows its place among all tokens. -/
theorem getElem?_index (R : b.Represents ds) {t : TokenAutomaton} (ht : t ∈ b.tokens) :
    b.tokens[t.index]? = some t := by
  obtain ⟨i, hi⟩ := Array.getElem?_of_mem ht
  obtain ⟨_, -, h⟩ := R.token i t hi
  rw [h.index_eq, hi]

/-- Tokens stand in the order of their indices. -/
theorem pairwise_index (R : b.Represents ds) :
    b.tokens.toList.Pairwise fun s t => s.index < t.index := by
  have hindex : ∀ (i : Nat) (hi : i < b.tokens.toList.length), b.tokens.toList[i].index = i := by
    intro i hi
    obtain ⟨_, -, h⟩ := R.token i _ (Array.getElem?_eq_getElem hi)
    exact h.index_eq
  apply List.pairwise_iff_getElem.2
  intro i j hi hj hij
  rw [hindex i hi, hindex j hj]
  exact hij

/-- The indices of the tokens that match a text are in increasing order. -/
theorem pairwise_matching (R : b.Represents ds) (text : String) :
    ((b.finish.matching text).map (·.index)).Pairwise (· < ·) :=
  List.pairwise_map.2 (R.pairwise_index.filter _)

/-- The tokens that match a text are reported, and they accept it on their own. -/
theorem mem_matching_iff {text : String} {t : TokenAutomaton} :
    t ∈ b.finish.matching text ↔ t ∈ b.emitted ∧ (t.toDfa.accepts text).isSome = true := by
  show t ∈ b.tokens.toList.filter _ ↔ t ∈ b.tokens.toList.filter _ ∧ _
  rw [List.mem_filter, List.mem_filter, Bool.and_eq_true, and_assoc]

/-- The candidates after a text are the tokens that match it. -/
theorem candidates_of_run (R : b.Represents ds) {text : String} {q : Nat}
    (hq : b.finish.master.follow 0 (codePoints text) = some q) :
    ∃ s, b.finish.master.states[q]? = some s ∧
      s.candidates = (b.finish.matching text).map (·.index) := by
  obtain ⟨s, hs, hpairwise, hmem⟩ :=
    Graph.mem_candidates_of_follow (size_masterGraph_pos b) hq
  -- both lists increase, so it is enough that they have the same members
  refine ⟨s, hs, hpairwise.eq_of_mem_iff (R.pairwise_matching text) fun n => ?_⟩
  rw [hmem, R.exists_accepting_iff, List.mem_map]
  simp only [mem_matching_iff]
  constructor
  · rintro ⟨t, ht, hn, haccepts⟩
    exact ⟨t, ⟨ht, haccepts⟩, hn⟩
  · rintro ⟨t, ⟨ht, haccepts⟩, hn⟩
    exact ⟨t, ht, hn, haccepts⟩

/-- Without a run no token matches. -/
theorem matching_of_no_run (R : b.Represents ds) {text : String}
    (h : b.finish.master.follow 0 (codePoints text) = none) : b.finish.matching text = [] := by
  apply List.eq_nil_iff_forall_not_mem.2
  intro t ht
  obtain ⟨hemitted, haccepts⟩ := mem_matching_iff.1 ht
  obtain ⟨k, owners, p, hmarks, -⟩ := R.exists_accepting_iff.2 ⟨t, hemitted, rfl, haccepts⟩
  exact Graph.not_path_of_follow (size_masterGraph_pos b) h (Graph.lt_size_of_marks hmarks) p

/-- The winner among the candidates has the name of the first token that matches. -/
theorem accepts_master (R : b.Represents ds) (text : String) :
    b.finish.master.accepts text = (b.finish.matching text).head?.bind (·.name) := by
  rw [Dfa.accepts_eq]
  show (b.finish.master.follow 0 _).bind _ = _
  cases hq : b.finish.master.follow 0 (codePoints text) with
  | none =>
    -- nothing matches where the master has no run
    rw [R.matching_of_no_run hq]
    rfl
  | some q =>
    obtain ⟨s, hs, hcandidates⟩ := R.candidates_of_run hq
    show Dfa.accepting _ q = _
    rw [Dfa.accepting_eq hs, hcandidates, List.head?_map]
    cases hhead : (b.finish.matching text).head? with
    | none => rfl
    | some t =>
      -- the first candidate is an index, and the token there has the name it is given
      have ht := mem_tokens_of_mem_emitted (mem_matching_iff.1 (List.mem_of_head? hhead)).1
      obtain ⟨name, hname, -⟩ := R.exists_spells ht
      show (b.masterGraph.determinize b.names).tokenNames[t.index]? = t.name
      rw [Graph.tokenNames_determinize, Builder.names, Array.getElem?_map, R.getElem?_index ht,
        hname]
      show some (t.name.getD "") = some name
      rw [hname]
      rfl

/-- An internal token is no candidate anywhere. -/
theorem index_not_mem_candidates (R : b.Represents ds) {t : TokenAutomaton} (ht : t ∈ b.tokens)
    (hinternal : t.internal = true) {s : Dfa.State} (hs : s ∈ b.finish.master.states) :
    t.index ∉ s.candidates := by
  intro hmem
  obtain ⟨q, hq⟩ := Array.getElem?_of_mem hs
  obtain ⟨k, owners, hmarks, howner⟩ :=
    Graph.exists_marks_of_mem_candidates (size_masterGraph_pos b) hq hmem
  obtain ⟨o, t', ho, -, rfl⟩ := R.accepting_iff.1 hmarks
  -- the token that owns the state has the same index, so it is the internal one
  have ht' := mem_of_mem_layout ho
  have hemitted := (List.mem_filter.1 ht').2
  have hindex := R.getElem?_index (mem_tokens_of_mem_emitted ht')
  rw [← List.mem_singleton.1 howner, R.getElem?_index ht] at hindex
  rw [← Option.some.inj hindex, hinternal] at hemitted
  exact absurd hemitted (by simp)

end Represents

end Builder

/-- After any calls the tokens stand in the order in which their names were first declared, and each
knows its place. For any text the state of the master automaton after the text has those tokens as
candidates that are not internal and match the text on their own. If there is no such state, no such
token matches. So the automaton reports the first token that matches, and an internal token is a
candidate in no state at all. -/
theorem candidates_master (calls : List Builder.Call) :
    let d := (Builder.after calls).finish
    d.tokens.toList.map (·.name) =
      ((Builder.empty.declared calls).map (·.name)).eraseDups.map some ∧
    (∀ t ∈ d.tokens, d.tokens[t.index]? = some t) ∧
    (∀ text,
      (match d.master.run d.master.start text.toList with
        | some q => ∃ s, d.master.states[q]? = some s ∧
            s.candidates = (d.matching text).map (·.index) ∧ s.candidates.Pairwise (· < ·)
        | none => d.matching text = []) ∧
      d.master.accepts text = (d.matching text).head?.bind (·.name)) ∧
    ∀ t ∈ d.tokens, t.internal = true → ∀ s ∈ d.master.states, t.index ∉ s.candidates := by
  have R := Builder.represents_after calls
  refine ⟨R.names, fun t ht => R.getElem?_index ht, fun text => ⟨?_, R.accepts_master text⟩,
    fun t ht hinternal s hs => R.index_not_mem_candidates ht hinternal hs⟩
  rw [Dfa.run_eq_follow]
  split
  · rename_i q hq
    obtain ⟨s, hs, hcandidates⟩ := R.candidates_of_run hq
    exact ⟨s, hs, hcandidates, hcandidates ▸ R.pairwise_matching text⟩
  · rename_i hnone
    exact R.matching_of_no_run hnone

/-- With an internal name for digits and a name for numbers, no state reports a digit. -/
theorem candidates_master_number :
    let d := (Builder.after
      [.declare "digit" "[0-9]" true 1, .declare "number" "{digit}+" false 2]).finish
    ∃ t ∈ d.tokens, t.internal = true ∧ t.index = 0 ∧
      ∀ s ∈ d.master.states, t.index ∉ s.candidates := by
  intro d
  have hfirst : d.tokens[0]?.map (fun t => (t.index, t.internal)) = some (0, true) := by
    simp only [d, Builder.after, List.foldl_cons, List.foldl_nil, Builder.attempt, Builder.perform,
      Builder.declare, TokenAutomaton.ofPattern, Regex.compile, Regex.parse_digits]
    rfl
  obtain ⟨t, ht, heq⟩ := Option.map_eq_some_iff.1 hfirst
  obtain ⟨hindex, hinternal⟩ := Prod.mk.inj heq
  have hmem := Array.mem_of_getElem? ht
  exact ⟨t, hmem, hinternal, hindex, (candidates_master _).2.2.2 t hmem hinternal⟩

end MaximalMunch
