import MaximalMunch.Definition.TokenAutomaton
import MaximalMunch.Proofs.Dfa.Subsets
import MaximalMunch.Proofs.Nfa.Labels
import MaximalMunch.Proofs.Nfa.Marks

/-!
# The automaton of one token

A token with a further pattern matches what it matched before and what the pattern matches
(`TokenAutomaton.spells_alternate`), and it still accepts at its exit alone
(`TokenAutomaton.owned_alternate`). On its own a token accepts the words that its graph spells
(`TokenAutomaton.isSome_accepts_toDfa`).
-/

namespace MaximalMunch

open Nfa (Graph)
open Nfa.Graph (Spells Owned Quiet compositional_quiet compositional_unicode)

namespace TokenAutomaton

variable {t : TokenAutomaton} {other : Graph} {L M : Language UInt32} {o : Nat}

/-! ## Further patterns -/

/-- The state at the exit of a graph that accepts there. -/
theorem exists_state_exit {g : Graph} {owners : List Nat} (hg : g.Owned owners)
    (hpos : 0 < g.size) :
    ∃ s, g.states[g.exit]? = some s ∧ s.accepting = true ∧ s.owners = owners := by
  obtain ⟨s, hs, hm⟩ := Option.map_eq_some_iff.1 (hg.marks_exit hpos)
  obtain ⟨haccepting, howners⟩ := Prod.mk.inj hm
  exact ⟨s, hs, haccepting, howners⟩

/-- The new exit takes over the owners of the old ones. -/
theorem graph_alternate (ht : t.graph.Owned [o]) (hother : other.Owned [o])
    (htpos : 0 < t.graph.size) (hopos : 0 < other.size) (next : Nat) :
    (t.alternate other next).graph =
      (Graph.alternatives next (next + 1) [t.graph.demoteExit, other.demoteExit]).acceptAtExit
        [o, o] := by
  obtain ⟨s, hs, hsaccepting, hsowners⟩ := exists_state_exit ht htpos
  obtain ⟨s', hs', -, hsowners'⟩ := exists_state_exit hother hopos
  have hexits : [t.graph, other].filterMap (fun g => g.states[g.exit]?) = [s, s'] := by
    simp only [List.filterMap_cons, hs, hs', List.filterMap_nil]
  rw [alternate, hexits]
  simp only [List.any_cons, hsaccepting, Bool.true_or, if_true, List.flatMap_cons, List.flatMap_nil,
    hsowners, hsowners']
  rfl

/-- The token matches what it matched before and what the other graph matches. -/
theorem spells_alternate (ht : t.graph.Owned [o]) (hother : other.Owned [o])
    (hL : t.graph.Spells L) (hM : other.Spells M) (next : Nat) :
    (t.alternate other next).graph.Spells (L + M) := by
  rw [graph_alternate ht hother hL.size_pos hM.size_pos]
  have h := Spells.alternatives (.cons hL.demoteExit (.cons hM.demoteExit .nil)) next (next + 1)
  rw [List.sum_cons, List.sum_cons, List.sum_nil, add_zero] at h
  exact h.acceptAtExit _

/-- The token accepts at its new exit alone. -/
theorem owned_alternate (ht : t.graph.Owned [o]) (hother : other.Owned [o])
    (htpos : 0 < t.graph.size) (hopos : 0 < other.size) (next : Nat) :
    (t.alternate other next).graph.Owned [o] := by
  rw [graph_alternate ht hother htpos hopos]
  have hquiet : (Graph.alternatives next (next + 1)
      [t.graph.demoteExit, other.demoteExit]).Quiet := by
    refine compositional_quiet.alternatives (fun part hpart => ?_) _ _
    rcases List.mem_cons.1 hpart with rfl | hpart
    · exact ht.demoteExit
    · rw [List.mem_singleton.1 hpart]
      exact hother.demoteExit
  have h := hquiet.acceptAtExit [o, o]
  simpa [Ascending.insert] using h

/-- The transitions of the token consume Unicode code points. -/
theorem unicode_alternate (ht : t.graph.Unicode) (hother : other.Unicode) (next : Nat) :
    (t.alternate other next).graph.Unicode := by
  have hjoined : (Graph.alternatives next (next + 1)
      [t.graph.demoteExit, other.demoteExit]).Unicode := by
    refine compositional_unicode.alternatives (fun part hpart => ?_) _ _
    rcases List.mem_cons.1 hpart with rfl | hpart
    · exact ht.demoteExit
    · rw [List.mem_singleton.1 hpart]
      exact hother.demoteExit
  rw [alternate]
  split
  · exact hjoined.acceptAtExit _
  · exact hjoined

/-! ## The token on its own -/

/-- The token on its own accepts at its exit alone, for index 0. -/
theorem owned_isolated (t : TokenAutomaton) : t.isolated.Owned [0] :=
  (Quiet.clearAcceptance _).acceptAtExit [0]

/-- The token on its own spells its language. -/
theorem spells_isolated (h : t.graph.Spells L) : t.isolated.Spells L :=
  ((h.copy 0).clearAcceptance).acceptAtExit [0]

end TokenAutomaton

/-- The names of the tokens stay what they are. -/
theorem Nfa.Graph.tokenNames_determinize (g : Graph) (names : Array String) :
    (g.determinize names).tokenNames = names := by
  unfold determinize
  split <;> rfl

/-- A text is accepted if it has a run to a state with a winner that has a name. -/
theorem Dfa.accepts_eq (d : Dfa) (text : String) :
    d.accepts text = (d.follow d.start (codePoints text)).bind d.accepting := by
  rw [codePoints, ← run_eq_follow]
  rfl

/-- A state reports the first of its candidates. -/
theorem Dfa.accepting_eq {d : Dfa} {q : Nat} {s : Dfa.State} (hs : d.states[q]? = some s) :
    d.accepting q = s.candidates.head?.bind fun i => d.tokenNames[i]? := by
  rw [accepting, hs]
  rfl

namespace TokenAutomaton

/-- The only candidate of a token on its own is 0, after the words that its graph spells. -/
theorem mem_candidates_isolated {t : TokenAutomaton} {L : Language UInt32} (h : t.graph.Spells L)
    {names : Array String} {w : List UInt32} {q : Nat}
    (hq : (t.isolated.determinize names).follow 0 w = some q) :
    ∃ s, (t.isolated.determinize names).states[q]? = some s ∧
      ∀ c, c ∈ s.candidates ↔ c = 0 ∧ w ∈ L := by
  have hpos := (spells_isolated h).size_pos
  obtain ⟨s, hs, -, hmem⟩ := Graph.mem_candidates_of_follow hpos hq
  refine ⟨s, hs, fun c => ?_⟩
  rw [hmem, ← (spells_isolated h).path_iff]
  constructor
  · rintro ⟨i, owners, p, hmarks, hc⟩
    obtain ⟨rfl, rfl⟩ := (owned_isolated t).eq_exit hmarks
    exact ⟨List.mem_singleton.1 hc, p⟩
  · rintro ⟨rfl, p⟩
    exact ⟨_, [0], p, (owned_isolated t).marks_exit hpos, List.mem_singleton.2 rfl⟩

/-- On its own a token accepts the words that its graph spells. -/
theorem isSome_accepts_toDfa {t : TokenAutomaton} {L : Language UInt32} (h : t.graph.Spells L)
    (text : String) : (t.toDfa.accepts text).isSome = true ↔ codePoints text ∈ L := by
  rw [Dfa.accepts_eq, toDfa]
  show ((Dfa.follow _ 0 _).bind _).isSome = true ↔ _
  cases hfollow : (t.isolated.determinize #[t.name.getD ""]).follow 0 (codePoints text) with
  | none =>
    have hpos := (spells_isolated h).size_pos
    have hpath := Graph.not_path_of_follow hpos hfollow (Graph.exit_lt_size hpos)
    rw [(spells_isolated h).path_iff] at hpath
    exact ⟨fun hsome => absurd hsome (by simp), fun hL => absurd hL hpath⟩
  | some q =>
    obtain ⟨s, hs, hmem⟩ := mem_candidates_isolated h hfollow
    show (Dfa.accepting _ q).isSome = true ↔ _
    rw [Dfa.accepting_eq hs, Graph.tokenNames_determinize]
    cases hhead : s.candidates.head? with
    | none =>
      have hnot : 0 ∉ s.candidates := by simp [List.head?_eq_none_iff.1 hhead]
      exact ⟨fun hsome => absurd hsome (by simp), fun hL => absurd ((hmem 0).2 ⟨rfl, hL⟩) hnot⟩
    | some c =>
      obtain ⟨rfl, hL⟩ := (hmem c).1 (List.mem_of_head? hhead)
      exact ⟨fun _ => hL, fun _ => rfl⟩

end TokenAutomaton

end MaximalMunch
