import MaximalMunch.Dfa.Scanning
import MaximalMunch.Proofs.Definition.Invariant
import MaximalMunch.Proofs.Dfa.Liveness

/-!
# Viable prefixes

After any calls the graphs of the tokens have no dead ends (`Builder.productive_after`), so every
state of the master graph is on a way to the exit of some token
(`Builder.Represents.exists_path_exit`). The master automaton therefore goes on after some code
points as long as they begin a word of a token that is reported, and no longer
(`master_follows_viable_prefixes`).
-/

namespace MaximalMunch

open Nfa (Graph)
open Nfa.Graph (Productive)

/-! ## Tokens without dead ends -/

/-- A token without dead ends that grows by a graph without dead ends has none. -/
theorem TokenAutomaton.productive_alternate {t : TokenAutomaton} {other : Graph}
    (ht : t.graph.Productive) (hother : other.Productive) (next : Nat) :
    (t.alternate other next).graph.Productive := by
  have hparts : ∀ part ∈ [t.graph, other].map Graph.demoteExit, part.Productive := by
    intro part hpart
    obtain ⟨g, hg, rfl⟩ := List.mem_map.1 hpart
    rcases List.mem_cons.1 hg with rfl | hg
    · exact ht.demoteExit
    · exact (List.mem_singleton.1 hg ▸ hother).demoteExit
  have hjoined := Productive.alternatives (by simp) hparts next (next + 1)
  rw [alternate]
  split
  · exact hjoined.acceptAtExit _
  · exact hjoined

namespace Builder

variable {b b' : Builder} {ds : List Declaration}

/-- A declaration keeps the graphs of the tokens without dead ends. -/
theorem productive_of_declare (H : ∀ t ∈ b.tokens, t.graph.Productive) {name pattern : String}
    {internal : Bool} {line : Nat} (h : b.declare name pattern internal line = .ok b') :
    ∀ t ∈ b'.tokens, t.graph.Productive := by
  obtain ⟨r, hparse, D⟩ := declares_of_declare h
  have hfragment : (b.fragmentOf r).Productive := by
    refine Regex.productive_fragment (Regex.wellFormed_of_parse hparse) b.issued fun n hn => ?_
    obtain ⟨t, ht, heq⟩ := exists_mem_of_isSome_resolve (D.resolves n hn)
    exact heq ▸ H t ht
  intro t ht
  rw [D.tokens, tokensAfter] at ht
  split at ht
  · -- the token with the name is the only one that changes
    obtain ⟨i, hi⟩ := Array.getElem?_of_mem ht
    rw [Array.getElem?_modify] at hi
    split at hi
    · obtain ⟨t', ht', rfl⟩ := Option.map_eq_some_iff.1 hi
      exact TokenAutomaton.productive_alternate (H t' (Array.mem_of_getElem? ht'))
        (hfragment.acceptAtExit _) _
    · exact H t (Array.mem_of_getElem? hi)
  · rcases Array.mem_push.1 ht with ht | rfl
    · exact H t ht
    · exact hfragment.acceptAtExit _

/-- After any calls the graphs of the tokens have no dead ends. -/
theorem productive_after (calls : List Call) : ∀ t ∈ (after calls).tokens, t.graph.Productive :=
  after_induction (P := fun b _ => ∀ t ∈ b.tokens, t.graph.Productive)
    (fun t ht => absurd ht (Array.not_mem_empty t)) (fun H h => productive_of_declare H h) calls

/-! ## The master graph -/

/-- Every state of the master graph is its start or one of the copy of a token. -/
theorem eq_zero_or_exists_mem_layout {k : Nat} (hk : k < b.masterGraph.size) :
    k = 0 ∨ ∃ o t i, (o, t) ∈ layout 1 b.emitted ∧ i < t.graph.size ∧ k = o + i := by
  by_cases h0 : k = 0
  · exact Or.inl h0
  · rw [masterGraph_eq, Graph.size_branch, Graph.size_add, Graph.size_empty] at hk
    obtain ⟨o, part, i, hmem, hi, heq⟩ :=
      Graph.exists_placed_of_lt (Nat.pos_of_ne_zero h0) (by simpa using hk)
    obtain ⟨t, ht, rfl⟩ := mem_placed_parts.1 hmem
    exact Or.inr ⟨o, t, i, ht, by simpa using hi, heq⟩

namespace Represents

/-- If tokens are reported, every state of the master graph is on a way to the exit of one. -/
theorem exists_path_exit (R : b.Represents ds) (H : ∀ t ∈ b.tokens, t.graph.Productive)
    (hne : b.emitted ≠ []) {k : Nat} (hk : k < b.masterGraph.size) :
    ∃ w o t, (o, t) ∈ layout 1 b.emitted ∧ b.masterGraph.Path k w (o + t.graph.exit) := by
  have hproductive : ∀ {o t}, (o, t) ∈ layout 1 b.emitted → t.graph.Productive :=
    fun h => H _ (mem_tokens_of_mem_emitted (mem_of_mem_layout h))
  rcases eq_zero_or_exists_mem_layout hk with rfl | ⟨o, t, i, h, hi, rfl⟩
  · -- from the start any token can be entered
    obtain ⟨t, ht⟩ := List.exists_mem_of_ne_nil _ hne
    obtain ⟨o, h⟩ := exists_mem_layout 1 ht
    have P := hproductive h
    obtain ⟨w, p⟩ := P.exists_path 0 P.size_pos
    exact ⟨w, o, t, h, (R.path_masterGraph h (Graph.exit_lt_size P.size_pos)).2 p⟩
  · have P := hproductive h
    obtain ⟨w, p⟩ := P.exists_path i hi
    exact ⟨w, o, t, h, (houses_masterGraph h).path P.inRange p hi⟩

/-- The master graph has a path for some code points if they begin a word of a token that is
reported. -/
theorem exists_path_iff (R : b.Represents ds) (H : ∀ t ∈ b.tokens, t.graph.Productive)
    (hne : b.emitted ≠ []) {u : List UInt32} :
    (∃ k < b.masterGraph.size, b.masterGraph.Path 0 u k) ↔
      ∃ t ∈ b.emitted, ∃ w, t.graph.Path 0 w t.graph.exit ∧ u <+: w := by
  have hexit : ∀ {o t}, (o, t) ∈ layout 1 b.emitted → t.graph.exit < t.graph.size := fun h =>
    Graph.exit_lt_size (H _ (mem_tokens_of_mem_emitted (mem_of_mem_layout h))).size_pos
  constructor
  · rintro ⟨k, hk, p⟩
    obtain ⟨v, o, t, h, q⟩ := R.exists_path_exit H hne hk
    exact ⟨t, mem_of_mem_layout h, u ++ v, (R.path_masterGraph h (hexit h)).1 (p.append q),
      List.prefix_append u v⟩
  · rintro ⟨t, ht, w, p, v, rfl⟩
    obtain ⟨o, h⟩ := exists_mem_layout 1 ht
    obtain ⟨k, p, q⟩ := ((R.path_masterGraph h (hexit h)).2 p).exists_of_append
    have hlast := Graph.lt_size_of_marks (R.accepting_iff.2 ⟨o, t, h, rfl, rfl⟩)
    exact ⟨k, q.lt_size hlast, p⟩

end Represents

/-- The tokens of a finished definition that are not internal are those that are reported. -/
theorem mem_emitted_iff {t : TokenAutomaton} :
    t ∈ b.emitted ↔ t ∈ b.finish.tokens ∧ t.internal = false := by
  show t ∈ b.tokens.toList.filter _ ↔ _
  rw [List.mem_filter, Array.mem_toList_iff, Bool.not_eq_true']
  rfl

end Builder

/-- Let a definition have a token that is not internal. Its master automaton has a state after some
code points if they begin a word that such a token spells, and after no others. From each of its
states some word leads to a state with a candidate. So, while characters have led to a state, the
next one leads on unless no word of such a token begins with all of them. -/
theorem master_follows_viable_prefixes (calls : List Builder.Call) :
    let d := (Builder.after calls).finish
    (∃ t ∈ d.tokens, t.internal = false) →
    (∀ u, (d.master.follow d.master.start u).isSome = true ↔
      ∃ t ∈ d.tokens, t.internal = false ∧ ∃ w, t.graph.Path 0 w t.graph.exit ∧ u <+: w) ∧
    (∀ q < d.master.size, ∃ w q' s, d.master.follow q w = some q' ∧
      d.master.states[q']? = some s ∧ s.candidates ≠ []) ∧
    ∀ before c q, d.master.run d.master.start before = some q →
      (d.master.automaton.next q c = none ↔ ∀ t ∈ d.tokens, t.internal = false →
        ∀ w, t.graph.Path 0 w t.graph.exit → ¬ (before ++ [c]).map Char.val <+: w) := by
  intro d hreported
  have R := Builder.represents_after calls
  have H := Builder.productive_after calls
  have hne : (Builder.after calls).emitted ≠ [] := by
    obtain ⟨t, ht⟩ := hreported
    exact List.ne_nil_of_mem (Builder.mem_emitted_iff.2 ht)
  have hpos := Builder.size_masterGraph_pos (Builder.after calls)
  have hviable : ∀ u, (d.master.follow d.master.start u).isSome = true ↔
      ∃ t ∈ d.tokens, t.internal = false ∧ ∃ w, t.graph.Path 0 w t.graph.exit ∧ u <+: w := by
    intro u
    show ((Graph.determinize _ _).follow 0 u).isSome = true ↔ _
    rw [Graph.isSome_follow_iff hpos R.inRange_masterGraph, R.exists_path_iff H hne]
    simp only [Builder.mem_emitted_iff, and_assoc]
    rfl
  refine ⟨hviable, fun q hq => ?_, fun before c q hq => ?_⟩
  · refine Graph.exists_follow_accepting hpos R.inRange_masterGraph (fun k hk => ?_) hq
    obtain ⟨w, o, t, h, p⟩ := R.exists_path_exit H hne hk
    exact ⟨w, _, [t.index], p, R.accepting_iff.2 ⟨o, t, h, rfl, rfl⟩, List.cons_ne_nil _ _⟩
  · -- the next character leads on if the whole text with it has a run
    have hnext : d.master.automaton.next q c =
        d.master.follow d.master.start ((before ++ [c]).map Char.val) := by
      rw [← Dfa.run_eq_follow, Dfa.run, List.foldlM_append]
      show _ = (d.master.run _ before).bind _
      rw [hq]
      exact (bind_pure (d.master.step q c)).symm
    rw [hnext, ← Option.not_isSome_iff_eq_none, hviable]
    constructor
    · intro hnone t ht hinternal w p hprefix
      exact hnone ⟨t, ht, hinternal, w, p, hprefix⟩
    · rintro hall ⟨t, ht, hinternal, w, p, hprefix⟩
      exact hall t ht hinternal w p hprefix

/-- After the first letter of a word of two letters there is a state, and after that letter twice
there is none. -/
theorem master_follows_viable_prefixes_word :
    let d := (Builder.after [.declare "x" "b" true 1, .declare "y" "a{x}" false 2]).finish
    (∃ t ∈ d.tokens, t.internal = false) ∧ d.master.run d.master.start ['a'] = some 1 ∧
    (∀ t ∈ d.tokens, t.internal = false → ∀ w, t.graph.Path 0 w t.graph.exit →
      ¬ [0x61, 0x61] <+: w) ∧
    ∃ t ∈ d.tokens, t.internal = false ∧ ∃ w, t.graph.Path 0 w t.graph.exit ∧ [0x61] <+: w := by
  intro d
  have hsecond : d.tokens[1]?.map (·.internal) = some false := by rfl
  have hreported : ∃ t ∈ d.tokens, t.internal = false := by
    obtain ⟨t, ht, hinternal⟩ := Option.map_eq_some_iff.1 hsecond
    exact ⟨t, Array.mem_of_getElem? ht, hinternal⟩
  have hrun : d.master.run d.master.start ['a'] = some 1 := by decide +kernel
  have hnext : d.master.automaton.next 1 'a' = none := by decide +kernel
  obtain ⟨hviable, -, hgives⟩ := master_follows_viable_prefixes _ hreported
  refine ⟨hreported, hrun, (hgives ['a'] 'a' 1 hrun).1 hnext, (hviable [0x61]).1 ?_⟩
  exact Option.isSome_of_eq_some ((Dfa.run_eq_follow _ _ _).symm.trans hrun)

end MaximalMunch
