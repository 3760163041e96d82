import MaximalMunch.Proofs.Dfa.Subsets
import MaximalMunch.Proofs.Nfa.Labels

/-!
# Edges of deterministic automata

Every edge that subset construction makes is the arc of a set (`exists_arc_of_mem_edges`). So edges
lead to states, and their spans hold code points that the graph consumes.
-/

namespace MaximalMunch.Nfa.Graph

open MaximalMunch.Span.Tagged (Maps)

variable {g : Graph} {names : Array String} {s : Dfa.State} {e : Dfa.Edge}

/-- An edge of a row belongs to an arc. -/
theorem RowOf.exists_arc {found : Array (List Nat)} {subset : List Nat} {row : List Dfa.Edge}
    (h : g.RowOf found subset row) (he : e ∈ row) :
    ∃ a ∈ g.arcs subset, e.toSpan = a.toSpan ∧ found[e.target]? = some a.tag := by
  rw [RowOf] at h
  generalize g.arcs subset = arcs at h
  induction h with
  | nil => exact absurd he List.not_mem_nil
  | @cons a e' arcs row hae _ ih =>
    rcases List.mem_cons.1 he with rfl | he
    · exact ⟨a, List.mem_cons_self, hae⟩
    · obtain ⟨a', ha', h⟩ := ih he
      exact ⟨a', List.mem_cons_of_mem a ha', h⟩

/-- An edge of the deterministic automaton is an arc of a set and leads to a state. -/
theorem exists_arc_of_mem_edges (hs : s ∈ (g.determinize names).states) (he : e ∈ s.edges) :
    e.target < (g.determinize names).size ∧
      ∃ subset, ∃ a ∈ g.arcs subset, e.toSpan = a.toSpan := by
  rcases Nat.eq_zero_or_pos g.size with hg | hg
  · -- without states there is one state, and it has no edges
    rw [determinize_of_size_eq_zero hg] at hs
    rw [List.mem_singleton.1 (Array.mem_toList_iff.2 hs)] at he
    exact absurd he List.not_mem_nil
  · obtain ⟨sets, D⟩ := exists_determinized hg names
    obtain ⟨q, hq⟩ := Array.getElem?_of_mem hs
    obtain ⟨subset, -, -, -, hrow⟩ := D.exists_set hq
    obtain ⟨a, ha, hspan, htarget⟩ := hrow.exists_arc he
    obtain ⟨hlt, -⟩ := Array.getElem?_eq_some_iff.1 htarget
    exact ⟨D.size_eq ▸ hlt, subset, a, ha, hspan⟩

/-- The span of an edge is not empty, and the graph consumes all of it. -/
theorem exists_edge_of_mem_edges (hs : s ∈ (g.determinize names).states) (he : e ∈ s.edges) :
    e.lo.toNat ≤ e.hi.toNat ∧ ∀ cp, e.contains cp = true →
      ∃ i members j, g.Edge i (.oneOf members) j ∧ members.contains cp = true := by
  obtain ⟨-, subset, a, ha, hspan⟩ := exists_arc_of_mem_edges hs he
  rw [hspan]
  refine ⟨(increasing_arcs subset).proper a ha, fun cp hcp => ?_⟩
  have hmaps : Maps (g.arcs subset) cp a.tag := ⟨a, ha, hcp, rfl⟩
  obtain ⟨t, ht⟩ := List.exists_mem_of_ne_nil _ (maps_arcs.1 hmaps).1
  obtain ⟨i, -, members, edge, hin⟩ := mem_targets.1 ht
  exact ⟨i, members, t, edge, hin⟩

/-- If the graph consumes Unicode code points only, so do the edges. -/
theorem Unicode.hi_le_maxChar (hg : g.Unicode) (hs : s ∈ (g.determinize names).states)
    (he : e ∈ s.edges) : e.hi ≤ maxChar := by
  obtain ⟨hproper, hconsumed⟩ := exists_edge_of_mem_edges hs he
  obtain ⟨i, members, j, edge, hin⟩ :=
    hconsumed e.hi (Span.contains_iff.2 ⟨hproper, Nat.le_refl _⟩)
  exact (hg edge).le_maxChar hin

end MaximalMunch.Nfa.Graph
