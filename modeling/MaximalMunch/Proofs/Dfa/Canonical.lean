import MaximalMunch.Proofs.Dfa.BreadthFirst
import MaximalMunch.Proofs.Nfa.Ids

/-!
# The form of deterministic automata

If the states of a graph have different ids, nothing in its deterministic automaton is left to
choice: the edges of a state are in order and cannot be joined, its subset has every id once, no two
states have the same subset, and the states are numbered in the order of the least words that lead
to them (`canonical_determinize`).
-/

namespace MaximalMunch

/-- A deterministic automaton in canonical form. -/
structure Dfa.Canonical (d : Dfa) : Prop where
  /-- No edge is empty, and every edge leads to a state. -/
  edge : ∀ s ∈ d.states, ∀ e ∈ s.edges, e.lo ≤ e.hi ∧ e.target < d.size
  /-- An edge ends before those behind it begin, and leads elsewhere than one that it touches. -/
  edges : ∀ s ∈ d.states, s.edges.Pairwise fun e f =>
    e.hi < f.lo ∧ (e.hi.toNat + 1 = f.lo.toNat → e.target ≠ f.target)
  subset : ∀ s ∈ d.states, s.subset.Pairwise (· < ·)
  subset_inj : ∀ ⦃i j : Nat⦄ ⦃s t : Dfa.State⦄, d.states[i]? = some s → d.states[j]? = some t →
    s.subset = t.subset → i = j
  /-- Words lead to every state, and one of them is the least. -/
  leastWord : ∀ q < d.size, ∃ w, d.LeastWord q w
  /-- The numbers are in the order of the least words. -/
  shortlex : ∀ ⦃i j u w⦄, i < j → j < d.size → d.LeastWord i u → d.LeastWord j w →
    List.Shortlex (· < ·) u w

namespace Nfa.Graph

variable {g : Graph} {subset subset' : List Nat}

/-! ## Edges -/

/-- Arcs that touch lead to different sets. -/
theorem joined_arcs (g : Graph) (subset : List Nat) : Span.Tagged.Joined (g.arcs subset) :=
  Span.Tagged.joined_joinAll (increasing_filterMap_arcOf? _)

/-- The edges of a row are in order, and those that touch lead to different numbers, as the sets
with these numbers differ. -/
theorem RowOf.pairwise {found : Array (List Nat)} {row : List Dfa.Edge}
    (h : g.RowOf found subset row) :
    row.Pairwise fun e f =>
      e.hi < f.lo ∧ (e.hi.toNat + 1 = f.lo.toNat → e.target ≠ f.target) := by
  obtain ⟨hlength, hrow⟩ := List.forall₂_iff_get.1 h
  have hordered := List.pairwise_iff_getElem.1 (increasing_arcs (g := g) subset).ordered
  have hjoined := List.pairwise_iff_getElem.1 (joined_arcs g subset)
  refine List.pairwise_iff_getElem.2 fun i j hi hj hij => ?_
  obtain ⟨hspan, htarget⟩ := hrow i (hlength ▸ hi) hi
  obtain ⟨hspan', htarget'⟩ := hrow j (hlength ▸ hj) hj
  rw [List.get_eq_getElem, List.get_eq_getElem] at hspan htarget hspan' htarget'
  rw [hspan, hspan', UInt32.lt_iff_toNat_lt]
  refine ⟨hordered i j _ _ hij, fun htouch heq => hjoined i j _ _ hij htouch ?_⟩
  rw [heq] at htarget
  exact Option.some.inj (htarget.symm.trans htarget')

/-! ## Subsets -/

/-- With different ids, an id belongs to one index. -/
theorem eq_of_id_eq (hids : g.ids.Nodup) {i j id : Nat}
    (hi : g.states[i]?.map State.id = some id) (hj : g.states[j]?.map State.id = some id) :
    i = j := by
  rw [← getElem?_ids] at hi hj
  obtain ⟨hlt, -⟩ := List.getElem?_eq_some_iff.1 hi
  exact (List.getElem?_inj hlt hids).1 (hi.trans hj.symm)

/-- With different ids, a set has each of its ids once. -/
theorem pairwise_lt_idsOf (hids : g.ids.Nodup) (hsubset : subset.Nodup) :
    (g.idsOf subset).Pairwise (· < ·) := by
  have hnodup : (g.idsOf subset).Nodup := by
    rw [idsOf, (List.mergeSort_perm _ _).nodup_iff]
    exact hsubset.filterMap fun _ _ _ hi hj => eq_of_id_eq hids hi hj
  exact ((pairwise_idsOf subset).and hnodup).imp fun h => Nat.lt_of_le_of_ne h.1 h.2

/-- With different ids, the ids of a set tell its members. -/
theorem mem_of_idsOf_eq (hids : g.ids.Nodup) (h : g.idsOf subset = g.idsOf subset') {i : Nat}
    (hi : i < g.size) (hmem : i ∈ subset) : i ∈ subset' := by
  have hid : g.states[i]?.map State.id = some g.states[i].id := by
    rw [Array.getElem?_eq_getElem hi]
    rfl
  have hmem' : g.states[i].id ∈ g.idsOf subset := by
    rw [idsOf, List.mem_mergeSort]
    exact List.mem_filterMap.2 ⟨i, hmem, hid⟩
  rw [h, idsOf, List.mem_mergeSort] at hmem'
  obtain ⟨j, hj, hid'⟩ := List.mem_filterMap.1 hmem'
  rw [eq_of_id_eq hids hid hid']
  exact hj

/-- With different ids, closed sets with the same ids are the same. -/
theorem closure_eq_of_idsOf_eq (hids : g.ids.Nodup) {seeds seeds' : List Nat}
    (h : g.idsOf (g.closure seeds) = g.idsOf (g.closure seeds')) :
    g.closure seeds = g.closure seeds' := by
  refine List.Pairwise.eq_of_mem_iff pairwise_closure pairwise_closure fun i => ⟨?_, ?_⟩
  · intro hi
    exact mem_of_idsOf_eq hids h (mem_closure.1 hi).1 hi
  · intro hi
    exact mem_of_idsOf_eq hids h.symm (mem_closure.1 hi).1 hi

/-! ## The automaton -/

/-- A state stands for a closed set, whose ids are its subset and whose arcs are its edges. -/
theorem exists_closure_of_mem_states {names : Array String} {s : Dfa.State}
    (hs : s ∈ (g.determinize names).states) :
    ∃ seeds found, s.subset = g.idsOf (g.closure seeds) ∧
      g.RowOf found (g.closure seeds) s.edges := by
  rcases Nat.eq_zero_or_pos g.size with hg | hg
  · -- the only state of a graph without states stands for the empty set
    rw [determinize_of_size_eq_zero hg] at hs
    have hempty : g.closure [] = [] := by
      apply List.eq_nil_iff_forall_not_mem.2
      intro i hi
      exact absurd (mem_closure.1 hi).1 (by omega)
    rw [List.mem_singleton.1 (Array.mem_toList_iff.2 hs)]
    refine ⟨[], #[], ?_, ?_⟩
    · rw [hempty, idsOf, List.filterMap_nil, List.mergeSort_nil]
    · rw [hempty]
      exact .nil
  · obtain ⟨sets, D⟩ := exists_determinized hg names
    obtain ⟨q, hq⟩ := Array.getElem?_of_mem hs
    obtain ⟨set, hset, hsubset, -, hrow⟩ := D.exists_set hq
    obtain ⟨seeds, rfl⟩ := (D.reached set (Array.mem_of_getElem? hset)).exists_closure
    exact ⟨seeds, sets, hsubset, hrow⟩

/-- With different ids, states with the same subset have the same number. -/
theorem eq_of_subset_eq (hids : g.ids.Nodup) {names : Array String} {i j : Nat} {s t : Dfa.State}
    (hs : (g.determinize names).states[i]? = some s)
    (ht : (g.determinize names).states[j]? = some t) (heq : s.subset = t.subset) : i = j := by
  rcases Nat.eq_zero_or_pos g.size with hg | hg
  · rw [determinize_of_size_eq_zero hg] at hs ht
    have hi : i < 1 := (Array.getElem?_eq_some_iff.1 hs).1
    have hj : j < 1 := (Array.getElem?_eq_some_iff.1 ht).1
    omega
  · obtain ⟨sets, D⟩ := exists_determinized hg names
    obtain ⟨set, hset, hsubset, -⟩ := D.exists_set hs
    obtain ⟨set', hset', hsubset', -⟩ := D.exists_set ht
    obtain ⟨seeds, rfl⟩ := (D.reached set (Array.mem_of_getElem? hset)).exists_closure
    obtain ⟨seeds', rfl⟩ := (D.reached set' (Array.mem_of_getElem? hset')).exists_closure
    rw [hsubset, hsubset'] at heq
    rw [← Array.getElem?_toList] at hset hset'
    obtain ⟨hlt, -⟩ := List.getElem?_eq_some_iff.1 hset
    apply (List.getElem?_inj hlt D.nodup).1
    rw [hset, hset', closure_eq_of_idsOf_eq hids heq]

/-- The deterministic automaton of a graph with different ids is in canonical form. -/
theorem canonical_determinize (hids : g.ids.Nodup) (names : Array String) :
    (g.determinize names).Canonical where
  edge s hs e he := by
    obtain ⟨htarget, -⟩ := exists_arc_of_mem_edges hs he
    obtain ⟨hproper, -⟩ := exists_edge_of_mem_edges hs he
    exact ⟨UInt32.le_iff_toNat_le.2 hproper, htarget⟩
  edges s hs := by
    obtain ⟨seeds, found, -, hrow⟩ := exists_closure_of_mem_states hs
    exact hrow.pairwise
  subset s hs := by
    obtain ⟨seeds, found, hsubset, -⟩ := exists_closure_of_mem_states hs
    rw [hsubset]
    exact pairwise_lt_idsOf hids (pairwise_closure.imp Nat.ne_of_lt)
  subset_inj i j s t hs ht heq := eq_of_subset_eq hids hs ht heq
  leastWord q hq := (breadthFirst_determinize g names).exists_leastWord hq
  shortlex i j u w hij hj hu hw := (breadthFirst_determinize g names).shortlex hj hij hu hw

/-- Two spans that touch lead to different states, and the ids are not in order. -/
theorem canonical_determinize_touching :
    let g : Graph := ⟨#[
      { id := 5, transitions := [⟨.oneOf (.ofSpans [⟨0x61, 0x63⟩]), 1⟩,
        ⟨.oneOf (.ofSpans [⟨0x63, 0x64⟩]), 2⟩] },
      { id := 3, transitions := [⟨.epsilon, 0⟩] },
      { id := 4, accepting := true, owners := [0] }]⟩
    let d := g.determinize #["x"]
    g.ids.Nodup ∧ ∃ u w, d.LeastWord 1 u ∧ d.LeastWord 3 w ∧ List.Shortlex (· < ·) u w := by
  intro g d
  have hids : g.ids.Nodup := by decide
  have hsize : d.size = 4 := by dsimp only [d, g]; decide +kernel
  have hcanonical : d.Canonical := canonical_determinize hids #["x"]
  obtain ⟨u, hu⟩ := hcanonical.leastWord 1 (by omega)
  obtain ⟨w, hw⟩ := hcanonical.leastWord 3 (by omega)
  exact ⟨hids, u, w, hu, hw, hcanonical.shortlex (by omega) (by omega) hu hw⟩

end Nfa.Graph

end MaximalMunch
